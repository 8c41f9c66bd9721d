import Datboi.Core.CborCanonical

/-!
# Structured objects

The repository's own objects start with a line `datboi/<tag>/<version>` and continue with
canonical CBOR. The version is a bare decimal number without sign or leading zeros, so each
kind and version has one header.
-/

namespace Datboi

open Cbor (textBytes fromUTF8?_eq_some)

inductive ObjectKind where
  | recipe
  | viewSnapshot
  | stateSnapshot
  | aliasBatch
  | analysisBatch
  deriving DecidableEq, Repr

namespace ObjectKind

def tag : ObjectKind → String
  | .recipe => "recipe"
  | .viewSnapshot => "viewsnap"
  | .stateSnapshot => "statesnap"
  | .aliasBatch => "aliases"
  | .analysisBatch => "analysis"

/-- The kind that a tag names. -/
def ofTag (tag : String) : Option ObjectKind :=
  if tag = "recipe" then some .recipe
  else if tag = "viewsnap" then some .viewSnapshot
  else if tag = "statesnap" then some .stateSnapshot
  else if tag = "aliases" then some .aliasBatch
  else if tag = "analysis" then some .analysisBatch
  else none

theorem ofTag_eq_some {text : String} {kind : ObjectKind} :
    ofTag text = some kind ↔ text = kind.tag := by
  constructor
  · intro hkind
    unfold ofTag at hkind
    repeat' split at hkind
    all_goals first | (cases hkind; assumption) | cases hkind
  · rintro rfl
    cases kind <;> decide

end ObjectKind

namespace Object

def splitChars (separator : Char) : List Char → Option (List Char × List Char)
  | [] => none
  | char :: rest =>
    if char = separator then some ([], rest)
    else (splitChars separator rest).map fun (before, after) => (char :: before, after)

/-- The text before and after the first occurrence of a character. -/
def splitOnce (separator : Char) (text : String) : Option (String × String) :=
  (splitChars separator text.toList).map fun (before, after) =>
    (String.ofList before, String.ofList after)

/-- The value of a decimal digit string, if it fits 32 bits. -/
def parseU32 (digits : String) : Option Nat :=
  let n := digits.toList.foldl (fun n digit => n * 10 + (digit.toNat - '0'.toNat)) 0
  if n < 2 ^ 32 then some n else none

/-- A version other than a bare decimal number is refused. -/
def parseVersion (version : String) : Option Nat :=
  if version = "" ∨ (1 < version.toList.length ∧ version.toList.head? = some '0') ∨
      ¬ version.toList.all Char.isDigit then none
  else parseU32 version

def magic : Bytes := textBytes "datboi/"

def stripMagic (bytes : Bytes) : Option Bytes :=
  if magic.isPrefixOf bytes then some (bytes.drop magic.length) else none

/-- Parse a header; returns the kind, the version and where the body begins. -/
def sniff (bytes : Bytes) : Option (ObjectKind × Nat × Nat) := do
  let rest ← stripMagic bytes
  let newline ← rest.findIdx? (· = 10)
  let line ← String.fromUTF8? ⟨(rest.take newline).toArray⟩
  let (tag, version) ← splitOnce '/' line
  let kind ← ObjectKind.ofTag tag
  let version ← parseVersion version
  some (kind, version, magic.length + newline + 1)

/-- The header line of a kind and a one-digit version, without the magic and the newline. -/
def line (kind : ObjectKind) (version : Nat) : String :=
  kind.tag ++ "/" ++ String.singleton (Nat.digitChar version)

def header (kind : ObjectKind) (version : Nat) : Bytes :=
  magic ++ (textBytes (line kind version) ++ [10])

/-! ## One header for each kind and version -/

theorem splitChars_eq_some {separator : Char} {text before after : List Char}
    (hsplit : splitChars separator text = some (before, after)) :
    text = before ++ separator :: after := by
  induction text generalizing before with
  | nil => cases hsplit
  | cons char rest ih =>
    rw [splitChars] at hsplit
    split at hsplit
    · rename_i heq
      cases hsplit
      rw [heq]
      rfl
    · obtain ⟨⟨before, after⟩, hrest, heq⟩ := Option.map_eq_some_iff.mp hsplit
      cases heq
      rw [ih hrest]
      rfl

theorem splitOnce_eq_some {separator : Char} {text before after : String}
    (hsplit : splitOnce separator text = some (before, after)) :
    text = before ++ String.singleton separator ++ after := by
  obtain ⟨⟨first, last⟩, hchars, heq⟩ := Option.map_eq_some_iff.mp hsplit
  cases heq
  rw [← String.toList_inj, splitChars_eq_some hchars]
  simp

theorem le_foldl_digits (digits : List Char) (start : Nat) :
    start ≤ digits.foldl (fun n digit => n * 10 + (digit.toNat - '0'.toNat)) start := by
  induction digits generalizing start with
  | nil => exact le_rfl
  | cons digit rest ih =>
    rw [List.foldl_cons]
    have := ih (start * 10 + (digit.toNat - '0'.toNat))
    omega

/-- A one-digit version has one spelling: without leading zeros, a second digit makes the
number at least ten. -/
theorem parseVersion_eq_some {text : String} {version : Nat} (hversion : version < 10)
    (hparse : parseVersion text = some version) :
    text = String.singleton (Nat.digitChar version) := by
  unfold parseVersion at hparse
  split at hparse
  · cases hparse
  rename_i hform
  push Not at hform
  obtain ⟨hempty, hzero, hdigits⟩ := hform
  have hvalue : text.toList.foldl (fun n digit => n * 10 + (digit.toNat - '0'.toNat)) 0 =
      version := by
    simp only [parseU32] at hparse
    split at hparse
    · exact Option.some.inj hparse
    · cases hparse
  rw [← String.toList_inj, String.toList_singleton]
  cases hchars : text.toList with
  | nil => exact absurd (String.toList_eq_nil_iff.mp hchars) hempty
  | cons digit rest =>
    rw [hchars, List.foldl_cons] at hvalue
    rw [hchars, List.all_cons, Bool.and_eq_true, Char.isDigit_iff_toNat] at hdigits
    have hdigit := hdigits.1
    simp only [Char.reduceToNat] at hdigit hvalue
    cases rest with
    | nil =>
      rw [List.foldl_nil] at hvalue
      congr 1
      rw [← Char.toNat_inj, Nat.toNat_digitChar_of_lt_ten hversion]
      omega
    | cons second rest =>
      have hnonzero : digit ≠ '0' := by
        rintro rfl
        exact hzero (by simp [hchars]) (by simp [hchars])
      have hlarge : digit.toNat ≠ 48 := fun heq => hnonzero (Char.toNat_inj.mp heq)
      have hle := le_foldl_digits rest
        ((0 * 10 + (digit.toNat - 48)) * 10 + (second.toNat - 48))
      simp only [Char.reduceToNat] at hle
      rw [List.foldl_cons] at hvalue
      omega

theorem parse_line (kind : ObjectKind) {version : Nat} (hversion : version < 10) :
    10 ∉ textBytes (line kind version) ∧
      splitOnce '/' (line kind version) =
        some (kind.tag, String.singleton (Nat.digitChar version)) ∧
      parseVersion (String.singleton (Nat.digitChar version)) = some version := by
  have hall : ∀ v < 10, 10 ∉ textBytes (line kind v) ∧
      splitOnce '/' (line kind v) = some (kind.tag, String.singleton (Nat.digitChar v)) ∧
      parseVersion (String.singleton (Nat.digitChar v)) = some v := by
    cases kind <;> decide +kernel
  exact hall version hversion

theorem findIdx?_newline {rest : Bytes} {newline : Nat}
    (hfound : rest.findIdx? (· = 10) = some newline) :
    newline < rest.length ∧ rest = rest.take newline ++ 10 :: rest.drop (newline + 1) := by
  obtain ⟨hlt, hbyte, _⟩ := List.findIdx?_eq_some_iff_getElem.mp hfound
  rw [decide_eq_true_eq] at hbyte
  refine ⟨hlt, ?_⟩
  rw [← hbyte, ← List.drop_eq_getElem_cons hlt, List.take_append_drop]

/-- A header is recognised exactly in its one spelling. -/
theorem sniff_eq_some {bytes : Bytes} {kind : ObjectKind} {version start : Nat}
    (hversion : version < 10) :
    sniff bytes = some (kind, version, start) ↔
      start = (header kind version).length ∧ ∃ body, bytes = header kind version ++ body := by
  unfold sniff
  simp only [Option.bind_eq_bind, Option.bind_eq_some_iff]
  constructor
  · rintro ⟨rest, hmagic, newline, hnewline, text, htext, ⟨tag, versionText⟩, hsplit, found, htag,
      parsed, hparse, heq⟩
    cases heq
    unfold stripMagic at hmagic
    split at hmagic
    · rename_i hstart
      cases hmagic
      obtain ⟨tail, rfl⟩ := List.isPrefixOf_iff_prefix.mp hstart
      rw [List.drop_left] at hnewline htext
      obtain ⟨hlt, hrest⟩ := findIdx?_newline hnewline
      rw [fromUTF8?_eq_some] at htext
      have hlength : (textBytes text).length = newline := by
        rw [← htext]
        exact List.length_take_of_le hlt.le
      have hline : text = line kind version := by
        have htag : tag = kind.tag := ObjectKind.ofTag_eq_some.mp htag
        have hparse : versionText = _ := parseVersion_eq_some hversion hparse
        rw [splitOnce_eq_some hsplit, htag, hparse]
        rfl
      subst hline
      refine ⟨?_, tail.drop (newline + 1), ?_⟩
      · simp only [header, List.length_append, hlength, List.length_singleton]
        omega
      · rw [header, List.append_assoc, List.append_assoc, ← htext]
        exact congrArg (magic ++ ·) hrest
    · cases hmagic
  · rintro ⟨rfl, body, rfl⟩
    obtain ⟨hno, hsplit, hparse⟩ := parse_line kind hversion
    have hfind : (textBytes (line kind version) ++ 10 :: body).findIdx? (· = 10) =
        some (textBytes (line kind version)).length := by
      have hnone : (textBytes (line kind version)).findIdx? (· = 10) = none := by
        rw [List.findIdx?_eq_none_iff]
        intro b hb
        rw [decide_eq_false_iff_not]
        rintro rfl
        exact hno hb
      rw [List.findIdx?_append, hnone, List.findIdx?_cons]
      simp
    refine ⟨textBytes (line kind version) ++ 10 :: body, ?_, _, hfind, line kind version, ?_,
      (kind.tag, _), hsplit, kind, ObjectKind.ofTag_eq_some.mpr rfl, version, hparse, ?_⟩
    · rw [stripMagic, header, List.append_assoc, List.append_assoc,
        if_pos (List.isPrefixOf_iff_prefix.mpr (List.prefix_append _ _)), List.drop_left]
      rfl
    · rw [List.take_left]
      exact fromUTF8?_eq_some.mpr rfl
    · simp only [header, List.length_append, List.length_singleton, Nat.add_assoc]

end Object

end Datboi
