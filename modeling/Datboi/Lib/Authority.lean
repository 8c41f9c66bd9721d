import Mathlib.Algebra.GroupWithZero.Nat
import Mathlib.Data.List.TakeWhile

/-!
# Authorities

A host is a registered name or an address literal in brackets; an authority is a host, with a
decimal port behind a colon or without one. The letters of a host are compared without case.
-/

namespace Authority

abbrev Text := List Char

/-! ## Characters -/

def hexDigits : Text := "0123456789abcdefABCDEF".toList

/-- What a name may hold besides escapes. -/
def nameChars : Text :=
  ("0123456789abcdefghijklmnopqrstuvwxyzABCDEFGHIJKLMNOPQRSTUVWXYZ" ++
    "-._~!$&'()*+,;=").toList

/-! ## Hosts -/

/-- A registered name: plain characters and escaped bytes. -/
def isName : Text → Bool
  | [] => true
  | '%' :: high :: low :: rest => high ∈ hexDigits && low ∈ hexDigits && isName rest
  | c :: rest => c ∈ nameChars && isName rest

/-- A decimal byte without leading zeros. -/
def isOctet (text : Text) : Bool :=
  text ≠ [] && text.all Char.isDigit && text.length ≤ 3 && Nat.ofDigitChars 10 text 0 < 256 &&
    (text.length = 1 || text.head? ≠ some '0')

def isIpv4 (text : Text) : Bool :=
  (text.splitOn '.').length = 4 && (text.splitOn '.').all isOctet

/-- Up to four hexadecimal digits. -/
def isGroup (text : Text) : Bool :=
  text ≠ [] && text.all (· ∈ hexDigits) && text.length ≤ 4

/-- How many 16-bit groups these are. The last one may be two in dotted form. -/
def countGroups : List Text → Option Nat
  | [] => some 0
  | [group] => if isGroup group then some 1 else if isIpv4 group then some 2 else none
  | group :: rest => if isGroup group then (countGroups rest).map (· + 1) else none

/-- The text before and after the first two colons in a row. -/
def splitGap : Text → Option (Text × Text)
  | ':' :: ':' :: rest => some ([], rest)
  | c :: rest => (splitGap rest).map fun halves => (c :: halves.1, halves.2)
  | [] => none

/-- The groups between colons; no text has none. -/
def groups (text : Text) : List Text := if text = [] then [] else text.splitOn ':'

/-- Eight groups, or fewer around one gap. -/
def isIpv6 (text : Text) : Bool :=
  text.all (fun c => c ∈ hexDigits || c = ':' || c = '.') &&
    match splitGap text with
    | none => countGroups (groups text) = some 8
    | some (before, after) =>
      (groups before).all isGroup &&
        (countGroups (groups after)).any fun count => (groups before).length + count ≤ 7

/-- A literal of a later version of addresses. -/
def isIpFuture : Text → Bool
  | [] => false
  | v :: rest =>
    (v = 'v' || v = 'V') && rest.takeWhile (· ∈ hexDigits) ≠ [] &&
      match rest.dropWhile (· ∈ hexDigits) with
      | '.' :: address => address ≠ [] && address.all fun c => c ∈ nameChars || c = ':'
      | _ => false

/-- A host as authorities spell it. -/
inductive IsHost : Text → Prop
  | name {text : Text} (hne : text ≠ []) (hname : isName text = true) : IsHost text
  | literal {text : Text} (haddress : isIpv6 text = true ∨ isIpFuture text = true) :
      IsHost ('[' :: text ++ [']'])

/-! ## Ports and authorities -/

/-- Decimal digits of a 16-bit number. -/
structure IsPort (text : Text) (port : Nat) : Prop where
  ne_nil : text ≠ []
  digits : ∀ c ∈ text, c.isDigit = true
  value : Nat.ofDigitChars 10 text 0 = port
  lt : port < 2 ^ 16

/-- The text is an authority of this host and port. -/
inductive IsAuthority : Text → Text → Option Nat → Prop
  | bare {host : Text} (hhost : IsHost host) : IsAuthority host host none
  | withPort {host text : Text} {port : Nat} (hhost : IsHost host) (hport : IsPort text port) :
      IsAuthority (host ++ ':' :: text) host (some port)

/-! ## Letter case -/

variable {d : Char} {text : Text}

section

variable (hupper : d.toNat < 65 ∨ 90 < d.toNat) (hlower : d.toNat < 97 ∨ 122 < d.toNat)

include hupper hlower

theorem toLower_eq_iff {c : Char} : c.toLower = d ↔ c = d := by
  delta Char.toLower
  split
  · rename_i hc
    have hlow : 65 ≤ c.toNat := UInt32.le_iff_toNat_le.mp hc.1
    have hhigh : c.toNat ≤ 90 := UInt32.le_iff_toNat_le.mp hc.2
    constructor
    · intro heq
      have hval := congrArg (fun c : Char => c.val.toNat) heq
      simp only [UInt32.toNat_add] at hval
      change (c.toNat + 32) % 2 ^ 32 = d.toNat at hval
      omega
    · rintro rfl
      omega
  · exact Iff.rfl

/-- Lower case neither adds nor removes a delimiter. -/
theorem count_map_toLower (text : Text) : (text.map Char.toLower).count d = text.count d := by
  induction text with
  | nil => rfl
  | cons c rest ih =>
    simp only [List.map_cons, List.count_cons, ih, beq_iff_eq, toLower_eq_iff hupper hlower]

theorem mem_map_toLower : d ∈ text.map Char.toLower ↔ d ∈ text := by
  rw [← List.count_pos_iff, count_map_toLower hupper hlower, List.count_pos_iff]

end

/-! ## What hosts are made of -/

def delimiters : Text := ":/?#[]@".toList

/-- A visible character that separates nothing. -/
def Plain (c : Char) : Prop := c ∉ delimiters ∧ 32 < c.toNat ∧ c.toNat < 127

instance : DecidablePred Plain := fun _ => inferInstanceAs (Decidable (_ ∧ _))

theorem forall_mem_of_all {P : Char → Prop} [DecidablePred P]
    (hall : text.all (fun c => decide (P c)) = true) : ∀ c ∈ text, P c :=
  fun c hc => of_decide_eq_true (List.all_eq_true.mp hall c hc)

theorem plain_of_mem_nameChars : ∀ c ∈ nameChars, Plain c := forall_mem_of_all (by decide +kernel)

theorem plain_of_mem_hexDigits : ∀ c ∈ hexDigits, Plain c := forall_mem_of_all (by decide +kernel)

theorem plain_of_isDigit {c : Char} (hdigit : c.isDigit = true) : Plain c := by
  obtain ⟨hlow, hhigh⟩ := Char.isDigit_iff_toNat.mp hdigit
  change 48 ≤ c.toNat at hlow
  change c.toNat ≤ 57 at hhigh
  refine ⟨fun hmem => ?_, by omega, by omega⟩
  have hnone : ∀ c ∈ delimiters, ¬ (48 ≤ c.toNat ∧ c.toNat ≤ 57) :=
    forall_mem_of_all (by decide +kernel)
  exact hnone c hmem ⟨hlow, hhigh⟩

theorem plain_of_isName (hname : isName text = true) : ∀ c ∈ text, Plain c := by
  induction text using isName.induct with
  | case1 => simp
  | case2 high low rest ih =>
    simp only [isName, Bool.and_eq_true, decide_eq_true_eq] at hname
    simp only [List.forall_mem_cons]
    exact ⟨by decide, plain_of_mem_hexDigits high hname.1.1, plain_of_mem_hexDigits low hname.1.2,
      ih hname.2⟩
  | case3 c rest hescape ih =>
    rw [isName] at hname
    · simp only [Bool.and_eq_true, decide_eq_true_eq] at hname
      rw [List.forall_mem_cons]
      exact ⟨plain_of_mem_nameChars c hname.1, ih hname.2⟩
    · exact hescape

theorem inner_of_isIpv6 (haddress : isIpv6 text = true) : ∀ c ∈ text, Plain c ∨ c = ':' := by
  have hchars := (Bool.and_eq_true_iff.mp haddress).1
  intro c hc
  have hspec := List.all_eq_true.mp hchars c hc
  simp only [Bool.or_eq_true, decide_eq_true_eq] at hspec
  rcases hspec with (hhex | hcolon) | hdot
  · exact Or.inl (plain_of_mem_hexDigits c hhex)
  · exact Or.inr hcolon
  · rw [hdot]
    exact Or.inl (by decide)

theorem inner_of_isIpFuture (haddress : isIpFuture text = true) :
    ∀ c ∈ text, Plain c ∨ c = ':' := by
  cases text with
  | nil => cases haddress
  | cons v rest =>
    simp only [isIpFuture, Bool.and_eq_true, Bool.or_eq_true, decide_eq_true_eq] at haddress
    obtain ⟨⟨hv, -⟩, hrest⟩ := haddress
    have hversion : ∀ c ∈ rest.takeWhile (· ∈ hexDigits), Plain c := by
      intro c hc
      exact plain_of_mem_hexDigits c (by simpa using List.mem_takeWhile_imp hc)
    have haddress : ∀ c ∈ rest.dropWhile (· ∈ hexDigits), Plain c ∨ c = ':' := by
      split at hrest
      · rename_i address hdrop
        rw [hdrop]
        simp only [Bool.and_eq_true, List.all_eq_true, Bool.or_eq_true,
          decide_eq_true_eq] at hrest
        rw [List.forall_mem_cons]
        refine ⟨Or.inl (by decide), fun c hc => ?_⟩
        exact (hrest.2 c hc).imp (plain_of_mem_nameChars c) id
      · cases hrest
    rw [List.forall_mem_cons, ← List.takeWhile_append_dropWhile (p := (· ∈ hexDigits)) (l := rest)]
    refine ⟨?_, fun c hc => ?_⟩
    · rcases hv with rfl | rfl
      · exact Or.inl (by decide)
      · exact Or.inl (by decide)
    · exact (List.mem_append.mp hc).elim (fun h => Or.inl (hversion c h)) (haddress c)

/-- A host holds no delimiters, unless it is a literal in brackets with colons at most. -/
theorem IsHost.shape {host : Text} (hhost : IsHost host) :
    (host ≠ [] ∧ ∀ c ∈ host, Plain c) ∨
      ∃ inside, host = '[' :: inside ++ [']'] ∧ ∀ c ∈ inside, Plain c ∨ c = ':' := by
  cases hhost with
  | name hne hname => exact Or.inl ⟨hne, plain_of_isName hname⟩
  | @literal text haddress =>
    exact Or.inr ⟨text, rfl, haddress.elim inner_of_isIpv6 inner_of_isIpFuture⟩

/-- The digits that a number is written with are those of a port. -/
theorem isPort_toDigits {port : Nat} (hport : port < 2 ^ 16) :
    IsPort (Nat.toDigits 10 port) port where
  ne_nil := Nat.toDigits_ne_nil
  digits _ hc := Nat.isDigit_of_mem_toDigits (by decide) (by decide) hc
  value := Nat.ofDigitChars_ten_toDigits
  lt := hport

end Authority
