import Mathlib.Algebra.GroupWithZero.Nat
import Mathlib.Data.List.Basic

/-!
# View paths and device constraints

A view expands its template into paths, makes them canonical and fits every component
to the target device: characters the device cannot store are replaced, and a name
over the length cap is rewritten rule by rule before it is cut. Text is a list of
characters; lengths are counted in UTF-8 bytes, as the source counts them. A result of
`none` is a panic: a slice that does not end at a character boundary.
-/

namespace Datboi.Catalog

/-- A Rust string. -/
abbrev Text := List Char

instance : LawfulBEq Text := inferInstance

namespace Text

/-- `str::len`. -/
def utf8Len (text : Text) : Nat := (text.map Char.utf8Size).sum

/-- `str::rsplit_once`. -/
def rsplitOnce (sep : Char) : Text → Option (Text × Text)
  | [] => none
  | c :: rest =>
    match rsplitOnce sep rest with
    | some (before, after) => some (c :: before, after)
    | none => if c = sep then some ([], rest) else none

/-- `str::replace`, for a pattern that is not empty; `skip` counts the characters of a
match that are still to be passed over. -/
def replaceFrom (pattern sub : Text) : Nat → Text → Text
  | _, [] => []
  | skip + 1, _ :: rest => replaceFrom pattern sub skip rest
  | 0, c :: rest =>
    if pattern.isPrefixOf (c :: rest) then sub ++ replaceFrom pattern sub (pattern.length - 1) rest
    else c :: replaceFrom pattern sub 0 rest

def replace (text pattern sub : Text) : Text := replaceFrom pattern sub 0 text

def components (path : Text) : List Text := path.splitOn '/'

def join (parts : List Text) : Text := List.intercalate ['/'] parts

/-- `str::eq_ignore_ascii_case`. -/
def eqIgnoreAsciiCase (a b : Text) : Bool := a.map Char.toLower = b.map Char.toLower

/-- `char::is_whitespace`. -/
def isWhitespace (c : Char) : Bool :=
  let n := c.toNat
  (9 ≤ n ∧ n ≤ 13) ∨ n = 0x20 ∨ n = 0x85 ∨ n = 0xA0 ∨ n = 0x1680 ∨ (0x2000 ≤ n ∧ n ≤ 0x200A) ∨
    n = 0x2028 ∨ n = 0x2029 ∨ n = 0x202F ∨ n = 0x205F ∨ n = 0x3000

/-- `str::trim`. -/
def trim (text : Text) : Text :=
  ((text.dropWhile isWhitespace).reverse.dropWhile isWhitespace).reverse

/-- Drop characters from the end while they satisfy `p`. -/
def trimEnd (p : Char → Bool) (text : Text) : Text := (text.reverse.dropWhile p).reverse

/-- The slice of the first `n` bytes and what follows it; `none` where byte `n` is not
the start of a character. -/
def sliceAt : Text → Nat → Option (Text × Text)
  | text, 0 => some ([], text)
  | [], _ + 1 => none
  | c :: rest, n + 1 =>
    if c.utf8Size ≤ n + 1 then
      (sliceAt rest (n + 1 - c.utf8Size)).map fun (taken, left) => (c :: taken, left)
    else none

end Text

/-- Relative, forward-slash, no empty, `.` or `..` components, no NUL. -/
def pathIsCanonical (path : Text) : Bool :=
  !path.isEmpty && !path.contains '\x00' &&
    path.components.all fun c => !c.isEmpty && c != ['.'] && c != ['.', '.']

/-- One path component: no separators, no NUL, never `.`, `..` or empty. -/
def sanitizeComponent (s : Text) : Text :=
  let cleaned := s.map fun c => if c = '/' ∨ c = '\\' ∨ c = '\x00' then '_' else c
  if cleaned = [] ∨ cleaned = ['.'] ∨ cleaned = ['.', '.'] then ['_'] else cleaned

/-- A claim name: forward slashes are allowed, each component is sanitized. -/
def sanitizeName (s : Text) : Text :=
  let parts := ((Text.components (s.map fun c => if c = '\\' then '/' else c)).filter
    fun c => !c.isEmpty).map sanitizeComponent
  if parts = [] then ['_'] else Text.join parts

/-- The last component of a path. -/
def leafOf (name : Text) : Text := (name.rsplitOnce '/').elim name Prod.snd

/-- `A` to `Z` from a name's first character, `#` for the rest. -/
def alphaBucket (name : Text) : Text :=
  match leafOf name with
  | c :: _ => if c.isAlpha then [c.toUpper] else ['#']
  | [] => ['#']

/-! ## Profiles -/

/-- Room for the collision suffix. -/
def suffixReserve : Nat := 11

inductive Charset where
  | any
  | fat
  deriving DecidableEq, Repr

structure Profile where
  name : String
  charset : Charset
  maxNameLen : Nat
  maxFileSize : Option Nat
  maxDirEntries : Option Nat
  deriving DecidableEq, Repr

/-- The built-in profiles. -/
def profiles : List Profile := [
  ⟨"fat32", .fat, 255, some (4 * 2 ^ 30 - 1), some 65534⟩,
  ⟨"everdrive", .fat, 255, some (4 * 2 ^ 30 - 1), some 1000⟩,
  ⟨"mister", .fat, 255, none, some 10000⟩,
  ⟨"ezflash-omega", .fat, 99, some (4 * 2 ^ 30 - 1), some 512⟩]

/-! ### Fitting a name -/

def regionCodes : List (Text × Text) :=
  [("USA", "U"), ("Europe", "E"), ("Japan", "J"), ("World", "W"), ("France", "F"),
    ("Germany", "G"), ("Spain", "S"), ("Italy", "I"), ("Australia", "A"), ("Korea", "K"),
    ("China", "C"), ("Netherlands", "N"), ("Brazil", "B")].map
      fun (full, code) => (full.toList, code.toList)

/-- Match a literal at the cursor, ignoring ASCII case; the slice it compares may not
end at a character boundary. -/
def takeLiteral (literal rest : Text) : Option (Bool × Text) :=
  if rest.utf8Len < literal.utf8Len then some (false, rest)
  else do
    let (taken, left) ← rest.sliceAt literal.utf8Len
    return if taken.eqIgnoreAsciiCase literal then (true, left) else (false, rest)

/-- Strip a compilation prefix: digits, perhaps ` games`, ` in `, digits, perhaps `!`,
then ` - `. -/
def stripNoisePrefix (name : Text) : Option Text :=
  let rest := name.dropWhile Char.isDigit
  if rest.length = name.length then some name
  else do
    let (_, rest) ← takeLiteral " games".toList rest
    let (isIn, rest) ← takeLiteral " in ".toList rest
    if !isIn then return name
    let after := rest.dropWhile Char.isDigit
    if after.length = rest.length then return name
    let (_, rest) ← takeLiteral "!".toList after
    let (dash, rest) ← takeLiteral " - ".toList rest
    if !dash || rest.isEmpty then return name
    return rest

/-- The single-letter codes of a group's tokens, if every token has one. -/
def regionGroup (inner : Text) : Option (List Text) :=
  (inner.splitOn ',').mapM fun token =>
    (regionCodes.find? fun entry => Text.eqIgnoreAsciiCase entry.1 (Text.trim token)).map Prod.snd

/-- Rewrite each parenthesized group whose tokens all have codes. `open` holds the
group that is being read, if any. -/
def compressRegionTags : Option Text → Text → Text
  | none, [] => []
  | some inner, [] => '(' :: inner
  | none, c :: rest => if c = '(' then compressRegionTags (some []) rest
      else c :: compressRegionTags none rest
  | some inner, c :: rest =>
    if c = ')' then
      match regionGroup inner with
      | some codes => '(' :: List.intercalate [','] codes ++ ')' :: compressRegionTags none rest
      | none => '(' :: inner ++ ')' :: compressRegionTags none rest
    else compressRegionTags (some (inner ++ [c])) rest

/-- A name's stem and extension; ridiculous extensions are just long names. -/
def stemAndExtension (name : Text) : Text × Option Text :=
  match name.rsplitOnce '.' with
  | some (stem, ext) => if !stem.isEmpty && ext.utf8Len ≤ 16 then (stem, some ext) else (name, none)
  | none => (name, none)

def withExtension (stem : Text) : Option Text → Text
  | some ext => stem ++ '.' :: ext
  | none => stem

def stripSuffix (stem suffix : Text) : Text :=
  if suffix.isSuffixOf stem then stem.take (stem.length - suffix.length) else stem

/-- One round of the trimming loop. -/
def trimRound (stem : Text) : Text :=
  let stem := Text.trimEnd (fun c => c = ' ' ∨ c = '.' ∨ c = '-') stem
  stripSuffix (stripSuffix stem "()".toList) "[]".toList

def trimLoop : Nat → Text → Text
  | 0, stem => stem
  | fuel + 1, stem =>
    let next := trimRound stem
    if next.length = stem.length ∨ next = [] then next else trimLoop fuel next

/-- Drop trailing separators and empty groups from the stem. -/
def trimTrailingJunk (name : Text) : Text :=
  let (stem, ext) := stemAndExtension name
  let trimmed := trimLoop stem.length stem
  withExtension (if trimmed = [] then ['_'] else trimmed) ext

/-- Apply the rewrite rules in order until the component fits. -/
def fitComponent (component : Text) (budget : Nat) : Option Text :=
  if component.utf8Len ≤ budget then some component
  else do
    let name ← stripNoisePrefix component
    if name.utf8Len ≤ budget then return name
    let name := compressRegionTags none name
    if name.utf8Len ≤ budget then return name
    return trimTrailingJunk name

/-- The longest run of whole characters within `budget` bytes. -/
def cutAt : Nat → Text → Text
  | _, [] => []
  | budget, c :: rest => if c.utf8Size ≤ budget then c :: cutAt (budget - c.utf8Size) rest else []

/-- Cap a component at a character boundary, keeping its extension. A cut in front of
the first character slices one byte. -/
def capComponent (component : Text) (max : Nat) : Option Text :=
  if component.utf8Len ≤ max then some component
  else
    let (stem, ext) := stemAndExtension component
    let budget := Nat.max (max - (ext.map fun e => e.utf8Len + 1).getD 0) 1
    let cut := cutAt budget stem
    if cut = [] then (stem.sliceAt 1).map fun (first, _) => withExtension first ext
    else some (withExtension cut ext)

namespace Profile

/-- Replace what the charset bans and trim trailing dots and spaces. -/
def clean (profile : Profile) (component : Text) : Text :=
  match profile.charset with
  | .any => component
  | .fat =>
    let replaced := component.map fun c =>
      if c = '"' ∨ c = '*' ∨ c = ':' ∨ c = '<' ∨ c = '>' ∨ c = '?' ∨ c = '\\' ∨ c = '|' then '_'
      else if c.toNat < 0x20 then '_'
      else c
    Text.trimEnd (fun c => c = '.' ∨ c = ' ') replaced

def constrainComponent (profile : Profile) (component : Text) : Option Text := do
  let cleaned := profile.clean component
  let cleaned := if cleaned = [] then ['_'] else cleaned
  let budget := profile.maxNameLen - suffixReserve
  capComponent (← fitComponent cleaned budget) budget

/-- Constrain every component of a canonical path. -/
def constrainPath (profile : Profile) (path : Text) : Option Text :=
  (path.components.mapM profile.constrainComponent).map Text.join

end Profile

/-! ## Splitting at the last separator -/

namespace Text

variable {text : Text} {sep : Char}

/-- A property of a text's characters, checked on the text. -/
theorem forall_of_all {P : Char → Prop} [DecidablePred P] (hall : (text.all fun c => P c) = true) :
    ∀ c ∈ text, P c := by
  intro c hc
  exact of_decide_eq_true (List.all_eq_true.mp hall c hc)

theorem rsplitOnce_eq_none : text.rsplitOnce sep = none ↔ sep ∉ text := by
  induction text with
  | nil => simp [rsplitOnce]
  | cons c rest ih =>
    rw [rsplitOnce]
    cases hrest : rsplitOnce sep rest with
    | some parts =>
      have hmem : sep ∈ rest := by
        by_contra hnot
        rw [ih.mpr hnot] at hrest
        cases hrest
      simp [hmem]
    | none =>
      have hmem := ih.mp hrest
      by_cases hc : c = sep
      · simp [hc]
      · simp [hc, hmem, Ne.symm hc]

theorem exists_last (hmem : sep ∈ text) :
    ∃ before after, text = before ++ sep :: after ∧ sep ∉ after := by
  induction text with
  | nil => cases hmem
  | cons c rest ih =>
    by_cases hrest : sep ∈ rest
    · obtain ⟨before, after, heq, hafter⟩ := ih hrest
      exact ⟨c :: before, after, by rw [heq]; rfl, hafter⟩
    · rcases List.mem_cons.mp hmem with rfl | htail
      · exact ⟨[], rest, rfl, hrest⟩
      · exact absurd htail hrest

theorem rsplitOnce_eq_some {before after : Text} :
    text.rsplitOnce sep = some (before, after) ↔ text = before ++ sep :: after ∧ sep ∉ after := by
  induction text generalizing before with
  | nil => simp [rsplitOnce]
  | cons c rest ih =>
    rw [rsplitOnce]
    cases hrest : rsplitOnce sep rest with
    | some parts =>
      obtain ⟨inner, last⟩ := parts
      simp only [Option.some.injEq, Prod.mk.injEq]
      constructor
      · rintro ⟨rfl, rfl⟩
        obtain ⟨hrest', hlast⟩ := ih.mp hrest
        exact ⟨by rw [hrest']; rfl, hlast⟩
      · rintro ⟨heq, hlast⟩
        cases before with
        | nil =>
          obtain ⟨_, hrest'⟩ := List.cons_eq_cons.mp heq
          have hnone : rsplitOnce sep rest = none := rsplitOnce_eq_none.mpr (hrest' ▸ hlast)
          rw [hnone] at hrest
          cases hrest
        | cons first before =>
          obtain ⟨rfl, hrest'⟩ := List.cons_eq_cons.mp heq
          have hsome := ih.mpr ⟨hrest', hlast⟩
          rw [hrest] at hsome
          cases hsome
          exact ⟨rfl, rfl⟩
    | none =>
      have hnot := rsplitOnce_eq_none.mp hrest
      change (if c = sep then some ([], rest) else none) = some (before, after) ↔ _
      split
      · rename_i hc
        simp only [Option.some.injEq, Prod.mk.injEq]
        constructor
        · rintro ⟨rfl, rfl⟩
          exact ⟨by rw [hc]; rfl, hnot⟩
        · rintro ⟨heq, _⟩
          cases before with
          | nil => exact ⟨rfl, (List.cons_eq_cons.mp heq).2⟩
          | cons first before =>
            have hrest' := (List.cons_eq_cons.mp heq).2
            exact absurd (by rw [hrest']; simp) hnot
      · rename_i hc
        constructor
        · intro hfalse
          cases hfalse
        · rintro ⟨heq, _⟩
          cases before with
          | nil => exact absurd (List.cons_eq_cons.mp heq).1 hc
          | cons first before =>
            have hrest' := (List.cons_eq_cons.mp heq).2
            exact absurd (by rw [hrest']; simp) hnot

end Text

end Datboi.Catalog
