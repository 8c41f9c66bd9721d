import Datboi.Formats.Skipper
import Datboi.Lib.Outcome

/-!
# Detector documents

A detector is read from the events of an XML reader. Unknown attributes are ignored and unknown
elements are errors. Hexadecimal attributes are cut at byte offsets and handed to a parser of
numbers that takes a leading plus sign: a cut within a character panics, and a sign is taken for
a digit.
-/

namespace Datboi.Skipper

open Catalog (Text)

/-- Errors of the XML reader are carried by their texts. -/
inductive SkipperError where
  | xml (message : String)
  | attr (message : String)
  | encoding (message : String)
  | missingName
  | noRules
  | unknownElement (name : Text)
  | invalidAttr (attr : String) (value : Text)
  | missingAttr (element attr : String)
  | maskLength
  deriving DecidableEq, Repr

abbrev Parse := Outcome SkipperError

/-! ## Numbers -/

def hexDigit (c : Char) : Option Nat :=
  if '0' ≤ c ∧ c ≤ '9' then some (c.toNat - 48)
  else if 'a' ≤ c ∧ c ≤ 'f' then some (c.toNat - 87)
  else if 'A' ≤ c ∧ c ≤ 'F' then some (c.toNat - 55)
  else none

def ofDigits (digits : List Nat) : Nat := digits.foldl (fun n digit => n * 16 + digit) 0

/-- `from_str_radix` with radix 16, for unsigned numbers of a width: a plus sign may come first. -/
def fromStrRadix16 (width : Nat) (raw : Text) : Option Nat :=
  let digits := match raw with
    | '+' :: rest => rest
    | _ => raw
  if digits = [] then none
  else
    match digits.mapM hexDigit with
    | some values => if ofDigits values < 2 ^ width then some (ofDigits values) else none
    | none => none

def parseHexU64 (attr : String) (raw : Text) : Parse Nat :=
  match fromStrRadix16 64 raw with
  | some v => .ok v
  | none => .error (.invalidAttr attr raw)

def parseOffset (attr : String) (raw : Text) : Parse Offset :=
  if raw.eqIgnoreAsciiCase "EOF".toList then .ok .eof
  else
    match raw with
    | '-' :: neg => do
        let v ← parseHexU64 attr neg
        pure (.fromEnd v)
    | _ => do
        let v ← parseHexU64 attr raw
        pure (.fromStart v)

/-- The bytes of the remaining groups of two bytes of text. -/
def hexGroups (attr : String) (raw : Text) : Nat → Text → Parse Bytes
  | 0, _ => .ok []
  | groups + 1, rest =>
    match Text.sliceAt rest 2 with
    | none => .panic
    | some (group, rest) =>
      match fromStrRadix16 8 group with
      | none => .error (.invalidAttr attr raw)
      | some b => do
          let bytes ← hexGroups attr raw groups rest
          pure (UInt8.ofNat b :: bytes)

def parseHexBytes (attr : String) (raw : Text) : Parse Bytes :=
  if raw.utf8Len % 2 ≠ 0 then .error (.invalidAttr attr raw)
  else hexGroups attr raw (raw.utf8Len / 2) raw

/-! ## Events -/

/-- A value is decoded and unescaped when it is asked for. -/
structure Attribute where
  key : String
  value : Except String Text

structure Tag where
  name : String
  attributes : List (Except String Attribute)

inductive Event where
  | start (tag : Tag)
  | empty (tag : Tag)
  | text (content : Except String Text)
  | stop (name : String)
  | comment
  | eof
  | other

def Event.isEof : Event → Bool
  | .eof => true
  | _ => false

/-- The XML reader: its state over a document, and the bytes that it has still to read. -/
structure XmlReader where
  State : Type
  fromReader : Bytes → State
  readEvent : State → Except String (Event × State)
  left : State → Nat

/-- Every event but the last takes up bytes of the document. -/
def XmlReader.Advances (reader : XmlReader) : Prop :=
  ∀ s e s', reader.readEvent s = .ok (e, s') →
    reader.left s' ≤ reader.left s ∧ (reader.left s' < reader.left s ∨ e.isEof = true)

/-! ## Rules -/

/-- The next attribute and its value. -/
def attrValue (attr : Except String Attribute) : Parse (String × Text) :=
  match attr with
  | .error message => .error (.attr message)
  | .ok attr =>
    match attr.value with
    | .error message => .error (.xml message)
    | .ok value => .ok (attr.key, value)

def parseOperation (value : Text) : Parse Operation :=
  if value = "none".toList then .ok .none
  else if value = "bitswap".toList then .ok .bitSwap
  else if value = "byteswap".toList then .ok .byteSwap
  else if value = "wordswap".toList then .ok .wordSwap
  else if value = "wordbyteswap".toList then .ok .wordByteSwap
  else .error (.invalidAttr "operation" value)

def setRuleAttr (rule : Rule) (attr : Except String Attribute) : Parse Rule := do
  let (key, value) ← attrValue attr
  if key = "start_offset" then do
    let start ← parseOffset "start_offset" value
    pure { rule with start }
  else if key = "end_offset" then do
    let stop ← parseOffset "end_offset" value
    pure { rule with stop }
  else if key = "operation" then do
    let operation ← parseOperation value
    pure { rule with operation }
  else pure rule

/-- The attributes of a test, before it is known which ones it needs. -/
structure TestAttrs where
  offset : Offset := .fromStart 0
  value : Option Bytes := none
  mask : Option Bytes := none
  size : Option SizeTest := none
  operator : SizeOp := .equal
  expect : Bool := true

def parseSize (raw : Text) : Parse SizeTest :=
  if raw.eqIgnoreAsciiCase "PO2".toList then .ok .powerOfTwo
  else do
    let size ← parseHexU64 "size" raw
    pure (.exact size)

def parseOperator (raw : Text) : Parse SizeOp :=
  if raw = "equal".toList then .ok .equal
  else if raw = "less".toList then .ok .less
  else if raw = "greater".toList then .ok .greater
  else .error (.invalidAttr "operator" raw)

def parseResult (raw : Text) : Parse Bool :=
  if raw = "true".toList then .ok true
  else if raw = "false".toList then .ok false
  else .error (.invalidAttr "result" raw)

def setTestAttr (attrs : TestAttrs) (attr : Except String Attribute) : Parse TestAttrs := do
  let (key, raw) ← attrValue attr
  if key = "offset" then do
    let offset ← parseOffset "offset" raw
    pure { attrs with offset }
  else if key = "value" then do
    let value ← parseHexBytes "value" raw
    pure { attrs with value := some value }
  else if key = "mask" then do
    let mask ← parseHexBytes "mask" raw
    pure { attrs with mask := some mask }
  else if key = "size" then do
    let size ← parseSize raw
    pure { attrs with size := some size }
  else if key = "operator" then do
    let operator ← parseOperator raw
    pure { attrs with operator }
  else if key = "result" then do
    let expect ← parseResult raw
    pure { attrs with expect }
  else pure attrs

/-- The elements that are tests. -/
inductive Element where
  | data
  | bool (op : BoolOp)
  | file

def element : String → Option Element
  | "data" => some .data
  | "and" => some (.bool .and)
  | "or" => some (.bool .or)
  | "xor" => some (.bool .xor)
  | "file" => some .file
  | _ => none

/-- An attribute that a test cannot do without. -/
def require {α : Type} (x : Option α) (element attr : String) : Parse α :=
  match x with
  | some a => .ok a
  | none => .error (.missingAttr element attr)

def finishTest : Element → TestAttrs → Parse Test
  | .file, attrs => do
      let size ← require attrs.size "file" "size"
      pure (.file size attrs.operator attrs.expect)
  | .data, attrs => do
      let value ← require attrs.value "data" "value"
      if value = [] then .error (.invalidAttr "value" [])
      else pure (.data attrs.offset value attrs.expect)
  | .bool op, attrs => do
      let value ← require attrs.value "boolean test" "value"
      let mask ← require attrs.mask "boolean test" "mask"
      if mask.length ≠ value.length then .error .maskLength
      else pure (.bool op attrs.offset mask value attrs.expect)

def parseTest (tag : Tag) : Parse Test :=
  match element tag.name with
  | none => .error (.unknownElement tag.name.toList)
  | some el => do
      let attrs ← tag.attributes.foldlM setTestAttr {}
      finishTest el attrs

section Documents

variable (reader : XmlReader)

def nextEvent (s : reader.State) : Parse (Event × reader.State) :=
  match reader.readEvent s with
  | .ok out => .ok out
  | .error message => .error (.xml message)

/-- The tests of a rule up to its end; no rounds left is a panic. -/
def readTests : Nat → List Test → reader.State → Parse (List Test × reader.State)
  | 0, _, _ => .panic
  | rounds + 1, tests, s => do
      let (e, s) ← nextEvent reader s
      match e with
      | .empty tag | .start tag => do
          let test ← parseTest tag
          readTests rounds (tests ++ [test]) s
      | .stop name => if name = "rule" then .ok (tests, s) else readTests rounds tests s
      | .eof => .ok (tests, s)
      | _ => readTests rounds tests s

def parseRule (tag : Tag) (isEmpty : Bool) (s : reader.State) : Parse (Rule × reader.State) := do
  let rule ← tag.attributes.foldlM setRuleAttr
    { start := .fromStart 0, stop := .eof, operation := .none, tests := [] }
  if isEmpty then pure (rule, s)
  else do
    let (tests, s) ← readTests reader (reader.left s + 1) [] s
    pure ({ rule with tests }, s)

/-- The field that the next text goes to. -/
inductive TextTarget where
  | name
  | author
  | version

/-- What is known of the detector so far. -/
structure Draft where
  name : Option Text := none
  author : Option Text := none
  version : Option Text := none
  rules : List Rule := []
  target : Option TextTarget := none

def Draft.setText (draft : Draft) (content : Except String Text) : Parse Draft :=
  match draft.target, content with
  | none, _ => .ok draft
  | some _, .error message => .error (.encoding message)
  | some .name, .ok text => .ok { draft with name := some text, target := none }
  | some .author, .ok text => .ok { draft with author := some text, target := none }
  | some .version, .ok text => .ok { draft with version := some text, target := none }

/-- The rest of the document; no rounds left is a panic. -/
def readDetector : Nat → Draft → reader.State → Parse Draft
  | 0, _, _ => .panic
  | rounds + 1, draft, s => do
      let (e, s) ← nextEvent reader s
      match e with
      | .start tag =>
        if tag.name = "detector" then readDetector rounds draft s
        else if tag.name = "name" then
          readDetector rounds { draft with target := some .name } s
        else if tag.name = "author" then
          readDetector rounds { draft with target := some .author } s
        else if tag.name = "version" then
          readDetector rounds { draft with target := some .version } s
        else if tag.name = "rule" then do
          let (rule, s) ← parseRule reader tag false s
          readDetector rounds { draft with rules := draft.rules ++ [rule] } s
        else .error (.unknownElement tag.name.toList)
      | .empty tag =>
        if tag.name = "rule" then do
          let (rule, s) ← parseRule reader tag true s
          readDetector rounds { draft with rules := draft.rules ++ [rule] } s
        else if tag.name = "name" ∨ tag.name = "author" ∨ tag.name = "version" then
          readDetector rounds draft s
        else .error (.unknownElement tag.name.toList)
      | .text content => do
          let draft ← draft.setText content
          readDetector rounds draft s
      | .stop _ => readDetector rounds { draft with target := none } s
      | .eof => .ok draft
      | _ => readDetector rounds draft s

def parse (xml : Bytes) : Parse Detector := do
  let s := reader.fromReader xml
  let draft ← readDetector reader (reader.left s + 1) {} s
  match draft.name with
  | none => .error .missingName
  | some name =>
    if draft.rules = [] then .error .noRules
    else pure { name, author := draft.author, version := draft.version, rules := draft.rules }

end Documents

/-! ## Hexadecimal values -/

/-- The bytes that pairs of digits denote. -/
def denoted : Text → Option Bytes
  | [] => some []
  | [_] => none
  | c :: d :: rest => do
      let x ← hexDigit c
      let y ← hexDigit d
      let bytes ← denoted rest
      pure (UInt8.ofNat (x * 16 + y) :: bytes)

/-- Where reading groups of two bytes of text ends. -/
inductive Stop where
  | ended
  | rejected
  | cut
  deriving DecidableEq, Repr

/-- Groups of two digits, or of a plus sign and a digit, are passed over. The flag says whether
there was a sign. -/
def scan : Text → Stop × Bool
  | [] => (.ended, false)
  | [c] => if c.utf8Size = 2 then (.rejected, false) else (.cut, false)
  | c :: d :: rest =>
    if c.utf8Size = 2 then (.rejected, false)
    else if c.utf8Size = 1 ∧ d.utf8Size = 1 then
      if (hexDigit c).isSome ∧ (hexDigit d).isSome then scan rest
      else if c = '+' ∧ (hexDigit d).isSome then ((scan rest).1, true)
      else (.rejected, false)
    else (.cut, false)

/-- The text has an odd length, or the groups end at a group that is rejected whole, or they end
with the text and have no sign. -/
def HexRegular (raw : Text) : Prop :=
  raw.utf8Len % 2 ≠ 0 ∨ (scan raw).1 = .rejected ∨ scan raw = (.ended, false)

/-- A value is accepted exactly if it is pairs of digits, as the bytes that they denote. -/
def HexExact (attr : String) (raw : Text) : Prop :=
  parseHexBytes attr raw ≠ .panic ∧
    ∀ bytes, parseHexBytes attr raw = .ok bytes ↔ denoted raw = some bytes

section Hex

variable {attr : String} {raw rest : Text} {c d : Char} {x y : Nat} {bytes : Bytes}

theorem hexDigit_some (hdigit : hexDigit c = some x) : x < 16 ∧ c.utf8Size = 1 ∧ c ≠ '+' := by
  have hrange : ∀ lo hi : Char, lo.toNat ≤ hi.toNat → hi.toNat < 128 → lo ≤ c ∧ c ≤ hi →
      lo.toNat ≤ c.toNat ∧ c.toNat ≤ hi.toNat ∧ c.utf8Size = 1 := by
    intro lo hi _ hascii hc
    have hle : c.toNat ≤ hi.toNat := hc.2
    refine ⟨hc.1, hle, ?_⟩
    have hval : c.val ≤ 127 := by
      have hnat : c.val.toNat ≤ 127 := by
        have hsame : c.val.toNat = c.toNat := rfl
        omega
      exact hnat
    exact if_pos hval
  unfold hexDigit at hdigit
  split at hdigit
  · rename_i hc
    obtain ⟨hlo, hhi, hsize⟩ := hrange '0' '9' (by decide) (by decide) hc
    have h9 : c.toNat ≤ 57 := hhi
    obtain rfl := Option.some.inj hdigit
    exact ⟨by omega, hsize, fun h => absurd hc (by rw [h]; decide)⟩
  · split at hdigit
    · rename_i hc
      obtain ⟨hlo, hhi, hsize⟩ := hrange 'a' 'f' (by decide) (by decide) hc
      have hf : c.toNat ≤ 102 := hhi
      obtain rfl := Option.some.inj hdigit
      exact ⟨by omega, hsize, fun h => absurd hc (by rw [h]; decide)⟩
    · split at hdigit
      · rename_i hc
        obtain ⟨hlo, hhi, hsize⟩ := hrange 'A' 'F' (by decide) (by decide) hc
        have hf : c.toNat ≤ 70 := hhi
        obtain rfl := Option.some.inj hdigit
        exact ⟨by omega, hsize, fun h => absurd hc (by rw [h]; decide)⟩
      · cases hdigit

/-- Pairs of digits have an even length, and a digit is not a sign. -/
theorem denoted_some (hdenoted : denoted raw = some bytes) :
    raw.utf8Len % 2 = 0 ∧ '+' ∉ raw := by
  fun_induction denoted raw generalizing bytes with
  | case1 => exact ⟨rfl, List.not_mem_nil⟩
  | case2 => cases hdenoted
  | case3 c d rest ih =>
    obtain ⟨x, hx, hdenoted⟩ := Option.bind_eq_some_iff.mp hdenoted
    obtain ⟨y, hy, hdenoted⟩ := Option.bind_eq_some_iff.mp hdenoted
    obtain ⟨more, hmore, -⟩ := Option.bind_eq_some_iff.mp hdenoted
    obtain ⟨heven, hplus⟩ := ih hmore
    obtain ⟨-, hcsize, hcplus⟩ := hexDigit_some hx
    obtain ⟨-, hdsize, hdplus⟩ := hexDigit_some hy
    refine ⟨?_, ?_⟩
    · unfold Text.utf8Len at heven ⊢
      rw [List.map_cons, List.map_cons, List.sum_cons, List.sum_cons, hcsize, hdsize]
      omega
    · simp [Ne.symm hcplus, Ne.symm hdplus, hplus]

/-- A group of two characters as a number. -/
theorem fromStrRadix16_pair (c d : Char) :
    fromStrRadix16 8 [c, d] =
      if c = '+' then hexDigit d
      else (hexDigit c).bind fun x => (hexDigit d).map fun y => x * 16 + y := by
  unfold fromStrRadix16
  split
  · rename_i rest heq
    obtain ⟨rfl, rfl⟩ := List.cons.inj heq
    rw [if_pos rfl]
    cases hd : hexDigit d with
    | none => simp [hd]
    | some y =>
      have hlt := (hexDigit_some hd).1
      have hbyte : y < 256 := by omega
      simp [hd, ofDigits, hbyte]
  · rename_i hsign
    have hc : c ≠ '+' := fun h => hsign [d] (by rw [h])
    rw [if_neg hc]
    cases hx : hexDigit c with
    | none => simp [hx]
    | some x =>
      cases hy : hexDigit d with
      | none => simp [hx, hy]
      | some y =>
        have hxlt := (hexDigit_some hx).1
        have hylt := (hexDigit_some hy).1
        have hbyte : x * 16 + y < 256 := by omega
        simp [hx, hy, ofDigits, hbyte]

theorem fromStrRadix16_single (hsize : c.utf8Size = 2) : fromStrRadix16 8 [c] = none := by
  have hnone : hexDigit c = none := by
    by_contra hsome
    obtain ⟨x, hx⟩ := Option.ne_none_iff_exists'.mp hsome
    have hone := (hexDigit_some hx).2.1
    omega
  unfold fromStrRadix16
  split
  · rename_i rest heq
    obtain ⟨rfl, -⟩ := List.cons.inj heq
    exact absurd hsize (by decide)
  · simp [hnone]

theorem sliceAt_two (c : Char) (rest : Text) (hsize : c.utf8Size = 2) :
    Text.sliceAt (c :: rest) 2 = some ([c], rest) := by
  rw [Text.sliceAt, if_pos (by omega), hsize]
  simp [Text.sliceAt]

theorem sliceAt_pair (c d : Char) (rest : Text) (hc : c.utf8Size = 1) (hd : d.utf8Size = 1) :
    Text.sliceAt (c :: d :: rest) 2 = some ([c, d], rest) := by
  rw [Text.sliceAt, if_pos (by omega), hc, Text.sliceAt, if_pos (by omega), hd]
  simp [Text.sliceAt]

theorem sliceAt_cut (c : Char) (rest : Text) (hc : c.utf8Size ≠ 2)
    (hrest : c.utf8Size = 1 → ∀ d more, rest = d :: more → d.utf8Size ≠ 1) :
    Text.sliceAt (c :: rest) 2 = none := by
  have hpos := Char.utf8Size_pos c
  rw [Text.sliceAt]
  split
  · have hone : c.utf8Size = 1 := by omega
    rw [hone]
    cases rest with
    | nil => rfl
    | cons d more =>
      have hd := hrest hone d more rfl
      have hdpos := Char.utf8Size_pos d
      rw [Text.sliceAt, if_neg (by omega)]
      rfl
  · rfl

theorem utf8Len_cons (c : Char) (rest : Text) :
    Text.utf8Len (c :: rest) = c.utf8Size + Text.utf8Len rest := by
  rw [Text.utf8Len, Text.utf8Len, List.map_cons, List.sum_cons]

/-- What the groups of a text give. -/
structure GroupsGive (attr : String) (raw : Text) (groups : Nat) (rest : Text) : Prop where
  ended : ∀ sign, scan rest = (.ended, sign) →
    ∃ bytes, hexGroups attr raw groups rest = .ok bytes ∧
      (sign = true → '+' ∈ rest) ∧ (sign = false → denoted rest = some bytes)
  rejected : (scan rest).1 = .rejected →
    hexGroups attr raw groups rest = .error (.invalidAttr attr raw) ∧ denoted rest = none
  cut : (scan rest).1 = .cut → hexGroups attr raw groups rest = .panic

/-- A group that is no number. -/
theorem GroupsGive.of_rejected {groups : Nat} (hscan : scan rest = (.rejected, false))
    (hgroups : hexGroups attr raw groups rest = .error (.invalidAttr attr raw))
    (hdenoted : denoted rest = none) : GroupsGive attr raw groups rest where
  ended := fun sign h => by
    rw [hscan] at h
    cases h
  rejected := fun _ => ⟨hgroups, hdenoted⟩
  cut := fun h => by
    rw [hscan] at h
    cases h

/-- A group that ends within a character. -/
theorem GroupsGive.of_cut {groups : Nat} (hscan : scan rest = (.cut, false))
    (hgroups : hexGroups attr raw groups rest = .panic) : GroupsGive attr raw groups rest where
  ended := fun sign h => by
    rw [hscan] at h
    cases h
  rejected := fun h => by
    rw [hscan] at h
    cases h
  cut := fun _ => hgroups

/-- A group that is a number. -/
theorem GroupsGive.cons {groups v : Nat} {sign : Bool} (h : GroupsGive attr raw groups rest)
    (hslice : Text.sliceAt (c :: d :: rest) 2 = some ([c, d], rest))
    (hvalue : fromStrRadix16 8 [c, d] = some v)
    (hscan : scan (c :: d :: rest) = ((scan rest).1, sign || (scan rest).2))
    (hsign : if sign then c = '+' else
      denoted (c :: d :: rest) = (denoted rest).map (UInt8.ofNat v :: ·)) :
    GroupsGive attr raw (groups + 1) (c :: d :: rest) := by
  have hnext : hexGroups attr raw (groups + 1) (c :: d :: rest) =
      (do
        let bytes ← hexGroups attr raw groups rest
        pure (UInt8.ofNat v :: bytes)) := by
    rw [hexGroups, hslice]
    simp only [hvalue]
  refine ⟨fun flag heq => ?_, fun heq => ?_, fun heq => ?_⟩
  · rw [hscan] at heq
    obtain ⟨hstop, hflag⟩ := Prod.mk.inj heq
    obtain ⟨bytes, hbytes, hplus, hdigits⟩ := h.ended (scan rest).2 (Prod.ext hstop rfl)
    refine ⟨UInt8.ofNat v :: bytes, by rw [hnext, hbytes]; rfl, fun htrue => ?_, fun hfalse => ?_⟩
    · cases sign with
      | true =>
        rw [if_pos rfl] at hsign
        rw [hsign]
        exact List.mem_cons_self
      | false =>
        rw [htrue, Bool.false_or] at hflag
        exact List.mem_cons_of_mem c (List.mem_cons_of_mem d (hplus hflag))
    · cases sign with
      | true =>
        rw [hfalse] at hflag
        cases hflag
      | false =>
        rw [hfalse, Bool.false_or] at hflag
        rw [if_neg Bool.false_ne_true] at hsign
        rw [hsign, hdigits hflag]
        rfl
  · rw [hscan] at heq
    obtain ⟨herror, hnone⟩ := h.rejected heq
    refine ⟨by rw [hnext, herror]; rfl, ?_⟩
    cases sign with
    | true =>
      rw [if_pos rfl] at hsign
      cases hdenoted : denoted (c :: d :: rest) with
      | none => rfl
      | some bytes =>
        have hnot := (denoted_some hdenoted).2
        rw [hsign] at hnot
        exact absurd List.mem_cons_self hnot
    | false =>
      rw [if_neg Bool.false_ne_true] at hsign
      rw [hsign, hnone]
      rfl
  · rw [hscan] at heq
    rw [hnext, h.cut heq]
    rfl

theorem groupsGive {groups : Nat} (hlen : rest.utf8Len = 2 * groups) :
    GroupsGive attr raw groups rest := by
  fun_induction scan rest generalizing groups with
  | case1 =>
    have hzero : groups = 0 := by
      rw [Text.utf8Len, List.map_nil, List.sum_nil] at hlen
      omega
    subst hzero
    exact
      { ended := fun sign h => ⟨[], rfl, fun htrue => (by rw [htrue] at h; cases h), fun _ => rfl⟩
        rejected := fun h => by cases h
        cut := fun h => by cases h }
  | case2 c hsize =>
    obtain ⟨less, rfl⟩ : ∃ less, groups = less + 1 := ⟨groups - 1, by
      rw [utf8Len_cons] at hlen
      omega⟩
    refine .of_rejected (by rw [scan, if_pos hsize]) ?_ rfl
    rw [hexGroups, sliceAt_two c [] hsize]
    simp only [fromStrRadix16_single hsize]
  | case3 c hsize =>
    have hpos := Char.utf8Size_pos c
    obtain ⟨less, rfl⟩ : ∃ less, groups = less + 1 := ⟨groups - 1, by
      rw [utf8Len_cons] at hlen
      omega⟩
    refine .of_cut (by rw [scan, if_neg hsize]) ?_
    rw [hexGroups, sliceAt_cut c [] hsize fun _ d more h => by cases h]
  | case4 c d rest hsize =>
    obtain ⟨less, rfl⟩ : ∃ less, groups = less + 1 := ⟨groups - 1, by
      rw [utf8Len_cons] at hlen
      omega⟩
    have hnone : hexDigit c = none := by
      by_contra hsome
      obtain ⟨x, hx⟩ := Option.ne_none_iff_exists'.mp hsome
      have hone := (hexDigit_some hx).2.1
      omega
    refine .of_rejected (by rw [scan, if_pos hsize]) ?_ (by rw [denoted, hnone]; rfl)
    rw [hexGroups, sliceAt_two c _ hsize]
    simp only [fromStrRadix16_single hsize]
  | case5 c d rest hsize hones hdigits ih =>
    obtain ⟨x, hx⟩ := Option.isSome_iff_exists.mp hdigits.1
    obtain ⟨y, hy⟩ := Option.isSome_iff_exists.mp hdigits.2
    obtain ⟨less, rfl⟩ : ∃ less, groups = less + 1 := ⟨groups - 1, by
      rw [utf8Len_cons] at hlen
      omega⟩
    have hrest := @ih less (by
      rw [utf8Len_cons, utf8Len_cons, hones.1, hones.2] at hlen
      omega)
    refine @GroupsGive.cons attr raw rest c d less (x * 16 + y) false hrest
      (sliceAt_pair c d rest hones.1 hones.2) ?_ ?_ ?_
    · rw [fromStrRadix16_pair, if_neg (hexDigit_some hx).2.2, hx, hy]
      rfl
    · rw [scan, if_neg hsize, if_pos hones, if_pos hdigits, Bool.false_or]
    · rw [if_neg Bool.false_ne_true, denoted, hx, hy]
      cases denoted rest <;> rfl
  | case6 c d rest hsize hones hdigits hsign ih =>
    obtain ⟨y, hy⟩ := Option.isSome_iff_exists.mp hsign.2
    obtain ⟨less, rfl⟩ : ∃ less, groups = less + 1 := ⟨groups - 1, by
      rw [utf8Len_cons] at hlen
      omega⟩
    have hrest := @ih less (by
      rw [utf8Len_cons, utf8Len_cons, hones.1, hones.2] at hlen
      omega)
    refine @GroupsGive.cons attr raw rest c d less y true hrest
      (sliceAt_pair c d rest hones.1 hones.2) ?_ ?_ ?_
    · rw [fromStrRadix16_pair, if_pos hsign.1, hy]
    · rw [scan, if_neg hsize, if_pos hones, if_neg hdigits, if_pos hsign, Bool.true_or]
    · rw [if_pos rfl]
      exact hsign.1
  | case7 c d rest hsize hones hdigits hsign =>
    obtain ⟨less, rfl⟩ : ∃ less, groups = less + 1 := ⟨groups - 1, by
      rw [utf8Len_cons] at hlen
      omega⟩
    have hvalue : fromStrRadix16 8 [c, d] = none := by
      rw [fromStrRadix16_pair]
      split
      · rename_i hplus
        cases hd : hexDigit d with
        | none => rfl
        | some y => exact absurd ⟨hplus, by rw [hd]; rfl⟩ hsign
      · cases hx : hexDigit c with
        | none => rfl
        | some x =>
          cases hd : hexDigit d with
          | none => rfl
          | some y => exact absurd ⟨by rw [hx]; rfl, by rw [hd]; rfl⟩ hdigits
    refine .of_rejected (by rw [scan, if_neg hsize, if_pos hones, if_neg hdigits, if_neg hsign])
      ?_ ?_
    · rw [hexGroups, sliceAt_pair c d rest hones.1 hones.2]
      simp only [hvalue]
    · cases hx : hexDigit c with
      | none => rw [denoted, hx]; rfl
      | some x =>
        cases hd : hexDigit d with
        | none => rw [denoted, hx, hd]; rfl
        | some y => exact absurd ⟨by rw [hx]; rfl, by rw [hd]; rfl⟩ hdigits
  | case8 c d rest hsize hones =>
    have hpos := Char.utf8Size_pos c
    obtain ⟨less, rfl⟩ : ∃ less, groups = less + 1 := ⟨groups - 1, by
      have hdpos := Char.utf8Size_pos d
      rw [utf8Len_cons, utf8Len_cons] at hlen
      omega⟩
    refine .of_cut (by rw [scan, if_neg hsize, if_neg hones]) ?_
    rw [hexGroups, sliceAt_cut c _ hsize fun hone d' more heq => by
      obtain ⟨rfl, -⟩ := List.cons.inj heq
      exact fun hd => hones ⟨hone, hd⟩]

/-- A value is treated as it should be exactly if it is regular. -/
theorem hexExact_iff (attr : String) (raw : Text) : HexExact attr raw ↔ HexRegular raw := by
  unfold HexExact HexRegular parseHexBytes
  by_cases hodd : raw.utf8Len % 2 ≠ 0
  · rw [if_pos hodd]
    refine iff_of_true ⟨fun h => (by cases h), fun bytes => ⟨fun h => (by cases h), fun h => ?_⟩⟩
      (Or.inl hodd)
    exact absurd (denoted_some h).1 hodd
  · rw [if_neg hodd]
    have hgive := @groupsGive attr raw raw (raw.utf8Len / 2) (by omega)
    rcases hscan : scan raw with ⟨stop, sign⟩
    cases stop with
    | ended =>
      obtain ⟨bytes, hbytes, hplus, hdigits⟩ := hgive.ended sign hscan
      rw [hbytes]
      cases sign with
      | true =>
        refine iff_of_false (fun h => ?_) (by simp [hodd])
        exact (denoted_some ((h.2 bytes).mp rfl)).2 (hplus rfl)
      | false =>
        refine iff_of_true ⟨fun h => (by cases h), fun bytes' => ?_⟩ (Or.inr (Or.inr rfl))
        rw [hdigits rfl]
        exact ⟨fun h => congrArg some (Outcome.ok.inj h),
          fun h => congrArg _ (Option.some.inj h)⟩
    | rejected =>
      obtain ⟨herror, hnone⟩ := hgive.rejected (by rw [hscan])
      rw [herror, hnone]
      exact iff_of_true ⟨fun h => (by cases h), fun bytes => ⟨fun h => (by cases h),
        fun h => (by cases h)⟩⟩ (Or.inr (Or.inl rfl))
    | cut =>
      rw [hgive.cut (by rw [hscan])]
      exact iff_of_false (fun h => h.1 rfl) (by simp [hodd])

end Hex

/-! ## Offsets -/

/-- A number of 64 bits, in digits. -/
def hexNumber (raw : Text) : Option Nat :=
  if raw = [] then none
  else
    match raw.mapM hexDigit with
    | some values => if ofDigits values < 2 ^ 64 then some (ofDigits values) else none
    | none => none

/-- The end of the file, in any case of letters, or a number that a minus sign may precede. -/
def offsetForm (raw : Text) : Option Offset :=
  if raw.eqIgnoreAsciiCase "EOF".toList then some .eof
  else
    match raw with
    | '-' :: neg => (hexNumber neg).map .fromEnd
    | _ => (hexNumber raw).map .fromStart

/-- A plus sign stands before the digits. -/
def PlusSigned (raw : Text) : Prop :=
  ∃ digits, hexNumber digits ≠ none ∧ (raw = '+' :: digits ∨ raw = '-' :: '+' :: digits)

/-- An offset is accepted exactly if it has the form of one, as what it denotes. -/
def OffsetExact (attr : String) (raw : Text) : Prop :=
  parseOffset attr raw ≠ .panic ∧
    ∀ offset, parseOffset attr raw = .ok offset ↔ offsetForm raw = some offset

section Offsets

variable {attr : String} {raw digits : Text}

theorem fromStrRadix16_plus (digits : Text) :
    fromStrRadix16 64 ('+' :: digits) = hexNumber digits := rfl

theorem fromStrRadix16_digits (hplus : ∀ digits, raw ≠ '+' :: digits) :
    fromStrRadix16 64 raw = hexNumber raw := by
  unfold fromStrRadix16
  split
  · rename_i rest
    exact absurd rfl (hplus rest)
  · rfl

theorem hexNumber_plus (digits : Text) : hexNumber ('+' :: digits) = none := rfl

theorem parseHexU64_ne_panic : parseHexU64 attr raw ≠ .panic := by
  unfold parseHexU64
  split
  · exact fun h => by cases h
  · exact fun h => by cases h

theorem parseHexU64_eq_ok {v : Nat} :
    parseHexU64 attr raw = .ok v ↔ fromStrRadix16 64 raw = some v := by
  unfold parseHexU64
  split
  · rename_i w hw
    rw [hw]
    exact ⟨fun h => congrArg some (Outcome.ok.inj h), fun h => congrArg _ (Option.some.inj h)⟩
  · rename_i hnone
    rw [hnone]
    exact ⟨fun h => (by cases h), fun h => (by cases h)⟩

theorem parseOffset_ne_panic : parseOffset attr raw ≠ .panic := by
  unfold parseOffset
  split
  · exact fun h => by cases h
  · split
    · exact Outcome.bind_ne_panic.mpr ⟨parseHexU64_ne_panic, fun _ _ h => by cases h⟩
    · exact Outcome.bind_ne_panic.mpr ⟨parseHexU64_ne_panic, fun _ _ h => by cases h⟩

theorem parseOffset_eof (heof : raw.eqIgnoreAsciiCase "EOF".toList = true) :
    parseOffset attr raw = .ok .eof := if_pos heof

theorem parseOffset_minus (neg : Text) (offset : Offset) :
    parseOffset attr ('-' :: neg) = .ok offset ↔
      (fromStrRadix16 64 neg).map Offset.fromEnd = some offset := by
  have heof : Text.eqIgnoreAsciiCase ('-' :: neg) "EOF".toList = false := rfl
  unfold parseOffset
  rw [heof, if_neg Bool.false_ne_true]
  simp only [Outcome.bind_eq_ok, parseHexU64_eq_ok, Option.map_eq_some_iff]
  exact exists_congr fun v => and_congr_right fun _ =>
    ⟨fun h => Outcome.ok.inj h, fun h => congrArg _ h⟩

theorem parseOffset_plain (heof : raw.eqIgnoreAsciiCase "EOF".toList = false)
    (hminus : ∀ neg, raw ≠ '-' :: neg) (offset : Offset) :
    parseOffset attr raw = .ok offset ↔
      (fromStrRadix16 64 raw).map Offset.fromStart = some offset := by
  unfold parseOffset
  rw [heof, if_neg Bool.false_ne_true]
  split
  · rename_i neg
    exact absurd rfl (hminus neg)
  · simp only [Outcome.bind_eq_ok, parseHexU64_eq_ok, Option.map_eq_some_iff]
    exact exists_congr fun v => and_congr_right fun _ =>
      ⟨fun h => Outcome.ok.inj h, fun h => congrArg _ h⟩

theorem offsetForm_minus (neg : Text) :
    offsetForm ('-' :: neg) = (hexNumber neg).map Offset.fromEnd := rfl

theorem offsetForm_plain (heof : raw.eqIgnoreAsciiCase "EOF".toList = false)
    (hminus : ∀ neg, raw ≠ '-' :: neg) :
    offsetForm raw = (hexNumber raw).map Offset.fromStart := by
  unfold offsetForm
  rw [heof, if_neg Bool.false_ne_true]
  split
  · rename_i neg
    exact absurd rfl (hminus neg)
  · rfl

/-- A number behind an optional plus sign, and a number. -/
theorem radix_eq_iff (raw : Text) :
    fromStrRadix16 64 raw = hexNumber raw ↔
      ¬ ∃ digits, hexNumber digits ≠ none ∧ raw = '+' :: digits := by
  by_cases hplus : ∃ digits, raw = '+' :: digits
  · obtain ⟨digits, rfl⟩ := hplus
    rw [fromStrRadix16_plus, hexNumber_plus]
    constructor
    · rintro hnone ⟨digits', hsome, heq⟩
      obtain ⟨-, rfl⟩ := List.cons.inj heq
      exact hsome hnone
    · intro hnot
      by_contra hsome
      exact hnot ⟨digits, hsome, rfl⟩
  · refine iff_of_true (fromStrRadix16_digits fun digits heq => hplus ⟨digits, heq⟩) ?_
    rintro ⟨digits, -, heq⟩
    exact hplus ⟨digits, heq⟩

/-- Results that agree on every value are the same. -/
theorem map_eq_iff {f : Nat → Offset} (hf : Function.Injective f) {a b : Option Nat} :
    (∀ offset, a.map f = some offset ↔ b.map f = some offset) ↔ a = b := by
  constructor
  · intro hall
    have heq : a.map f = b.map f := Option.ext fun offset => hall offset
    exact Option.map_injective hf heq
  · rintro rfl offset
    exact Iff.rfl

/-- An offset is treated as it should be exactly if no plus sign stands before its digits. -/
theorem offsetExact_iff (attr : String) (raw : Text) :
    OffsetExact attr raw ↔ ¬ PlusSigned raw := by
  rw [OffsetExact, and_iff_right parseOffset_ne_panic]
  rcases heof : raw.eqIgnoreAsciiCase "EOF".toList with - | -
  · by_cases hminus : ∃ neg, raw = '-' :: neg
    · obtain ⟨neg, rfl⟩ := hminus
      simp only [parseOffset_minus, offsetForm_minus]
      rw [map_eq_iff (fun a b h => Offset.fromEnd.inj h), radix_eq_iff, not_iff_not]
      refine exists_congr fun digits => and_congr_right fun _ => ⟨fun h => Or.inr (by rw [h]), ?_⟩
      rintro (h | h)
      · cases h
      · exact (List.cons.inj h).2
    · have hplain : ∀ neg, raw ≠ '-' :: neg := fun neg heq => hminus ⟨neg, heq⟩
      simp only [parseOffset_plain heof hplain, offsetForm_plain heof hplain]
      rw [map_eq_iff (fun a b h => Offset.fromStart.inj h), radix_eq_iff, not_iff_not]
      refine exists_congr fun digits => and_congr_right fun _ => ⟨Or.inl, ?_⟩
      rintro (h | h)
      · exact h
      · exact absurd h (hplain _)
  · refine iff_of_true (fun offset => ?_) ?_
    · have hform : offsetForm raw = some .eof := if_pos heof
      rw [parseOffset_eof heof, hform]
      exact ⟨fun h => congrArg some (Outcome.ok.inj h), fun h => congrArg _ (Option.some.inj h)⟩
    · rintro ⟨digits, -, rfl | rfl⟩
      · cases heof
      · cases heof

end Offsets

/-! ## Documents -/

/-- The states that reading a document passes through. -/
inductive XmlReader.Reached (reader : XmlReader) (xml : Bytes) : reader.State → Prop
  | start : Reached reader xml (reader.fromReader xml)
  | next {s s' : reader.State} {e : Event} (hs : Reached reader xml s)
      (hread : reader.readEvent s = .ok (e, s')) : Reached reader xml s'

/-- A tag of the document. -/
def XmlReader.HasTag (reader : XmlReader) (xml : Bytes) (tag : Tag) : Prop :=
  ∃ s s' e, reader.Reached xml s ∧ reader.readEvent s = .ok (e, s') ∧
    (e = .start tag ∨ e = .empty tag)

/-- An attribute that the tag has. -/
def Tag.Has (tag : Tag) (key : String) (raw : Text) : Prop :=
  .ok { key, value := .ok raw } ∈ tag.attributes

/-- The attributes that hold bytes, and those that hold offsets. -/
def isHexKey (key : String) : Prop := key = "value" ∨ key = "mask"

instance (key : String) : Decidable (isHexKey key) := inferInstanceAs (Decidable (_ ∨ _))

def isOffsetKey (key : String) : Prop :=
  key = "offset" ∨ key = "start_offset" ∨ key = "end_offset"

instance (key : String) : Decidable (isOffsetKey key) := inferInstanceAs (Decidable (_ ∨ _))

section Safe

variable {reader : XmlReader} {xml : Bytes} {tag : Tag} {attr : Except String Attribute}

theorem attrValue_eq_ok {key : String} {raw : Text} (hvalue : attrValue attr = .ok (key, raw)) :
    attr = .ok { key, value := .ok raw } := by
  unfold attrValue at hvalue
  split at hvalue
  · cases hvalue
  · rename_i found
    split at hvalue
    · cases hvalue
    · rename_i text htext
      cases hvalue
      rw [← htext]

theorem attrValue_ne_panic : attrValue attr ≠ .panic := by
  unfold attrValue
  split
  · exact fun h => by cases h
  · split
    · exact fun h => by cases h
    · exact fun h => by cases h

/-- A parser of words does not panic. -/
theorem parseOperation_ne_panic {raw : Text} : parseOperation raw ≠ .panic := by
  unfold parseOperation
  repeat' split
  all_goals exact fun h => by cases h

theorem parseOperator_ne_panic {raw : Text} : parseOperator raw ≠ .panic := by
  unfold parseOperator
  repeat' split
  all_goals exact fun h => by cases h

theorem parseResult_ne_panic {raw : Text} : parseResult raw ≠ .panic := by
  unfold parseResult
  repeat' split
  all_goals exact fun h => by cases h

theorem parseSize_ne_panic {raw : Text} : parseSize raw ≠ .panic := by
  unfold parseSize
  split
  · exact fun h => by cases h
  · exact Outcome.bind_ne_panic.mpr ⟨parseHexU64_ne_panic, fun _ _ h => by cases h⟩

/-- Setting a field from its parsed value. -/
theorem bind_pure_ne_panic {α β : Type} {x : Parse α} (f : α → β) (hx : x ≠ .panic) :
    (x >>= fun a => pure (f a)) ≠ .panic :=
  Outcome.bind_ne_panic.mpr ⟨hx, fun _ _ h => by cases h⟩

theorem setRuleAttr_ne_panic (rule : Rule) (attr : Except String Attribute) :
    setRuleAttr rule attr ≠ .panic := by
  refine Outcome.bind_ne_panic.mpr ⟨attrValue_ne_panic, fun out _ => ?_⟩
  simp only
  split
  · exact bind_pure_ne_panic _ parseOffset_ne_panic
  · split
    · exact bind_pure_ne_panic _ parseOffset_ne_panic
    · split
      · exact bind_pure_ne_panic _ parseOperation_ne_panic
      · exact fun h => by cases h

/-- Only the values that hold bytes can panic. -/
theorem setTestAttr_ne_panic (attrs : TestAttrs)
    (hhex : ∀ key raw, isHexKey key → attr = .ok { key, value := .ok raw } →
      parseHexBytes key raw ≠ .panic) : setTestAttr attrs attr ≠ .panic := by
  refine Outcome.bind_ne_panic.mpr ⟨attrValue_ne_panic, fun out hout => ?_⟩
  obtain ⟨key, raw⟩ := out
  have hattr := attrValue_eq_ok hout
  simp only
  split
  · exact bind_pure_ne_panic _ parseOffset_ne_panic
  · split
    · rename_i hkey
      subst hkey
      exact bind_pure_ne_panic _ (hhex _ raw (Or.inl rfl) hattr)
    · split
      · rename_i hkey
        subst hkey
        exact bind_pure_ne_panic _ (hhex _ raw (Or.inr rfl) hattr)
      · split
        · exact bind_pure_ne_panic _ parseSize_ne_panic
        · split
          · exact bind_pure_ne_panic _ parseOperator_ne_panic
          · split
            · exact bind_pure_ne_panic _ parseResult_ne_panic
            · exact fun h => by cases h

theorem require_ne_panic {α : Type} {x : Option α} {el attr : String} :
    require x el attr ≠ .panic := by
  unfold require
  split
  · exact fun h => by cases h
  · exact fun h => by cases h

theorem finishTest_ne_panic (el : Element) (attrs : TestAttrs) : finishTest el attrs ≠ .panic := by
  cases el with
  | file => exact bind_pure_ne_panic _ require_ne_panic
  | data =>
    refine Outcome.bind_ne_panic.mpr ⟨require_ne_panic, fun _ _ => ?_⟩
    split
    · exact fun h => by cases h
    · exact fun h => by cases h
  | bool op =>
    refine Outcome.bind_ne_panic.mpr ⟨require_ne_panic, fun _ _ => ?_⟩
    refine Outcome.bind_ne_panic.mpr ⟨require_ne_panic, fun _ _ => ?_⟩
    split
    · exact fun h => by cases h
    · exact fun h => by cases h

theorem parseTest_ne_panic
    (hhex : ∀ key raw, isHexKey key → tag.Has key raw → parseHexBytes key raw ≠ .panic) :
    parseTest tag ≠ .panic := by
  unfold parseTest
  split
  · exact fun h => by cases h
  · refine Outcome.bind_ne_panic.mpr ⟨?_, fun attrs _ => finishTest_ne_panic _ attrs⟩
    refine Outcome.foldlM_ne_panic _ fun attrs attr hattr => ?_
    refine setTestAttr_ne_panic attrs fun key raw hkey heq => hhex key raw hkey ?_
    rw [heq] at hattr
    exact hattr

variable (hadvances : reader.Advances)
  (hhex : ∀ tag, reader.HasTag xml tag → ∀ key raw, isHexKey key → tag.Has key raw →
    parseHexBytes key raw ≠ .panic)

theorem nextEvent_eq_ok {s s' : reader.State} {e : Event}
    (hnext : nextEvent reader s = .ok (e, s')) : reader.readEvent s = .ok (e, s') := by
  unfold nextEvent at hnext
  split at hnext
  · rename_i out hout
    rw [hout, Outcome.ok.inj hnext]
  · cases hnext

theorem nextEvent_ne_panic {s : reader.State} : nextEvent reader s ≠ .panic := by
  unfold nextEvent
  split
  · exact fun h => by cases h
  · exact fun h => by cases h

include hadvances hhex

/-- Reading tests ends before the rounds do. -/
theorem readTests_spec {rounds : Nat} {tests : List Test} {s : reader.State}
    (hs : reader.Reached xml s) (hrounds : reader.left s < rounds) :
    readTests reader rounds tests s ≠ .panic ∧
      ∀ tests' s', readTests reader rounds tests s = .ok (tests', s') →
        reader.Reached xml s' ∧ reader.left s' ≤ reader.left s := by
  induction rounds generalizing tests s with
  | zero => exact absurd hrounds (Nat.not_lt_zero _)
  | succ rounds ih =>
    rw [readTests]
    constructor
    · refine Outcome.bind_ne_panic.mpr ⟨nextEvent_ne_panic, fun out hout => ?_⟩
      obtain ⟨e, s₁⟩ := out
      have hread := nextEvent_eq_ok hout
      obtain ⟨hle, hless⟩ := hadvances s e s₁ hread
      have hs₁ : reader.Reached xml s₁ := .next hs hread
      have hrest : ¬ e.isEof = true → ∀ tests, readTests reader rounds tests s₁ ≠ .panic :=
        fun hnot tests => (ih hs₁ (by have hlt := hless.resolve_right hnot; omega)).1
      cases e with
      | start tag =>
        refine Outcome.bind_ne_panic.mpr ⟨parseTest_ne_panic (hhex tag
          ⟨s, s₁, _, hs, hread, Or.inl rfl⟩), fun test _ => hrest (by simp [Event.isEof]) _⟩
      | empty tag =>
        refine Outcome.bind_ne_panic.mpr ⟨parseTest_ne_panic (hhex tag
          ⟨s, s₁, _, hs, hread, Or.inr rfl⟩), fun test _ => hrest (by simp [Event.isEof]) _⟩
      | stop name =>
        simp only
        split
        · exact fun h => by cases h
        · exact hrest (by simp [Event.isEof]) _
      | eof => exact fun h => by cases h
      | text content => exact hrest (by simp [Event.isEof]) _
      | comment => exact hrest (by simp [Event.isEof]) _
      | other => exact hrest (by simp [Event.isEof]) _
    · intro tests' s' hrun
      obtain ⟨⟨e, s₁⟩, hout, hrun⟩ := Outcome.bind_eq_ok.mp hrun
      have hread := nextEvent_eq_ok hout
      obtain ⟨hle, hless⟩ := hadvances s e s₁ hread
      have hs₁ : reader.Reached xml s₁ := .next hs hread
      have hrest : ¬ e.isEof = true → ∀ tests, readTests reader rounds tests s₁ =
          .ok (tests', s') → reader.Reached xml s' ∧ reader.left s' ≤ reader.left s := by
        intro hnot tests hrun
        obtain ⟨hreached, hmore⟩ :=
          (ih hs₁ (by have hlt := hless.resolve_right hnot; omega)).2 tests' s' hrun
        exact ⟨hreached, hmore.trans hle⟩
      cases e with
      | start tag =>
        obtain ⟨test, -, hrun⟩ := Outcome.bind_eq_ok.mp hrun
        exact hrest (by simp [Event.isEof]) _ hrun
      | empty tag =>
        obtain ⟨test, -, hrun⟩ := Outcome.bind_eq_ok.mp hrun
        exact hrest (by simp [Event.isEof]) _ hrun
      | stop name =>
        simp only at hrun
        split at hrun
        · cases hrun
          exact ⟨hs₁, hle⟩
        · exact hrest (by simp [Event.isEof]) _ hrun
      | eof =>
        cases hrun
        exact ⟨hs₁, hle⟩
      | text content => exact hrest (by simp [Event.isEof]) _ hrun
      | comment => exact hrest (by simp [Event.isEof]) _ hrun
      | other => exact hrest (by simp [Event.isEof]) _ hrun

theorem parseRule_spec {isEmpty : Bool} {s : reader.State} (hs : reader.Reached xml s) :
    parseRule reader tag isEmpty s ≠ .panic ∧
      ∀ rule s', parseRule reader tag isEmpty s = .ok (rule, s') →
        reader.Reached xml s' ∧ reader.left s' ≤ reader.left s := by
  have htests := fun tests => @readTests_spec reader xml hadvances hhex _ tests s hs
    (Nat.lt_succ_self (reader.left s))
  constructor
  · refine Outcome.bind_ne_panic.mpr ⟨Outcome.foldlM_ne_panic _ fun rule attr _ =>
      setRuleAttr_ne_panic rule attr, fun rule _ => ?_⟩
    split
    · exact fun h => by cases h
    · exact Outcome.bind_ne_panic.mpr ⟨(htests []).1, fun _ _ h => by cases h⟩
  · intro rule s' hrun
    obtain ⟨rule₀, -, hrun⟩ := Outcome.bind_eq_ok.mp hrun
    split at hrun
    · cases hrun
      exact ⟨hs, Nat.le_refl _⟩
    · obtain ⟨⟨tests, s₁⟩, hread, hrun⟩ := Outcome.bind_eq_ok.mp hrun
      cases hrun
      exact (htests []).2 tests s' hread

theorem readDetector_ne_panic {rounds : Nat} {draft : Draft} {s : reader.State}
    (hs : reader.Reached xml s) (hrounds : reader.left s < rounds) :
    readDetector reader rounds draft s ≠ .panic := by
  induction rounds generalizing draft s with
  | zero => exact absurd hrounds (Nat.not_lt_zero _)
  | succ rounds ih =>
    rw [readDetector]
    refine Outcome.bind_ne_panic.mpr ⟨nextEvent_ne_panic, fun out hout => ?_⟩
    obtain ⟨e, s₁⟩ := out
    have hread := nextEvent_eq_ok hout
    obtain ⟨hle, hless⟩ := hadvances s e s₁ hread
    have hs₁ : reader.Reached xml s₁ := .next hs hread
    have hrest : ¬ e.isEof = true → ∀ draft, readDetector reader rounds draft s₁ ≠ .panic :=
      fun hnot draft => ih hs₁ (by have hlt := hless.resolve_right hnot; omega)
    have hrule : ¬ e.isEof = true → ∀ tag isEmpty,
        (parseRule reader tag isEmpty s₁ >>= fun out =>
          readDetector reader rounds { draft with rules := draft.rules ++ [out.1] } out.2) ≠
            .panic := by
      intro hnot tag isEmpty
      obtain ⟨hsafe, hkept⟩ := @parseRule_spec reader xml tag hadvances hhex isEmpty s₁ hs₁
      refine Outcome.bind_ne_panic.mpr ⟨hsafe, fun out hout => ?_⟩
      obtain ⟨hs₂, hmore⟩ := hkept out.1 out.2 hout
      exact ih hs₂ (by have hlt := hless.resolve_right hnot; omega)
    cases e with
    | start tag =>
      simp only
      split
      · exact hrest (by simp [Event.isEof]) _
      · split
        · exact hrest (by simp [Event.isEof]) _
        · split
          · exact hrest (by simp [Event.isEof]) _
          · split
            · exact hrest (by simp [Event.isEof]) _
            · split
              · exact hrule (by simp [Event.isEof]) tag false
              · exact fun h => by cases h
    | empty tag =>
      simp only
      split
      · exact hrule (by simp [Event.isEof]) tag true
      · split
        · exact hrest (by simp [Event.isEof]) _
        · exact fun h => by cases h
    | text content =>
      refine Outcome.bind_ne_panic.mpr ⟨?_, fun _ _ => hrest (by simp [Event.isEof]) _⟩
      unfold Draft.setText
      split <;> exact fun h => by cases h
    | stop name => exact hrest (by simp [Event.isEof]) _
    | eof => exact fun h => by cases h
    | comment => exact hrest (by simp [Event.isEof]) _
    | other => exact hrest (by simp [Event.isEof]) _

theorem parse_ne_panic : parse reader xml ≠ .panic := by
  refine Outcome.bind_ne_panic.mpr
    ⟨readDetector_ne_panic hadvances hhex .start (Nat.lt_succ_self _), fun draft _ => ?_⟩
  split
  · exact fun h => by cases h
  · split
    · exact fun h => by cases h
    · exact fun h => by cases h

end Safe

/-- A reader of the events given to it, for a document of that many bytes. -/
def eventReader (events : List Event) : XmlReader where
  State := List Event
  fromReader := fun xml => events.take xml.length
  readEvent
    | [] => .ok (.eof, [])
    | e :: events => .ok (e, events)
  left := List.length

theorem eventReader_advances (events : List Event) : (eventReader events).Advances := by
  intro s e s' hread
  cases s with
  | nil =>
    cases hread
    exact ⟨Nat.le_refl _, Or.inr rfl⟩
  | cons first rest =>
    cases hread
    exact ⟨Nat.le_succ _, Or.inl (Nat.lt_succ_self _)⟩

/-- What the reader of events passes through are ends of the events. -/
theorem eventReader_reached {events : List Event} {xml : Bytes} {s : (eventReader events).State}
    (hs : (eventReader events).Reached xml s) : ∀ e : Event, @List.Mem Event e s → e ∈ events := by
  induction hs with
  | start => exact fun e hmem => List.mem_of_mem_take hmem
  | @next s s' e _ hread ih =>
    cases s with
    | nil =>
      cases hread
      exact ih
    | cons first rest =>
      cases hread
      exact fun e hmem => ih e (List.mem_cons_of_mem _ hmem)

theorem eventReader_hasTag {events : List Event} {xml : Bytes} {tag : Tag}
    (htag : (eventReader events).HasTag xml tag) : .start tag ∈ events ∨ .empty tag ∈ events := by
  obtain ⟨s, s', e, hs, hread, htag⟩ := htag
  have hsub := eventReader_reached hs
  cases s with
  | nil =>
    cases hread
    rcases htag with h | h
    · cases h
    · cases h
  | cons first rest =>
    cases hread
    have hmem := hsub _ List.mem_cons_self
    rcases htag with rfl | rfl
    · exact Or.inl hmem
    · exact Or.inr hmem

/-- A rule with one test, for two bytes at the start of the file. -/
def nesEvents : List Event :=
  [.start { name := "rule", attributes := [] },
    .empty { name := "data", attributes :=
      [.ok { key := "value", value := .ok "4e45".toList },
        .ok { key := "offset", value := .ok "-10".toList }] },
    .stop "rule"]

end Datboi.Skipper
