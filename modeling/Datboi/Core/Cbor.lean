import Datboi.Core.Recipe
import Datboi.Lib.Rows
import Datboi.Lib.Wire

/-!
# The canonical CBOR subset

Unsigned integers, byte strings, text strings, arrays, and maps with unsigned-integer keys.
Heads take the shortest form that fits and maps are sorted by key; the decoder rejects
everything else, and bounds how deep arrays and maps may nest.
-/

namespace Datboi.Cbor

open Wire (Cursor Parser)

def majorUint : UInt8 := 0
def majorNint : UInt8 := 1
def majorBytes : UInt8 := 2
def majorText : UInt8 := 3
def majorArray : UInt8 := 4
def majorMap : UInt8 := 5
def majorTag : UInt8 := 6

/-- The decoder's recursion guard. -/
def maxDepth : Nat := 128

/-- Map entries may stand in any order here; they are encoded sorted by key. -/
inductive Value where
  | uint (n : UInt64)
  | bytes (b : Bytes)
  | text (t : String)
  | array (items : List Value)
  | map (entries : List (UInt64 × Value))
  deriving Repr

inductive EncodeError where
  | duplicateKey (key : UInt64)
  deriving DecidableEq, Repr

inductive DecodeError where
  | unexpectedEof (pos : Nat)
  | forbidden (offset : Nat) (what : String)
  | nonMinimal (offset : Nat)
  | keyOrder (offset : Nat)
  | length (offset : Nat)
  | utf8 (offset : Nat)
  | depth (pos : Nat)
  | trailing (pos : Nat)
  deriving DecidableEq, Repr

/-- The bytes of a text, as it is stored. -/
def textBytes (t : String) : Bytes := t.toByteArray.data.toList

/-! ## Encoding -/

/-- The shortest head that fits. -/
def putHead (major : UInt8) (value : UInt64) : Bytes :=
  let m := major <<< 5
  if value.toNat < 24 then [m ||| value.toUInt8]
  else if value.toNat < 2 ^ 8 then (m ||| 24) :: Wire.toBe 1 value.toNat
  else if value.toNat < 2 ^ 16 then (m ||| 25) :: Wire.toBe 2 value.toNat
  else if value.toNat < 2 ^ 32 then (m ||| 26) :: Wire.toBe 4 value.toNat
  else (m ||| 27) :: Wire.toBe 8 value.toNat

/-- The head of a string or container of this length. -/
def putLength (major : UInt8) (length : Nat) : Bytes := putHead major (UInt64.ofNat length)

/-- Entries in key order. -/
def sortByKey {α : Type} (entries : List (UInt64 × α)) : List (UInt64 × α) :=
  Rows.sortBy (fun entry => entry.1.toNat) entries

/-- The key of the first two neighbours that share one. -/
def firstDuplicate {α : Type} : List (UInt64 × α) → Option UInt64
  | first :: second :: rest =>
    if first.1 = second.1 then some first.1 else firstDuplicate (second :: rest)
  | _ => none

/-- The entries one after another, up to the first value that cannot be encoded. -/
def putEntries : List (UInt64 × Except EncodeError Bytes) → Except EncodeError Bytes
  | [] => .ok []
  | (key, value) :: rest => do
      let value ← value
      let rest ← putEntries rest
      .ok (putHead majorUint key ++ value ++ rest)

mutual

/-- The bytes appended for a value. A map's values are encoded where they stand and the
results sorted by key, so the first failure in key order is the one reported. -/
def encodeInto : Value → Except EncodeError Bytes
  | .uint n => .ok (putHead majorUint n)
  | .bytes b => .ok (putLength majorBytes b.length ++ b)
  | .text t => .ok (putLength majorText (textBytes t).length ++ textBytes t)
  | .array items => do
      let body ← encodeItems items
      .ok (putLength majorArray items.length ++ body)
  | .map entries =>
    let sorted := sortByKey (encodeValues entries)
    match firstDuplicate sorted with
    | some key => .error (.duplicateKey key)
    | none => do
        let body ← putEntries sorted
        .ok (putLength majorMap sorted.length ++ body)

def encodeItems : List Value → Except EncodeError Bytes
  | [] => .ok []
  | item :: rest => do
      let item ← encodeInto item
      let rest ← encodeItems rest
      .ok (item ++ rest)

def encodeValues : List (UInt64 × Value) → List (UInt64 × Except EncodeError Bytes)
  | [] => []
  | (key, value) :: rest => (key, encodeInto value) :: encodeValues rest

end

/-- Encode to canonical bytes; the only failure is a duplicate map key. -/
def encode (value : Value) : Except EncodeError Bytes := encodeInto value

/-! ## Decoding -/

/-- The position the decoder stands at. -/
def position : Parser DecodeError Nat := fun cursor => .ok (cursor.pos, cursor)

/-- How many bytes are left. -/
def remaining : Parser DecodeError Nat := fun cursor => .ok (cursor.rest.length, cursor)

def byte : Parser DecodeError UInt8 := fun cursor =>
  match cursor.rest with
  | [] => .error (.unexpectedEof cursor.pos)
  | b :: rest => .ok (b, ⟨cursor.pos + 1, rest⟩)

def beUintLoop : Nat → UInt64 → Parser DecodeError UInt64
  | 0, v => pure v
  | width + 1, v => do
      let b ← byte
      beUintLoop width ((v <<< 8) ||| b.toUInt64)

def beUint (width : Nat) : Parser DecodeError UInt64 := beUintLoop width 0

/-- An argument of `width` bytes that no shorter form could hold. -/
def wideArg (offset width least : Nat) : Parser DecodeError UInt64 := do
  let v ← beUint width
  if v.toNat < least then throw (.nonMinimal offset)
  pure v

/-- The argument that the low five bits of the initial byte announce. -/
def argument (offset : Nat) (info : UInt8) : Parser DecodeError UInt64 :=
  if info.toNat < 24 then pure info.toUInt64
  else if info = 24 then wideArg offset 1 24
  else if info = 25 then wideArg offset 2 0x100
  else if info = 26 then wideArg offset 4 0x10000
  else if info = 27 then wideArg offset 8 0x100000000
  else if info.toNat ≤ 30 then throw (.forbidden offset "reserved additional-info")
  else throw (.forbidden offset "indefinite length")

/-- Read a head: the major type and its argument. -/
def head : Parser DecodeError (UInt8 × UInt64) := do
  let offset ← position
  let initial ← byte
  let arg ← argument offset (initial &&& 0x1f)
  pure (initial >>> 5, arg)

/-- The next `len` bytes of the input, for the head at `offset`. -/
def take (len : UInt64) (offset : Nat) : Parser DecodeError Bytes := fun cursor =>
  if len.toNat ≤ cursor.rest.length then
    .ok (cursor.rest.take len.toNat,
      ⟨cursor.pos + len.toNat, cursor.rest.drop len.toNat⟩)
  else .error (.length offset)

/-- The entries of a map, each key above the one before it. -/
def entriesFrom (value : Parser DecodeError Value) :
    Nat → Option UInt64 → Parser DecodeError (List (UInt64 × Value))
  | 0, _ => pure []
  | count + 1, prev => do
      let keyOffset ← position
      let (keyMajor, key) ← head
      if keyMajor ≠ majorUint then throw (.forbidden keyOffset "non-integer map key")
      if prev.any fun p => key.toNat ≤ p.toNat then throw (.keyOrder keyOffset)
      let v ← value
      let rest ← entriesFrom value count (some key)
      pure ((key, v) :: rest)

/-- What follows the head at `offset`, given the parser one level down. -/
def contents (inner : Parser DecodeError Value) (offset : Nat) (major : UInt8) (arg : UInt64) :
    Parser DecodeError Value :=
  if major = majorUint then pure (.uint arg)
  else if major = majorNint then throw (.forbidden offset "negative integer")
  else if major = majorBytes then do
    let b ← take arg offset
    pure (.bytes b)
  else if major = majorText then do
    let b ← take arg offset
    match String.fromUTF8? ⟨b.toArray⟩ with
    | none => throw (.utf8 offset)
    | some t => pure (.text t)
  else if major = majorArray then do
    let left ← remaining
    if left < arg.toNat then throw (.length offset)
    let items ← Wire.times inner arg.toNat
    pure (.array items)
  else if major = majorMap then do
    let left ← remaining
    if left < arg.toNat then throw (.length offset)
    let entries ← entriesFrom inner arg.toNat none
    pure (.map entries)
  else if major = majorTag then throw (.forbidden offset "tag")
  else throw (.forbidden offset "float or simple value")

/-- One value. The argument counts the levels left before the depth limit, so that the
limit is exceeded when none is left. -/
def value : Nat → Parser DecodeError Value
  | 0 => do
      let pos ← position
      throw (.depth pos)
  | levels + 1 => do
      let offset ← position
      let (major, arg) ← head
      contents (value levels) offset major arg

/-- Decode exactly one canonical value spanning the whole input. -/
def decode (input : Bytes) : Except DecodeError Value := do
  let (v, cursor) ← value (maxDepth + 1) ⟨0, input⟩
  if cursor.rest ≠ [] then throw (.trailing cursor.pos)
  pure v

end Datboi.Cbor
