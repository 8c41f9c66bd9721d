import Datboi.Ingest.Coverage
import Datboi.Lib.Placement
import Datboi.Lib.Wire
import Datboi.Xf.Component

/-!
# Compressed disc images

An image is cut into blocks, and each block is deflated, or stored when deflating does not
help. A header and an index of block offsets come first, so the compressor goes over the
image twice: one pass for the sizes, one for the bytes. The decompressor follows the index;
a window needs only the blocks it touches.
-/

namespace Datboi.Cso

open Guest (Program)
open Placement (alignUp)
open Reader (slice)
open Xf (Shape collect)

structure Header where
  total : UInt64
  blockSize : UInt32
  align : UInt8
  deriving DecidableEq, Repr

abbrev HEADER_LEN : Nat := 24
abbrev STORED_FLAG : Nat := 0x80000000
abbrev OFFSET_MASK : Nat := 0x7FFFFFFF

/-- A power of two has one bit. -/
def isPowerOfTwo (n : Nat) : Bool := n ≠ 0 ∧ n &&& (n - 1) = 0

/-- Parameters that passed their checks. -/
structure CompressParams where
  blockSize : UInt32
  level : UInt8
  align : UInt8
  hsize : (512 ≤ blockSize.toNat ∧ blockSize.toNat ≤ 1 <<< 20) ∧ isPowerOfTwo blockSize.toNat
  hlevel : 1 ≤ level.toNat ∧ level.toNat ≤ 10
  halign : align.toNat ≤ 15
  deriving DecidableEq

instance : Inhabited CompressParams where
  default :=
    { blockSize := 2048
      level := 9
      align := 0
      hsize := by decide
      hlevel := by decide
      halign := by decide }

/-! ## Parameters -/

/-- The number of extra bytes of a shortest encoding. -/
def canonicalExtra (value : Nat) : Nat :=
  if value ≤ 23 then 0
  else if value ≤ 0xFF then 1
  else if value ≤ 0xFFFF then 2
  else if value ≤ 0xFFFFFFFF then 4
  else 8

/-- One item of unsigned shape: its value, its additional information and what follows. -/
def cborUintHeader (bytes : Bytes) (majorBase : UInt8) (what : String) :
    Except String (Nat × Nat × Bytes) :=
  match bytes with
  | [] => .error s!"truncated {what}"
  | first :: rest =>
    if first &&& 0xE0 ≠ majorBase then
      .error s!"expected {what}, got initial byte 0x{hexPadded 2 first.toNat}"
    else
      let info := (first &&& 0x1F).toNat
      if 27 < info then .error s!"unsupported {what} encoding {info}"
      else
        let extra := if info ≤ 23 then 0 else 2 ^ (info - 24)
        if rest.length < extra then .error s!"truncated {what}"
        else
          let value := if info ≤ 23 then info else Wire.ofBe (rest.take extra)
          if extra ≠ canonicalExtra value then .error s!"non-canonical {what} encoding"
          else .ok (value, info, rest.drop extra)

/-- One key and its value. -/
def setParam (p : CompressParams) (key value : Nat) : Except String CompressParams :=
  if key = 1 then
    if hsize : (512 ≤ value ∧ value ≤ 1 <<< 20) ∧ isPowerOfTwo value then
      have hvalue : (UInt32.ofNat value).toNat = value := by
        have hbound : value ≤ 2 ^ 20 := hsize.1.2
        rw [UInt32.toNat_ofNat', Nat.mod_eq_of_lt (by omega)]
      .ok { p with blockSize := UInt32.ofNat value, hsize := by rw [hvalue]; exact hsize }
    else .error s!"block-size {value} not a power of two in 512..=1MiB"
  else if key = 2 then
    if hlevel : 1 ≤ value ∧ value ≤ 10 then
      have hvalue : (UInt8.ofNat value).toNat = value := by
        rw [UInt8.toNat_ofNat', Nat.mod_eq_of_lt (by omega)]
      .ok { p with level := UInt8.ofNat value, hlevel := by rw [hvalue]; exact hlevel }
    else .error s!"level {value} outside 1..=10"
  else if key = 3 then
    if halign : value ≤ 15 then
      have hvalue : (UInt8.ofNat value).toNat = value := by
        rw [UInt8.toNat_ofNat', Nat.mod_eq_of_lt (by omega)]
      .ok { p with align := UInt8.ofNat value, halign := by rw [hvalue]; exact halign }
    else .error s!"align {value} outside 0..=15"
  else .error s!"unknown param key {key}"

def decodePairs : Nat → Option Nat → CompressParams → Bytes → Except String (CompressParams × Bytes)
  | 0, _, p, bytes => .ok (p, bytes)
  | pairs + 1, lastKey, p, bytes => do
      let (key, _, bytes) ← cborUintHeader bytes 0x00 "uint key"
      if lastKey.any (key ≤ ·) then .error "params map keys not in canonical order"
      else
        let (value, _, bytes) ← cborUintHeader bytes 0x00 "uint value"
        let p ← setParam p key value
        decodePairs pairs (some key) p bytes

/-- The map of parameters; no bytes at all are the defaults. -/
def decodeParams (bytes : Bytes) : Except String CompressParams :=
  if bytes = [] then .ok default
  else do
    let (pairs, head, bytes) ← cborUintHeader bytes 0xA0 "map"
    if 23 < head then .error "params map too large"
    else
      let (p, bytes) ← decodePairs pairs none default bytes
      if bytes ≠ [] then .error "trailing bytes after params map" else .ok p

/-! ## Header -/

/-- The magic, the header's own length, the geometry, the version and the padding. -/
def encodeHeader (h : Header) : Bytes :=
  [0x43, 0x49, 0x53, 0x4F] ++ Wire.toLe 4 HEADER_LEN ++ Wire.toLe 8 h.total.toNat ++
    Wire.toLe 4 h.blockSize.toNat ++ [1, h.align, 0, 0]

def parseHeader (bytes : Bytes) : Except String Header :=
  if bytes.length ≠ HEADER_LEN then .error s!"header is {bytes.length} of {HEADER_LEN} bytes"
  else if slice bytes 0 4 ≠ [0x43, 0x49, 0x53, 0x4F] then
    .error "bad magic: not a CSO v1 container"
  else if bytes.getD 20 0 ≠ 1 then .error s!"unsupported CSO version {bytes.getD 20 0}"
  else
    let blockSize := UInt32.ofNat (Wire.ofLe (slice bytes 16 4))
    if ¬ isPowerOfTwo blockSize.toNat then .error s!"block size {blockSize} not a power of two"
    else
      .ok { total := UInt64.ofNat (Wire.ofLe (slice bytes 8 8))
            blockSize
            align := bytes.getD 21 0 }

/-! ## Blocks -/

/-- `u64` arithmetic as the component is built, without overflow checks. -/
def wrap64 (n : Nat) : Nat := n % 2 ^ 64

def divCeil (n k : Nat) : Nat := (n + k - 1) / k

/-- The plaintext lengths of the blocks, in order. -/
def blockLens (total bs : Nat) : List Nat :=
  (List.range (divCeil total bs)).map fun i => min (total - i * bs) bs

/-- The first and the last block that a window touches, if it touches any. -/
def touchedBlocks (total bs offset len : Nat) : Option (Nat × Nat) :=
  let start := min offset total
  let stop := min (min (offset + len) (2 ^ 64 - 1)) total
  if stop ≤ start then none else some (start / bs, (stop - 1) / bs)

/-- The compressor the component is built with. -/
structure Codec where
  deflate : Bytes → UInt8 → Bytes
  inflate : Bytes → Except String Bytes

variable (codec : Codec)

/-- The bytes to write for a block, and whether they are stored plaintext. -/
def deflateBlock (plain : Bytes) (level : UInt8) : Bytes × Bool :=
  let compressed := codec.deflate plain level
  if plain.length ≤ compressed.length then (plain, true) else (compressed, false)

def decodeBlock (extent : Bytes) (stored : Bool) (plainLen blockIx : Nat) : Except String Bytes :=
  if stored then
    if extent.length < plainLen then .error s!"stored block {blockIx} shorter than plaintext"
    else .ok (extent.take plainLen)
  else
    match codec.inflate extent with
    | .error e => .error s!"block {blockIx} does not inflate: {e}"
    | .ok plain =>
      if plain.length ≠ plainLen then
        .error s!"block {blockIx} inflated to {plain.length} of {plainLen} bytes"
      else .ok plain

/-! ## Host reads -/

def readExactAt (ix offset n : Nat) (what : String) (next : Bytes → Program UInt8) :
    Program UInt8 :=
  .readAt ix offset n fun bytes =>
    if bytes.length ≠ n then
      .refuse s!"{what}: wanted {n} bytes at {offset}, got {bytes.length}"
    else next bytes

def readExactSeq (ix n : Nat) (what : String) (next : Bytes → Program UInt8) : Program UInt8 :=
  if 2 ^ 32 ≤ n then .refuse s!"{what}: read of {n} bytes"
  else
    .read ix n fun bytes =>
      if bytes.length ≠ n then .refuse s!"{what}: wanted {n} bytes, stream ended early"
      else next bytes

/-! ## Compressing -/

def tooLarge : String := "output exceeds CSO v1 31-bit offset space; raise align"

/-- An index entry: an offset in units of the alignment, and the flag. -/
def indexEntry (offset : Nat) (stored : Bool) : Nat :=
  if stored then offset ||| STORED_FLAG else offset

/-- The first pass, over the remaining blocks: the index so far, the output's end so far
and the position in the image. -/
def sizingPass (params : CompressParams) (next : List Nat → Nat → Program UInt8) :
    List Nat → List Nat → Nat → Nat → Program UInt8
  | [], index, cursor, _ => next index cursor
  | plainLen :: lens, index, cursor, pos =>
    let cursor := alignUp (1 <<< params.align.toNat) cursor
    let entryOff := cursor >>> params.align.toNat
    if OFFSET_MASK < entryOff then .refuse tooLarge
    else
      readExactAt 0 pos plainLen "iso block" fun plain =>
        let (bytes, stored) := deflateBlock codec plain params.level
        sizingPass params next lens (index ++ [indexEntry entryOff stored])
          (cursor + bytes.length) (pos + plainLen)

/-- The second pass: what is missing to the alignment, and the block. -/
def writePass (params : CompressParams) : List Nat → Nat → Nat → Program UInt8
  | [], _, _ => .done
  | plainLen :: lens, cursor, pos =>
    let pad := alignUp (1 <<< params.align.toNat) cursor - cursor
    let block :=
      readExactAt 0 pos plainLen "iso block" fun plain =>
        let (bytes, _) := deflateBlock codec plain params.level
        .write 0 bytes
          (writePass params lens (cursor + pad + bytes.length) (pos + plainLen))
    if 0 < pad then .write 0 (List.replicate pad 0) block else block

/-- What follows the first pass. -/
def writeOut (params : CompressParams) (total : Nat) (index : List Nat) (cursor : Nat) :
    Program UInt8 :=
  let bs := params.blockSize.toNat
  let endOff := alignUp (1 <<< params.align.toNat) cursor >>> params.align.toNat
  if OFFSET_MASK < endOff then .refuse tooLarge
  else
    .write 0
      (encodeHeader
        { total := UInt64.ofNat total, blockSize := params.blockSize, align := params.align })
      (.write 0 ((index ++ [endOff]).flatMap (Wire.toLe 4))
        (writePass codec params (blockLens total bs)
          (HEADER_LEN + (divCeil total bs + 1) * 4) 0))

def compress (params : CompressParams) : Program UInt8 :=
  .inputLen 0 fun total =>
    let bs := params.blockSize.toNat
    let entries := divCeil total bs + 1
    if 2 ^ 64 ≤ entries then .refuse "block count overflow"
    else if 2 ^ 32 ≤ entries then .refuse "block count exceeds memory"
    else if 2 ^ 31 ≤ entries * 4 then .trap false
    else
      sizingPass codec params (writeOut codec params total) (blockLens total bs) []
        (HEADER_LEN + entries * 4) 0

/-! ## Decompressing -/

def parseIndex (bytes : Bytes) : List Nat :=
  (List.range (bytes.length / 4)).map fun i => Wire.ofLe (slice bytes (i * 4) 4)

/-- The offset an entry stands for. -/
def entryOffset (align : UInt8) (entry : Nat) : Nat :=
  wrap64 ((entry &&& OFFSET_MASK) <<< (align.toNat % 64))

/-- The remaining blocks, from the position in the file. -/
def inflatePass (align : UInt8) (index : List Nat) : List (Nat × Nat) → Nat → Program UInt8
  | [], _ => .done
  | (plainLen, i) :: lens, filePos =>
    match index[i]?, index[i + 1]? with
    | some entry, some after =>
      let dataOff := entryOffset align entry
      let nextOff := entryOffset align after
      if dataOff < filePos ∨ nextOff < dataOff then
        .refuse s!"index entry {i} goes backwards"
      else
        let block :=
          readExactSeq 0 (nextOff - dataOff) "block extent" fun extent =>
            match decodeBlock codec extent (entry &&& STORED_FLAG ≠ 0) plainLen i with
            | .error message => .refuse message
            | .ok plain => .write 0 plain (inflatePass align index lens nextOff)
        if filePos < dataOff then readExactSeq 0 (dataOff - filePos) "padding" fun _ => block
        else block
    | _, _ => .trap false

def decompress : Program UInt8 :=
  readExactSeq 0 HEADER_LEN "header" fun bytes =>
    match parseHeader bytes with
    | .error message => .refuse message
    | .ok header =>
      let total := header.total.toNat
      let bs := header.blockSize.toNat
      let indexLen := wrap64 ((divCeil total bs + 1) * 4)
      readExactSeq 0 indexLen "index" fun bytes =>
        inflatePass codec header.align (parseIndex bytes) (blockLens total bs).zipIdx
          (wrap64 (HEADER_LEN + indexLen))

/-! ## Serving windows -/

/-- The touched blocks in order; of each, what lies in the window. -/
def servePass (header : Header) (index : List Nat) (winStart winEnd first : Nat) :
    List Nat → Program UInt8
  | [] => .done
  | block :: blocks =>
    let bs := header.blockSize.toNat
    match index[block - first]?, index[block - first + 1]? with
    | some entry, some after =>
      let dataOff := entryOffset header.align entry
      let nextOff := entryOffset header.align after
      if nextOff < dataOff then .refuse s!"index entry {block} goes backwards"
      else if 2 ^ 32 ≤ nextOff - dataOff then .refuse "block extent too large"
      else
        readExactAt 0 dataOff (nextOff - dataOff) "block extent" fun extent =>
          let plainLen := min (header.total.toNat - block * bs) bs
          match decodeBlock codec extent (entry &&& STORED_FLAG ≠ 0) plainLen block with
          | .error message => .refuse message
          | .ok plain =>
            let lo := min (winStart - block * bs) plainLen
            let hi := min (winEnd - block * bs) plainLen
            let rest := servePass header index winStart winEnd first blocks
            if lo < hi then .write 0 (slice plain lo (hi - lo)) rest else rest
    | _, _ => .trap false

def serveDecompressedRange (offset len : UInt64) : Program UInt8 :=
  readExactAt 0 0 HEADER_LEN "header" fun bytes =>
    match parseHeader bytes with
    | .error message => .refuse message
    | .ok header =>
      let total := header.total.toNat
      match touchedBlocks total header.blockSize.toNat offset.toNat len.toNat with
      | none => .done
      | some (first, last) =>
        let sliceLen := wrap64 ((last - first + 2) * 4)
        if 2 ^ 32 ≤ sliceLen then .refuse "index slice too large"
        else
          readExactAt 0 (wrap64 (HEADER_LEN + first * 4)) sliceLen "index slice" fun bytes =>
            servePass codec header (parseIndex bytes) (min offset.toNat total)
              (min (min (offset.toNat + len.toNat) (2 ^ 64 - 1)) total) first
              (List.range' first (last + 1 - first))

/-! ## The component -/

/-- `inputs` are the shapes of the inputs and `outputs` how many outputs are claimed. -/
def run (op : String) (params : Bytes) (inputs : List Shape) (outputs : Nat) : Program UInt8 :=
  match inputs with
  | [input] =>
    if outputs ≠ 1 then .refuse s!"expected 1 output, got {outputs}"
    else if op = "compress" then
      match decodeParams params with
      | .error message => .refuse message
      | .ok params =>
        if input = .randomAccess then compress codec params
        else .refuse "expected a random-access input"
    else if op = "decompress" then
      if params ≠ [] then .refuse "decompress takes no params"
      else if input = .sequential then decompress codec
      else .refuse "expected a sequential input"
    else .refuse s!"unknown op {repr op}"
  | _ => .refuse s!"expected 1 input, got {inputs.length}"

def serveRange (op : String) (params : Bytes) (inputs : List Shape) (outputIx : Nat)
    (offset len : UInt64) : Program UInt8 :=
  if op ≠ "decompress" then .refuse s!"op {repr op} does not serve ranges"
  else if params ≠ [] then .refuse "decompress takes no params"
  else if outputIx ≠ 0 then .refuse s!"no output {outputIx}: decompress is 1-output"
  else
    match inputs with
    | [input] =>
      if input = .randomAccess then serveDecompressedRange codec offset len
      else .refuse "expected a random-access input"
    | _ => .refuse s!"expected 1 input, got {inputs.length}"

/-! ## What the host gets -/

/-- A host with one input and one output without a limit. -/
def ports (input : Guest.Input IoError UInt8) (written : Bytes) : Guest.Ports IoError UInt8 where
  inputs := [input]
  sinks := [.open written]

/-- The container of an image, which the host offers for random access. -/
def compressed (params image : Bytes) : Option Bytes :=
  collect ((run codec "compress" params [.randomAccess] 1).run maxRead
    (ports (.randomAccess (.ofList image)) []))

def decompressed (cso : Bytes) : Option Bytes :=
  collect ((run codec "decompress" [] [.sequential] 1).run maxRead
    (ports (.sequential (.feed cso 0)) []))

def served (cso : Bytes) (offset len : UInt64) : Option Bytes :=
  collect ((serveRange codec "decompress" [] [.randomAccess] 0 offset len).run maxRead
    (ports (.randomAccess (.ofList cso)) []))

end Datboi.Cso
