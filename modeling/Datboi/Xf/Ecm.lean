import Datboi.Lib.Wire
import Datboi.Xf.Component

/-!
# CD sector regeneration

A raw sector carries a sync pattern, a checksum and parity that are functions of its
payload. An image is split into stripped bytes, addresses and payloads only, and a
layout of runs; the component rebuilds the image from the two. A sector is stripped only
when rebuilding it gives its own bytes.
-/

namespace Datboi.Ecm

open Guest (Program)
open Reader (slice)
open Xf (Shape collect copyAt)

/-- Bytes per raw sector. -/
abbrev SECTOR : Nat := 2352

def SYNC : Bytes := [0, 0xFF, 0xFF, 0xFF, 0xFF, 0xFF, 0xFF, 0xFF, 0xFF, 0xFF, 0xFF, 0]

/-- Stripped bytes per sector, for the kinds that are sectors. -/
def strippedLen (kind : UInt8) : Option Nat :=
  if kind = 1 then some (3 + 2048)
  else if kind = 2 then some (3 + 8 + 2048)
  else if kind = 3 then some (3 + 8 + 2324)
  else none

/-! ## Checksum -/

/-- An entry of the checksum table. -/
def edcEntry (i : UInt32) : UInt32 :=
  (List.range 8).foldl (fun v _ => (v >>> 1) ^^^ (0xD8018001 * (v &&& 1))) i

def edc (bytes : Bytes) : UInt32 :=
  bytes.foldl (fun e b => (e >>> 8) ^^^ edcEntry ((e ^^^ b.toUInt32) &&& 0xFF)) 0

/-! ## Parity -/

/-- Multiplication by the generator of the field, and the table that inverts `i ^ 2i`. -/
def eccLuts : Array UInt8 × Array UInt8 :=
  (List.range 256).foldl (fun (f, b) i =>
    let j := (i <<< 1) ^^^ (if i &&& 0x80 ≠ 0 then 0x11D else 0)
    (f.setIfInBounds i (UInt8.ofNat (j &&& 0xFF)),
      b.setIfInBounds (i ^^^ (j &&& 0xFF)) (UInt8.ofNat i)))
    (Array.replicate 256 0, Array.replicate 256 0)

/-- One parity pair: the walk over the `minor` bytes from `index` on. -/
def eccWalk (src : Bytes) (zeroAddress : Bool) (size minorInc : Nat) :
    Nat → Nat → UInt8 → UInt8 → UInt8 × UInt8
  | 0, _, eccA, eccB => (eccA, eccB)
  | minor + 1, index, eccA, eccB =>
    let temp := if zeroAddress ∧ index < 4 then 0 else src.getD index 0
    let next := index + minorInc
    eccWalk src zeroAddress size minorInc minor (if size ≤ next then next - size else next)
      (eccLuts.1.getD (eccA ^^^ temp).toNat 0) (eccB ^^^ temp)

/-- One pass over a region: the first parity bytes, then the second ones. -/
def eccPass (src : Bytes) (zeroAddress : Bool) (majorCount minorCount majorMult minorInc : Nat) :
    Bytes :=
  let size := majorCount * minorCount
  let pairs := (List.range majorCount).map fun major =>
    let (eccA, eccB) := eccWalk src zeroAddress size minorInc minorCount
      (major / 2 * majorMult + major % 2) 0 0
    let eccA := eccLuts.2.getD (eccLuts.1.getD eccA.toNat 0 ^^^ eccB).toNat 0
    (eccA, eccA ^^^ eccB)
  pairs.map Prod.fst ++ pairs.map Prod.snd

/-- The parity of a sector whose bytes before it are final. -/
def eccGenerate (sector : Bytes) (zeroAddress : Bool) : Bytes :=
  let p := eccPass (slice sector 12 2064) zeroAddress 86 24 2 86
  let sector := copyAt sector 2076 p
  let q := eccPass (slice sector 12 2236) zeroAddress 52 43 86 88
  copyAt sector 2248 q

/-! ## Sectors -/

/-- The little-endian bytes of a checksum. -/
def edcBytes (bytes : Bytes) : Bytes := Wire.toLe 4 (edc bytes).toNat

/-- One full sector from its stripped bytes, for a kind and a length the caller checked. -/
def rebuildSector (kind : UInt8) (stripped : Bytes) : Bytes :=
  let sector := copyAt (List.replicate SECTOR 0) 0 SYNC
  let sector := copyAt sector 12 (stripped.take 3)
  if kind = 1 then
    let sector := copyAt (sector.set 15 1) 16 (stripped.drop 3)
    eccGenerate (copyAt sector 2064 (edcBytes (sector.take 2064))) false
  else
    let sector := copyAt (sector.set 15 2) 16 (slice stripped 3 8)
    if kind = 2 then
      let sector := copyAt sector 24 (stripped.drop 11)
      eccGenerate (copyAt sector 2072 (edcBytes (slice sector 16 2056))) true
    else
      let sector := copyAt sector 24 (stripped.drop 11)
      copyAt sector 2348 (edcBytes (slice sector 16 2332))

/-- The stripped bytes of a raw sector, if it were of this kind. -/
def stripAs (kind : UInt8) (raw : Bytes) : Bytes :=
  if kind = 1 then slice raw 12 3 ++ slice raw 16 2048
  else if kind = 2 then slice raw 12 3 ++ slice raw 16 8 ++ slice raw 24 2048
  else slice raw 12 3 ++ slice raw 16 8 ++ slice raw 24 2324

/-- The kinds a mode byte allows; the form is not in the header. -/
def candidates (mode : UInt8) : List UInt8 :=
  if mode = 1 then [1] else if mode = 2 then [2, 3] else []

/-- The kind and the stripped bytes of a raw sector that regenerates bit for bit. -/
def classifySector (raw : Bytes) : Option (UInt8 × Bytes) :=
  if raw.length < SECTOR ∨ raw.take 12 ≠ SYNC then none
  else
    (candidates (raw.getD 15 0)).findSome? fun kind =>
      if rebuildSector kind (stripAs kind raw) = raw.take SECTOR then
        some (kind, stripAs kind raw)
      else none

/-! ## Layout records -/

structure LayoutRecord where
  kind : UInt8
  count : UInt32
  deriving DecidableEq, Repr

/-- One record; nothing for an empty slice. -/
def parseRecord (bytes : Bytes) : Except String (Option LayoutRecord) :=
  match bytes with
  | [] => .ok none
  | kind :: rest =>
    if rest.length ≠ 4 then
      .error s!"truncated layout record: {bytes.length} of 5 bytes"
    else if 3 < kind then .error s!"unknown layout record kind {kind}"
    else
      let count := UInt32.ofNat (Wire.ofLe rest)
      if count = 0 then .error "zero-count layout record" else .ok (some { kind, count })

def encodeRecord (r : LayoutRecord) : Bytes := r.kind :: Wire.toLe 4 r.count.toNat

/-- Every round takes five bytes. -/
def parseLayoutLoop : Nat → Bytes → Except String (List LayoutRecord)
  | 0, _ => .ok []
  | fuel + 1, bytes =>
    if bytes = [] then .ok []
    else do
      match ← parseRecord (bytes.take 5) with
      | some r => return r :: (← parseLayoutLoop fuel (bytes.drop 5))
      | none => return []

def parseLayout (bytes : Bytes) : Except String (List LayoutRecord) :=
  parseLayoutLoop bytes.length bytes

/-! ## The component -/

/-- The largest single read of a literal run. -/
abbrev CHUNK : Nat := 8 * 1024 * 1024

/-- The largest layout the component reads. -/
abbrev MAX_LAYOUT : Nat := 64 * 1024 * 1024

/-- Read until a read gives nothing. -/
def readAllLoop (ix : Nat) (next : Bytes → Program UInt8) : Nat → Bytes → Program UInt8
  | 0, _ => .trap true
  | fuel + 1, out =>
    .read ix (1 <<< 20) fun piece =>
      if piece = [] then next out else readAllLoop ix next fuel (out ++ piece)

def readAllSeq (ix : Nat) (what : String) (next : Bytes → Program UInt8) : Program UInt8 :=
  .inputLen ix fun total =>
    if MAX_LAYOUT < total then .refuse s!"{what} implausibly large ({total} bytes)"
    else readAllLoop ix next (total + 1) []

/-- One host read, which is exact or early. -/
def readExactSeq (ix n : Nat) (what : String) (next : Bytes → Program UInt8) : Program UInt8 :=
  .read ix n fun bytes =>
    if bytes.length ≠ n then .refuse s!"{what}: wanted {n} bytes, stream ended early"
    else next bytes

/-- A literal run in chunks. -/
def literalRun (next : Program UInt8) : Nat → Nat → Program UInt8
  | 0, _ => .trap true
  | fuel + 1, remaining =>
    if remaining = 0 then next
    else
      let take := min remaining CHUNK
      readExactSeq 1 take "literal run" fun piece =>
        .write 0 piece (literalRun next fuel (remaining - take))

def sectorRun (kind : UInt8) (per : Nat) (next : Program UInt8) : Nat → Program UInt8
  | 0 => next
  | count + 1 =>
    readExactSeq 1 per "sector payload" fun piece =>
      .write 0 (rebuildSector kind piece) (sectorRun kind per next count)

/-- The records in order, and at the end the check that they cover the stripped bytes. -/
def recreateRecords : List LayoutRecord → Nat → Program UInt8
  | [], consumed =>
    .inputLen 1 fun len =>
      if consumed ≠ len then .refuse s!"layout covers {consumed} of {len} stripped bytes"
      else .done
  | record :: records, consumed =>
    let count := record.count.toNat
    if record.kind = 0 then
      literalRun (recreateRecords records (consumed + count)) (count + 1) count
    else
      match strippedLen record.kind with
      | some per =>
        sectorRun record.kind per (recreateRecords records (consumed + count * per)) count
      | none => .trap false

/-- What follows once the layout has been read. -/
def recreateLayout (strippedShape : Shape) (bytes : Bytes) : Program UInt8 :=
  match parseLayout bytes with
  | .error message => .refuse message
  | .ok layout =>
    if strippedShape ≠ .sequential then .refuse "recreate reads all inputs sequentially"
    else recreateRecords layout 0

/-- `inputs` are the shapes of the inputs and `outputs` how many outputs are claimed. -/
def run (op : String) (params : Bytes) (inputs : List Shape) (outputs : Nat) : Program UInt8 :=
  if op ≠ "recreate" then .refuse s!"unknown op {repr op}"
  else if params ≠ [] then
    .refuse "recreate takes no params: framing lives in the layout blob"
  else
    match inputs with
    | [layoutShape, strippedShape] =>
      if outputs ≠ 1 then .refuse s!"expected 1 output, got {outputs}"
      else if layoutShape ≠ .sequential then .refuse "recreate reads all inputs sequentially"
      else readAllSeq 0 "layout" (recreateLayout strippedShape)
    | _ => .refuse s!"expected 2 inputs (layout, stripped), got {inputs.length}"

/-- What the host gets for a layout and stripped bytes. -/
def recreate (layout stripped : Bytes) : Option Bytes :=
  let ports : Guest.Ports IoError UInt8 :=
    { inputs := [.sequential (.feed layout 0), .sequential (.feed stripped 0)]
      sinks := [.open []] }
  collect ((run "recreate" [] [.sequential, .sequential] 1).run maxRead ports)

end Datboi.Ecm
