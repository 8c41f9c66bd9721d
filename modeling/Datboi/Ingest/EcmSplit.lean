import Datboi.Xf.Ecm

/-!
# Splitting an image into stripped bytes and a layout

The reader walks a blob on the sector grid and hands out stripped bytes in whatever
pieces it is asked for, and accumulates the runs of the layout on the side.
-/

namespace Datboi.Ecm

/-- The reader over what is left of a blob. -/
structure EcmSplitReader where
  src : Bytes
  remaining : Nat
  records : List LayoutRecord
  pending : Bytes
  pendingPos : Nat

namespace EcmSplitReader

def new (src : Bytes) (size : Nat) : EcmSplitReader where
  src
  remaining := size
  records := []
  pending := []
  pendingPos := 0

/-- A run continues the last one of its kind, unless the count would overflow. -/
def pushRun (records : List LayoutRecord) (kind : UInt8) (count : UInt32) : List LayoutRecord :=
  match records.getLast? with
  | some last =>
    if last.kind = kind ∧ last.count.toNat + count.toNat < 2 ^ 32 then
      records.dropLast ++ [{ last with count := last.count + count }]
    else records ++ [{ kind, count }]
  | none => [{ kind, count }]

/-- Take the next sector, or what is left when that is less. -/
def advance (reader : EcmSplitReader) : Except IoError EcmSplitReader :=
  let take := min reader.remaining SECTOR
  if take = 0 then .ok reader
  else if reader.src.length < take then .error {}
  else
    let raw := reader.src.take take
    let reader := { reader with src := reader.src.drop take, remaining := reader.remaining - take }
    match classifySector raw with
    | some (kind, stripped) =>
      .ok { reader with
        records := pushRun reader.records kind 1
        pending := stripped
        pendingPos := 0 }
    | none =>
      .ok { reader with
        records := pushRun reader.records 0 (UInt32.ofNat raw.length)
        pending := raw
        pendingPos := 0 }

/-- Make some bytes pending; nothing at the end. -/
def fill : Nat → EcmSplitReader → Except IoError (Option EcmSplitReader)
  | 0, _ => .ok none
  | fuel + 1, reader =>
    if reader.pendingPos = reader.pending.length then
      if reader.remaining = 0 then .ok none
      else do fill fuel (← reader.advance)
    else .ok (some reader)

/-- Read into a buffer of `count` bytes. Every round of filling takes a byte or more. -/
def read (reader : EcmSplitReader) (count : Nat) : Except IoError (Bytes × EcmSplitReader) := do
  match ← fill (reader.remaining + 1) reader with
  | none => return ([], reader)
  | some filled =>
    let n := min (filled.pending.length - filled.pendingPos) count
    return ((filled.pending.drop filled.pendingPos).take n,
      { filled with pendingPos := filled.pendingPos + n })

/-- Read into buffers of these sizes, one after the other. -/
def readAll (reader : EcmSplitReader) : List Nat → Except IoError (Bytes × EcmSplitReader)
  | [] => .ok ([], reader)
  | count :: counts => do
      let (got, reader) ← reader.read count
      let (rest, reader) ← reader.readAll counts
      return (got ++ rest, reader)

/-- No buffer gets any more bytes. -/
def Drained (reader : EcmSplitReader) : Prop :=
  ∀ count, ∃ after, reader.read count = .ok ([], after)

end EcmSplitReader

/-- The layout blob of a list of records. -/
def encodeLayout (records : List LayoutRecord) : Bytes := records.flatMap encodeRecord

/-- How many stripped bytes a record covers. -/
def LayoutRecord.span (r : LayoutRecord) : Nat :=
  r.count.toNat * (strippedLen r.kind).getD 1

/-- Records of known kinds and nonzero counts that partition the stripped bytes. -/
structure ValidLayout (records : List LayoutRecord) (stripped : Bytes) : Prop where
  kinds : ∀ r ∈ records, r.kind ≤ 3
  counts : ∀ r ∈ records, r.count ≠ 0
  partitions : (records.map LayoutRecord.span).sum = stripped.length

end Datboi.Ecm
