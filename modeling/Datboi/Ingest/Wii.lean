import Datboi.Xf.WiiCrypt

/-!
# Verifying a Wii partition body

One pass over an encrypted body decrypts every sector, recomputes each group's hash
tree and compares the hash blocks. A reader over the plaintext decrypts sectors on
demand, with a cache of one sector.
-/

namespace Datboi.Wii

open Reader (slice)
open WiiCrypt

/-- A ticket's key-selecting fields. -/
structure Ticket where
  wrappedTitleKey : Key
  titleId : List.Vector UInt8 8

/-- What the body pass uses of a partition's header. -/
structure PartitionHeader where
  ticket : Ticket
  dataOffset : UInt64
  dataLen : UInt64

namespace PartitionHeader

/-- Sectors in the body. -/
def sectors (part : PartitionHeader) : Nat := part.dataLen.toNat / SECTOR_LEN

/-- The component parameters a recipe for the body carries. -/
def params (part : PartitionHeader) : Params where
  wrappedTitleKey := part.ticket.wrappedTitleKey
  titleId := part.ticket.titleId
  sectors := part.sectors

/-- The body, out of the image. -/
def body (part : PartitionHeader) (image : Bytes) : Bytes :=
  slice image part.dataOffset.toNat (part.sectors * SECTOR_LEN)

def titleKey (prims : Primitives) (part : PartitionHeader) (common : Key) : Key :=
  WiiCrypt.titleKey prims common part.ticket.wrappedTitleKey part.ticket.titleId

end PartitionHeader

structure BodyVerdict where
  bodyHash : Blake3
  plainHash : Blake3
  verified : Bool
  firstBadSector : Option Nat

/-! ## The pass -/

/-- What the pass carries from group to group: the bytes hashed so far, and the
comparison's result. -/
structure Pass where
  bodyHashed : Bytes := []
  plainHashed : Bytes := []
  verified : Bool := true
  firstBad : Option Nat := none

variable (prims : Primitives) (title : Key)

/-- The sectors of a group, as they were read. -/
def groupEnc (enc : Bytes) (s : Nat) : Bytes := slice enc (s * SECTOR_LEN) SECTOR_LEN

/-- The plaintext of a group of `n` sectors: each sector decrypted in full and its hash
block dropped. -/
def groupPlain (n : Nat) (enc : Bytes) : Bytes :=
  (List.range n).flatMap fun s => (decryptSector prims title (groupEnc enc s)).drop HASHES_LEN

/-- The first sector of a group whose decrypted hash block disagrees. -/
def firstMismatch (n : Nat) (enc plain : Bytes) : Option Nat :=
  let hashes := GroupHashes.compute prims plain
  (List.range n).find? fun s =>
    !hashBlockMatches (decryptSector prims title (groupEnc enc s)) hashes s

/-- One group of `n` sectors, the first of which is sector `done` of the body. Once a
hash block disagreed, no further one is compared. -/
def Pass.group (pass : Pass) (done n : Nat) (enc : Bytes) : Pass :=
  let plain := groupPlain prims title n enc
  let hashed := { pass with
    bodyHashed := pass.bodyHashed ++ enc
    plainHashed := pass.plainHashed ++ plain }
  if pass.verified then
    match firstMismatch prims title n enc plain with
    | some s => { hashed with verified := false, firstBad := some (done + s) }
    | none => hashed
  else hashed

/-- The loop over the groups; `fuel` rounds suffice when there are as many sectors. -/
def verifyLoop (img : ByteSource) (dataOffset sectors : Nat) :
    Nat → Nat → Pass → Except IoError Pass
  | 0, _, pass => .ok pass
  | fuel + 1, done, pass =>
    if done < sectors then do
      let n := min (sectors - done) GROUP_SECTORS
      let enc ← img.readExact {} (dataOffset + done * SECTOR_LEN) (n * SECTOR_LEN)
      verifyLoop img dataOffset sectors fuel (done + n) (pass.group prims title done n enc)
    else .ok pass

/-- One sequential pass over a body. A hash block that disagrees is a verdict; only
reading fails. -/
def verifyBody (blake3 : Bytes → Blake3) (img : ByteSource) (part : PartitionHeader)
    (key : Key) : Except IoError BodyVerdict := do
  let pass ← verifyLoop prims (part.titleKey prims key) img part.dataOffset.toNat part.sectors
    part.sectors 0 {}
  return {
    bodyHash := blake3 pass.bodyHashed
    plainHash := blake3 pass.plainHashed
    verified := pass.verified
    firstBadSector := pass.firstBad }

/-! ## The reader -/

structure PlainReader where
  base : Nat
  sectors : Nat
  key : Key
  pos : Nat
  /-- The sector in `data`; no sector has the index it starts with. -/
  cached : Nat
  data : Bytes

namespace PlainReader

def new (part : PartitionHeader) (common : Key) : PlainReader where
  base := part.dataOffset.toNat
  sectors := part.sectors
  key := part.titleKey prims common
  pos := 0
  cached := 2 ^ 64 - 1
  data := List.replicate DATA_LEN 0

/-- Plaintext length. -/
def len (reader : PlainReader) : Nat := reader.sectors * DATA_LEN

/-- Bring a sector into the cache. -/
def load (img : ByteSource) (reader : PlainReader) (sector : Nat) : Except IoError PlainReader :=
  if reader.cached = sector then .ok reader
  else do
    let enc ← img.readExact {} (reader.base + sector * SECTOR_LEN) SECTOR_LEN
    return { reader with data := decryptData prims reader.key enc, cached := sector }

/-- Fill a buffer of `count` bytes, up to the end of the sector. -/
def read (img : ByteSource) (reader : PlainReader) (count : Nat) :
    Except IoError (Bytes × PlainReader) :=
  if reader.len ≤ reader.pos ∨ count = 0 then .ok ([], reader)
  else do
    let sector := reader.pos / DATA_LEN
    let inside := reader.pos % DATA_LEN
    let loaded ← reader.load prims img sector
    let n := min (min (DATA_LEN - inside) count) (reader.len - reader.pos)
    return (slice loaded.data inside n, { loaded with pos := loaded.pos + n })

inductive SeekFrom where
  | start (p : Nat)
  | fromEnd (d : Int)
  | current (d : Int)
  deriving DecidableEq, Repr

/-- A position plus a signed distance, as a 64-bit position. -/
def checkedAddSigned (position : Nat) (d : Int) : Option Nat :=
  if 0 ≤ position + d ∧ position + d < 2 ^ 64 then some (position + d).toNat else none

/-- Where a seek leads, in a stream of `len` bytes. -/
def target (len pos : Nat) : SeekFrom → Option Nat
  | .start p => some p
  | .fromEnd d => checkedAddSigned len d
  | .current d => checkedAddSigned pos d

def seek (reader : PlainReader) (pos : SeekFrom) : Except IoError (Nat × PlainReader) :=
  match target reader.len reader.pos pos with
  | some next => .ok (next, { reader with pos := next })
  | none => .error {}

inductive Request where
  | read (count : Nat)
  | seek (pos : SeekFrom)
  deriving DecidableEq, Repr

inductive Response where
  | bytes (got : Bytes)
  | position (pos : Nat)
  | failed
  deriving DecidableEq, Repr

/-- Answer one request. -/
def step (img : ByteSource) (reader : PlainReader) : Request → Response × PlainReader
  | .read count =>
    match reader.read prims img count with
    | .ok (got, reader) => (.bytes got, reader)
    | .error _ => (.failed, reader)
  | .seek pos =>
    match reader.seek pos with
    | .ok (position, reader) => (.position position, reader)
    | .error _ => (.failed, reader)

/-- The answers to a sequence of requests. -/
def run (img : ByteSource) : PlainReader → List Request → List Response
  | _, [] => []
  | reader, request :: requests =>
    (reader.step prims img request).1 :: run img (reader.step prims img request).2 requests

end PlainReader

end Datboi.Wii
