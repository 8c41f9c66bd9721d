import Datboi.Ingest.MintRebuilds

/-!
# Containers rebuilt from their deflate streams

A zip container is cut into the deflate streams that can be split into plaintext and
corrections, and everything else. What is left becomes one skeleton blob, each stream gets a
recipe that recreates it, and one more recipe puts the container together again. A stream
that refuses to be split stays in the skeleton.
-/

namespace Datboi

open Reader (slice)

namespace Preflate

/-! ## Members -/

inductive Method where
  | stored
  | deflate
  deriving DecidableEq, Repr

/-- A member whose raw data lies at `dataStart` in the container. -/
structure Member where
  name : String
  method : Method
  compSize : Nat
  dataStart : Nat
  deriving DecidableEq, Repr

/-- What the central directory lists: members to work on, and the names and reasons of those
that are not supported. -/
structure Parsed where
  members : List Member
  skipped : List (String × String)

/-- A local entry or an empty archive. -/
def looksLikeZip (head : Bytes) : Bool :=
  [0x50, 0x4b, 0x03, 0x04].isPrefixOf head || [0x50, 0x4b, 0x05, 0x06].isPrefixOf head

/-- The code outside that the analyzer calls: the reader of central directories, the split of
a deflate stream into plaintext and corrections, and the component that undoes it. -/
structure Tools where
  parseMembers : Bytes → Except String Parsed
  split : Bytes → Except String (Bytes × Bytes)
  component : Bytes

/-! ## Ranges -/

/-- A span of the container. -/
structure Span where
  start : Nat
  len : Nat
  deriving DecidableEq, Repr

/-- A member's data and where the member stands among the deflate members. -/
structure Range extends Span where
  ix : Nat
  deriving DecidableEq, Repr

/-- The order of the tuples `(start, len, ix)`. -/
def Range.le (a b : Range) : Bool :=
  a.start < b.start || a.start == b.start && (a.len < b.len || a.len == b.len && a.ix ≤ b.ix)

def deflateRanges (members : List Member) : List Range :=
  (members.zipIdx.map fun (member, ix) => ⟨⟨member.dataStart, member.compSize⟩, ix⟩).insertionSort
    fun a b => a.le b

/-- The ranges are ordered, disjoint and inside the container. -/
def rangesSane (containerSize : Nat) : Nat → List Range → Bool
  | _, [] => true
  | prevEnd, range :: rest =>
    if range.start < prevEnd ∨ u64Limit ≤ range.start + range.len ∨
        containerSize < range.start + range.len then false
    else rangesSane containerSize (range.start + range.len) rest

/-! ## Splitting -/

/-- One member's split products. -/
structure MemberSplit where
  streamHash : Blake3
  correctionsHash : Blake3
  correctionsLen : Nat
  plaintextHash : Blake3
  plaintextLen : Nat
  deriving DecidableEq

structure Covered extends Span where
  split : MemberSplit
  deriving DecidableEq

/-- Split one stream, and store its plaintext and its corrections. A refusal leaves nothing
behind. -/
def splitMember (host : Host) (tools : Tools) (image : Bytes) (span : Span) :
    MintM (Except String MemberSplit) := fun s =>
  match readAt (ρ := Empty) image span.start span.len with
  | .error _ => .error .io s
  | .ok stream =>
    match tools.split stream with
    | .error refusal => .ok (.error refusal) s
    | .ok (plaintext, corrections) =>
      match s.store.putNew host .data ⟨plaintext, none⟩ with
      | .error e => .error (.store e) s
      | .ok (plaintextHash, store) =>
        let (db, _) :=
          s.db.upsertBlob plaintextHash (some plaintext.length) .data .resident
        let s := { s with store := store, db := db }
        let correctionsHash := host.blake3 corrections
        match s.store.put host .data correctionsHash ⟨corrections, none⟩ with
        | .error e => .error (.store e) s
        | .ok (_, store) =>
          .ok (.ok ⟨host.blake3 stream, correctionsHash, corrections.length,
            plaintextHash, plaintext.length⟩) { s with store := store }

/-- Every range in turn: what is covered, and the refusals. -/
def splitMembers (host : Host) (tools : Tools) (image : Bytes) :
    List Range → MintM (List Covered × List (Nat × String))
  | [] => pure ([], [])
  | range :: rest => do
      match ← splitMember host tools image range.toSpan with
      | .ok split =>
        let (covered, failures) ← splitMembers host tools image rest
        pure (⟨range.toSpan, split⟩ :: covered, failures)
      | .error refusal =>
        let (covered, failures) ← splitMembers host tools image rest
        pure (covered, (range.ix, refusal) :: failures)

/-! ## The skeleton -/

def skeletonLimit : Nat := 64 * 1024 * 1024

/-- The spans between and behind the covered ones; empty gaps are left out. -/
def gaps (containerSize : Nat) : Nat → List Span → List Span
  | prevEnd, [] =>
    if prevEnd < containerSize then [⟨prevEnd, containerSize - prevEnd⟩] else []
  | prevEnd, span :: rest =>
    if prevEnd < span.start then
      ⟨prevEnd, span.start - prevEnd⟩ :: gaps containerSize (span.start + span.len) rest
    else gaps containerSize (span.start + span.len) rest

/-- Read the gaps one after another. -/
def readGaps (image : Bytes) : List Span → Except MintError Bytes
  | [] => .ok []
  | gap :: rest =>
    match readAt (ρ := Empty) image gap.start gap.len with
    | .error _ => .error .io
    | .ok piece =>
      match readGaps image rest with
      | .error e => .error e
      | .ok skeleton => .ok (piece ++ skeleton)

/-- The segments of the rebuild: gaps out of the skeleton, streams out of their own inputs,
the first stream being input `rangeIx + 1`. -/
def segments (containerSize : Nat) :
    Nat → Nat → Nat → List Span → Except MintError (List Segment)
  | _, skelOff, prevEnd, [] =>
    .ok (if prevEnd < containerSize then [.blobRange 0 skelOff (containerSize - prevEnd)]
      else [])
  | rangeIx, skelOff, prevEnd, span :: rest =>
    if rangeIx + 1 < 2 ^ 32 then
      let gap := span.start - prevEnd
      match segments containerSize (rangeIx + 1) (skelOff + gap) (span.start + span.len) rest with
      | .error e => .error e
      | .ok behind =>
        let stream := .blobRange (rangeIx + 1) 0 span.len :: behind
        .ok (if prevEnd < span.start then .blobRange 0 skelOff gap :: stream else stream)
    else .error .panicked

/-! ## Minting -/

/-- Store bytes under their hash and index them as resident. -/
def publishBlob (host : Host) (bytes : Bytes) : MintM Unit := fun s =>
  let hash := host.blake3 bytes
  match s.store.put host .data hash ⟨bytes, none⟩ with
  | .error e => .error (.store e) s
  | .ok (_, store) =>
    .ok () { s with
      store := store
      db := (s.db.upsertBlob hash (some bytes.length) .data .resident).1 }

/-- Publish the component once for each analyzer, and index it every time. -/
def ensureComponent (host : Host) (component : Bytes) (published : Bool) : MintM Unit := fun s =>
  if published then
    .ok () { s with
      db := (s.db.upsertBlob (host.blake3 component) (some component.length) .data .resident).1 }
  else publishBlob host component s

def recreateRecipe (component : Blake3) (covered : Covered) : Recipe where
  op := .wasm component .transform1 "recreate"
  inputs := [⟨covered.split.correctionsHash, some "skeleton"⟩, ⟨covered.split.plaintextHash, none⟩]
  outputs := [⟨covered.split.streamHash, covered.len, none⟩]
  params := []

/-- Index what a stream comes from, and mint its recreation. The stream itself lives inside
the container. -/
def mintRecreate (host : Host) (component : Blake3) (covered : Covered) : MintM Nat := fun s =>
  let split := covered.split
  let db := (s.db.upsertBlob split.correctionsHash (some split.correctionsLen) .data .resident).1
  let db := (db.upsertBlob split.plaintextHash (some split.plaintextLen) .data .resident).1
  let db := (db.upsertBlob split.streamHash (some covered.len) .data .absent).1
  mintRecipe host (recreateRecipe component covered) .opaqueSeek { s with db := db }

def mintRecreates (host : Host) (component : Blake3) : List Covered → MintM Unit
  | [] => pure ()
  | covered :: rest => do
      let _ ← mintRecreate host component covered
      mintRecreates host component rest

/-- The recipe that puts the container together again. -/
def containerRecipe (item : Blake3) (containerSize : Nat) (skeleton : Blake3)
    (covered : List Covered) : Except MintError Recipe :=
  match segments containerSize 0 0 0 (covered.map Covered.toSpan) with
  | .error e => .error e
  | .ok segments =>
    assembleRecipe (⟨skeleton, some "skeleton"⟩ ::
        covered.map fun covered => ⟨covered.split.streamHash, none⟩)
      ⟨item, containerSize, none⟩ segments

/-! ## The analyzer -/

/-- Why a container stays literal, or what became of it. -/
inductive Analysis where
  | notZip
  | parseFailed (error : String)
  | unsupported (skipped : Nat)
  | noDeflate
  | insaneRanges
  | noneSplit (failures : List (Nat × String))
  | skeletonTooLong (len : Nat)
  | rebuildable (covered : List Covered) (skeletonLen : Nat) (failures : List (Nat × String))

/-- Cut the container at its covered spans and mint what rebuilds it. -/
def mintContainer (host : Host) (tools : Tools) (published : Bool) (item : Blake3)
    (containerSize : Nat) (image : Bytes) (covered : List Covered) : MintM Nat := do
  let skeleton ← MintM.lift (readGaps image (gaps containerSize 0 (covered.map Covered.toSpan)))
  publishBlob host skeleton
  ensureComponent host tools.component published
  mintRecreates host (host.blake3 tools.component) covered
  let recipe ← MintM.lift (containerRecipe item containerSize (host.blake3 skeleton) covered)
  let _ ← mintRecipe host recipe .affine
  pure skeleton.length

/-- Split the members and rebuild from what could be split. -/
def splitAndMint (host : Host) (tools : Tools) (published : Bool) (item : Blake3)
    (containerSize : Nat) (image : Bytes) (ranges : List Range) : MintM Analysis := do
  let (covered, failures) ← splitMembers host tools image ranges
  if covered = [] then return .noneSplit failures
  let skeletonLen := containerSize - (covered.map fun one => one.len).sum
  if skeletonLimit < skeletonLen then return .skeletonTooLong skeletonLen
  let skeletonLen ← mintContainer host tools published item containerSize image covered
  return .rebuildable covered skeletonLen failures

/-- `PreflateZipAnalyzer::analyze` on an item whose size the index may know. -/
def analyze (host : Host) (tools : Tools) (published : Bool) (item : Blake3) (size : Option Nat)
    (image : Bytes) : MintM Analysis :=
  let containerSize := size.getD image.length
  if looksLikeZip (image.take 4) = false then pure .notZip
  else
    match tools.parseMembers image with
    | .error error => pure (.parseFailed error)
    | .ok parsed =>
      let members := parsed.members.filter (·.method = .deflate)
      let ranges := deflateRanges members
      if parsed.skipped ≠ [] then pure (.unsupported parsed.skipped.length)
      else if members = [] then pure .noDeflate
      else if rangesSane containerSize 0 ranges = false then pure .insaneRanges
      else splitAndMint host tools published item containerSize image ranges

end Preflate

end Datboi
