import Datboi.Catalog.Names
import Datboi.Core.Recipe
import Datboi.Lib.Pairing
import Datboi.Lib.Wire
import Mathlib.Data.Int.ConditionallyCompleteOrder
import Mathlib.Order.ConditionallyCompleteLattice.Basic
import Mathlib.Data.List.Lex
import Mathlib.Data.List.Sort
import Mathlib.Data.Prod.Lex
import Mathlib.Order.WithBot

/-!
# Comparing two revisions of a dat

The entries of two revisions are matched by stable key, then by name, then by content where
that is unique on both sides. Entries left over were added or removed; a matched pair was
rehashed, renamed or left as it was.
-/

namespace Datboi.Catalog

/-! ## Entries -/

/-- A claim without its name: what the fingerprint of an entry reads. -/
structure ClaimContent where
  kind : Int
  size : Option Int := none
  crc32 : Option Bytes := none
  md5 : Option Bytes := none
  sha1 : Option Bytes := none
  sha256 : Option Bytes := none
  deriving DecidableEq

/-- A row of the entry table with its claims. Neither names nor claims are unique. -/
structure DatEntry where
  name : Text
  stableKey : Option Text := none
  claims : List ClaimContent := []
  deriving DecidableEq

namespace ClaimContent

/-- How a digest column sorts: `NULL` first, then by bytes. -/
def digestKey (digest : Option Bytes) : WithBot (List Nat) :=
  digest.map fun bytes => bytes.map UInt8.toNat

/-- `ORDER BY kind, size, crc32, md5, sha1, sha256`. -/
def sortKey (claim : ClaimContent) : Int ×ₗ WithBot Int ×ₗ WithBot (List Nat) ×ₗ
    WithBot (List Nat) ×ₗ WithBot (List Nat) ×ₗ WithBot (List Nat) :=
  toLex (claim.kind, toLex ((claim.size : WithBot Int), toLex (digestKey claim.crc32,
    toLex (digestKey claim.md5, toLex (digestKey claim.sha1, digestKey claim.sha256)))))

def int64Le (n : Int) : Bytes := Wire.toLe 8 (n % 2 ^ 64).toNat

/-- A digest with its length, or the largest length for none. -/
def encodeDigest : Option Bytes → Bytes
  | some digest => Wire.toLe 8 digest.length ++ digest
  | none => Wire.toLe 8 (2 ^ 64 - 1)

def encode (claim : ClaimContent) : Bytes :=
  int64Le claim.kind ++ int64Le (claim.size.getD (-1)) ++ encodeDigest claim.crc32 ++
    encodeDigest claim.md5 ++ encodeDigest claim.sha1 ++ encodeDigest claim.sha256

end ClaimContent

variable (hash : Bytes → Blake3)

/-- The content of an entry, whatever order its claims were listed in. -/
def DatEntry.fingerprint (entry : DatEntry) : Blake3 :=
  hash ((entry.claims.insertionSort fun a b => a.sortKey ≤ b.sortKey).flatMap
    ClaimContent.encode)

structure DiffEntry where
  name : Text
  stableKey : Option Text
  fingerprint : Blake3
  matched : Bool := false
  deriving DecidableEq

def loadEntries (entries : List DatEntry) : List DiffEntry :=
  entries.map fun entry => ⟨entry.name, entry.stableKey, entry.fingerprint hash, false⟩

/-! ## Matching -/

namespace Diff

open Pairing (pairUp)

/-- The key of the entry at a position. -/
def keyAt {κ : Type} (key : DiffEntry → Option κ) (entries : List DiffEntry) (i : Nat) :
    Option κ :=
  entries[i]?.bind key

/-- Pair entries with the last entry of the old side that has the same key. -/
def pairBy {κ : Type} [DecidableEq κ] (oldKey newKey : DiffEntry → Option κ)
    (old new : List DiffEntry) : List (Nat × Nat) :=
  pairUp (keyAt oldKey old) old.length (keyAt newKey new) new.length

def mark (entries : List DiffEntry) (positions : List Nat) : List DiffEntry :=
  entries.mapIdx fun i entry => if i ∈ positions then { entry with matched := true } else entry

def matchedAt (entries : List DiffEntry) (i : Nat) : Bool :=
  (entries[i]?.map DiffEntry.matched).getD false

/-- Pass 1: the stable key. -/
def keyPairs (old new : List DiffEntry) : List (Nat × Nat) :=
  (pairBy DiffEntry.stableKey DiffEntry.stableKey old new).filter fun pair =>
    !matchedAt old pair.1

/-- Pass 2: the name of an entry that has no match yet. -/
def freeName (entry : DiffEntry) : Option Text := if entry.matched then none else some entry.name

def namePairs (old new : List DiffEntry) : List (Nat × Nat) := pairBy freeName freeName old new

/-- Pass 3: the fingerprint of an entry that has no match yet and shares it with no other
such entry. -/
def uniqueFingerprint (entries : List DiffEntry) (entry : DiffEntry) : Option Blake3 :=
  if entry.matched = false ∧ (entries.countP fun other =>
      other.matched = false ∧ other.fingerprint = entry.fingerprint) = 1 then
    some entry.fingerprint
  else none

def fingerprintPairs (old new : List DiffEntry) : List (Nat × Nat) :=
  pairBy (uniqueFingerprint old) (uniqueFingerprint new) old new

/-- The pairs of all passes, and the entries with their marks. -/
structure Matching where
  pairs : List (Nat × Nat)
  old : List DiffEntry
  new : List DiffEntry

/-- Add the pairs of a pass; entries are marked only once it is over. -/
def Matching.pass (matching : Matching)
    (find : List DiffEntry → List DiffEntry → List (Nat × Nat)) : Matching :=
  let found := find matching.old matching.new
  { pairs := matching.pairs ++ found
    old := mark matching.old (found.map Prod.fst)
    new := mark matching.new (found.map Prod.snd) }

def matchEntries (old new : List DiffEntry) : Matching :=
  (((Matching.mk [] old new).pass keyPairs).pass namePairs).pass fingerprintPairs

end Diff

/-! ## The report -/

structure Rehashed where
  nameOld : Text
  nameNew : Text
  deriving DecidableEq

structure DatDiff where
  provider : Text
  system : Text
  revisionOld : Nat
  revisionNew : Nat
  entriesOld : Nat
  entriesNew : Nat
  added : List Text
  removed : List Text
  renamed : List (Text × Text)
  rehashed : List Rehashed
  deriving DecidableEq

def DatDiff.isEmpty (diff : DatDiff) : Bool :=
  diff.added.isEmpty && diff.removed.isEmpty && diff.renamed.isEmpty && diff.rehashed.isEmpty

namespace Diff

/-- The entries of a pair. -/
def Matching.entriesOf (matching : Matching) (pair : Nat × Nat) : Option (DiffEntry × DiffEntry) := do
  let old ← matching.old[pair.1]?
  let new ← matching.new[pair.2]?
  return (old, new)

def Matching.rehashed (matching : Matching) : List Rehashed :=
  matching.pairs.filterMap fun pair => do
    let (old, new) ← matching.entriesOf pair
    guard (old.fingerprint ≠ new.fingerprint)
    return ⟨old.name, new.name⟩

def Matching.renamed (matching : Matching) : List (Text × Text) :=
  matching.pairs.filterMap fun pair => do
    let (old, new) ← matching.entriesOf pair
    guard (old.fingerprint = new.fingerprint ∧ old.name ≠ new.name)
    return (old.name, new.name)

/-- The names of the entries without a match. -/
def leftover (entries : List DiffEntry) : List Text :=
  (entries.filter fun entry => !entry.matched).map DiffEntry.name

def sortNames (names : List Text) : List Text := names.insertionSort fun a b => ¬ b < a

/-- Compare the entries of two revisions. -/
def report (provider system : Text) (revisionOld revisionNew : Nat) (old new : List DatEntry) :
    DatDiff :=
  let matching := matchEntries (loadEntries hash old) (loadEntries hash new)
  { provider := provider
    system := system
    revisionOld := revisionOld
    revisionNew := revisionNew
    entriesOld := old.length
    entriesNew := new.length
    added := sortNames (leftover matching.new)
    removed := sortNames (leftover matching.old)
    renamed := matching.renamed.insertionSort fun a b =>
      ¬ (b.1 < a.1 ∨ (b.1 = a.1 ∧ b.2 < a.2))
    rehashed := matching.rehashed.insertionSort fun a b => ¬ b.nameNew < a.nameNew }

end Diff

structure DatSource where
  sourceId : Nat
  provider : Text
  system : Text

structure DatRevision where
  revisionId : Nat
  sourceId : Nat
  materialized : Bool
  entries : List DatEntry

inductive DiffError where
  | unknownSource (provider system : Text)
  | noPreviousRevision (provider system : Text)
  deriving DecidableEq

/-- Compare the two newest materialized revisions of a source. -/
def diffSource (sources : List DatSource) (revisions : List DatRevision)
    (provider system : Text) : Except DiffError DatDiff :=
  match sources.find? fun source => source.provider = provider ∧ source.system = system with
  | none => .error (.unknownSource provider system)
  | some source =>
    let newest := (revisions.filter fun revision =>
      revision.sourceId = source.sourceId ∧ revision.materialized).insertionSort fun a b =>
        b.revisionId ≤ a.revisionId
    match newest with
    | new :: old :: _ =>
      .ok (Diff.report hash provider system old.revisionId new.revisionId old.entries new.entries)
    | _ => .error (.noPreviousRevision provider system)

end Datboi.Catalog
