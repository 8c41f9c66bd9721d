import Datboi.Index.Gc

/-!
# The sweep queue

Which blobs an analyzer still has to look at. Rows enter by a scan of all candidates or by a
list of fresh blobs, are leased to one worker at a time, and leave when the analysis concludes
or waits for another blob. Workers interleave between transactions.
-/

namespace Datboi

/-- `i64::saturating_add`. -/
def saturatingAddI64 (a b : Int) : Int := max (-2 ^ 63) (min (2 ^ 63 - 1) (a + b))

inductive AnalysisOutcome where
  | negative
  | positive
  deriving DecidableEq, Repr

/-- A row of `analysis`. -/
structure Analysis where
  blobId : Nat
  analyzer : Blake3
  outcome : AnalysisOutcome
  detail : Option String
  analyzedAt : Int
  deriving DecidableEq, Repr

/-- A row of `sweep_queue`. -/
structure SweepRow where
  blobId : Nat
  analyzer : Blake3
  priority : Int
  enqueuedAt : Int
  leasedUntil : Int := 0
  deriving DecidableEq, Repr

/-- A row of `sweep_deferred`. -/
structure Deferral where
  blobId : Nat
  analyzer : Blake3
  waitingOn : Blake3
  deriving DecidableEq, Repr

/-- A claimed item. -/
structure SweepItem where
  blobId : Nat
  hash : Blake3
  size : Option Nat
  priority : Int
  deriving DecidableEq, Repr

def priorityAmbient : Int := 0
def priorityDatMatched : Int := 1
def priorityFresh : Int := 2

/-- What a blob must be like to be an analyzer's candidate. -/
structure Candidacy where
  minSize : Nat := 0
  residentOnly : Bool := false
  deriving DecidableEq, Repr

structure EnqueueReport where
  enqueued : Nat
  pruned : Nat
  deriving DecidableEq, Repr

/-- The tables that the queue's statements read and write. -/
structure Sweep where
  db : Db
  sourceFileBlobs : List Nat := []
  absentEligible : List Nat := []
  analysis : List Analysis := []
  queue : List SweepRow := []
  deferred : List Deferral := []
  deriving DecidableEq

namespace Sweep

/-! ## Predicates -/

/-- A zero-input recipe that has not failed produces the blob. -/
def isGenerated (s : Sweep) (blobId : Nat) : Bool :=
  s.db.recipes.rows.any fun recipe =>
    blobId ∈ recipe.outputIds ∧ recipe.verify ≠ .failed ∧ recipe.inputs = []

/-- Some recipe consumes the blob to build an output that is larger than it. -/
def isPart (s : Sweep) (row : BlobRow) : Bool :=
  s.db.recipes.rows.any fun recipe =>
    row.blobId ∈ recipe.inputIds ∧
      recipe.outputs.any fun output => row.size.any fun size => size < output.size

def isNamed (s : Sweep) (blobId : Nat) : Bool :=
  blobId ∈ s.sourceFileBlobs ∨ s.db.recipes.rows.any fun recipe =>
    recipe.outputs.any fun output => output.blobId = blobId ∧ output.name.isSome

/-- A blob that something cut out and nobody named. -/
def isExtent (s : Sweep) (row : BlobRow) : Bool :=
  s.isGenerated row.blobId ∨ (s.isPart row ∧ s.isNamed row.blobId = false)

/-- The candidacy clauses over a row of `blob`. -/
def admits (s : Sweep) (candidacy : Candidacy) (row : BlobRow) : Bool :=
  s.isExtent row = false ∧ (row.size.all fun size => candidacy.minSize ≤ size) ∧
    (candidacy.residentOnly → row.residency = .resident)

/-- The blob is a data blob that the analyzer could say something about. -/
def isCandidate (s : Sweep) (candidacy : Candidacy) (blobId : Nat) : Bool :=
  (s.db.blobById blobId).any fun row => row.ns = .data ∧ s.admits candidacy row

def isAnalyzed (s : Sweep) (blobId : Nat) (analyzer : Blake3) : Bool :=
  s.analysis.any fun row => row.blobId = blobId ∧ row.analyzer = analyzer

def isQueued (s : Sweep) (blobId : Nat) (analyzer : Blake3) : Bool :=
  s.queue.any fun row => row.blobId = blobId ∧ row.analyzer = analyzer

def isDeferred (s : Sweep) (blobId : Nat) (analyzer : Blake3) : Bool :=
  s.deferred.any fun row => row.blobId = blobId ∧ row.analyzer = analyzer

def isResidentData (s : Sweep) (hash : Blake3) : Bool :=
  (s.db.blobByHash hash).any fun row => row.ns = .data ∧ row.residency = .resident

/-- The item is deferred on a blob that is not a resident data blob. -/
def isWaiting (s : Sweep) (blobId : Nat) (analyzer : Blake3) : Bool :=
  s.deferred.any fun row =>
    row.blobId = blobId ∧ row.analyzer = analyzer ∧ s.isResidentData row.waitingOn = false

/-! ## Statements -/

/-- `INSERT OR IGNORE`. -/
def insertRow (s : Sweep) (row : SweepRow) : Sweep :=
  if s.isQueued row.blobId row.analyzer then s else { s with queue := s.queue ++ [row] }

def updateRows (s : Sweep) (blobId : Nat) (analyzer : Blake3) (f : SweepRow → SweepRow) : Sweep :=
  { s with queue := s.queue.map fun row =>
      if row.blobId = blobId ∧ row.analyzer = analyzer then f row else row }

def deleteRow (s : Sweep) (blobId : Nat) (analyzer : Blake3) : Sweep :=
  { s with queue := s.queue.filter fun row => ¬ (row.blobId = blobId ∧ row.analyzer = analyzer) }

/-! ## Methods -/

/-- The unleased rows whose blob is no candidate any more. -/
def isPruned (s : Sweep) (analyzer : Blake3) (candidacy : Candidacy) (atUnix : Int)
    (row : SweepRow) : Bool :=
  row.analyzer = analyzer ∧ row.leasedUntil ≤ atUnix ∧ s.isCandidate candidacy row.blobId = false

def prune (s : Sweep) (analyzer : Blake3) (candidacy : Candidacy) (atUnix : Int) : Sweep :=
  { s with queue := s.queue.filter fun row => s.isPruned analyzer candidacy atUnix row = false }

/-- The candidates that the analyzer has neither concluded on nor been told to wait with. -/
def unanalyzed (s : Sweep) (analyzer : Blake3) (candidacy : Candidacy) : List BlobRow :=
  s.db.blobs.rows.filter fun row =>
    row.ns = .data ∧ s.admits candidacy row ∧ s.isAnalyzed row.blobId analyzer = false ∧
      s.isWaiting row.blobId analyzer = false

def insertAll (s : Sweep) (rows : List SweepRow) : Sweep := rows.foldl insertRow s

/-- Enqueue every candidate that the analyzer has not analyzed. -/
def insertUnanalyzed (s : Sweep) (analyzer : Blake3) (candidacy : Candidacy) (atUnix : Int) :
    Sweep :=
  s.insertAll ((s.unanalyzed analyzer candidacy).map fun row =>
    ⟨row.blobId, analyzer, priorityAmbient, atUnix, 0⟩)

/-- Prune the analyzer's queue, then enqueue what is missing. The two statements are separate
transactions. -/
def enqueueUnanalyzed (s : Sweep) (analyzer : Blake3) (candidacy : Candidacy) (atUnix : Int) :
    Sweep × EnqueueReport :=
  let pruned := s.prune analyzer candidacy atUnix
  let after := pruned.insertUnanalyzed analyzer candidacy atUnix
  (after, ⟨after.queue.length - pruned.queue.length, s.queue.length - pruned.queue.length⟩)

/-- Insert one fresh blob, or promote its row. This path does not ask what the item waits
for. -/
def enqueueFreshOne (analyzer : Blake3) (candidacy : Candidacy) (atUnix : Int) (s : Sweep)
    (blobId : Nat) : Sweep × Nat :=
  if s.isQueued blobId analyzer = false ∧ s.isAnalyzed blobId analyzer = false ∧
      s.isCandidate candidacy blobId then
    (s.insertRow ⟨blobId, analyzer, priorityFresh, atUnix, 0⟩, 1)
  else
    let promoted := s.queue.filter fun row =>
      row.blobId = blobId ∧ row.analyzer = analyzer ∧ row.priority < priorityFresh
    (s.updateRows blobId analyzer fun row =>
      if row.priority < priorityFresh then { row with priority := priorityFresh } else row,
      promoted.length)

/-- Put just-ingested blobs in the fresh tier; returns the rows inserted or promoted. -/
def enqueueFresh (s : Sweep) (analyzer : Blake3) (candidacy : Candidacy) (blobIds : List Nat)
    (atUnix : Int) : Sweep × Nat :=
  blobIds.foldl (fun (s, touched) blobId =>
    let (s, n) := enqueueFreshOne analyzer candidacy atUnix s blobId
    (s, touched + n)) (s, 0)

/-- Queued blobs that a catalog claim matches go ahead of the ambient tier. -/
def bumpDatMatchedPriorities (s : Sweep) : Sweep × Nat :=
  let bumped := fun row : SweepRow =>
    row.priority < priorityDatMatched ∧ row.blobId ∈ s.db.claimedIdentityBlobs
  ({ s with queue := s.queue.map fun row =>
      if bumped row then { row with priority := priorityDatMatched } else row },
    (s.queue.filter fun row => bumped row).length)

/-- Priority first, then age, then blob id. -/
def claimOrder (a b : SweepRow) : Bool :=
  b.priority < a.priority ∨ (a.priority = b.priority ∧
    (a.enqueuedAt < b.enqueuedAt ∨ (a.enqueuedAt = b.enqueuedAt ∧ a.blobId ≤ b.blobId)))

/-- Rows that a claim at `nowUnix` may return: the bytes are obtainable, no lease is running
and no blocking analyzer has the blob queued. -/
def isClaimable (s : Sweep) (analyzer : Blake3) (blockedBy : List Blake3) (nowUnix : Int)
    (row : SweepRow) : Bool :=
  row.analyzer = analyzer ∧
    ((s.db.blobById row.blobId).any fun blob =>
      blob.residency = .resident ∨ blob.blobId ∈ s.absentEligible) ∧
    row.leasedUntil ≤ nowUnix ∧
    (blockedBy.any fun blocker => s.isQueued row.blobId blocker) = false

def claimable (s : Sweep) (analyzer : Blake3) (blockedBy : List Blake3) (limit : Nat)
    (nowUnix : Int) : List SweepRow :=
  ((s.queue.filter (s.isClaimable analyzer blockedBy nowUnix)).insertionSort
    fun a b => claimOrder a b).take limit

def item (s : Sweep) (row : SweepRow) : Option SweepItem :=
  (s.db.blobById row.blobId).map fun blob => ⟨row.blobId, blob.hash, blob.size, row.priority⟩

/-- `SweepLeaseKeeper::renew`, and the lease that a claim takes. -/
def renew (s : Sweep) (blobId : Nat) (analyzer : Blake3) (nowUnix leaseSecs : Int) : Sweep :=
  s.updateRows blobId analyzer fun row =>
    { row with leasedUntil := saturatingAddI64 nowUnix leaseSecs }

/-- Claim up to `limit` items and lease each. -/
def claimSweepItems (s : Sweep) (analyzer : Blake3) (blockedBy : List Blake3) (limit : Nat)
    (nowUnix leaseSecs : Int) : Sweep × List SweepItem :=
  let rows := s.claimable analyzer blockedBy limit nowUnix
  (rows.foldl (fun s row => s.renew row.blobId analyzer nowUnix leaseSecs) s,
    rows.filterMap s.item)

def releaseSweepLease (s : Sweep) (blobId : Nat) (analyzer : Blake3) : Sweep :=
  s.updateRows blobId analyzer fun row => { row with leasedUntil := 0 }

/-- Write the conclusion, remove the queue row and end any wait. A conclusion about a blob that
is gone violates the foreign key. -/
def completeSweepItem (s : Sweep) (blobId : Nat) (analyzer : Blake3) (outcome : AnalysisOutcome)
    (detail : Option String) (atUnix : Int) : Except IndexError Sweep :=
  if s.db.blobById blobId = none then .error (.foreignKeyViolation blobId)
  else
    let others := fun row : Analysis => ¬ (row.blobId = blobId ∧ row.analyzer = analyzer)
    .ok { s.deleteRow blobId analyzer with
      analysis := s.analysis.filter (fun row => others row) ++
        [⟨blobId, analyzer, outcome, detail, atUnix⟩]
      deferred := s.deferred.filter fun row =>
        ¬ (row.blobId = blobId ∧ row.analyzer = analyzer) }

/-- Let the item wait for a blob, and release its queue row. -/
def deferSweepItem (s : Sweep) (blobId : Nat) (analyzer : Blake3) (waitingOn : Blake3) :
    Except IndexError Sweep :=
  if s.db.blobById blobId = none then .error (.foreignKeyViolation blobId)
  else
    .ok { s.deleteRow blobId analyzer with
      deferred := (s.deferred.filter fun row =>
        ¬ (row.blobId = blobId ∧ row.analyzer = analyzer)) ++ [⟨blobId, analyzer, waitingOn⟩] }

end Sweep

end Datboi
