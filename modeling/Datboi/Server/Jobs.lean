import Datboi.Index.Jobs
import Mathlib.Data.String.Basic

/-!
# The job registry

The jobs of a running daemon live in memory, oldest first. The ledger gets a row when a job is
created and its frozen detail when the job ends; the newest rows come back into memory when
the daemon starts. The text form of a detail is a parameter.
-/

namespace Datboi.Jobs

inductive JobRunState where
  | running | done | failed
  deriving DecidableEq, Repr

structure IngestErrorItem where
  path : String
  error : String
  deriving DecidableEq, Repr

structure IngestMemberSkipItem where
  path : String
  member : String
  reason : String
  deriving DecidableEq, Repr

structure DatImportedItem where
  path : String
  provider : String
  system : String
  entries : Nat
  deriving DecidableEq, Repr

structure MatchedEntry where
  name : String
  source : String
  deriving DecidableEq, Repr

structure IngestReportBody where
  filesScanned : Nat := 0
  filesUnchanged : Nat := 0
  filesStored : Nat := 0
  filesAlreadyPresent : Nat := 0
  chdDeclared : Nat := 0
  membersClaimed : Nat := 0
  membersExtracted : Nat := 0
  detectorHits : Nat := 0
  skipperSkippedLarge : Nat := 0
  datsImported : List DatImportedItem := []
  errors : List IngestErrorItem := []
  memberSkips : List IngestMemberSkipItem := []
  notes : List String := []
  deriving DecidableEq, Repr

/-- Accumulate one file's report into the running totals. -/
def merge (into file : IngestReportBody) : IngestReportBody where
  filesScanned := into.filesScanned + file.filesScanned
  filesUnchanged := into.filesUnchanged + file.filesUnchanged
  filesStored := into.filesStored + file.filesStored
  filesAlreadyPresent := into.filesAlreadyPresent + file.filesAlreadyPresent
  chdDeclared := into.chdDeclared + file.chdDeclared
  membersClaimed := into.membersClaimed + file.membersClaimed
  membersExtracted := into.membersExtracted + file.membersExtracted
  detectorHits := into.detectorHits + file.detectorHits
  skipperSkippedLarge := into.skipperSkippedLarge + file.skipperSkippedLarge
  datsImported := into.datsImported ++ file.datsImported
  errors := into.errors ++ file.errors
  memberSkips := into.memberSkips ++ file.memberSkips
  notes := into.notes ++ file.notes

/-- The savings summary of a sync. -/
structure SyncSummary where
  peer : String
  recipesFetched : Nat
  recipeBytesFetched : Nat
  piecesFetched : Nat
  pieceBytesFetched : Nat
  piecesAlreadyHeld : Nat
  bytesAlreadyHeld : Nat
  containersRebuilt : Nat
  bytesRebuilt : Nat
  piecesUnavailable : Nat
  sketchWireBytes : Nat
  bytesFetched : Nat
  deriving DecidableEq, Repr

/-- A job in memory. No function reads `owner`: it says which creation of this process pushed
the job, and is empty for a job that was read back from the ledger. -/
structure JobState where
  id : Nat
  kind : JobKind
  name : String
  filesTotal : Nat
  filesDone : Nat := 0
  bytesTotal : Nat
  bytesDone : Nat := 0
  current : Option String := none
  state : JobRunState := .running
  report : IngestReportBody := {}
  matched : List MatchedEntry := []
  matchedTotal : Nat := 0
  sync : Option SyncSummary := none
  error : Option String := none
  startedAt : Int
  finishedAt : Option Int := none
  owner : Option Nat
  deriving DecidableEq, Repr

/-- A row of the tray. -/
structure Job where
  id : Nat
  name : String
  progress : Nat
  kind : JobKind
  state : JobRunState
  startedAt : Int
  finishedAt : Option Int
  deriving DecidableEq, Repr

structure JobDetail where
  job : Job
  filesTotal : Nat
  filesDone : Nat
  bytesTotal : Nat
  bytesDone : Nat
  current : Option String
  report : IngestReportBody
  matched : List MatchedEntry
  matchedTotal : Nat
  error : Option String
  sync : Option SyncSummary
  deriving DecidableEq, Repr

namespace JobState

/-- Progress in percent, by bytes, and at most 99 while the job runs. -/
def progress (job : JobState) : Nat :=
  match job.state with
  | .running => min (job.bytesDone * 100 / max job.bytesTotal 1 % 256) 99
  | .done | .failed => 100

def row (job : JobState) : Job where
  id := job.id
  name := job.name
  progress := job.progress
  kind := job.kind
  state := job.state
  startedAt := job.startedAt
  finishedAt := job.finishedAt

def detailOf (job : JobState) : JobDetail where
  job := job.row
  filesTotal := job.filesTotal
  filesDone := job.filesDone
  bytesTotal := job.bytesTotal
  bytesDone := job.bytesDone
  current := job.current
  report := job.report
  matched := job.matched
  matchedTotal := job.matchedTotal
  error := job.error
  sync := job.sync

end JobState

/-- How a detail is written to a ledger row and read back from it. -/
structure DetailCodec (β : Type) where
  toVec : JobDetail → Option β
  fromSlice : β → Option JobDetail

/-- The state that a ledger row comes back in, with the error that goes with it. -/
def hydratedState : LedgerState → JobRunState × Option String
  | .done => (.done, none)
  | .interrupted =>
    (.failed, some "interrupted: the daemon restarted while this job was running")
  | .failed => (.failed, none)
  | .running => (.failed, none)

/-- A ledger row as a job. A detail that does not parse leaves the columns only. -/
def hydrate {β : Type} (codec : DetailCodec β) (row : JobRow β) : JobState :=
  let job : JobState :=
    { id := row.jobId, kind := row.kind, name := row.name, filesTotal := 0, bytesTotal := 0
      state := (hydratedState row.state).1, error := (hydratedState row.state).2
      startedAt := row.startedAt, finishedAt := row.finishedAt, owner := none }
  match row.detail.bind codec.fromSlice with
  | none => job
  | some detail =>
    { job with
      filesTotal := detail.filesTotal
      filesDone := detail.filesDone
      bytesTotal := detail.bytesTotal
      bytesDone := detail.bytesDone
      report := detail.report
      matched := detail.matched
      matchedTotal := detail.matchedTotal
      error := job.error.or detail.error
      sync := detail.sync }

/-- What a caller asks for when it creates a job. -/
structure NewJob where
  kind : JobKind
  name : String
  filesTotal : Nat
  bytesTotal : Nat
  deriving DecidableEq, Repr

/-- A job over the staged uploads, given by their sizes. -/
def create (files : List Nat) : NewJob where
  kind := .ingest
  name := "ingest — " ++ toString files.length ++ " file" ++ if files.length = 1 then "" else "s"
  filesTotal := files.length
  bytesTotal := files.sum

def createRefine (family : String) (queued : Nat) : NewJob :=
  ⟨.refine, "refine — " ++ family, queued, queued⟩

def createGc (name : String) (items : Nat) : NewJob := ⟨.gc, name, items, items⟩

def createScrub (name : String) (items : Nat) : NewJob := ⟨.scrub, name, items, items⟩

def createEval (view : String) : NewJob := ⟨.eval, "eval — " ++ view, 0, 0⟩

def createMint (view : String) : NewJob := ⟨.mint, "mint — " ++ view, 0, 0⟩

/-- The name shows the start of the peer's id, which is in hexadecimal. -/
def createSync (peer : String) : NewJob :=
  ⟨.sync, "sync — peer " ++ String.ofList (peer.toList.take 8) ++ "…", 0, 0⟩

/-- What a caller reports of a job between its creation and its end. -/
inductive JobUpdate where
  | setSync (summary : SyncSummary)
  | refineProgress (done total : Nat)
  | refineError (blob error : String)
  | pushNote (note : String)
  | setCurrent (name : String)
  | fileDone (bytes : Nat) (perFile : IngestReportBody)
  | setMatched (matched : List MatchedEntry) (total : Nat)
  deriving DecidableEq, Repr

def JobUpdate.apply : JobUpdate → JobState → JobState
  | .setSync summary, job => { job with sync := some summary }
  | .refineProgress done total, job =>
    { job with filesDone := done, filesTotal := total, bytesDone := done, bytesTotal := total }
  | .refineError blob error, job =>
    { job with report :=
        { job.report with errors := job.report.errors ++ [⟨blob, error⟩] } }
  | .pushNote note, job =>
    { job with report := { job.report with notes := job.report.notes ++ [note] } }
  | .setCurrent name, job => { job with current := some name }
  | .fileDone bytes perFile, job =>
    { job with
      current := none
      filesDone := job.filesDone + 1
      bytesDone := job.bytesDone + bytes
      report := merge job.report perFile }
  | .setMatched matched total, job => { job with matched := matched, matchedTotal := total }

/-- The finished jobs that stay in memory. -/
def keepFinished : Nat := 20

/-- The first job with the id is changed, if there is one. -/
def withJob (id : Nat) (f : JobState → JobState) : List JobState → List JobState
  | [] => []
  | job :: rest => if job.id = id then f job :: rest else job :: withJob id f rest

/-- Forget a number of finished jobs, from the front of the list. -/
def dropFinished : Nat → List JobState → List JobState
  | _, [] => []
  | drop, job :: rest =>
    if job.state = .running ∨ drop = 0 then job :: dropFinished drop rest
    else dropFinished (drop - 1) rest

def finishedCount (jobs : List JobState) : Nat :=
  (jobs.filter fun job => job.state ≠ .running).length

/-- Forget the finished jobs beyond those that are kept. -/
def prune (jobs : List JobState) : List JobState :=
  dropFinished (finishedCount jobs - keepFinished) jobs

/-- What a creation of this process gave its caller, and whether the ledger has a row for it. -/
structure Creation where
  id : Nat
  recorded : Bool
  deriving DecidableEq, Repr

/-- The registry of a daemon with a ledger. Only `owner` depends on `created`, the record of the
creations of this process. -/
structure Registry (β : Type) where
  nextId : Nat
  jobs : List JobState
  ledger : JobLedger β
  created : List Creation := []

namespace Registry

variable {β : Type} (codec : DetailCodec β) (registry : Registry β)

/-- What a daemon starts with: the sweep, then the newest rows of the ledger. -/
def durable (ledger : JobLedger β) (now : Int) : Registry β where
  nextId := 1
  jobs := ((ledger.interruptRunningJobs now).recentJobs keepFinished).map (hydrate codec)
  ledger := ledger.interruptRunningJobs now

/-- The ledger gives the id. If its insert fails the job runs unrecorded, under an id from the
counter. -/
def pushJob (job : NewJob) (now : Int) (inserted : Bool) : Registry β × Nat :=
  let (ledger, ledgerId) :=
    if inserted then
      let (ledger, id) := registry.ledger.insertJob job.kind job.name now
      (ledger, some id)
    else (registry.ledger, none)
  let id := ledgerId.getD registry.nextId
  ({ nextId := max registry.nextId id + 1
     jobs := registry.jobs ++
      [{ id := id, kind := job.kind, name := job.name, filesTotal := job.filesTotal,
         bytesTotal := job.bytesTotal, startedAt := now, owner := some registry.created.length }]
     ledger := ledger
     created := registry.created ++ [⟨id, inserted⟩] }, id)

def update (id : Nat) (change : JobUpdate) : Registry β :=
  { registry with jobs := withJob id change.apply registry.jobs }

/-- The detail of a job: from memory, else from the ledger. -/
def detail (id : Nat) : Option JobDetail :=
  match registry.jobs.find? fun job => job.id = id with
  | some job => some job.detailOf
  | none => (registry.ledger.jobById id).map fun row => (hydrate codec row).detailOf

/-- Finalize the ledger's row with the detail, then bound the ledger. -/
def persist (id : Nat) (state : LedgerState) (now : Int) : Registry β :=
  let detail := (registry.detail codec id).bind codec.toVec
  { registry with
    ledger := (registry.ledger.finalizeJob id state now detail).pruneJobs ledgerKeep }

/-- The end of a job: it is marked, the finished jobs are pruned, and it is persisted. -/
def close (id : Nat) (mark : JobState → JobState) (state : LedgerState) (now : Int) :
    Registry β :=
  { registry with jobs := prune (withJob id mark registry.jobs) }.persist codec id state now

def markDone (now : Int) (job : JobState) : JobState :=
  { job with state := .done, current := none, finishedAt := some now }

def markFailed (error : String) (now : Int) (job : JobState) : JobState :=
  { job with state := .failed, current := none, error := some error, finishedAt := some now }

def finish (id : Nat) (now : Int) : Registry β := registry.close codec id (markDone now) .done now

def fail (id : Nat) (error : String) (now : Int) : Registry β :=
  registry.close codec id (markFailed error now) .failed now

end Registry

end Datboi.Jobs
