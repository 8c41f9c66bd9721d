import Mathlib.Algebra.GroupWithZero.Nat
import Mathlib.Data.List.Basic

/-!
# The job ledger

A row is inserted when a job is created, in state `running`, and is finalized once. A row that
is still running when the daemon starts belonged to a process that died. The rows are kept in
the order of their ids: a new row gets the id after the largest one.
-/

namespace Datboi

inductive JobKind where
  | ingest | refine | gc | scrub | eval | mint | sync
  deriving DecidableEq, Repr

inductive LedgerState where
  | running | done | failed | interrupted
  deriving DecidableEq, Repr

/-- A row of the ledger. `detail` is the wire detail that was frozen when the job ended. -/
structure JobRow (β : Type) where
  jobId : Nat
  kind : JobKind
  name : String
  state : LedgerState
  startedAt : Int
  finishedAt : Option Int
  detail : Option β
  deriving DecidableEq, Repr

structure JobLedger (β : Type) where
  rows : List (JobRow β) := []
  sorted : rows.Pairwise (fun row later => row.jobId < later.jobId) := by exact List.Pairwise.nil

/-- The number of finished rows that the ledger keeps. -/
def ledgerKeep : Nat := 500

namespace JobLedger

variable {β : Type}

def lastId (ledger : JobLedger β) : Nat := (ledger.rows.getLast?.map JobRow.jobId).getD 0

theorem le_lastId (ledger : JobLedger β) {row : JobRow β} (hrow : row ∈ ledger.rows) :
    row.jobId ≤ ledger.lastId := by
  rcases List.eq_nil_or_concat ledger.rows with hrows | ⟨rows, last, hrows⟩
  · rw [hrows] at hrow
    cases hrow
  · rw [List.concat_eq_append] at hrows
    have hsorted := ledger.sorted
    rw [hrows] at hrow hsorted
    rw [lastId, hrows, List.getLast?_concat, Option.map_some, Option.getD_some]
    rcases List.mem_append.mp hrow with hrow | hrow
    · exact Nat.le_of_lt ((List.pairwise_append.mp hsorted).2.2 row hrow last (by simp))
    · exact Nat.le_of_eq (congrArg JobRow.jobId (List.mem_singleton.mp hrow))

/-- Open a job's row. The second value is the id of the row. -/
def insertJob (ledger : JobLedger β) (kind : JobKind) (name : String) (startedAt : Int) :
    JobLedger β × Nat :=
  let id := ledger.lastId + 1
  ({ rows := ledger.rows ++ [⟨id, kind, name, .running, startedAt, none, none⟩]
     sorted := by
      refine List.pairwise_append.mpr ⟨ledger.sorted, List.pairwise_singleton _ _, ?_⟩
      intro row hrow later hlater
      rw [List.mem_singleton.mp hlater]
      exact Nat.lt_succ_of_le (ledger.le_lastId hrow) }, id)

/-- An update of the rows that leaves their ids alone. -/
def mapRows (ledger : JobLedger β) (f : JobRow β → JobRow β)
    (hid : ∀ row, (f row).jobId = row.jobId) : JobLedger β where
  rows := ledger.rows.map f
  sorted := by
    rw [List.pairwise_map]
    simpa only [hid] using ledger.sorted

def keepRows (ledger : JobLedger β) (keep : JobRow β → Bool) : JobLedger β where
  rows := ledger.rows.filter keep
  sorted := ledger.sorted.filter _

/-- The row as finalizing it leaves it, which changes only a row that is still running. -/
def finalizeRow (id : Nat) (state : LedgerState) (finishedAt : Int) (detail : Option β)
    (row : JobRow β) : JobRow β :=
  if row.jobId = id ∧ row.state = .running then
    { row with state := state, finishedAt := some finishedAt, detail := detail }
  else row

theorem finalizeRow_jobId (id : Nat) (state : LedgerState) (finishedAt : Int) (detail : Option β)
    (row : JobRow β) : (finalizeRow id state finishedAt detail row).jobId = row.jobId := by
  unfold finalizeRow
  split <;> rfl

def finalizeJob (ledger : JobLedger β) (id : Nat) (state : LedgerState) (finishedAt : Int)
    (detail : Option β) : JobLedger β :=
  ledger.mapRows (finalizeRow id state finishedAt detail)
    (finalizeRow_jobId id state finishedAt detail)

def jobById (ledger : JobLedger β) (id : Nat) : Option (JobRow β) :=
  ledger.rows.find? fun row => row.jobId = id

def interruptRow (now : Int) (row : JobRow β) : JobRow β :=
  if row.state = .running then { row with state := .interrupted, finishedAt := some now } else row

theorem interruptRow_jobId (now : Int) (row : JobRow β) :
    (interruptRow now row).jobId = row.jobId := by
  unfold interruptRow
  split <;> rfl

/-- The sweep at startup: the rows that are still running belonged to a process that died. -/
def interruptRunningJobs (ledger : JobLedger β) (now : Int) : JobLedger β :=
  ledger.mapRows (interruptRow now) (interruptRow_jobId now)

/-- The newest rows, the newest last. -/
def recentJobs (ledger : JobLedger β) (limit : Nat) : List (JobRow β) :=
  (ledger.rows.reverse.take limit).reverse

def finishedRows (ledger : JobLedger β) : List (JobRow β) :=
  ledger.rows.filter fun row => row.state ≠ .running

def isKept (ledger : JobLedger β) (keep : Nat) (row : JobRow β) : Bool :=
  row.state = .running ∨ row.jobId ∈ (ledger.finishedRows.reverse.take keep).map JobRow.jobId

/-- Delete the finished rows that are not among the newest ones. -/
def pruneJobs (ledger : JobLedger β) (keep : Nat) : JobLedger β :=
  ledger.keepRows (ledger.isKept keep)

theorem lastId_mapRows (ledger : JobLedger β) (f : JobRow β → JobRow β)
    (hid : ∀ row, (f row).jobId = row.jobId) : (ledger.mapRows f hid).lastId = ledger.lastId := by
  have hcomp : JobRow.jobId ∘ f = JobRow.jobId := funext hid
  simp only [lastId, mapRows, List.getLast?_map, Option.map_map, hcomp]

@[simp] theorem lastId_finalizeJob (ledger : JobLedger β) (id : Nat) (state : LedgerState)
    (finishedAt : Int) (detail : Option β) :
    (ledger.finalizeJob id state finishedAt detail).lastId = ledger.lastId := lastId_mapRows ..

@[simp] theorem lastId_interruptRunningJobs (ledger : JobLedger β) (now : Int) :
    (ledger.interruptRunningJobs now).lastId = ledger.lastId := lastId_mapRows ..

theorem lastId_insertJob (ledger : JobLedger β) (kind : JobKind) (name : String)
    (startedAt : Int) : (ledger.insertJob kind name startedAt).1.lastId = ledger.lastId + 1 := by
  simp [lastId, insertJob]

/-- The newest row is never deleted, so ids are not given twice. -/
theorem lastId_pruneJobs (ledger : JobLedger β) {keep : Nat} (hkeep : 0 < keep) :
    (ledger.pruneJobs keep).lastId = ledger.lastId := by
  rcases List.eq_nil_or_concat ledger.rows with hrows | ⟨rows, last, hrows⟩
  · simp [lastId, pruneJobs, keepRows, hrows]
  · rw [List.concat_eq_append] at hrows
    have hlast : ledger.isKept keep last = true := by
      refine decide_eq_true ?_
      by_cases hrunning : last.state = .running
      · exact Or.inl hrunning
      · refine Or.inr (List.mem_map.mpr ⟨last, ?_, rfl⟩)
        have hfinished : ledger.finishedRows.reverse =
            last :: (rows.filter fun row => row.state ≠ .running).reverse := by
          simp [finishedRows, hrows, List.filter_append, hrunning]
        rw [hfinished, ← Nat.succ_pred_eq_of_pos hkeep, List.take_succ_cons]
        exact List.mem_cons_self
    change ((ledger.rows.filter _).getLast?.map JobRow.jobId).getD 0 = _
    rw [lastId, hrows, List.filter_append,
      List.filter_cons_of_pos hlast, List.filter_nil, List.getLast?_concat,
      List.getLast?_concat]

theorem mem_pruneJobs {ledger : JobLedger β} {keep : Nat} {row : JobRow β}
    (hrow : row ∈ (ledger.pruneJobs keep).rows) : row ∈ ledger.rows :=
  (List.mem_filter.mp hrow).1

/-- The rows that are read back at startup have different ids. -/
theorem recentJobs_nodup (ledger : JobLedger β) (limit : Nat) :
    ((ledger.recentJobs limit).map JobRow.jobId).Nodup := by
  have hrows : (ledger.rows.map JobRow.jobId).Nodup := by
    rw [List.Nodup, List.pairwise_map]
    exact ledger.sorted.imp fun hlt => Nat.ne_of_lt hlt
  have hsub : (ledger.recentJobs limit).Sublist ledger.rows := by
    have htake := (List.take_sublist limit ledger.rows.reverse).reverse
    rwa [List.reverse_reverse] at htake
  exact hrows.sublist (hsub.map _)

theorem mem_recentJobs {ledger : JobLedger β} {limit : Nat} {row : JobRow β}
    (hrow : row ∈ ledger.recentJobs limit) : row ∈ ledger.rows := by
  have htake := List.mem_of_mem_take (List.mem_reverse.mp hrow)
  exact List.mem_reverse.mp htake

end JobLedger

end Datboi
