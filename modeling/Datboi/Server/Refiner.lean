import Datboi.Index.SweepRuns
import Datboi.Lib.Rows

/-!
# The refinement workers

One prime thread enqueues and drains, any number of drones drain. A wake takes the inbox of
fresh blobs and writes queue rows family by family; while a family drains, the inbox is taken
again for that family alone. A claim for a fallback family is held back as long as an enabled
structural family has the blob queued, so the order of the classes rests on structural rows
being written first.
-/

namespace Datboi

inductive AnalyzerClass where
  | structural
  | fallback
  deriving DecidableEq, Repr

def AnalyzerClass.rank : AnalyzerClass → Nat
  | .structural => 0
  | .fallback => 1

/-- An analyzer as the scheduler sees it. -/
structure Analyzer where
  id : Blake3
  cls : AnalyzerClass
  candidacy : Candidacy := {}
  enabled : Bool := true
  deriving DecidableEq, Repr

/-- The swept analyzers, as listed; identities are distinct. -/
structure Roster where
  families : List Analyzer
  ids_nodup : (families.map Analyzer.id).Nodup

namespace Refiner

/-- The roster in class order. -/
def sweepRoster (roster : Roster) : List Analyzer :=
  Rows.sortBy (fun analyzer => analyzer.cls.rank) roster.families

/-- The enabled families of a lower class. -/
def blockedBy (roster : Roster) (analyzer : Analyzer) : List Blake3 :=
  ((sweepRoster roster).filter fun other =>
    other.cls.rank < analyzer.cls.rank ∧ other.enabled).map Analyzer.id

def sweepLeaseSecs : Int := 15 * 60

/-! ## Threads -/

/-- A transaction of an enqueue pass. -/
inductive Statement where
  | fresh
  | prune
  | insert
  deriving DecidableEq, Repr

/-- An enqueue pass: what it was woken with, and the transactions it has still to make. -/
structure Pass where
  fresh : List Nat
  ambientDue : Bool
  todo : List (Analyzer × Statement)

/-- What a pass does for one family. -/
def statements (fresh : List Nat) (ambientDue : Bool) (analyzer : Analyzer) :
    List (Analyzer × Statement) :=
  if analyzer.enabled then
    (if fresh = [] then [] else [(analyzer, .fresh)]) ++
      if ambientDue then [(analyzer, .prune), (analyzer, .insert)] else []
  else []

/-- All transactions of a pass. -/
def script (roster : Roster) (fresh : List Nat) (ambientDue : Bool) :
    List (Analyzer × Statement) :=
  (sweepRoster roster).flatMap (statements fresh ambientDue)

/-- Where the prime is. -/
inductive Prime where
  | waiting
  | enqueueing (pass : Pass)
  | draining (current : Option Analyzer) (todo : List Analyzer)

structure State where
  sweep : Sweep
  inbox : List Nat := []
  prime : Prime := .waiting

/-- A step of some thread. -/
inductive Step where
  /-- Ingests, analyses and maintenance write the index. -/
  | index (db : Db) (sourceFileBlobs absentEligible : List Nat)
  | notifyFresh (blobIds : List Nat)
  | wake (ambientDue : Bool)
  /-- The next transaction of the pass. -/
  | enqueue (nowUnix : Int)
  /-- A transaction of the pass failed. -/
  | abandon
  | enterFamily
  /-- The mid-drain enqueue. -/
  | takeFresh (nowUnix : Int)
  | leaveFamily
  /-- `process_round`, by the prime or a drone. -/
  | claim (analyzer : Analyzer) (nowUnix : Int)
  | renew (blobId : Nat) (analyzer : Blake3) (nowUnix : Int)
  | complete (blobId : Nat) (analyzer : Blake3) (outcome : AnalysisOutcome)
      (detail : Option String) (atUnix : Int)
  | defer (blobId : Nat) (analyzer : Blake3) (waitingOn : Blake3)
  | bumpDatMatchedPriorities

/-- The transaction that a statement of the pass stands for. -/
def statementOp (fresh : List Nat) (nowUnix : Int) : Analyzer × Statement → SweepOp
  | (analyzer, .fresh) => .enqueueFresh analyzer.id analyzer.candidacy fresh nowUnix
  | (analyzer, .prune) => .prune analyzer.id analyzer.candidacy nowUnix
  | (analyzer, .insert) => .insertUnanalyzed analyzer.id analyzer.candidacy nowUnix

def claimOp (roster : Roster) (analyzer : Analyzer) (nowUnix : Int) : SweepOp :=
  .claim analyzer.id (blockedBy roster analyzer) 1 nowUnix sweepLeaseSecs

namespace State

variable (roster : Roster) (s : State)

def onSweep (op : SweepOp) : State := { s with sweep := op.apply s.sweep }

/-- Take the inbox and start a pass. -/
def wake (ambientDue : Bool) : State :=
  match s.prime with
  | .waiting => { s with
      inbox := []
      prime := .enqueueing ⟨s.inbox, ambientDue, script roster s.inbox ambientDue⟩ }
  | _ => s

def enqueue (nowUnix : Int) : State :=
  match s.prime with
  | .enqueueing ⟨fresh, ambientDue, next :: todo⟩ =>
    { s.onSweep (statementOp fresh nowUnix next) with
      prime := .enqueueing ⟨fresh, ambientDue, todo⟩ }
  | .enqueueing ⟨_, _, []⟩ => { s with prime := .draining none (sweepRoster roster) }
  | _ => s

def abandon : State :=
  match s.prime with
  | .enqueueing _ => { s with prime := .waiting }
  | _ => s

/-- Go on with the next family, if it is enabled and has work. -/
def enterFamily : State :=
  match s.prime with
  | .draining none [] => { s with prime := .waiting }
  | .draining none (analyzer :: todo) =>
    if analyzer.enabled ∧ s.sweep.queue.any fun row => row.analyzer = analyzer.id then
      { s with prime := .draining (some analyzer) todo }
    else { s with prime := .draining none todo }
  | _ => s

/-- Mid-drain ingests jump the line: the inbox is enqueued for the family that drains, and for
no other. -/
def takeFresh (nowUnix : Int) : State :=
  match s.prime with
  | .draining (some analyzer) _ =>
    if s.inbox = [] then s
    else { s.onSweep (.enqueueFresh analyzer.id analyzer.candidacy s.inbox nowUnix) with
      inbox := [] }
  | _ => s

def leaveFamily : State :=
  match s.prime with
  | .draining (some _) todo => { s with prime := .draining none todo }
  | _ => s

/-- One step; a thread that is elsewhere does nothing. -/
def apply : Step → State
  | .index db sourceFileBlobs absentEligible =>
    s.onSweep (.index db sourceFileBlobs absentEligible)
  | .notifyFresh blobIds => { s with inbox := s.inbox ++ blobIds }
  | .wake ambientDue => s.wake roster ambientDue
  | .enqueue nowUnix => s.enqueue roster nowUnix
  | .abandon => s.abandon
  | .enterFamily => s.enterFamily
  | .takeFresh nowUnix => s.takeFresh nowUnix
  | .leaveFamily => s.leaveFamily
  | .claim analyzer nowUnix =>
    if analyzer ∈ roster.families ∧ analyzer.enabled then
      s.onSweep (claimOp roster analyzer nowUnix)
    else s
  | .renew blobId analyzer nowUnix => s.onSweep (.renew blobId analyzer nowUnix sweepLeaseSecs)
  | .complete blobId analyzer outcome detail atUnix =>
    s.onSweep (.complete blobId analyzer outcome detail atUnix)
  | .defer blobId analyzer waitingOn => s.onSweep (.defer blobId analyzer waitingOn)
  | .bumpDatMatchedPriorities => s.onSweep .bumpDatMatchedPriorities

/-- The blobs that a step claims. -/
def claimed : Step → List (Nat × Blake3)
  | .claim analyzer nowUnix =>
    if analyzer ∈ roster.families ∧ analyzer.enabled then
      (claimOp roster analyzer nowUnix).claimed s.sweep
    else []
  | _ => []

def run (steps : List Step) : State := steps.foldl (State.apply roster) s

end State

end Refiner

end Datboi
