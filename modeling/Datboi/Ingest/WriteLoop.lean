import Mathlib.Algebra.GroupWithZero.Nat
import Mathlib.Data.List.Basic
import Mathlib.Order.Lattice

/-!
# The ingest write loop

One thread walks the sources, checks each file against the scan cache, hands the rest
to a pool of hashing workers within a byte budget, and applies every position's
outcome in walk order. It talks to the pool over two channels. The machine below
takes one statement of the writer, or one move of a worker, at a time.
-/

namespace Datboi.Ingest

/-- One more than the largest `u64`. -/
def u64Bound : Nat := 2 ^ 64

/-- `u64::saturating_add`. -/
def saturatingAddU64 (a b : Nat) : Nat := min (a + b) (u64Bound - 1)

/-- `u64::saturating_mul`. -/
def saturatingMulU64 (a b : Nat) : Nat := min (a * b) (u64Bound - 1)

structure IngestConfig where
  skipperCap : Nat
  rescan : Bool := false
  parallelism : Nat := 0
  skipperCap_lt : skipperCap < u64Bound

/-- What the walk reads about a file. -/
structure Metadata where
  mtimeNs : Int
  size : Nat
  size_lt : size < u64Bound

variable (π κ δ ω : Type)

/-- One position of the walk. -/
inductive Walked where
  | note (text : String)
  | failed (path : π) (error : String)
  | file (path : π) (metadata : Metadata)

structure Job where
  seq : Nat
  path : π
  canonical : κ
  metadata : Metadata
  weight : Nat

inductive Staged where
  | unchanged
  | work (job : Job π κ)

/-- What a worker sends back. -/
structure Done where
  seq : Nat
  path : π
  weight : Nat
  work : ω

/-- The outcome of one position, as the writer applies it. -/
inductive Retire where
  | note (text : String)
  | failed (path : π) (error : String)
  | unchanged
  | work (path : π) (weight : Nat) (work : ω)

/-- What retiring an outcome gives back to the budget. -/
def Retire.refund {π ω : Type} : Retire π ω → Nat
  | .work _ weight _ => weight
  | _ => 0

/-- What the loop runs on: the machine and its file system, the scan cache, the
workers' hashing, and the writer's bookkeeping `δ`, which is the index together with
the report. `canonicalize` sees the file system as it is when a position is staged. -/
structure Ingester where
  config : IngestConfig
  availableParallelism : Nat
  availableParallelism_pos : 0 < availableParallelism
  hasDetectors : Bool
  canonicalize : Nat → π → Except String κ
  lookupUnchangedSource : δ → κ → Metadata → Except String Bool
  hashFile : Job π κ → ω
  retire : δ → Retire π ω → δ

namespace IngestConfig

/-- The worker count the config asks for, never zero. -/
def workers (config : IngestConfig) (availableParallelism : Nat) : Nat :=
  if 0 < config.parallelism then config.parallelism else availableParallelism

/-- The ceiling on dispatched but unretired bytes, never below `skipperCap`. -/
def inflightCap (config : IngestConfig) (availableParallelism : Nat) : Nat :=
  max (saturatingMulU64 (config.workers availableParallelism) (64 * 1024 * 1024)) config.skipperCap

end IngestConfig

/-- Whether the in-flight budget has room for `weight`. -/
def admits (inflight cap weight : Nat) : Bool :=
  weight = 0 || inflight = 0 || saturatingAddU64 inflight weight ≤ cap

variable {π κ δ ω}

namespace Ingester

variable (ingester : Ingester π κ δ ω)

def workers : Nat := ingester.config.workers ingester.availableParallelism

def cap : Nat := ingester.config.inflightCap ingester.availableParallelism

/-- What a file may buffer whole. -/
def weight (metadata : Metadata) : Nat :=
  if !ingester.hasDetectors || ingester.config.skipperCap < metadata.size then 0
  else metadata.size

/-- A cache hit, unless the config asks for every path to be read again. -/
def isUnchanged (db : δ) (canonical : κ) (metadata : Metadata) : Except String Bool :=
  if ingester.config.rescan then .ok false
  else ingester.lookupUnchangedSource db canonical metadata

/-- Canonicalize, key and cache-check one file. -/
def stage (db : δ) (seq : Nat) (path : π) (metadata : Metadata) :
    Except String (Staged π κ) := do
  let canonical ← ingester.canonicalize seq path
  if ← ingester.isUnchanged db canonical metadata then return .unchanged
  return .work ⟨seq, path, canonical, metadata, ingester.weight metadata⟩

end Ingester

/-! ## The machine -/

/-- Ceiling on unretired walk positions. -/
def reorderCap : Nat := 256

/-- Where the writer stands: at the head of the loop, in the walk or the retire loop,
before the exit test, or blocked on the done channel. -/
inductive Pc where
  | top
  | walk
  | retire
  | decide
  | waiting
  | finished
  deriving DecidableEq

variable (π κ δ ω)

/-- The writer's locals, the two channels and the jobs that workers hold. `applied`
records what was retired, in order. -/
structure State where
  walk : List (Walked π)
  db : δ
  filesScanned : Nat := 0
  nextSeq : Nat := 0
  retireSeq : Nat := 0
  pending : List (Nat × Retire π ω) := []
  inflightBytes : Nat := 0
  outstanding : Nat := 0
  walking : Bool := true
  held : Option (Job π κ) := none
  pc : Pc := .top
  jobs : List (Job π κ) := []
  busy : List (Job π κ) := []
  done : List (Done π ω) := []
  applied : List (Retire π ω) := []

variable {π κ δ ω}

namespace State

/-- `BTreeMap::insert` on the reorder buffer. -/
def park (s : State π κ δ ω) (seq : Nat) (item : Retire π ω) : State π κ δ ω :=
  { s with pending := (seq, item) :: s.pending.filter fun entry => entry.1 ≠ seq }

/-- Hand one job to the pool, charging its weight. The pool outlives the loop, so the
send cannot fail. -/
def dispatch (s : State π κ δ ω) (job : Job π κ) : State π κ δ ω :=
  { s with
    inflightBytes := saturatingAddU64 s.inflightBytes job.weight
    outstanding := s.outstanding + 1
    jobs := s.jobs ++ [job] }

/-- Dispatch a job if the budget has room, otherwise hold it. -/
def offer (s : State π κ δ ω) (cap : Nat) (job : Job π κ) : State π κ δ ω :=
  if admits s.inflightBytes cap job.weight then { s.dispatch job with held := none }
  else { s with held := some job }

/-- Take one position of the walk. -/
def visit (ingester : Ingester π κ δ ω) (s : State π κ δ ω) : Walked π → State π κ δ ω
  | .note text => s.park (s.nextSeq - 1) (.note text)
  | .failed path error => s.park (s.nextSeq - 1) (.failed path error)
  | .file path metadata =>
    let s := { s with filesScanned := s.filesScanned + 1 }
    match ingester.stage s.db (s.nextSeq - 1) path metadata with
    | .error error => s.park (s.nextSeq - 1) (.failed path error)
    | .ok .unchanged => s.park (s.nextSeq - 1) .unchanged
    | .ok (.work job) => s.offer ingester.cap job

/-- Apply one outcome. -/
def apply (ingester : Ingester π κ δ ω) (s : State π κ δ ω) (item : Retire π ω) :
    State π κ δ ω :=
  { s with
    pending := s.pending.filter fun entry => entry.1 ≠ s.retireSeq
    retireSeq := s.retireSeq + 1
    inflightBytes := s.inflightBytes - item.refund
    db := ingester.retire s.db item
    applied := s.applied ++ [item] }

/-- The writer's next statement; `none` while the done channel is empty, and after the
return. -/
def write (ingester : Ingester π κ δ ω) (s : State π κ δ ω) : Option (State π κ δ ω) :=
  match s.pc with
  | .top =>
    match s.held with
    | none => some { s with pc := .walk }
    | some job => some { s.offer ingester.cap job with pc := .walk }
  | .walk =>
    if s.held.isNone ∧ s.walking ∧ s.pending.length + s.outstanding < reorderCap then
      match s.walk with
      | [] => some { s with walking := false, pc := .retire }
      | position :: rest =>
        some (visit ingester { s with walk := rest, nextSeq := s.nextSeq + 1 } position)
    else some { s with pc := .retire }
  | .retire =>
    match s.pending.lookup s.retireSeq with
    | some item => some (s.apply ingester item)
    | none => some { s with pc := .decide }
  | .decide =>
    if s.outstanding = 0 then
      if !s.walking && s.pending.isEmpty && s.held.isNone then some { s with pc := .finished }
      else some { s with pc := .top }
    else some { s with pc := .waiting }
  | .waiting =>
    match s.done with
    | [] => none
    | result :: rest =>
      let s := { s with done := rest, outstanding := s.outstanding - 1, pc := .top }
      some (s.park result.seq (.work result.path result.weight result.work))
  | .finished => none

/-- An idle worker takes the next job. -/
def take (ingester : Ingester π κ δ ω) (s : State π κ δ ω) : Option (State π κ δ ω) :=
  match s.jobs with
  | [] => none
  | job :: rest =>
    if s.busy.length < ingester.workers then some { s with jobs := rest, busy := s.busy ++ [job] }
    else none

/-- The worker with the `i`-th of the jobs under way sends its result. -/
def finish (ingester : Ingester π κ δ ω) (s : State π κ δ ω) (i : Nat) : Option (State π κ δ ω) :=
  (s.busy[i]?).map fun job =>
    { s with
      busy := s.busy.eraseIdx i
      done := s.done ++ [⟨job.seq, job.path, job.weight, ingester.hashFile job⟩] }

end State

/-- One move of the writer or of a worker. -/
inductive Move where
  | write
  | take
  | finish (i : Nat)

namespace State

def step (ingester : Ingester π κ δ ω) (s : State π κ δ ω) : Move → Option (State π κ δ ω)
  | .write => s.write ingester
  | .take => s.take ingester
  | .finish i => s.finish ingester i

/-- A schedule, as far as its moves are possible. -/
def run (ingester : Ingester π κ δ ω) (s : State π κ δ ω) (moves : List Move) :
    Option (State π κ δ ω) :=
  moves.foldlM (step ingester) s

def start (walk : List (Walked π)) (db : δ) : State π κ δ ω := { walk, db }

end State

end Datboi.Ingest
