import Datboi.Core.Host

/-!
# The pipe between two nodes

A bounded queue of chunks between a producer thread and its consumer. The writer may be gone
before the producer's verdict is in, so a reader that finds the channel closed waits for the
verdict and only then chooses between the end of the stream and an error. Either thread may
run between any two atomic steps of the other.
-/

namespace Datboi.Pipe

/-! ## Errors that carry errors -/

inductive ErrorKind where
  | brokenPipe
  | invalidData
  | other
  deriving DecidableEq, Repr

mutual

/-- `io::Error`: a bare kind, or a kind with a boxed error. -/
inductive IoError where
  | simple (kind : ErrorKind)
  | custom (kind : ErrorKind) (payload : Payload)

/-- A boxed error: a verdict about the inputs, another `io::Error`, a message, or an error of
another type that names its source. -/
inductive Payload where
  | deterministic (message : String)
  | io (error : IoError)
  | text (message : String)
  | caused (message : String) (source : Payload)

end

mutual

/-- Down the chain of sources, looking for a verdict. -/
def Payload.walk : Payload → Option String
  | .deterministic message => some message
  | .io error => error.walkSource
  | .text _ => none
  | .caused _ source => source.walk

/-- The source of an `io::Error` is the source of what it carries. -/
def IoError.walkSource : IoError → Option String
  | .simple _ => none
  | .custom _ payload => payload.walkSource

def Payload.walkSource : Payload → Option String
  | .deterministic _ => none
  | .io error => error.walkSource
  | .text _ => none
  | .caused _ source => source.walk

end

/-- The deterministic verdict behind an error, if there is one. -/
def deterministicCause : IoError → Option String
  | .simple _ => none
  | .custom _ (.deterministic message) => some message
  | .custom _ (.io nested) => deterministicCause nested
  | .custom kind payload => (IoError.custom kind payload).walkSource

/-- `io::Error::new` around an `io::Error`. -/
def IoError.wrap (error : IoError) (kind : ErrorKind) : IoError := .custom kind (.io error)

/-! ## The two ends -/

/-- Queue bound in chunks. -/
def depth : Nat := 4

/-- The verdict of a producer, as far as it is in. -/
structure State where
  error : Option String := none
  deterministic : Bool := false
  finished : Bool := false

namespace State

/-- The first failure stays. -/
def failWith (state : State) (message : String) (deterministic : Bool) : State :=
  { (if state.error.isNone then
      { state with error := some message, deterministic := deterministic }
    else state) with finished := true }

def finish (state : State) : State := { state with finished := true }

/-- What a reader reports that has waited for the verdict. -/
def report (state : State) : Option IoError :=
  match state.error with
  | some message =>
    if state.deterministic then some (.custom .invalidData (.deterministic message))
    else some (.custom .other (.text message))
  | none => none

end State

/-- How a read came back: bytes, the end of the stream, or an error. -/
inductive ReadResult where
  | bytes (bytes : Bytes)
  | eof
  | error (error : IoError)

def ReadResult.received : ReadResult → Bytes
  | .bytes out => out
  | _ => []

/-- Where a reader is in a read with a buffer of `len` bytes. -/
inductive ReaderPc where
  | idle
  | receiving (len : Nat)
  | waiting (len : Nat)
  deriving DecidableEq

/-- Both ends, the queue between them and the shared verdict. `written` are the bytes of the
writes that succeeded, `results` what reads came back with, `failures` the verdicts of failure
in the order they were recorded. -/
structure World where
  queue : List Bytes := []
  writerAlive : Bool := true
  readerAlive : Bool := true
  state : State := {}
  current : Bytes := []
  pos : Nat := 0
  pc : ReaderPc := .idle
  producing : Bool := true
  written : Bytes := []
  results : List ReadResult := []
  failures : List (String × Bool) := []

/-- One atomic step of either thread. A producer under a finish guard writes and records
failures until its guard drops; its writer may be dropped before or after that. -/
inductive Step where
  | write (buf : Bytes)
  | dropWriter
  | fail (message : String) (deterministic : Bool)
  | dropGuard (panicking : Bool)
  | beginRead (len : Nat)
  | poll
  | dropReader

namespace World

/-- The bytes a reader has been given. -/
def received (world : World) : Bytes := world.results.flatMap ReadResult.received

/-- A chunk is handed over whole once the queue has room, and refused once the reader is
gone; until then the writer is blocked. -/
def write (world : World) (buf : Bytes) : World :=
  if buf = [] ∨ world.readerAlive = false then world
  else if world.queue.length < depth then
    { world with queue := world.queue ++ [buf], written := world.written ++ buf }
  else world

def fail (world : World) (message : String) (deterministic : Bool) : World :=
  { world with
    state := world.state.failWith message deterministic
    failures := world.failures ++ [(message, deterministic)] }

def dropGuard (world : World) (panicking : Bool) : World :=
  let world := { world with producing := false }
  if panicking then world.fail "producer thread panicked" false
  else { world with state := world.state.finish }

/-- A read that returns. -/
def answer (world : World) (result : ReadResult) : World :=
  { world with pc := .idle, results := world.results ++ [result] }

/-- Copy out of the current chunk. -/
def copyOut (world : World) (len : Nat) : World :=
  let n := min (world.current.length - world.pos) len
  { world with pos := world.pos + n }.answer (.bytes ((world.current.drop world.pos).take n))

/-- One turn of a read's loop, or of its wait. -/
def poll (world : World) : World :=
  match world.pc with
  | .idle => world
  | .receiving len =>
    if world.current.length ≤ world.pos then
      match world.queue with
      | chunk :: rest => { world with queue := rest, current := chunk, pos := 0 }
      | [] => if world.writerAlive then world else { world with pc := .waiting len }
    else world.copyOut len
  | .waiting _ =>
    if world.state.finished then
      match world.state.report with
      | some error => world.answer (.error error)
      | none => world.answer .eof
    else world

/-- A step that its thread cannot take now does nothing. -/
def step (world : World) : Step → World
  | .write buf => if world.producing ∧ world.writerAlive then world.write buf else world
  | .dropWriter => { world with writerAlive := false }
  | .fail message deterministic =>
    if world.producing then world.fail message deterministic else world
  | .dropGuard panicking => if world.producing then world.dropGuard panicking else world
  | .beginRead len =>
    if world.readerAlive ∧ world.pc = .idle then { world with pc := .receiving len } else world
  | .poll => if world.readerAlive then world.poll else world
  | .dropReader =>
    if world.pc = .idle then { world with readerAlive := false, queue := [] } else world

def run (world : World) (steps : List Step) : World := steps.foldl step world

end World

end Datboi.Pipe
