import Datboi.Exec.Plan

/-!
# Opening plans

A plan node can be opened as a sequential stream or for random access. Affine nodes
translate ranges onto their children; guests stream through a pipe that carries
their verdict; everything else is spilled to a temporary file first. The executor
runs one node at the top and hands each claimed output's stream to a consumer.
-/

namespace Datboi

open Guest (Program)

/-- How random access treats a declared-seekable child: spill it through its known
sequential run, or serve each window in place. -/
inductive Children where
  | materialize
  | serveInPlace
  deriving DecidableEq, Repr

/-- A single guest read may not exceed this. -/
def maxRead : Nat := 16 * 1024 * 1024

/-- The buffer that sequential readers over a random-access source use. -/
def readChunk : Nat := 64 * 1024

def Plan.len : Plan → Nat
  | .literal _ len => len
  | .op _ outputIx outputs _ _ => ((outputs[outputIx]?).map Prod.snd).getD 0

/-! ## Fuel -/

def fuelBase : Nat := 2 ^ 24

def fuelPerByte : Nat := 4096

/-- The byte-scaled fuel budget. -/
def fuelForBytes (bytes : Nat) : Nat :=
  saturatingAdd fuelBase (min (bytes * fuelPerByte) (u64Limit - 1))

def fuelBudget (children : List Nat) (outputs : List (Blake3 × Nat)) : Nat :=
  fuelForBytes (saturatingAdd (children.foldl saturatingAdd 0)
    ((outputs.map Prod.snd).foldl saturatingAdd 0))

/-! ## Assemble nodes -/

/-- The checks of a segment list against its opened children. -/
def checkSegments (children : List ByteSource) : List Segment → Nat → Except String Unit
  | [], _ => .ok ()
  | .blobRange inputIx offset len :: rest, ix =>
    match children[inputIx]? with
    | none => .error ("segment " ++ toString ix ++ ": input " ++ toString inputIx ++ " out of range")
    | some child =>
      if (checkedAdd offset len).all (child.len < ·) then
        .error ("segment " ++ toString ix ++ ": " ++ toString offset ++ "+" ++ toString len ++
          " exceeds input length " ++ toString child.len)
      else checkSegments children rest (ix + 1)
  | _ :: rest, ix => checkSegments children rest (ix + 1)

/-- The bytes of translated pieces, read exactly from the children. -/
def readPieces (children : List ByteSource) : List Piece → Except IoError Bytes
  | [] => .ok []
  | piece :: rest => do
      let head ← match piece with
        | .input inputIx offset len =>
          match children[inputIx]? with
          | none => .error {}
          | some child => child.readExact {} offset len
        | .fill byte len => .ok (List.replicate len byte)
        | .literal bytes => .ok bytes
      let tail ← readPieces children rest
      return head ++ tail

/-- An assemble node as a random-access source. -/
def assembleRandom (params : AssembleParams) (children : List ByteSource) :
    Except String ByteSource :=
  match params.outputSize with
  | .error _ => .error "output size overflows u64"
  | .ok size =>
    match checkSegments children params.segments 0 with
    | .error what => .error what
    | .ok () => .ok
        { len := size
          readAt := fun offset count =>
            let start := min offset size
            let stop := min (saturatingAdd offset count) size
            if start = stop then .ok []
            else
              match translate params start stop with
              | .error _ => .error {}
              | .ok pieces => readPieces children pieces }

/-! ## Guests -/

namespace Executor

variable (exec : Executor)

/-- What a finished guest reports. -/
def verdictResult : Guest.Verdict → Except RuntimeError Unit
  | .done => .ok ()
  | .refused message => .error (.transform message)
  | .trapped outOfFuel => .error (.trap outOfFuel)

/-- Run a guest; a sequential input that ended before its declared length outranks
the guest's own verdict. Also returns what reached each sink. -/
def runGuest (program : Except RuntimeError (Program UInt8))
    (inputs : List (Guest.Input IoError UInt8)) (sinks : List (Guest.Sink UInt8)) :
    Except RuntimeError Unit × List Bytes :=
  match program with
  | .error e => (.error e, sinks.map Guest.Sink.written)
  | .ok program =>
    let (verdict, ports) := program.run maxRead ⟨inputs, sinks⟩
    let result := match ports.endedEarly with
      | some (ix, claimed, actual) => .error (.inputLengthMismatch ix claimed actual)
      | none => verdictResult verdict
    (result, ports.sinks.map Guest.Sink.written)

/-- One range of one output, produced by a transform's seek path. -/
def serveRangeFueled (compiled : Bytes) (op : String) (params : Bytes) (inputs : List ByteSource)
    (range : RangeRequest) (fuel : Nat) : Except RuntimeError Bytes :=
  let (result, written) := runGuest (exec.host.serveRange compiled op params range fuel)
    (inputs.map .randomAccess) [{}]
  result.map fun _ => written.headD []

/-- Random access over a declared-seekable node: every read is one range call. -/
def transformRandom (compiled : Bytes) (op : String) (params : Bytes) (children : List ByteSource)
    (outputIx len fuel : Nat) : ByteSource where
  len := len
  readAt offset count :=
    if len ≤ offset ∨ count = 0 then .ok []
    else
      let want := min (len - offset) count
      match exec.serveRangeFueled compiled op params children ⟨outputIx, offset, want⟩ fuel with
      | .error _ => .error {}
      | .ok out => if out.length = want then .ok out else .error {}

/-- The stream a consumer sees when the guest runs on a thread of its own: the
bytes it wrote, then the end or its failure. -/
def guestStream (result : Except RuntimeError Unit) (written : Bytes) : ByteStream where
  items := written
  failure := match result with
    | .ok () => none
    | .error e => some ⟨(ExecError.runtime e).isClaimFailure⟩

/-! ## Nodes -/

/-- The ways an opened plan node can be read, each with what opening it that way
returns. -/
structure Opened where
  len : Nat
  sequential : Except ExecError ByteStream
  random : Children → Except ExecError ByteSource

/-- Write a stream to a temporary file and reopen it for random access. -/
def spill (len : Nat) (sequential : Except ExecError ByteStream) : Except ExecError ByteSource := do
  let reader ← sequential
  match reader.failure with
  | some e => throw (.io e)
  | none =>
    if reader.items.length = len then return .ofList reader.items
    else throw (.malformed ("spill produced " ++ toString reader.items.length ++
      " bytes, claim says " ++ toString len))

/-- The first child opened for random access; indexing a missing one unwinds. -/
def openContainer (children : List Opened) : Except ExecError ByteSource :=
  match children with
  | [] => .error .panicked
  | container :: _ => container.random .materialize

/-- A transform's inputs: random access where the descriptor asks for it, otherwise
a stream with the child's claimed length. -/
def openTransformInputs (randomAccessInputs : List Nat) :
    List Opened → Nat → Except ExecError (List (Guest.Input IoError UInt8))
  | [], _ => .ok []
  | child :: rest, ix => do
      let input ← if ix ∈ randomAccessInputs then do
          let src ← child.random .materialize
          pure (Guest.Input.randomAccess src)
        else do
          let reader ← child.sequential
          pure (Guest.Input.sequential { stream := reader, len := child.len })
      let inputs ← openTransformInputs randomAccessInputs rest (ix + 1)
      return input :: inputs

/-- Run a transform over its opened children into the given sinks. -/
def runTransformNode (compiled : Bytes) (op : String) (params : Bytes)
    (randomAccessInputs : List Nat) (outputs : List (Blake3 × Nat)) (children : List Opened)
    (sinks : List (Guest.Sink UInt8)) :
    Except ExecError (Except RuntimeError Unit × List Bytes) := do
  let inputs ← openTransformInputs randomAccessInputs children 0
  return runGuest (exec.host.runTransform compiled op params
    (fuelBudget (children.map Opened.len) outputs)) inputs sinks

/-- Run an extractor over its container into one sink. -/
def runExtractorNode (compiled : Bytes) (memberIx : Nat) (outputs : List (Blake3 × Nat))
    (children : List Opened) (sink : Guest.Sink UInt8) :
    Except ExecError (Except RuntimeError Unit × List Bytes) := do
  let container ← openContainer children
  return runGuest (exec.host.runExtractor compiled memberIx
    (fuelBudget (children.map Opened.len) outputs)) [.randomAccess container] [sink]

/-- A node's sequential stream. A mid-tree guest discards its sibling outputs. -/
def openNodeSequential (node : OpImpl) (outputIx : Nat) (outputs : List (Blake3 × Nat))
    (children : List Opened) : Except ExecError ByteStream :=
  match node with
  | .assemble params => do
      let sources ← children.mapM fun child => child.random .materialize
      match assembleRandom params sources with
      | .error what => throw (.malformed what)
      | .ok src => return src.stream readChunk
  | .deflate offset len => do
      let container ← openContainer children
      return exec.host.inflate (container.window {} readChunk offset len)
  | .extractor compiled memberIx => do
      let (result, written) ← exec.runExtractorNode compiled memberIx outputs children {}
      return guestStream result (written.headD [])
  | .transform _ compiled op params _ randomAccessInputs => do
      let (result, written) ← exec.runTransformNode compiled op params randomAccessInputs outputs
        children (outputs.map fun _ => {})
      return guestStream result (written.getD outputIx [])

/-- A node's random access. -/
def openNodeRandom (node : OpImpl) (outputIx : Nat) (outputs : List (Blake3 × Nat))
    (children : List Opened) (len : Nat) (mode : Children) : Except ExecError ByteSource :=
  let spilled := spill len (exec.openNodeSequential node outputIx outputs children)
  match node with
  | .assemble params => do
      let sources ← children.mapM fun child => child.random mode
      match assembleRandom params sources with
      | .error what => throw (.malformed what)
      | .ok src => return src
  | .transform _ compiled op params seek _ =>
    if mode = .serveInPlace ∧ seek ≠ .opaqueSeek then do
      let sources ← children.mapM fun child => child.random mode
      return exec.transformRandom compiled op params sources outputIx len
        (fuelBudget (children.map Opened.len) outputs)
    else spilled
  | _ => spilled

/-- Open a stored literal. -/
def openLiteral (store : Store) (hash : Blake3) (len : Nat) : Opened where
  len := len
  sequential := match store.get .data hash with
    | none => .error (.noRoute hash)
    | some bytes => .ok ⟨bytes, none⟩
  random _ := match store.get .data hash with
    | none => .error (.noRoute hash)
    | some bytes => .ok (.ofList bytes)

mutual

/-- Open a plan. -/
def openPlan (store : Store) : Plan → Opened
  | .literal hash len => openLiteral store hash len
  | .op node outputIx outputs children recipeId =>
    let opened := openPlans store children
    let len := (Plan.op node outputIx outputs children recipeId).len
    { len := len
      sequential := exec.openNodeSequential node outputIx outputs opened
      random := exec.openNodeRandom node outputIx outputs opened len }

def openPlans (store : Store) : List Plan → List Opened
  | [] => []
  | plan :: rest => openPlan store plan :: openPlans store rest

end

end Executor

end Datboi
