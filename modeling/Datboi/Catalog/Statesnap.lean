import Datboi.Core.SnapshotCanonical
import Datboi.Index.State
import Datboi.Store.Store
import Datboi.Lib.Runs
import Mathlib.Data.List.MinMax

/-!
# Minting state snapshots

A mint reads the authoritative triple, stores the alias and analysis batches, asks the log for
the next sequence number, publishes the signed object that carries it, and appends to the log.
The log numbers the row by itself, when the object is already durable.
-/

namespace Datboi

/-- The shard of a hash: its leading byte, scaled to the fanout. -/
def aliasShard (hash : Blake3) (fanout : Nat) : Nat := hash.toNat / 2 ^ 248 * fanout / 256

namespace Statesnap

def aliasFanout : Nat := 256

/-- A source with its current revision. -/
structure CurrentSource where
  provider : String
  system : String
  datBlob : Blake3
  importedAt : Int
  deriving DecidableEq, Repr

/-- The rows of cache.db that a snapshot carries: the current sources by provider and system,
the complete alias tuples by hash, and the analysis rows by hash and analyzer. -/
structure CacheRows where
  currentSources : List CurrentSource := []
  aliasTuples : List AliasTuple := []
  analysisRows : List AnalysisRow := []
  deriving DecidableEq, Repr

/-- What carries operator intent. -/
structure AuthoritativeTriple where
  sources : List SourceRef
  tags : List (String × Blake3)
  config : List (String × Bytes)
  deriving DecidableEq, Repr

/-- A time, or zero when it does not fit. -/
def u64OrZero (n : Int) : UInt64 := if 0 ≤ n ∧ n < 2 ^ 64 then UInt64.ofNat n.toNat else 0

def authoritativeTriple (cache : CacheRows) (state : StateDb) : AuthoritativeTriple where
  sources := cache.currentSources.map fun source =>
    ⟨source.provider, source.system, source.datBlob, u64OrZero source.importedAt⟩
  tags := Rows.sortBy Prod.fst state.listTags
  config := Rows.sortBy Prod.fst (state.configListPrefix "")

/-- The triple that a snapshot carries. -/
def recordedTriple (snap : StateSnapshot) : AuthoritativeTriple where
  sources := snap.payload.sources
  tags := snap.payload.tags
  config := snap.payload.config

/-! ## One mint -/

structure MintReport where
  hash : Blake3
  sequence : Nat
  sources : Nat
  aliasRows : Nat
  analysisRows : Nat
  newBatchBlobs : Nat
  deriving DecidableEq, Repr

inductive MintError where
  | snapshot (e : SnapshotError)
  | index
  /-- A `Vec` cannot hold the object. -/
  | capacity
  | statesnap (message : String)
  /-- The process ended, or a read or a write failed. -/
  | crashed
  deriving DecidableEq, Repr

/-- What a mint does next. -/
inductive MintStage where
  | aliasRows
  | aliasBatches
  | analysisBatches
  | numbering
  | publishing (sequence : Nat)
  | logging (sequence : Nat) (hash : Blake3)
  | finished (result : Except MintError MintReport)
  deriving DecidableEq

/-- A mint on its way. -/
structure MintCall where
  now : Int
  triple : AuthoritativeTriple
  aliasTuples : List AliasTuple := []
  analysisRows : List AnalysisRow := []
  aliasBatches : List Blake3 := []
  analysisBatches : List Blake3 := []
  newBatchBlobs : Nat := 0
  stage : MintStage := .aliasRows
  deriving DecidableEq

/-- Store a byte string under its address. -/
def putMeta (host : Host) (store : Store) (bytes : Bytes) : Blake3 × PutOutcome × Store :=
  (host.blake3 bytes, store.publish .metadata (host.blake3 bytes) bytes)

namespace MintCall

variable (call : MintCall)

def fail (e : MintError) : MintCall := { call with stage := .finished (.error e) }

def payload (sequence : Nat) : SnapshotPayload where
  sequence := UInt64.ofNat sequence
  createdAt := u64OrZero call.now
  sources := call.triple.sources
  aliasFanout := aliasFanout
  aliasBatches := call.aliasBatches
  analysisFanout := if call.analysisBatches = [] then 0 else aliasFanout
  analysisBatches := call.analysisBatches
  tags := call.triple.tags
  config := call.triple.config

def report (sequence : Nat) (hash : Blake3) : MintReport where
  hash := hash
  sequence := sequence
  sources := call.triple.sources.length
  aliasRows := call.aliasTuples.length
  analysisRows := call.analysisRows.length
  newBatchBlobs := call.newBatchBlobs

/-- Store the next batch, if it encodes, and let the call go on with its address. -/
def putBatch (host : Host) (store : Store) (encoded : Except SnapshotError Bytes)
    (record : Blake3 → MintCall → MintCall) : Store × MintCall :=
  match encoded with
  | .ok bytes =>
    let (hash, outcome, store) := putMeta host store bytes
    (store, record hash
      { call with
        newBatchBlobs := call.newBatchBlobs + if outcome = .stored then 1 else 0 })
  | .error e => (store, call.fail (.snapshot e))

def pushAlias (hash : Blake3) (call : MintCall) : MintCall :=
  { call with aliasBatches := call.aliasBatches ++ [hash] }

def pushAnalysis (hash : Blake3) (call : MintCall) : MintCall :=
  { call with analysisBatches := call.analysisBatches ++ [hash] }

/-- The batch of alias rows that is due. -/
def aliasBatch : AliasBatch where
  rows := call.aliasTuples.filter fun row =>
    aliasShard row.blake3 aliasFanout = call.aliasBatches.length

def analysisBatch : AnalysisBatch where
  rows := call.analysisRows.filter fun row =>
    aliasShard row.blob aliasFanout = call.analysisBatches.length

/-- Sign the payload under a sequence number and store the object. -/
def publish (host : Host) (identity : Identity) (store : Store) (sequence : Nat) :
    Store × MintCall :=
  match (call.payload sequence).encodeSigned identity with
  | .error e => (store, call.fail (.snapshot e))
  | .ok bytes =>
    if 2 ^ 63 ≤ bytes.length then (store, call.fail .capacity)
    else
      let (hash, _, store) := putMeta host store bytes
      (store, { call with stage := .logging sequence hash })

/-- Append to the log, which gives the row a number of its own. -/
def log (state : StateDb) (free : Option Nat) (sequence : Nat) (hash : Blake3) :
    StateDb × MintCall :=
  match state.snapshotLogAppend free hash call.now with
  | none => (state, call.fail .index)
  | some (state, logged) =>
    if logged ≠ sequence then
      (state, call.fail (.statesnap
        (s!"snapshot_log assigned seq {logged}, object was minted with {sequence}" ++
          " (concurrent snapshot?)")))
    else (state, { call with stage := .finished (.ok (call.report sequence hash)) })

/-- The next step of a mint. `free` is the row id the log finds when it is full. -/
def step (host : Host) (identity : Identity) (cache : CacheRows) (free : Option Nat)
    (state : StateDb) (store : Store) : StateDb × Store × MintCall :=
  match call.stage with
  | .aliasRows =>
    (state, store, { call with aliasTuples := cache.aliasTuples, stage := .aliasBatches })
  | .aliasBatches =>
    if call.aliasBatches.length < aliasFanout then
      (state, call.putBatch host store call.aliasBatch.encode pushAlias)
    else
      (state, store,
        { call with
          analysisRows := cache.analysisRows
          stage := if cache.analysisRows = [] then .numbering else .analysisBatches })
  | .analysisBatches =>
    if call.analysisBatches.length < aliasFanout then
      (state, call.putBatch host store call.analysisBatch.encode pushAnalysis)
    else (state, store, { call with stage := .numbering })
  | .numbering =>
    match state.nextSnapshotSeq with
    | some sequence => (state, store, { call with stage := .publishing sequence })
    | none => (state, store, call.fail .index)
  | .publishing sequence => (state, call.publish host identity store sequence)
  | .logging sequence hash =>
    let (state, call) := call.log state free sequence hash
    (state, store, call)
  | .finished _ => (state, store, call)

end MintCall

/-! ## Several minters -/

/-- The databases and the store, the mints by the order they began in, and what the last mint
that succeeded reported, with the triple it had read. -/
structure MintWorld where
  state : StateDb := {}
  cache : CacheRows := {}
  store : Store := .empty
  mints : List MintCall := []
  reported : Option (MintReport × AuthoritativeTriple) := none

inductive MintMove where
  /-- A mint begins: it reads the triple. -/
  | start (now : Int)
  | advance (mint : Nat) (free : Option Nat)
  | crash (mint : Nat)
  | setTag (name : String) (hash : Blake3) (createdAt : Int)
  | deleteTag (name : String)
  | configSet (key : String) (value : Bytes)
  | cacheChanges (cache : CacheRows)

namespace MintWorld

variable (host : Host) (identity : Identity)

/-- What the last success reported, after a step of this call. -/
def reportedAfter (world : MintWorld) (call : MintCall) :
    Option (MintReport × AuthoritativeTriple) :=
  match call.stage with
  | .finished (.ok report) => some (report, call.triple)
  | _ => world.reported

def advance (world : MintWorld) (mint : Nat) (free : Option Nat) : MintWorld :=
  match world.mints[mint]? with
  | none => world
  | some call =>
    match call.stage with
    | .finished _ => world
    | _ =>
      let (state, store, call) :=
        call.step host identity world.cache free world.state world.store
      { world with
        state, store
        mints := world.mints.set mint call
        reported := world.reportedAfter call }

def crash (world : MintWorld) (mint : Nat) : MintWorld :=
  match world.mints[mint]? with
  | none => world
  | some call => { world with mints := world.mints.set mint (call.fail .crashed) }

def next (world : MintWorld) : MintMove → MintWorld
  | .start now =>
    { world with
      mints := world.mints ++ [{ now, triple := authoritativeTriple world.cache world.state }] }
  | .advance mint free => world.advance host identity mint free
  | .crash mint => world.crash mint
  | .setTag name hash createdAt =>
    { world with state := world.state.setTag name hash createdAt }
  | .deleteTag name => { world with state := world.state.deleteTag name }
  | .configSet key value => { world with state := world.state.configSet key value }
  | .cacheChanges cache => { world with cache }

end MintWorld

/-! ## Selection by recovery -/

variable (host : Host) (verify : PublicKey → Bytes → Signature → Bool)

/-- The state snapshots among the listed objects whose bytes hash to their name. -/
def snapshotCandidates (store : Store) (listing : List Blake3) : List (Blake3 × Bytes) :=
  listing.filterMap fun hash => do
    let bytes ← store.get .metadata hash
    if host.blake3 bytes ≠ hash then none
    else
      match Object.sniff bytes with
      | some (.stateSnapshot, _, _) => some (hash, bytes)
      | _ => none

/-- The candidates that decode and are signed by this key. -/
def authenticated (publicKey : PublicKey) (candidates : List (Blake3 × Bytes)) :
    List (Blake3 × StateSnapshot) :=
  (candidates.filterMap fun (hash, bytes) =>
    (StateSnapshot.decode verify bytes).toOption.map fun snap => (hash, snap)).filter
      fun (_, snap) => snap.publicKey = publicKey

/-- The snapshot with the greatest sequence; of several, the one listed last. -/
def selectSnapshot (publicKey : PublicKey) (candidates : List (Blake3 × Bytes)) :
    Option (Blake3 × StateSnapshot) :=
  (authenticated verify publicKey candidates).reverse.argmax fun (_, snap) =>
    snap.payload.sequence.toNat

/-- A listing of the loose objects under meta/, in any order. -/
def ListsMeta (store : Store) (listing : List Blake3) : Prop :=
  listing.Nodup ∧ ∀ hash, hash ∈ listing ↔ store.hasLoose .metadata hash = true

end Statesnap

end Datboi
