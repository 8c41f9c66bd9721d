import Datboi.Exec.Open

/-!
# Executing recipes

Replaying a recipe materializes every claimed output into the store and advances
its verify state; licensing proves the same outputs over a hashing sink. Both also
advance the recipes that ran inside the plan, and both poison the recipe on a
failure that indicts its claim. The blessing pass materializes single outputs on
worker threads and records the results on its coordinator.
-/

namespace Datboi

/-- The state an executor works on. -/
structure Site where
  db : Db
  store : Store
  caches : Caches

abbrev ExecM := EStateM ExecError Site

namespace ExecM

/-- Run a planning computation on the component caches. -/
def onCaches {α : Type} (m : EStateM ExecError Caches α) : ExecM α := fun site =>
  match m site.caches with
  | .ok a caches => .ok a { site with caches := caches }
  | .error e caches => .error e { site with caches := caches }

/-- Apply a fallible write to the index. -/
def onDb (write : Db → Except IndexError Db) : ExecM Unit := fun site =>
  match write site.db with
  | .ok db => .ok () { site with db := db }
  | .error e => .error (.index e) site

end ExecM

/-- What takes an output's stream: how many bytes it reads at most, if it stops by
itself, and what it does with them. -/
structure Consumer (τ : Type) where
  appetite : Nat → Option Nat
  consume : (hash : Blake3) → (size : Nat) → ByteStream → Store → Except ExecError τ × Store

/-- How far past its consumer's last read each sink of a guest still accepts
bytes; `none` for a guest that finishes before it notices. -/
abbrev PipeRace := Nat → Option Nat

/-- What one replay takes from its surroundings: the time it records, and how its
guest's pipes race. -/
structure Surroundings where
  now : Int
  race : PipeRace

def Plan.recipeId? : Plan → Option Nat
  | .literal _ _ => none
  | .op _ _ _ _ recipeId => recipeId

mutual

/-- The recipe rows a plan executes, parents before children. -/
def Plan.recipeIds : Plan → List Nat
  | .literal _ _ => []
  | .op _ _ _ children recipeId => recipeId.toList ++ recipeIdsAll children

def recipeIdsAll : List Plan → List Nat
  | [] => []
  | plan :: rest => plan.recipeIds ++ recipeIdsAll rest

end

structure ReplayReport where
  recipeId : Nat
  outputs : List (Blake3 × PutOutcome)
  deriving DecidableEq

namespace Executor

variable (exec : Executor)

/-! ## Consumers -/

/-- Store an output with its outboard, verifying it on the way. It reads one byte
past the claimed size. -/
def storeConsumer : Consumer PutOutcome where
  appetite size := some (size + 1)
  consume hash size reader store :=
    match store.putWithObao exec.host .data hash size reader with
    | .ok (outcome, store) => (.ok outcome, store)
    | .error e => (.error (.store e), store)

/-- Consume an output to its end: exactly `size` bytes hashing to `hash`. -/
def verifyStream (hash : Blake3) (size : Nat) (reader : ByteStream) : Except ExecError Unit :=
  match reader.failure with
  | some e => .error (.io e)
  | none =>
    if exec.host.blake3 reader.items ≠ hash ∨ reader.items.length ≠ size then
      .error (.claimMismatch hash (exec.host.blake3 reader.items) reader.items.length)
    else .ok ()

def verifyConsumer : Consumer Unit where
  appetite _ := none
  consume hash size reader store := (exec.verifyStream hash size reader, store)

/-! ## One execution -/

section Execute

variable {τ : Type} (consumer : Consumer τ) (race : PipeRace)

/-- The stream a consumer of the top node sees: a failed guest fails its pipes
without a deterministic marker, since the executor reports the guest itself. -/
def pipeStream (result : Except RuntimeError Unit) (written : Bytes) : ByteStream where
  items := written
  failure := match result with
    | .ok () => none
    | .error _ => some {}

/-- A sink that refuses writes some way past what its consumer reads. -/
def racingSink (ix : Nat) (output : Blake3 × Nat) : Guest.Sink UInt8 where
  capacity := (race ix).bind fun extra => (consumer.appetite output.2).map (· + extra)

/-- A builtin's only output, as a stream. -/
def produceBuiltin (op : OpImpl) (outputs : List (Blake3 × Nat)) (children : List Opened) :
    Except ExecError (Except RuntimeError Unit × List ByteStream) :=
  if outputs.length ≠ 1 then throw (.malformed "single-output builtin claims multiple outputs")
  else do
    let reader ← exec.openNodeSequential op 0 outputs children
    return (.ok (), [reader])

/-- Run the top node over its opened children: the guest's result, if it has one,
and the stream of each output. -/
def produce (op : OpImpl) (outputs : List (Blake3 × Nat)) (children : List Opened) :
    Except ExecError (Except RuntimeError Unit × List ByteStream) :=
  match op with
  | .assemble _ | .deflate _ _ => exec.produceBuiltin op outputs children
  | .extractor compiled memberIx =>
    if outputs.length ≠ 1 then
      throw (.malformed "extractor recipe must claim exactly one member output")
    else do
      let (result, written) ← exec.runExtractorNode compiled memberIx outputs children
        (racingSink consumer race 0 (outputs.headD (0, 0)))
      return (result, written.map (pipeStream result))
  | .transform _ compiled op params _ randomAccessInputs => do
      let (result, written) ← exec.runTransformNode compiled op params randomAccessInputs outputs
        children (outputs.mapIdx (racingSink consumer race))
      return (result, written.map (pipeStream result))

/-- Hand every output to its consumer, and keep the first failure. -/
def consumeAll : List ((Blake3 × Nat) × ByteStream) → Store →
    (List (Blake3 × τ) × Option ExecError) × Store
  | [], store => (([], none), store)
  | ((hash, size), reader) :: rest, store =>
    match consumer.consume hash size reader store with
    | (.ok outcome, store) =>
      let ((results, firstErr), store) := consumeAll rest store
      (((hash, outcome) :: results, firstErr), store)
    | (.error e, store) =>
      let ((results, _), store) := consumeAll rest store
      ((results, some e), store)

/-- Run the top node and consume its outputs. The guest's own error explains a
consumer's failure better than the consumer does. -/
def executeNode (op : OpImpl) (outputs : List (Blake3 × Nat)) (children : List Opened) :
    ExecM (List (Blake3 × τ)) := fun site =>
  match exec.produce consumer race op outputs children with
  | .error e => .error e site
  | .ok (result, streams) =>
    let ((results, firstErr), store) := consumeAll consumer (outputs.zip streams) site.store
    let site := { site with store := store }
    match result, firstErr with
    | .error e, _ => .error (.runtime e) site
    | .ok (), some e => .error e site
    | .ok (), none => .ok results site

def resolveTop (recipe : Recipe) : ExecM OpImpl := fun site =>
  ExecM.onCaches (exec.resolveOp site.store recipe) site

/-- Plan a recipe's inputs below it. -/
def planChildren (recipe : Recipe) : ExecM (List Plan) := fun site =>
  ExecM.onCaches (planInputs (fun hash => exec.plan site.db site.store hash 1 []) recipe.inputs)
    site

/-- Execute a resolved operation over planned inputs. -/
def executePlanned (recipe : Recipe) (op : OpImpl) (children : List Plan) :
    ExecM (List (Blake3 × τ)) := fun site =>
  exec.executeNode consumer race op recipe.claims (exec.openPlans site.store children) site

/-- Resolve a recipe's operation and plan its inputs. -/
def prepare (recipe : Recipe) : ExecM (OpImpl × List Plan) := do
  let op ← exec.resolveTop recipe
  let children ← exec.planChildren recipe
  return (op, children)

/-- Execute a recipe and hand each claimed output to the consumer; also returns the
recipes that ran inside the plan. -/
def executeWith (recipe : Recipe) : ExecM (List (Blake3 × τ) × List Nat) := do
  let (op, children) ← exec.prepare recipe
  let results ← exec.executePlanned consumer race recipe op children
  return (results, recipeIdsAll children)

end Execute

def executeToStore (race : PipeRace) (recipe : Recipe) :
    ExecM (List (Blake3 × PutOutcome) × List Nat) :=
  exec.executeWith exec.storeConsumer race recipe

/-! ## Recording outcomes -/

/-- Advance the recipes that executed inside a successful plan. -/
def licenseParticipants (recipeId : Nat) : List Nat → ExecM Unit
  | [] => pure ()
  | childId :: rest => fun site =>
    if childId = recipeId then licenseParticipants recipeId rest site
    else
      match site.db.recipeById childId with
      | .error e => .error (.index e) site
      | .ok child =>
        if child.verify = .verified then
          (ExecM.onDb (·.setVerifyState childId .replayedLocal) >>= fun _ =>
            licenseParticipants recipeId rest) site
        else licenseParticipants recipeId rest site

/-- A stored output is resident and verified. -/
def recordOutput (now : Int) (db : Db) (output : OutputRef × Blake3) : Db :=
  let (db, blobId) := db.upsertBlob output.2 (some output.1.size) .data .resident
  db.setVerified blobId now

def recordOutputs (now : Int) (recipe : Recipe) (outputs : List (Blake3 × PutOutcome)) :
    ExecM Unit := fun site =>
  .ok () { site with
    db := (recipe.outputs.zip (outputs.map Prod.fst)).foldl (recordOutput now) site.db }

/-- Poison a recipe when the failure indicts its claim, and report the failure. -/
def poisonOnClaimFailure {α : Type} (recipeId : Nat) (e : ExecError) : ExecM α := do
  if e.isClaimFailure then ExecM.onDb (·.setVerifyState recipeId .failed)
  throw e

/-- Execute a recipe for a consumer, and poison it on a claim failure. -/
def attempt {τ : Type} (consumer : Consumer τ) (race : PipeRace) (recipeId : Nat)
    (recipe : Recipe) : ExecM (List (Blake3 × τ) × List Nat) := fun site =>
  match exec.executeWith consumer race recipe site with
  | .ok result site => .ok result site
  | .error e site => poisonOnClaimFailure recipeId e site

/-- The top recipe's advance after a success. -/
def advanceTop (recipeId : Nat) (verify : VerifyState) : ExecM Unit :=
  if verify ≠ .replayedLocal then ExecM.onDb (·.setVerifyState recipeId .replayedLocal)
  else pure ()

/-- A recipe's row and its object. -/
def liveRecipe (recipeId : Nat) : ExecM (RecipeRow × Recipe) := fun site =>
  match site.db.recipeById recipeId with
  | .error e => .error (.index e) site
  | .ok row =>
    if row.verify = .failed then .error (.poisoned recipeId) site
    else
      match exec.loadRecipe site.db site.store recipeId with
      | .error e => .error e site
      | .ok recipe => .ok (row, recipe) site

/-- Replay one recipe end to end. -/
def replay (around : Surroundings) (recipeId : Nat) : ExecM ReplayReport := do
  let (row, recipe) ← exec.liveRecipe recipeId
  let (outputs, participants) ← exec.attempt exec.storeConsumer around.race recipeId recipe
  advanceTop recipeId row.verify
  licenseParticipants recipeId participants
  recordOutputs around.now recipe outputs
  return ⟨recipeId, outputs⟩

/-- Prove one recipe's outputs without materializing them. -/
def license (race : PipeRace) (recipeId : Nat) : ExecM Unit := do
  let (row, recipe) ← exec.liveRecipe recipeId
  let (_, participants) ← exec.attempt exec.verifyConsumer race recipeId recipe
  advanceTop recipeId row.verify
  licenseParticipants recipeId participants

/-- Re-execute a poisoned recipe; success clears the poison, failure leaves it. -/
def rehabilitate (around : Surroundings) (recipeId : Nat) : ExecM ReplayReport := fun site =>
  match site.db.recipeById recipeId with
  | .error e => .error (.index e) site
  | .ok row =>
    if row.verify ≠ .failed then exec.replay around recipeId site
    else
      match exec.loadRecipe site.db site.store recipeId with
      | .error e => .error e site
      | .ok recipe =>
        (do
          let (outputs, participants) ← exec.executeToStore around.race recipe
          ExecM.onDb (·.rehabilitateRecipe recipeId)
          licenseParticipants recipeId participants
          recordOutputs around.now recipe outputs
          return { recipeId := recipeId, outputs := outputs } : ExecM ReplayReport) site

/-! ## Materializing and blessing -/

def isResident (site : Site) (hash : Blake3) : Bool :=
  match site.db.blobByHash hash with
  | some row => row.residency = .resident ∧ site.store.has .data hash
  | none => site.store.has .data hash

/-- Slack added to the headroom a materialization asks for. -/
def materializeSlack : Nat := 64 * 1024 * 1024

/-- Claimed bytes, their outboard and a margin. -/
def headroomNeed (size : Nat) : Nat := saturatingAdd (saturatingAdd size (size / 256)) materializeSlack

/-- Refuse when the file system is known to lack room. -/
def checkHeadroom (store : Store) (hash : Blake3) (size : Nat) : Except ExecError Unit :=
  match store.availableBytes with
  | none => .ok ()
  | some available =>
    if available < headroomNeed size then
      .error (.insufficientHeadroom hash (headroomNeed size) available)
    else .ok ()

/-- Replay the recipes of a blob in turn until one succeeds. -/
def materializeFirst (around : Nat → Surroundings) (hash : Blake3) :
    List RecipeRow → Option ExecError → ExecM Unit
  | [], lastErr => throw (lastErr.getD (.noRoute hash))
  | row :: rest, lastErr => fun site =>
    if row.verify = .failed then materializeFirst around hash rest lastErr site
    else
      match exec.replay (around row.recipeId) row.recipeId site with
      | .ok _ site => .ok () site
      | .error e site => materializeFirst around hash rest (some e) site

/-- Materialize a blob into the store if it is not already resident. -/
def materialize (around : Nat → Surroundings) (hash : Blake3) : ExecM Unit := fun site =>
  if isResident site hash then .ok () site
  else
    match site.db.blobByHash hash with
    | none => .error (.noRoute hash) site
    | some row =>
      match row.size.elim (.ok ()) (checkHeadroom site.store hash) with
      | .error e => .error e site
      | .ok () =>
        exec.materializeFirst around hash (site.db.recipesForOutput row.blobId) none site

/-- Stream a planned route to nowhere, computing and publishing its outboard. -/
def blessPlan (hash : Blake3) (plan : Plan) (store : Store) : Except ExecError (Bool × Store) :=
  if store.hasObao .data hash then .ok (false, store)
  else
    match (exec.openPlan store plan).sequential with
    | .error e => .error e
    | .ok reader =>
      match Obao.compute exec.host reader plan.len with
      | .error e => .error (.obao e)
      | .ok (root, sidecar) =>
        if root ≠ hash then .error (.claimMismatch hash root plan.len)
        else .ok (true, store.putObao .data hash sidecar)

/-- Materialize a planned route into the store, tree and all. -/
def materializePlan (hash : Blake3) (plan : Plan) (store : Store) :
    Except ExecError (Bool × Store) :=
  if store.has .data hash then .ok (false, store)
  else
    match checkHeadroom store hash plan.len with
    | .error e => .error e
    | .ok () =>
      match (exec.openPlan store plan).sequential with
      | .error e => .error e
      | .ok reader =>
        match store.putWithObao exec.host .data hash plan.len reader with
        | .error e => .error (.store e)
        | .ok (_, store) => .ok (true, store)

/-- The recipe a successful materialization may license: only one whose single
output the pass has produced. -/
def licensable : Plan → Option Nat
  | .literal _ _ => none
  | .op _ _ outputs _ recipeId => if outputs.length = 1 then recipeId else none

/-- Record that a route disproved itself; already poisoned is a success. -/
def poisonRoute (recipeId : Nat) : ExecM Unit := fun site =>
  match site.db.recipeById recipeId with
  | .error e => .error (.index e) site
  | .ok row =>
    if row.verify = .failed then .ok () site
    else ExecM.onDb (·.setVerifyState recipeId .failed) site

/-- A sequential reader over the best route to a blob, with the route's top recipe. A
child that is spilled while the route is opened may already disprove it. -/
def openStreamRoute (hash : Blake3) : ExecM (ByteStream × Option Nat) := fun site =>
  match ExecM.onCaches (exec.plan site.db site.store hash 0 []) site with
  | .error e site => .error e site
  | .ok plan site =>
    match (exec.openPlan site.store plan).sequential with
    | .ok reader => .ok (reader, plan.recipeId?) site
    | .error e =>
      match plan.recipeId? with
      | some recipeId =>
        (do
          if e.isClaimFailure then poisonRoute recipeId
          throw e : ExecM (ByteStream × Option Nat)) site
      | none => .error e site

mutual

/-- The carve-out predicate: every node a locally minted, affine, verified assemble
recipe, every leaf a resident literal that was verified. -/
def affineCarveout (site : Site) : Plan → Except ExecError Bool
  | .literal hash _ =>
    match site.db.blobByHash hash with
    | none => .ok false
    | some row => .ok (row.residency = .resident && site.store.has .data hash &&
        (site.db.blobVerifiedAt row.blobId).isSome)
  | .op (.assemble _) _ _ children (some recipeId) =>
    match site.db.recipeById recipeId with
    | .error e => .error (.index e)
    | .ok row =>
      if row.source ≠ .localIngest ∨ row.seekClass ≠ .affine ∨
          (row.verify ≠ .verified ∧ row.verify ≠ .replayedLocal) then .ok false
      else affineCarveoutAll site children
  | .op _ _ _ _ _ => .ok false

def affineCarveoutAll (site : Site) : List Plan → Except ExecError Bool
  | [] => .ok true
  | child :: rest =>
    match affineCarveout site child with
    | .error e => .error e
    | .ok false => .ok false
    | .ok true => affineCarveoutAll site rest

end

/-- One candidate of the blessing pass, as its worker receives it. -/
structure BlessJob where
  hash : Blake3
  len : Nat
  plan : Plan
  license : Option Nat
  route : Option Nat

/-- What the coordinator decides about a candidate: a job for a worker, or a skip.
Bytes found under a stale row only get their residency repaired. -/
def blessTriage (materialize includeAffine : Bool) (hash : Blake3) (len : Nat) :
    ExecM (Option BlessJob) := fun site =>
    if site.store.has .data hash then
      .ok none { site with db := (site.db.upsertBlob hash (some len) .data .resident).1 }
    else if !materialize ∧ site.store.hasObao .data hash then .ok none site
    else
      match ExecM.onCaches (exec.plan site.db site.store hash 0 []) site with
      | .error _ site => .ok none site
      | .ok plan site =>
        match (if includeAffine then .ok false else affineCarveout site plan) with
        | .error e => .error e site
        | .ok true => .ok none site
        | .ok false => .ok (some ⟨hash, len, plan, if materialize then licensable plan else none,
            plan.recipeId?⟩) site

/-- A worker's run of one job; a panic becomes a malformed-route failure. -/
def blessWork (materialize : Bool) (job : BlessJob) (store : Store) :
    Except ExecError Bool × Store :=
  let result := if materialize then exec.materializePlan job.hash job.plan store
    else exec.blessPlan job.hash job.plan store
  match result with
  | .ok (done, store) => (.ok done, store)
  | .error .panicked => (.error (.malformed "blessing panicked"), store)
  | .error e => (.error e, store)

/-- What a materialization means in the index. -/
def recordMaterialized (now : Int) (hash : Blake3) (len : Nat) (license : Option Nat) :
    ExecM Unit := fun site =>
  let (db, blobId) := site.db.upsertBlob hash (some len) .data .resident
  let site := { site with db := db.setVerified blobId now }
  match license with
  | none => .ok () site
  | some recipeId =>
    match site.db.recipeById recipeId with
    | .error e => .error (.index e) site
    | .ok row =>
      if row.verify = .verified then
        ExecM.onDb (·.setVerifyState recipeId .replayedLocal) site
      else .ok () site

/-- The coordinator's retirement of a worker's answer. Failures to record are
reported, not propagated. -/
def blessRetire (now : Int) (materialize : Bool) (job : BlessJob) (result : Except ExecError Bool)
    (site : Site) : Site :=
  match result with
  | .ok true =>
    if materialize then
      match recordMaterialized now job.hash job.len job.license site with
      | .ok _ site => site
      | .error _ site => site
    else site
  | .ok false => site
  | .error e =>
    match job.route with
    | some recipeId =>
      if e.isClaimFailure then
        match poisonRoute recipeId site with
        | .ok _ site => site
        | .error _ site => site
      else site
    | none => site

end Executor

end Datboi
