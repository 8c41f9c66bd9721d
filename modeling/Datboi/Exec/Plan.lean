import Datboi.Exec.Error
import Datboi.Index.Grounding
import Datboi.Lib.Memo

/-!
# Planning a route

`Executor.plan` searches the recipe graph for a way to produce a blob from
literals in the store. The search backtracks over the recipes that claim a blob,
refuses blobs that are already on the current path and stops at a depth limit.
Compiled components are cached on the way.
-/

namespace Datboi

/-- The two lanes of components, each with its own compiled cache. -/
inductive Lane where
  | transform
  | extractor
  deriving DecidableEq, Repr

/-- Compiled components by address. Compilation is a function of the bytes, so an
entry is represented by the bytes it was compiled from. -/
structure Caches where
  compiled : Lane → Blake3 → Option Bytes

def Caches.empty : Caches := ⟨fun _ _ => none⟩

def Caches.remember (caches : Caches) (lane : Lane) (hash : Blake3) (bytes : Bytes) : Caches where
  compiled lane' hash' :=
    if lane' = lane ∧ hash' = hash then some bytes else caches.compiled lane' hash'

/-- A resolved operation. -/
inductive OpImpl where
  | assemble (params : AssembleParams)
  | deflate (offset len : Nat)
  | transform (component : Blake3) (compiled : Bytes) (op : String) (params : Bytes)
      (seek : SeekClass) (randomAccessInputs : List Nat)
  | extractor (compiled : Bytes) (memberIx : Nat)
  deriving DecidableEq, Repr

/-- A resolved, executable route to one output. `recipeId` is the recipe row a node
executes. -/
inductive Plan where
  | literal (hash : Blake3) (len : Nat)
  | op (node : OpImpl) (outputIx : Nat) (outputs : List (Blake3 × Nat)) (children : List Plan)
      (recipeId : Option Nat)

structure Executor where
  host : Host
  maxDepth : Nat := 1024

namespace Executor

variable (exec : Executor)

/-! ## Recipes and operations -/

/-- Read and decode the recipe object behind a row. -/
def loadRecipe (db : Db) (store : Store) (recipeId : Nat) : Except ExecError Recipe :=
  match db.recipeObjectHash recipeId with
  | .error e => .error (.index e)
  | .ok hash =>
    match store.get .metadata hash with
    | none => .error (.noRoute hash)
    | some bytes =>
      match exec.host.decodeRecipe bytes with
      | .error what => .error (.malformed what)
      | .ok recipe => .ok recipe

def load (lane : Lane) (bytes : Bytes) : Except RuntimeError Unit :=
  match lane with
  | .transform => exec.host.loadTransform bytes
  | .extractor => exec.host.loadExtractor bytes

/-- A compiled component, from the cache or from the store. -/
def loadComponent (store : Store) (lane : Lane) (hash : Blake3) :
    EStateM ExecError Caches Bytes := fun caches =>
  match caches.compiled lane hash with
  | some bytes => .ok bytes caches
  | none =>
    match store.get .data hash with
    | none => .error (.noRoute hash) caches
    | some bytes =>
      match exec.load lane bytes with
      | .error e => .error (.runtime e) caches
      | .ok () => .ok bytes (caches.remember lane hash bytes)

section Resolve

variable {m : Type → Type} [Monad m] [MonadExceptOf ExecError m]
variable (component : Lane → Blake3 → m Bytes)

/-- Resolve a recipe's operation, given how components are loaded. -/
def resolveOpWith (recipe : Recipe) : m OpImpl :=
  match recipe.op with
  | .builtin name major =>
    match name, major with
    | "assemble", 1 =>
      match exec.host.decodeAssembleParams recipe.params with
      | .error what => throw (.malformed what)
      | .ok params => pure (.assemble params)
    | "deflate-decompress", 1 =>
      match exec.host.decodeDeflateWindow recipe.params with
      | .error what => throw (.malformed what)
      | .ok (offset, len) => pure (.deflate offset len)
    | name, major => throw (.unsupportedOp (name ++ "@" ++ toString major))
  | .wasm hash world exportName =>
    match world with
    | .transform1 => do
        let compiled ← component .transform hash
        match exec.host.describe compiled exportName with
        | .error e => throw (.runtime e)
        | .ok descriptor =>
          pure (.transform hash compiled exportName recipe.params descriptor.seek
            descriptor.randomAccessInputs)
    | .extractor1 =>
      if some exportName ≠ world.requiredExport then
        throw (.unsupportedOp (world.asStr ++ "#" ++ exportName ++ " (world exports only extract)"))
      else
        match exec.host.decodeExtractorParams recipe.params with
        | .error what => throw (.malformed what)
        | .ok memberIx => do
            let compiled ← component .extractor hash
            pure (.extractor compiled memberIx)
    | .other name => throw (.unsupportedOp name)

end Resolve

/-- A seek-quarantined component is planned as one that cannot seek. -/
def downgradeSeek (db : Db) : OpImpl → OpImpl
  | .transform component compiled op params seek randomAccessInputs =>
    .transform component compiled op params
      (if seek ≠ .opaqueSeek ∧ db.isSeekQuarantined component then .opaqueSeek else seek)
      randomAccessInputs
  | op => op

/-! ## The search -/

section Search

variable {m : Type → Type} [Monad m] [MonadExceptOf ExecError m]

/-- Plan the inputs in order; the first failure ends it. -/
def planInputs (plan : Blake3 → m Plan) : List InputRef → m (List Plan)
  | [] => pure []
  | input :: rest => do
      let child ← plan input.hash
      let children ← planInputs plan rest
      pure (child :: children)

/-- Try the recipes in order, skipping poisoned ones; the last failure is reported
when none of them plans. -/
def planFirst (attempt : Nat → m Plan) (target : Blake3) :
    List RecipeRow → Option ExecError → m Plan
  | [], lastErr => throw (lastErr.getD (.noRoute target))
  | row :: rest, lastErr =>
    if row.verify = .failed then planFirst attempt target rest lastErr
    else tryCatch (attempt row.recipeId) fun e => planFirst attempt target rest (some e)

/-- Plan one recipe for one of its claimed outputs. -/
def planRecipeWith (resolve : Recipe → m OpImpl) (db : Db) (store : Store)
    (plan : Blake3 → m Plan) (target : Blake3) (recipeId : Nat) : m Plan :=
  match exec.loadRecipe db store recipeId with
  | .error e => throw e
  | .ok recipe =>
    match recipe.outputs.findIdx? fun output => output.hash = target with
    | none => throw (.malformed "recipe row does not claim target")
    | some outputIx => do
        let op ← resolve recipe
        let children ← planInputs plan recipe.inputs
        pure (.op (downgradeSeek db op) outputIx recipe.claims children (some recipeId))

/-- The search with `levels` levels left below the depth limit. -/
def planWith (resolve : Recipe → m OpImpl) (db : Db) (store : Store) :
    (levels : Nat) → Blake3 → List Blake3 → m Plan
  | 0, _, _ => throw .depth
  | levels + 1, hash, visiting =>
    if hash ∈ visiting then throw (.cycle hash)
    else
      match store.len .data hash with
      | some len => pure (.literal hash len)
      | none =>
        match db.blobByHash hash with
        | none => throw (.noRoute hash)
        | some row =>
          planFirst
            (exec.planRecipeWith resolve db store
              (fun input => planWith resolve db store levels input (hash :: visiting)) hash)
            hash (db.recipesForOutput row.blobId) none

end Search

def resolveOp (store : Store) : Recipe → EStateM ExecError Caches OpImpl :=
  exec.resolveOpWith (exec.loadComponent store)

/-- Plan a blob at a given depth of the operator tree. -/
def plan (db : Db) (store : Store) (hash : Blake3) (depth : Nat) (visiting : List Blake3) :
    EStateM ExecError Caches Plan :=
  exec.planWith (exec.resolveOp store) db store (exec.maxDepth + 1 - depth) hash visiting

end Executor

end Datboi
