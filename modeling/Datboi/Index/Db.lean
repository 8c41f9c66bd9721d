import Datboi.Core.Recipe
import Datboi.Lib.Table
import Mathlib.Data.List.Sort
import Mathlib.Data.List.Dedup

/-!
# The index database

The queryable projection of the store: one row for each known blob, one for each
recipe object with its input and output columns, and the small tables that garbage
collection and serving consult. Every write keeps the tables' primary and unique
keys, so a `Db` value is always a legal database.
-/

namespace Datboi

/-! ## Column types -/

inductive Namespace where
  | data
  | metadata
  deriving DecidableEq, Repr

/-- Whether literal bytes exist locally. -/
inductive Residency where
  | resident
  | evictedCovered
  | absent
  deriving DecidableEq, Repr

inductive SeekClass where
  | affine
  | manifestSeekable
  | opaqueSeek
  deriving DecidableEq, Repr

def SeekClass.code : SeekClass → Nat
  | .affine => 0
  | .manifestSeekable => 1
  | .opaqueSeek => 2

/-- Recipe verification states. `failed` is poison, and only `replayedLocal`
licenses dropping literals. -/
inductive VerifyState where
  | pending
  | verified
  | failed
  | replayedLocal
  deriving DecidableEq, Repr

def VerifyState.canTransitionTo : VerifyState → VerifyState → Bool
  | .pending, .verified | .pending, .replayedLocal | .pending, .failed => true
  | .verified, .replayedLocal | .verified, .failed => true
  | .replayedLocal, .failed => true
  | _, _ => false

inductive RecipeSource where
  | localIngest
  | peer
  | compaction
  deriving DecidableEq, Repr

inductive IndexError where
  | illegalTransition (source target : VerifyState)
  | recipeNotFound (recipeId : Nat)
  | uniqueViolation (recipeBlobId : Nat)
  | foreignKeyViolation (blobId : Nat)
  deriving DecidableEq, Repr

/-! ## Rows -/

structure BlobRow where
  blobId : Nat
  hash : Blake3
  size : Option Nat
  ns : Namespace
  residency : Residency
  verifiedAt : Option Int := none
  pinnedReason : Option Nat := none
  deriving DecidableEq, Repr

instance : Row BlobRow Blake3 where
  id := BlobRow.blobId
  key := BlobRow.hash

structure RecipeInput where
  blobId : Nat
  role : Option String := none
  deriving DecidableEq, Repr

structure RecipeOutput where
  blobId : Nat
  size : Nat
  name : Option String := none
  deriving DecidableEq, Repr

/-- A recipe row with its `recipe_input` rows by position and its
`recipe_output` rows by ordinal. `blobId` is the recipe object's own blob. -/
structure RecipeRow where
  recipeId : Nat
  blobId : Nat
  seekClass : SeekClass
  verify : VerifyState
  source : RecipeSource
  inputs : List RecipeInput
  outputs : List RecipeOutput
  deriving DecidableEq, Repr

instance : Row RecipeRow Nat where
  id := RecipeRow.recipeId
  key := RecipeRow.blobId

@[simp] theorem BlobRow.row_id (row : BlobRow) : Row.id row = row.blobId := rfl

@[simp] theorem BlobRow.row_key (row : BlobRow) : Row.key row = row.hash := rfl

@[simp] theorem RecipeRow.row_id (row : RecipeRow) : Row.id row = row.recipeId := rfl

@[simp] theorem RecipeRow.row_key (row : RecipeRow) : Row.key row = row.blobId := rfl

namespace RecipeRow

def inputIds (row : RecipeRow) : List Nat := row.inputs.map RecipeInput.blobId

def outputIds (row : RecipeRow) : List Nat := row.outputs.map RecipeOutput.blobId

end RecipeRow

/-- The index. The last block lists the blob ids that each of the other tables
references: dat revisions, detectors, identities a ROM claim names, the analysis
queue, and the two tables of analyses that wait. -/
structure Db where
  blobs : Table BlobRow
  recipes : Table RecipeRow
  tags : List (String × Blake3) := []
  seekQuarantine : List Blake3 := []
  orphanCandidates : List (Nat × Int) := []
  datRevisionBlobs : List Nat := []
  detectorBlobs : List Nat := []
  claimedIdentityBlobs : List Nat := []
  sweepQueueBlobs : List Nat := []
  sweepDeferredBlobs : List Nat := []
  sweepAbsentEligibleBlobs : List Nat := []
  deriving DecidableEq

def Db.empty : Db where
  blobs := ∅
  recipes := ∅

namespace Db

/-! ## Blobs -/

def blobByHash (db : Db) (hash : Blake3) : Option BlobRow := db.blobs.byKey hash

def blobById (db : Db) (blobId : Nat) : Option BlobRow := db.blobs.byId blobId

def getBlobId (db : Db) (hash : Blake3) : Option Nat := (db.blobByHash hash).map BlobRow.blobId

def blobVerifiedAt (db : Db) (blobId : Nat) : Option Int :=
  (db.blobById blobId).bind BlobRow.verifiedAt

/-- The update half of the upsert: a known size wins over `NULL`, residency is
always overwritten, namespace is first-write-wins. -/
def refreshBlob (size : Option Nat) (residency : Residency) : Table.Rewrite BlobRow where
  apply row := { row with size := size.or row.size, residency := residency }
  id_eq _ := rfl
  key_eq _ := rfl

/-- Insert or update a blob row; returns its surrogate id. -/
def upsertBlob (db : Db) (hash : Blake3) (size : Option Nat) (ns : Namespace)
    (residency : Residency) : Db × Nat :=
  match hfound : db.blobs.byKey hash with
  | some row =>
    ({ db with blobs := db.blobs.modify row.blobId (refreshBlob size residency) }, row.blobId)
  | none =>
    let row : BlobRow := ⟨db.blobs.nextId, hash, size, ns, residency, none, none⟩
    ({ db with blobs := db.blobs.insert row rfl (Table.byKey_eq_none.mp hfound) }, row.blobId)

def writeResidency (residency : Residency) : Table.Rewrite BlobRow where
  apply row := { row with residency := residency }
  id_eq _ := rfl
  key_eq _ := rfl

/-- Flip a blob's residency. -/
def setResidency (db : Db) (blobId : Nat) (residency : Residency) : Db :=
  { db with blobs := db.blobs.modify blobId (writeResidency residency) }

def writeVerifiedAt (atUnix : Int) : Table.Rewrite BlobRow where
  apply row := { row with verifiedAt := some atUnix }
  id_eq _ := rfl
  key_eq _ := rfl

def setVerified (db : Db) (blobId : Nat) (atUnix : Int) : Db :=
  { db with blobs := db.blobs.modify blobId (writeVerifiedAt atUnix) }

/-- Blobs that are referenced but not indexed get an absent row without a size;
indexed blobs are reused untouched. -/
def ensureBlob (db : Db) (hash : Blake3) : Db × Nat :=
  match db.getBlobId hash with
  | some blobId => (db, blobId)
  | none => db.upsertBlob hash none .data .absent

/-! ## Recipes -/

def recipeById (db : Db) (recipeId : Nat) : Except IndexError RecipeRow :=
  (db.recipes.byId recipeId).elim (.error (.recipeNotFound recipeId)) .ok

def recipeIdForBlob (db : Db) (recipeBlobId : Nat) : Option Nat :=
  (db.recipes.byKey recipeBlobId).map RecipeRow.recipeId

/-- The address of the recipe object a row projects. -/
def recipeObjectHash (db : Db) (recipeId : Nat) : Except IndexError Blake3 :=
  ((db.recipes.byId recipeId).bind fun row => db.blobById row.blobId).elim
    (.error (.recipeNotFound recipeId)) fun row => .ok row.hash

/-- All recipes claiming to produce `blobId`, one entry for each output row that
names it, in recipe-id order. -/
def recipesForOutput (db : Db) (blobId : Nat) : List RecipeRow :=
  db.recipes.rows.flatMap fun row =>
    (row.outputs.filter fun output => output.blobId = blobId).map fun _ => row

theorem mem_recipes_of_mem_recipesForOutput {db : Db} {row : RecipeRow} {blobId : Nat}
    (hmem : row ∈ db.recipesForOutput blobId) : row ∈ db.recipes := by
  simp only [recipesForOutput, List.mem_flatMap, List.mem_map] at hmem
  obtain ⟨found, hfound, _, _, rfl⟩ := hmem
  exact hfound

/-- The blobs a recipe's input rows join to, in position order. -/
def recipeInputs (db : Db) (recipeId : Nat) : List BlobRow :=
  ((db.recipes.byId recipeId).map RecipeRow.inputIds).getD [] |>.filterMap db.blobById

/-- The ids of a recipe's inputs, each missing blob row created on the way. -/
def ensureInputs : Db → List InputRef → Db × List RecipeInput
  | db, [] => (db, [])
  | db, input :: rest =>
    let (db, blobId) := db.ensureBlob input.hash
    let (db, inputs) := db.ensureInputs rest
    (db, ⟨blobId, input.role⟩ :: inputs)

def ensureOutputs : Db → List OutputRef → Db × List RecipeOutput
  | db, [] => (db, [])
  | db, output :: rest =>
    let (db, blobId) := db.ensureBlob output.hash
    let (db, outputs) := db.ensureOutputs rest
    (db, ⟨blobId, output.size, output.name⟩ :: outputs)

/-- Write the recipe row and its input and output rows; the recipe object may be
indexed only once. -/
def insertRecipe (db : Db) (recipeBlobId : Nat) (seekClass : SeekClass) (source : RecipeSource)
    (inputs : List RecipeInput) (outputs : List RecipeOutput) : Except IndexError (Db × Nat) :=
  match hfound : db.recipes.byKey recipeBlobId with
  | some _ => .error (.uniqueViolation recipeBlobId)
  | none =>
    let row : RecipeRow :=
      ⟨db.recipes.nextId, recipeBlobId, seekClass, .pending, source, inputs, outputs⟩
    .ok ({ db with recipes := db.recipes.insert row rfl (Table.byKey_eq_none.mp hfound) },
      row.recipeId)

/-- Index a recipe object: every input and output row is derived from the
decoded recipe. -/
def indexRecipe (db : Db) (recipeBlobId : Nat) (recipe : Recipe) (seekClass : SeekClass)
    (source : RecipeSource) : Except IndexError (Db × Nat) :=
  let (db, inputs) := db.ensureInputs recipe.inputs
  let (db, outputs) := db.ensureOutputs recipe.outputs
  db.insertRecipe recipeBlobId seekClass source inputs outputs

def writeVerify (state : VerifyState) : Table.Rewrite RecipeRow where
  apply row := { row with verify := state }
  id_eq _ := rfl
  key_eq _ := rfl

def markVerify (db : Db) (recipeId : Nat) (state : VerifyState) : Db :=
  { db with recipes := db.recipes.modify recipeId (writeVerify state) }

/-- The states `setVerifyState` can be asked for. -/
inductive VerifyAdvance where
  | verified
  | replayedLocal
  | failed
  deriving DecidableEq, Repr

def VerifyAdvance.state : VerifyAdvance → VerifyState
  | .verified => .verified
  | .replayedLocal => .replayedLocal
  | .failed => .failed

/-- Advance the verify state machine; illegal transitions, anything out of
`failed` among them, are rejected. -/
def setVerifyState (db : Db) (recipeId : Nat) (advance : VerifyAdvance) :
    Except IndexError Db :=
  match db.recipes.byId recipeId with
  | none => .error (.recipeNotFound recipeId)
  | some row =>
    if row.verify.canTransitionTo advance.state then .ok (db.markVerify recipeId advance.state)
    else .error (.illegalTransition row.verify advance.state)

/-- The one sanctioned exit from `failed`. -/
def rehabilitateRecipe (db : Db) (recipeId : Nat) : Except IndexError Db :=
  match db.recipes.byId recipeId with
  | none => .error (.recipeNotFound recipeId)
  | some row =>
    if row.verify = .failed then .ok (db.markVerify recipeId .replayedLocal)
    else .error (.illegalTransition row.verify .replayedLocal)

/-! ## Eviction queries -/

/-- Total known size of the resident data blobs. -/
def residentDataBytes (db : Db) : Nat :=
  ((db.blobs.rows.filter fun row => row.ns = .data ∧ row.residency = .resident).map
    fun row => row.size.getD 0).sum

/-- Recipes in a given state that list the blob among their outputs. -/
def producersIn (db : Db) (state : VerifyState) (blobId : Nat) : List RecipeRow :=
  db.recipes.rows.filter fun row => row.verify = state ∧ blobId ∈ row.outputIds

/-- `ORDER BY size DESC, hash`, where `NULL` sorts below every size. -/
def biggestFirst (a b : BlobRow) : Bool :=
  match a.size, b.size with
  | some m, some n => n < m ∨ (m = n ∧ a.hash.toNat ≤ b.hash.toNat)
  | some _, none => true
  | none, some _ => false
  | none, none => a.hash.toNat ≤ b.hash.toNat

/-- The best seek class among a blob's licensed routes. -/
def bestSeek (db : Db) (blobId : Nat) : Nat :=
  (db.producersIn .replayedLocal blobId).foldr (fun row best => min row.seekClass.code best) 2

/-- Resident data blobs with a licensed producer: best route's seek class first,
then biggest first. -/
def listEvictionCandidates (db : Db) : List BlobRow :=
  (db.blobs.rows.filter fun row => row.ns = .data ∧ row.residency = .resident ∧
      db.producersIn .replayedLocal row.blobId ≠ []).insertionSort fun a b =>
    db.bestSeek a.blobId < db.bestSeek b.blobId ∨
      (db.bestSeek a.blobId = db.bestSeek b.blobId ∧ biggestFirst a b)

/-- Resident data blobs with a `verified` producer, biggest first. -/
def verifiedOnlyCandidates (db : Db) : List BlobRow :=
  (db.blobs.rows.filter fun row => row.ns = .data ∧ row.residency = .resident ∧
    db.producersIn .verified row.blobId ≠ []).insertionSort (biggestFirst · ·)

/-- Outputs of the non-failed recipes whose only input row is the container. -/
def containerMemberClaims (db : Db) (containerBlobId : Nat) : List (Nat × Blake3 × Nat) :=
  let claims := db.recipes.rows.flatMap fun row =>
    if row.inputIds = [containerBlobId] ∧ row.verify ≠ .failed then
      row.outputs.filterMap fun output =>
        (db.blobById output.blobId).map fun blob => (output.blobId, blob.hash, output.size)
    else []
  claims.dedup.insertionSort fun a b => a.1 ≤ b.1

/-! ## Seek quarantine -/

def quarantineSeek (db : Db) (component : Blake3) : Db :=
  { db with seekQuarantine := db.seekQuarantine.insert component }

def isSeekQuarantined (db : Db) (component : Blake3) : Bool :=
  component ∈ db.seekQuarantine

end Db

end Datboi
