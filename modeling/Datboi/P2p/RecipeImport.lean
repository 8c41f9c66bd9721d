import Datboi.Core.RecipeCodec
import Datboi.Index.Db
import Datboi.Store.Store

/-!
# Importing a peer's recipes

A sync fetches the recipe objects that it lacks, one after another. An object that does not
decode, or whose operation is not the byte assembly, is skipped. Any other is stored and then
indexed, where positions are narrowed to 32 bits and sizes to signed 64 bits. The narrowing
panics, and the object is stored by then.
-/

namespace Datboi

/-- The number of positions that fit 32 bits. -/
def positionLimit : Nat := 2 ^ 32

/-- The first size that does not fit a signed 64-bit column. -/
def sizeLimit : Nat := 2 ^ 63

/-- The recipe survives the narrowing. -/
def Recipe.Indexable (recipe : Recipe) : Prop :=
  recipe.inputs.length ≤ positionLimit ∧ recipe.outputs.length ≤ positionLimit ∧
    ∀ output ∈ recipe.outputs, output.size < sizeLimit

instance (recipe : Recipe) : Decidable recipe.Indexable :=
  inferInstanceAs (Decidable (_ ∧ _ ∧ _))

inductive IndexOutcome where
  | indexed (recipeId : Nat)
  | refused (error : IndexError)
  | panicked
  deriving DecidableEq, Repr

namespace Db

/-- The ids of the inputs from a position on. The position is narrowed after the blob row was
made; nothing comes back from a panic. -/
def narrowInputs (position : Nat) : Db → List InputRef → Db × Option (List RecipeInput)
  | db, [] => (db, some [])
  | db, input :: rest =>
    let (db, blobId) := db.ensureBlob input.hash
    if position < positionLimit then
      let (db, inputs) := narrowInputs (position + 1) db rest
      (db, inputs.map (⟨blobId, input.role⟩ :: ·))
    else (db, none)

def narrowOutputs (position : Nat) : Db → List OutputRef → Db × Option (List RecipeOutput)
  | db, [] => (db, some [])
  | db, output :: rest =>
    let (db, blobId) := db.ensureBlob output.hash
    if position < positionLimit then
      let (db, outputs) := narrowOutputs (position + 1) db rest
      (db, outputs.map (⟨blobId, output.size, output.name⟩ :: ·))
    else (db, none)

/-- The transaction that writes the recipe's rows. A size that does not fit panics, which
rolls it back. -/
def narrowInsert (db : Db) (recipeBlobId : Nat) (seekClass : SeekClass) (source : RecipeSource)
    (inputs : List RecipeInput) (outputs : List RecipeOutput) : Db × IndexOutcome :=
  match db.insertRecipe recipeBlobId seekClass source inputs outputs with
  | .error error => (db, .refused error)
  | .ok (inserted, recipeId) =>
    if ∀ output ∈ outputs, output.size < sizeLimit then (inserted, .indexed recipeId)
    else (db, .panicked)

/-- Index a recipe object, with the narrowing of positions and sizes. -/
def narrowIndexRecipe (db : Db) (recipeBlobId : Nat) (recipe : Recipe) (seekClass : SeekClass)
    (source : RecipeSource) : Db × IndexOutcome :=
  match db.narrowInputs 0 recipe.inputs with
  | (db, none) => (db, .panicked)
  | (db, some inputs) =>
    match db.narrowOutputs 0 recipe.outputs with
    | (db, none) => (db, .panicked)
    | (db, some outputs) => db.narrowInsert recipeBlobId seekClass source inputs outputs

/-- The hash of the blob row with an id. -/
def refHash (db : Db) (blobId : Nat) : Option Blake3 := (db.blobById blobId).map BlobRow.hash

/-- Every blob row keeps its id and its hash. -/
def KeepsHashes (db later : Db) : Prop :=
  ∀ blobId hash, db.refHash blobId = some hash → later.refHash blobId = some hash

end Db

/-- The row's input and output columns are what the recipe claims. -/
structure RecipeRow.Projects (db : Db) (row : RecipeRow) (recipe : Recipe) : Prop where
  inputs : row.inputs.map (fun input => (db.refHash input.blobId, input.role)) =
    recipe.inputs.map fun input => (some input.hash, input.role)
  outputs : row.outputs.map (fun output => (db.refHash output.blobId, output.size, output.name)) =
    recipe.outputs.map fun output => (some output.hash, output.size, output.name)

namespace Sync

/-- What an import writes to. -/
structure Node where
  store : Store
  db : Db

inductive ImportOutcome where
  | skipped
  | imported
  | storeFailed (error : StoreError)
  | indexFailed (error : IndexError)
  | panicked
  deriving DecidableEq, Repr

/-- The one operation that a sync takes from a peer. -/
def isAssemble (op : Op) : Bool := op = .builtin "assemble" 1

/-- Index a stored recipe object, unless the index has it. -/
def indexObject (node : Node) (hash : Blake3) (bytes : Bytes) (recipe : Recipe) :
    Node × ImportOutcome :=
  let (db, blobId) := node.db.upsertBlob hash (some bytes.length) .metadata .resident
  match db.recipeIdForBlob blobId with
  | some _ => ({ node with db := db }, .imported)
  | none =>
    match db.narrowIndexRecipe blobId recipe .affine .peer with
    | (db, .indexed _) => ({ node with db := db }, .imported)
    | (db, .refused error) => ({ node with db := db }, .indexFailed error)
    | (db, .panicked) => ({ node with db := db }, .panicked)

/-- Import one object, whose bytes have the hash it was asked for under. -/
def importRecipe (host : Host) (node : Node) (bytes : Bytes) : Node × ImportOutcome :=
  let hash := host.blake3 bytes
  match Recipe.decode bytes with
  | .error _ => (node, .skipped)
  | .ok recipe =>
    if isAssemble recipe.op then
      match node.store.put host .metadata hash ⟨bytes, none⟩ with
      | .error error => (node, .storeFailed error)
      | .ok (_, store) => indexObject { node with store := store } hash bytes recipe
    else (node, .skipped)

/-- The object is stored, and its row has the columns that the recipe claims. -/
def Node.Holds (host : Host) (node : Node) (bytes : Bytes) (recipe : Recipe) : Prop :=
  node.store.loose .metadata (host.blake3 bytes) = some bytes ∧
    ∃ row ∈ node.db.recipes, node.db.refHash row.blobId = some (host.blake3 bytes) ∧
      row.Projects node.db recipe

/-- The object is skipped and nothing changes, or it is stored and indexed as it claims. -/
def StepFaithful (host : Host) (node : Node) (bytes : Bytes) : Prop :=
  importRecipe host node bytes = (node, .skipped) ∨
    (importRecipe host node bytes).2 = .imported ∧
      ∃ recipe, Recipe.decode bytes = .ok recipe ∧
        (importRecipe host node bytes).1.Holds host bytes recipe

/-- Every object of the list is imported faithfully, in its turn. -/
def Faithful (host : Host) : Node → List Bytes → Prop
  | _, [] => True
  | node, bytes :: rest =>
    StepFaithful host node bytes ∧ Faithful host (importRecipe host node bytes).1 rest

/-- What an import starts from, as far as it touches the objects that are served: the store
has no other bytes under their hashes, recipe rows refer to blob rows, and the row of such an
object is a projection of it, in columns of the width that they have. -/
structure Truthful (host : Host) (served : List Bytes) (node : Node) : Prop where
  stored : ∀ bytes ∈ served, ∀ file,
    node.store.loose .metadata (host.blake3 bytes) = some file → file = bytes
  references : ∀ row ∈ node.db.recipes, ∃ hash, node.db.refHash row.blobId = some hash
  indexed : ∀ bytes ∈ served, ∀ recipe, Recipe.decode bytes = .ok recipe →
    ∀ row ∈ node.db.recipes, node.db.refHash row.blobId = some (host.blake3 bytes) →
      row.Projects node.db recipe ∧ recipe.Indexable

end Sync

/-! ## What indexing writes -/

namespace Db

variable {db later : Db} {hash : Blake3}

theorem KeepsHashes.refl (db : Db) : db.KeepsHashes db := fun _ _ heq => heq

theorem KeepsHashes.trans {a b c : Db} (hab : a.KeepsHashes b) (hbc : b.KeepsHashes c) :
    a.KeepsHashes c := fun blobId hash heq => hbc blobId hash (hab blobId hash heq)

theorem refHash_eq_some {blobId : Nat} :
    db.refHash blobId = some hash ↔ ∃ row ∈ db.blobs, row.blobId = blobId ∧ row.hash = hash := by
  rw [refHash, Option.map_eq_some_iff]
  refine exists_congr fun row => ?_
  rw [blobById, Table.byId_eq_some, and_assoc]
  rfl

theorem keepsHashes_of_rows (hrows : ∀ row ∈ db.blobs, ∃ new ∈ later.blobs,
    new.blobId = row.blobId ∧ new.hash = row.hash) : db.KeepsHashes later := by
  intro blobId hash heq
  obtain ⟨row, hrow, rfl, rfl⟩ := refHash_eq_some.mp heq
  exact refHash_eq_some.mpr (hrows row hrow)

theorem refHash_upsertBlob (db : Db) (hash : Blake3) (size : Option Nat) (ns : Namespace)
    (residency : Residency) :
    db.KeepsHashes (db.upsertBlob hash size ns residency).1 ∧
      (db.upsertBlob hash size ns residency).1.refHash (db.upsertBlob hash size ns residency).2 =
        some hash := by
  unfold upsertBlob
  split
  · rename_i row hfound
    obtain ⟨hrow, hhash⟩ := Table.byKey_eq_some.mp hfound
    have hkeeps : db.KeepsHashes
        { db with blobs := db.blobs.modify row.blobId (refreshBlob size residency) } :=
      keepsHashes_of_rows fun old hold => Table.exists_mem_modify row.blobId _ hold
    exact ⟨hkeeps, hkeeps _ _ (refHash_eq_some.mpr ⟨row, hrow, rfl, hhash⟩)⟩
  · let row : BlobRow := ⟨db.blobs.nextId, hash, size, ns, residency, none, none⟩
    refine ⟨keepsHashes_of_rows fun old hold => ⟨old, ?_, rfl, rfl⟩,
      refHash_eq_some.mpr ⟨row, ?_, rfl, rfl⟩⟩
    · simp only [Table.mem_insert]
      exact Or.inl hold
    · simp only [Table.mem_insert]
      exact Or.inr rfl

theorem recipes_upsert (hash : Blake3) (size : Option Nat) (ns : Namespace)
    (residency : Residency) : (db.upsertBlob hash size ns residency).1.recipes = db.recipes := by
  unfold upsertBlob
  split <;> rfl

theorem refHash_ensureBlob (db : Db) (hash : Blake3) :
    db.KeepsHashes (db.ensureBlob hash).1 ∧
      (db.ensureBlob hash).1.refHash (db.ensureBlob hash).2 = some hash ∧
      (db.ensureBlob hash).1.recipes = db.recipes := by
  unfold ensureBlob
  split
  · rename_i blobId hfound
    obtain ⟨row, hrow, rfl⟩ := Option.map_eq_some_iff.mp hfound
    obtain ⟨hmem, hhash⟩ := Table.byKey_eq_some.mp hrow
    exact ⟨KeepsHashes.refl db, refHash_eq_some.mpr ⟨row, hmem, rfl, hhash⟩, rfl⟩
  · obtain ⟨hkeeps, hnew⟩ := refHash_upsertBlob db hash none .data .absent
    exact ⟨hkeeps, hnew, recipes_upsert ..⟩

theorem ensureInputs_spec (db : Db) (inputs : List InputRef) :
    db.KeepsHashes (db.ensureInputs inputs).1 ∧
      (db.ensureInputs inputs).1.recipes = db.recipes ∧
      (db.ensureInputs inputs).2.map (fun input =>
          ((db.ensureInputs inputs).1.refHash input.blobId, input.role)) =
        inputs.map fun input => (some input.hash, input.role) := by
  induction inputs generalizing db with
  | nil => exact ⟨KeepsHashes.refl db, rfl, rfl⟩
  | cons input inputs ih =>
    obtain ⟨hfirst, hnew, hrecipes⟩ := refHash_ensureBlob db input.hash
    obtain ⟨hrest, hrecipes', hmap⟩ := ih (db.ensureBlob input.hash).1
    refine ⟨hfirst.trans hrest, hrecipes'.trans hrecipes, ?_⟩
    rw [ensureInputs, List.map_cons, List.map_cons, hmap, hrest _ _ hnew]

theorem ensureOutputs_spec (db : Db) (outputs : List OutputRef) :
    db.KeepsHashes (db.ensureOutputs outputs).1 ∧
      (db.ensureOutputs outputs).1.recipes = db.recipes ∧
      (db.ensureOutputs outputs).2.map (fun output =>
          ((db.ensureOutputs outputs).1.refHash output.blobId, output.size, output.name)) =
        outputs.map fun output => (some output.hash, output.size, output.name) := by
  induction outputs generalizing db with
  | nil => exact ⟨KeepsHashes.refl db, rfl, rfl⟩
  | cons output outputs ih =>
    obtain ⟨hfirst, hnew, hrecipes⟩ := refHash_ensureBlob db output.hash
    obtain ⟨hrest, hrecipes', hmap⟩ := ih (db.ensureBlob output.hash).1
    refine ⟨hfirst.trans hrest, hrecipes'.trans hrecipes, ?_⟩
    rw [ensureOutputs, List.map_cons, List.map_cons, hmap, hrest _ _ hnew]

/-- Positions that fit are narrowed without effect. -/
theorem narrowInputs_of_le (position : Nat) (db : Db) (inputs : List InputRef)
    (hle : position + inputs.length ≤ positionLimit) :
    db.narrowInputs position inputs =
      ((db.ensureInputs inputs).1, some (db.ensureInputs inputs).2) := by
  induction inputs generalizing position db with
  | nil => rfl
  | cons input inputs ih =>
    rw [List.length_cons] at hle
    rw [narrowInputs, ensureInputs]
    dsimp only
    rw [if_pos (by omega), ih (position + 1) _ (by omega)]
    rfl

theorem narrowInputs_of_lt (position : Nat) (db : Db) (inputs : List InputRef)
    (hne : inputs ≠ []) (hlt : positionLimit < position + inputs.length) :
    (db.narrowInputs position inputs).2 = none := by
  induction inputs generalizing position db with
  | nil => exact absurd rfl hne
  | cons input inputs ih =>
    rw [List.length_cons] at hlt
    rw [narrowInputs]
    dsimp only
    split
    · have hrest : inputs ≠ [] := by
        intro hnil
        rw [hnil, List.length_nil] at hlt
        omega
      rw [ih (position + 1) _ hrest (by omega), Option.map_none]
    · rfl

theorem narrowOutputs_of_le (position : Nat) (db : Db) (outputs : List OutputRef)
    (hle : position + outputs.length ≤ positionLimit) :
    db.narrowOutputs position outputs =
      ((db.ensureOutputs outputs).1, some (db.ensureOutputs outputs).2) := by
  induction outputs generalizing position db with
  | nil => rfl
  | cons output outputs ih =>
    rw [List.length_cons] at hle
    rw [narrowOutputs, ensureOutputs]
    dsimp only
    rw [if_pos (by omega), ih (position + 1) _ (by omega)]
    rfl

theorem narrowOutputs_of_lt (position : Nat) (db : Db) (outputs : List OutputRef)
    (hne : outputs ≠ []) (hlt : positionLimit < position + outputs.length) :
    (db.narrowOutputs position outputs).2 = none := by
  induction outputs generalizing position db with
  | nil => exact absurd rfl hne
  | cons output outputs ih =>
    rw [List.length_cons] at hlt
    rw [narrowOutputs]
    dsimp only
    split
    · have hrest : outputs ≠ [] := by
        intro hnil
        rw [hnil, List.length_nil] at hlt
        omega
      rw [ih (position + 1) _ hrest (by omega), Option.map_none]
    · rfl

theorem sizes_ensureOutputs (db : Db) (outputs : List OutputRef) :
    (db.ensureOutputs outputs).2.map RecipeOutput.size = outputs.map OutputRef.size := by
  induction outputs generalizing db with
  | nil => rfl
  | cons output outputs ih => rw [ensureOutputs, List.map_cons, List.map_cons, ih]

theorem forall_size_ensureOutputs (db : Db) (outputs : List OutputRef) :
    (∀ output ∈ (db.ensureOutputs outputs).2, output.size < sizeLimit) ↔
      ∀ output ∈ outputs, output.size < sizeLimit := by
  have hnarrow : (∀ size ∈ (db.ensureOutputs outputs).2.map RecipeOutput.size, size < sizeLimit) ↔
      ∀ output ∈ (db.ensureOutputs outputs).2, output.size < sizeLimit := List.forall_mem_map
  have hclaimed : (∀ size ∈ outputs.map OutputRef.size, size < sizeLimit) ↔
      ∀ output ∈ outputs, output.size < sizeLimit := List.forall_mem_map
  rw [sizes_ensureOutputs] at hnarrow
  exact hnarrow.symm.trans hclaimed

theorem insertRecipe_of_none {recipeBlobId : Nat} (seekClass : SeekClass) (source : RecipeSource)
    (inputs : List RecipeInput) (outputs : List RecipeOutput)
    (hnone : db.recipes.byKey recipeBlobId = none) :
    ∃ inserted recipeId row,
      db.insertRecipe recipeBlobId seekClass source inputs outputs = .ok (inserted, recipeId) ∧
        inserted.blobs = db.blobs ∧ row.blobId = recipeBlobId ∧ row.inputs = inputs ∧
        row.outputs = outputs ∧ ∀ other, other ∈ inserted.recipes ↔
          other ∈ db.recipes ∨ other = row := by
  unfold insertRecipe
  split
  · rename_i found hfound
    rw [hnone] at hfound
    cases hfound
  · refine ⟨_, _, ⟨db.recipes.nextId, recipeBlobId, seekClass, .pending, source, inputs, outputs⟩,
      rfl, rfl, rfl, rfl, rfl, fun other => ?_⟩
    simp only [Table.mem_insert]

end Db

theorem RecipeRow.Projects.mono {db later : Db} {row : RecipeRow} {recipe : Recipe}
    (hkeeps : db.KeepsHashes later) (hprojects : row.Projects db recipe) :
    row.Projects later recipe := by
  refine ⟨?_, ?_⟩
  · rw [← hprojects.inputs]
    refine List.map_congr_left fun input hinput => ?_
    have hmem : (db.refHash input.blobId, input.role) ∈
        recipe.inputs.map fun input => (some input.hash, input.role) :=
      hprojects.inputs ▸ List.mem_map_of_mem hinput
    obtain ⟨claimed, -, heq⟩ := List.mem_map.mp hmem
    have hhash := (Prod.mk.inj heq).1.symm
    rw [hhash, hkeeps _ _ hhash]
  · rw [← hprojects.outputs]
    refine List.map_congr_left fun output houtput => ?_
    have hmem : (db.refHash output.blobId, output.size, output.name) ∈
        recipe.outputs.map fun output => (some output.hash, output.size, output.name) :=
      hprojects.outputs ▸ List.mem_map_of_mem houtput
    obtain ⟨claimed, -, heq⟩ := List.mem_map.mp hmem
    have hhash := (Prod.mk.inj heq).1.symm
    rw [hhash, hkeeps _ _ hhash]

namespace Db

variable {db : Db} {recipe : Recipe} {recipeBlobId : Nat}

/-- A recipe that survives the narrowing is indexed as it claims. -/
theorem narrowIndexRecipe_indexable (seekClass : SeekClass) (source : RecipeSource)
    (hindexable : recipe.Indexable) (hnone : db.recipes.byKey recipeBlobId = none) :
    ∃ later recipeId row,
      db.narrowIndexRecipe recipeBlobId recipe seekClass source = (later, .indexed recipeId) ∧
        db.KeepsHashes later ∧ row.blobId = recipeBlobId ∧ row.Projects later recipe ∧
        ∀ other, other ∈ later.recipes ↔ other ∈ db.recipes ∨ other = row := by
  obtain ⟨hinputs, houtputs, hsizes⟩ := hindexable
  obtain ⟨hkeepsIn, hrecipesIn, hmapIn⟩ := db.ensureInputs_spec recipe.inputs
  obtain ⟨hkeepsOut, hrecipesOut, hmapOut⟩ :=
    (db.ensureInputs recipe.inputs).1.ensureOutputs_spec recipe.outputs
  rw [narrowIndexRecipe, narrowInputs_of_le 0 db _ (by omega)]
  dsimp only
  rw [narrowOutputs_of_le 0 _ _ (by omega)]
  dsimp only
  have hnone' : ((db.ensureInputs recipe.inputs).1.ensureOutputs
      recipe.outputs).1.recipes.byKey recipeBlobId = none := by
    rw [hrecipesOut, hrecipesIn, hnone]
  obtain ⟨inserted, recipeId, row, hinsert, hblobs, hblobId, hrowIn, hrowOut, hmem⟩ :=
    insertRecipe_of_none seekClass source (db.ensureInputs recipe.inputs).2
      ((db.ensureInputs recipe.inputs).1.ensureOutputs recipe.outputs).2 hnone'
  have hsame : ((db.ensureInputs recipe.inputs).1.ensureOutputs
      recipe.outputs).1.KeepsHashes inserted :=
    keepsHashes_of_rows fun old hold => ⟨old, hblobs ▸ hold, rfl, rfl⟩
  rw [narrowInsert, hinsert]
  dsimp only
  rw [if_pos ((forall_size_ensureOutputs _ _).mpr hsizes)]
  refine ⟨inserted, recipeId, row, rfl, (hkeepsIn.trans hkeepsOut).trans hsame, hblobId, ?_, ?_⟩
  · have hfirst : row.Projects
        ((db.ensureInputs recipe.inputs).1.ensureOutputs recipe.outputs).1 recipe := by
      refine ⟨?_, hrowOut ▸ hmapOut⟩
      rw [hrowIn, ← hmapIn]
      refine List.map_congr_left fun input hinput => ?_
      have hfound : ((db.ensureInputs recipe.inputs).1.refHash input.blobId, input.role) ∈
          recipe.inputs.map fun input => (some input.hash, input.role) :=
        hmapIn ▸ List.mem_map_of_mem hinput
      obtain ⟨claimed, -, heq⟩ := List.mem_map.mp hfound
      have hhash := (Prod.mk.inj heq).1.symm
      rw [hhash, hkeepsOut _ _ hhash]
    exact hfirst.mono hsame
  · intro other
    rw [hmem, hrecipesOut, hrecipesIn]

/-- Any other recipe panics. -/
theorem narrowIndexRecipe_panics (seekClass : SeekClass) (source : RecipeSource)
    (hindexable : ¬recipe.Indexable) (hnone : db.recipes.byKey recipeBlobId = none) :
    (db.narrowIndexRecipe recipeBlobId recipe seekClass source).2 = .panicked := by
  rw [narrowIndexRecipe]
  by_cases hinputs : recipe.inputs.length ≤ positionLimit
  · rw [narrowInputs_of_le 0 db _ (by omega)]
    dsimp only
    by_cases houtputs : recipe.outputs.length ≤ positionLimit
    · rw [narrowOutputs_of_le 0 _ _ (by omega)]
      dsimp only
      have hnone' : ((db.ensureInputs recipe.inputs).1.ensureOutputs
          recipe.outputs).1.recipes.byKey recipeBlobId = none := by
        rw [(ensureOutputs_spec _ recipe.outputs).2.1, (db.ensureInputs_spec recipe.inputs).2.1,
          hnone]
      obtain ⟨inserted, recipeId, row, hinsert, -⟩ :=
        insertRecipe_of_none seekClass source (db.ensureInputs recipe.inputs).2
          ((db.ensureInputs recipe.inputs).1.ensureOutputs recipe.outputs).2 hnone'
      rw [narrowInsert, hinsert]
      dsimp only
      rw [if_neg]
      intro hsizes
      exact hindexable ⟨hinputs, houtputs, (forall_size_ensureOutputs _ _).mp hsizes⟩
    · have hpanic := narrowOutputs_of_lt 0 (db.ensureInputs recipe.inputs).1 recipe.outputs
        (by rintro hnil; rw [hnil, List.length_nil] at houtputs; omega) (by omega)
      cases hrun : (db.ensureInputs recipe.inputs).1.narrowOutputs 0 recipe.outputs with
      | mk later outputs =>
        rw [hrun] at hpanic
        obtain rfl : outputs = none := hpanic
        rfl
  · have hpanic := narrowInputs_of_lt 0 db recipe.inputs
      (by rintro hnil; rw [hnil, List.length_nil] at hinputs; omega) (by omega)
    cases hrun : db.narrowInputs 0 recipe.inputs with
    | mk later inputs =>
      rw [hrun] at hpanic
      obtain rfl : inputs = none := hpanic
      rfl

end Db

/-! ## What an import writes -/

namespace Sync

variable {host : Host} {served : List Bytes} {node : Node} {bytes : Bytes} {recipe : Recipe}

/-- An object that has its hash is stored, and no other loose file changes. -/
theorem put_recipe (hstored : ∀ file,
      node.store.loose .metadata (host.blake3 bytes) = some file → file = bytes) :
    ∃ outcome store,
      node.store.put host .metadata (host.blake3 bytes) ⟨bytes, none⟩ = .ok (outcome, store) ∧
        store.loose .metadata (host.blake3 bytes) = some bytes ∧
        ∀ hash, hash ≠ host.blake3 bytes →
          store.loose .metadata hash = node.store.loose .metadata hash := by
  unfold Store.put
  cases hfile : node.store.loose .metadata (host.blake3 bytes) with
  | some file =>
    have hloose : node.store.hasLoose .metadata (host.blake3 bytes) = true := by
      rw [Store.hasLoose, hfile]
      rfl
    rw [if_pos hloose]
    refine ⟨.alreadyPresent, node.store, rfl, ?_, fun _ _ => rfl⟩
    rw [hfile, hstored file hfile]
  | none =>
    have hloose : ¬node.store.hasLoose .metadata (host.blake3 bytes) = true := by
      rw [Store.hasLoose, hfile]
      exact Bool.noConfusion
    rw [if_neg hloose]
    dsimp only
    rw [if_pos rfl, Store.publish, if_neg hloose]
    refine ⟨_, _, rfl, ?_, ?_⟩
    · simp [Store.setLoose]
    · intro hash hne
      simp [Store.setLoose, hne]

/-- What indexing a stored object leaves: its row and no other new one, if it can be indexed,
and a panic if it cannot. -/
theorem indexObject_spec (htruthful : Truthful host served node) (hserved : bytes ∈ served)
    (hdecode : Recipe.decode bytes = .ok recipe) (store : Store) :
    (recipe.Indexable → ∃ later,
        indexObject { node with store := store } (host.blake3 bytes) bytes recipe =
          (⟨store, later⟩, .imported) ∧
        node.db.KeepsHashes later ∧
        (∃ row ∈ later.recipes, later.refHash row.blobId = some (host.blake3 bytes) ∧
          row.Projects later recipe) ∧
        ∀ other ∈ later.recipes, other ∈ node.db.recipes ∨
          later.refHash other.blobId = some (host.blake3 bytes) ∧ other.Projects later recipe) ∧
      (¬recipe.Indexable →
        (indexObject { node with store := store } (host.blake3 bytes) bytes recipe).2 =
          .panicked) := by
  obtain ⟨hkeeps, hself⟩ := node.db.refHash_upsertBlob (host.blake3 bytes) (some bytes.length)
    .metadata .resident
  have hrecipes := node.db.recipes_upsert (host.blake3 bytes) (some bytes.length) .metadata
    .resident
  rw [indexObject]
  generalize node.db.upsertBlob (host.blake3 bytes) (some bytes.length) .metadata .resident =
    upserted at hkeeps hself hrecipes
  obtain ⟨db, blobId⟩ := upserted
  dsimp only at hkeeps hself hrecipes ⊢
  cases hfound : db.recipes.byKey blobId with
  | some row =>
    obtain ⟨hrow, hblobId⟩ := Table.byKey_eq_some.mp hfound
    rw [RecipeRow.row_key] at hblobId
    rw [hrecipes] at hrow
    obtain ⟨hash, hhash⟩ := htruthful.references row hrow
    have hsame : hash = host.blake3 bytes := by
      have hlater := hkeeps _ _ hhash
      rw [hblobId, hself, Option.some.injEq] at hlater
      exact hlater.symm
    rw [hsame] at hhash
    obtain ⟨hprojects, hindexable⟩ :=
      htruthful.indexed bytes hserved recipe hdecode row hrow hhash
    refine ⟨fun _ => ⟨db, ?_, hkeeps, ⟨row, hrecipes ▸ hrow, ?_, hprojects.mono hkeeps⟩, ?_⟩,
      fun hnot => absurd hindexable hnot⟩
    · rw [Db.recipeIdForBlob, hfound]
      rfl
    · rw [hblobId, hself]
    · exact fun other hother => Or.inl (hrecipes ▸ hother)
  | none =>
    have hlookup : db.recipeIdForBlob blobId = none := by
      rw [Db.recipeIdForBlob, hfound]
      rfl
    rw [hlookup]
    dsimp only
    refine ⟨fun hindexable => ?_, fun hnot => ?_⟩
    · obtain ⟨later, recipeId, row, hrun, hgrow, hblobId, hprojects, hmem⟩ :=
        Db.narrowIndexRecipe_indexable .affine .peer hindexable hfound
      rw [hrun]
      have hrowHash : later.refHash row.blobId = some (host.blake3 bytes) := by
        rw [hblobId]
        exact hgrow _ _ hself
      refine ⟨later, rfl, hkeeps.trans hgrow,
        ⟨row, (hmem row).mpr (Or.inr rfl), hrowHash, hprojects⟩, ?_⟩
      intro other hother
      rcases (hmem other).mp hother with hold | rfl
      · exact Or.inl (hrecipes ▸ hold)
      · exact Or.inr ⟨hrowHash, hprojects⟩
    · have hpanic := Db.narrowIndexRecipe_panics .affine .peer hnot hfound
      cases hrun : db.narrowIndexRecipe blobId recipe .affine .peer with
      | mk later outcome =>
        rw [hrun] at hpanic
        obtain rfl : outcome = .panicked := hpanic
        rfl

/-- The peer serves no two objects under one hash. -/
def Distinct (host : Host) (served : List Bytes) : Prop :=
  ∀ bytes ∈ served, ∀ other ∈ served, host.blake3 bytes = host.blake3 other → bytes = other

/-- One object: it is imported faithfully exactly if it is skipped or survives the narrowing,
and what follows it starts from a truthful node. -/
theorem stepFaithful_iff (hdistinct : Distinct host served)
    (htruthful : Truthful host served node) (hserved : bytes ∈ served) :
    (StepFaithful host node bytes ↔
        ∀ recipe, Recipe.decode bytes = .ok recipe → isAssemble recipe.op = true →
          recipe.Indexable) ∧
      (StepFaithful host node bytes →
        Truthful host served (importRecipe host node bytes).1) := by
  cases hdecode : Recipe.decode bytes with
  | error error =>
    have hrun : importRecipe host node bytes = (node, .skipped) := by
      rw [importRecipe, hdecode]
    rw [hrun]
    exact ⟨⟨fun _ recipe heq => (by cases heq), fun _ => Or.inl hrun⟩, fun _ => htruthful⟩
  | ok recipe =>
    by_cases hop : isAssemble recipe.op = true
    · obtain ⟨outcome, store, hput, hfile, hother⟩ :=
        put_recipe (htruthful.stored bytes hserved)
      have hrun : importRecipe host node bytes =
          indexObject { node with store := store } (host.blake3 bytes) bytes recipe := by
        rw [importRecipe, hdecode]
        dsimp only
        rw [if_pos hop, hput]
      obtain ⟨hindexed, hpanics⟩ := indexObject_spec htruthful hserved hdecode store
      have hindexable : StepFaithful host node bytes → recipe.Indexable := by
        intro hstep
        by_contra hnot
        have hpanic := hpanics hnot
        rw [← hrun] at hpanic
        rcases hstep with hskip | ⟨himported, -⟩
        · rw [hskip] at hpanic
          cases hpanic
        · rw [himported] at hpanic
          cases hpanic
      refine ⟨⟨?_, ?_⟩, ?_⟩
      · intro hstep other heq _
        obtain rfl := Except.ok.inj heq
        exact hindexable hstep
      · intro hall
        obtain ⟨later, hlater, -, hrow, -⟩ := hindexed (hall recipe rfl hop)
        refine Or.inr ?_
        rw [hrun, hlater]
        exact ⟨rfl, recipe, hdecode, hfile, hrow⟩
      · intro hstep
        obtain ⟨later, hlater, hkeeps, -, hrows⟩ := hindexed (hindexable hstep)
        rw [hrun, hlater]
        refine ⟨?_, ?_, ?_⟩
        · intro other hmem file hloose
          by_cases heq : host.blake3 other = host.blake3 bytes
          · rw [heq, hfile, Option.some.injEq] at hloose
            rw [← hloose, hdistinct other hmem bytes hserved heq]
          · rw [hother _ heq] at hloose
            exact htruthful.stored other hmem file hloose
        · intro row hrow
          rcases hrows row hrow with hold | ⟨hhash, -⟩
          · obtain ⟨hash, hhash⟩ := htruthful.references row hold
            exact ⟨hash, hkeeps _ _ hhash⟩
          · exact ⟨_, hhash⟩
        · intro other hmem claimed hclaimed row hrow hhash
          rcases hrows row hrow with hold | ⟨hself, hprojects⟩
          · obtain ⟨hash, hbefore⟩ := htruthful.references row hold
            have hsame := (hkeeps _ _ hbefore).symm.trans hhash
            rw [Option.some.injEq] at hsame
            rw [hsame] at hbefore
            obtain ⟨hprojects, hfits⟩ :=
              htruthful.indexed other hmem claimed hclaimed row hold hbefore
            exact ⟨hprojects.mono hkeeps, hfits⟩
          · rw [hself, Option.some.injEq] at hhash
            obtain rfl := hdistinct bytes hserved other hmem hhash
            rw [hdecode, Except.ok.injEq] at hclaimed
            subst hclaimed
            exact ⟨hprojects, hindexable hstep⟩
    · have hrun : importRecipe host node bytes = (node, .skipped) := by
        rw [importRecipe, hdecode]
        dsimp only
        rw [if_neg hop]
      rw [hrun]
      refine ⟨⟨fun _ other heq hop' => ?_, fun _ => Or.inl hrun⟩, fun _ => htruthful⟩
      obtain rfl := Except.ok.inj heq
      exact absurd hop' hop

/-- The import of a list of objects is faithful exactly if each of those that is an assembly
claims no more inputs and outputs than there are positions, and no size of 2^63 or more. -/
theorem import_faithful_iff (host : Host) (node : Node) (served : List Bytes)
    (hdistinct : Distinct host served) (htruthful : Truthful host served node) :
    Faithful host node served ↔
      ∀ bytes ∈ served, ∀ recipe, Recipe.decode bytes = .ok recipe →
        isAssemble recipe.op = true → recipe.Indexable := by
  have hrun : ∀ rest node, (∀ bytes ∈ rest, bytes ∈ served) → Truthful host served node →
      (Faithful host node rest ↔ ∀ bytes ∈ rest, ∀ recipe, Recipe.decode bytes = .ok recipe →
        isAssemble recipe.op = true → recipe.Indexable) := by
    intro rest
    induction rest with
    | nil => exact fun _ _ _ => iff_of_true trivial fun _ hmem => (by cases hmem)
    | cons bytes rest ih =>
      intro node hsub htruthful
      obtain ⟨hstep, hnext⟩ :=
        stepFaithful_iff hdistinct htruthful (hsub bytes List.mem_cons_self)
      rw [Faithful, List.forall_mem_cons, ← hstep]
      refine and_congr_right fun hfaithful => ?_
      exact ih _ (fun other hother => hsub other (List.mem_cons_of_mem _ hother))
        (hnext hfaithful)
  exact hrun served node (fun _ hmem => hmem) htruthful

/-- The object of an assembly without inputs that claims one output, of the given size. -/
def claimObject (size : Bytes) : Bytes :=
  recipeHeader ++ [163, 1, 163, 1, 97, 98, 2, 104, 97, 115, 115, 101, 109, 98, 108, 101, 3, 1,
    2, 128, 3, 129, 162, 1, 88, 32] ++ List.replicate 32 0 ++ [2] ++ size

def emptyNode : Node := ⟨Store.empty, Db.empty⟩

/-- The sizes 5 and 2^63, as they are written. -/
def smallClaim : Bytes := claimObject [5]

def hugeClaim : Bytes := claimObject [27, 128, 0, 0, 0, 0, 0, 0, 0]

theorem import_faithful_small : Faithful Host.sample emptyNode [smallClaim] := by
  refine (import_faithful_iff Host.sample emptyNode [smallClaim] ?_ ?_).mpr ?_
  · intro bytes hbytes other hother _
    rw [List.mem_singleton.mp hbytes, List.mem_singleton.mp hother]
  · exact ⟨fun _ _ _ hfile => (by cases hfile), fun _ hrow => (by cases hrow),
      fun _ _ _ _ _ hrow => (by cases hrow)⟩
  · intro bytes hbytes recipe hdecode _
    rw [List.mem_singleton.mp hbytes] at hdecode
    have hclaim : Recipe.decode smallClaim =
        .ok ⟨.builtin "assemble" 1, [], [⟨0, 5, none⟩], []⟩ := by
      decide +kernel
    rw [hclaim] at hdecode
    obtain rfl := Except.ok.inj hdecode
    decide +kernel

/-- The object decodes, and indexing it panics after it was stored: it has no recipe row. -/
theorem hugeClaim_panics :
    ¬Faithful Host.sample emptyNode [hugeClaim] ∧
      (importRecipe Host.sample emptyNode hugeClaim).2 = .panicked ∧
      (importRecipe Host.sample emptyNode hugeClaim).1.store.loose .metadata
        (Host.sample.blake3 hugeClaim) = some hugeClaim ∧
      (importRecipe Host.sample emptyNode hugeClaim).1.db.recipes.rows = [] := by
  have houtcome : (importRecipe Host.sample emptyNode hugeClaim).2 = .panicked := by
    decide +kernel
  refine ⟨?_, houtcome, by decide +kernel, by decide +kernel⟩
  intro hfaithful
  rcases hfaithful.1 with hskip | ⟨himported, -⟩
  · rw [hskip] at houtcome
    cases houtcome
  · rw [himported] at houtcome
    cases houtcome

end Sync

end Datboi
