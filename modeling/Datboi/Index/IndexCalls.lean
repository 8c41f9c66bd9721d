import Datboi.Index.Writes
import Datboi.Lib.Runs

/-!
# Indexing a recipe beside other connections

The stand-alone `index_recipe` makes every reference in two statements: it looks the hash up,
and when the row is missing it upserts an absent one. Between the two another connection may
write the row, and the upsert then takes its residency away. The twin that runs inside the
caller's transaction is one statement to everybody else.
-/

namespace Datboi

namespace Db

/-- A stand-alone `index_recipe` on its way: its arguments, and the rows it has made so far. -/
structure IndexCall where
  recipeBlobId : Nat
  recipe : Recipe
  seekClass : SeekClass
  source : RecipeSource
  inputs : List RecipeInput := []
  outputs : List RecipeOutput := []
  /-- The next reference was looked up and has no row. -/
  missing : Bool := false
  result : Option (Except IndexError Nat) := none

namespace IndexCall

variable (call : IndexCall)

/-- The next reference to make: the inputs by position, then the outputs by ordinal. -/
def reference : Option Blake3 :=
  match call.recipe.inputs.drop call.inputs.length with
  | input :: _ => some input.hash
  | [] => (call.recipe.outputs[call.outputs.length]?).map OutputRef.hash

/-- The reference has got its row. -/
def resolve (blobId : Nat) : IndexCall :=
  match call.recipe.inputs.drop call.inputs.length with
  | input :: _ =>
    { call with inputs := call.inputs ++ [⟨blobId, input.role⟩], missing := false }
  | [] =>
    match call.recipe.outputs[call.outputs.length]? with
    | some output =>
      { call with
        outputs := call.outputs ++ [⟨blobId, output.size, output.name⟩]
        missing := false }
    | none => call

end IndexCall

/-- The next statement of a call: a look-up, an upsert of a missing row, or the insertion of
the recipe with its input and output rows, which is one transaction. -/
def indexStatement (db : Db) (call : IndexCall) : Db × IndexCall :=
  if call.result.isSome then (db, call)
  else
    match call.reference with
    | some hash =>
      if call.missing then
        let (db, blobId) := db.upsertBlob hash none .data .absent
        (db, call.resolve blobId)
      else
        match db.getBlobId hash with
        | some blobId => (db, call.resolve blobId)
        | none => (db, { call with missing := true })
    | none =>
      match db.insertRecipe call.recipeBlobId call.seekClass call.source call.inputs
          call.outputs with
      | .ok (db, recipeId) => (db, { call with result := some (.ok recipeId) })
      | .error e => (db, { call with result := some (.error e) })

end Db

/-! ## A call without company -/

namespace Db

/-- One statement of a call that has the index to itself. -/
def statement (at_ : Db × IndexCall) : Db × IndexCall := at_.1.indexStatement at_.2

variable {db : Db} {call : IndexCall}

/-- A reference takes one statement or two, and is what `ensure_blob` makes it. -/
theorem statement_reference {hash : Blake3} (hreference : call.reference = some hash)
    (hmissing : call.missing = false) (hresult : call.result = none) :
    ∃ n, statement^[n] (db, call) =
      ((db.ensureBlob hash).1, call.resolve (db.ensureBlob hash).2) := by
  have hopen : ¬ call.result.isSome = true := by simp [hresult]
  have hfirst : ¬ call.missing = true := by simp [hmissing]
  cases hfound : db.getBlobId hash with
  | some blobId =>
    refine ⟨1, ?_⟩
    simp only [Function.iterate_one, statement, indexStatement, if_neg hopen, hreference,
      if_neg hfirst, hfound, ensureBlob]
  | none =>
    refine ⟨2, ?_⟩
    have hsame : ({ call with missing := true } : IndexCall).reference = some hash := hreference
    have hresolve : ∀ blobId, ({ call with missing := true } : IndexCall).resolve blobId =
        call.resolve blobId := by
      intro blobId
      rw [IndexCall.reference] at hreference
      simp only [IndexCall.resolve]
      split
      · rfl
      · rename_i hinputs
        rw [hinputs] at hreference
        split
        · rfl
        · rename_i houtputs
          simp [houtputs] at hreference
    simp only [Function.iterate_succ_apply', Function.iterate_zero, id_eq, statement,
      indexStatement, if_neg hopen, hreference, if_neg hfirst, hfound, hsame, if_pos, hresolve,
      ensureBlob]

theorem statement_inputs {rest : List InputRef} (hmissing : call.missing = false)
    (hresult : call.result = none) (hrest : call.recipe.inputs.drop call.inputs.length = rest) :
    ∃ n, statement^[n] (db, call) =
      ((db.ensureInputs rest).1,
        { call with inputs := call.inputs ++ (db.ensureInputs rest).2 }) := by
  induction rest generalizing db call with
  | nil => exact ⟨0, by simp [ensureInputs]⟩
  | cons input rest ih =>
    have hreference : call.reference = some input.hash := by
      rw [IndexCall.reference, hrest]
    have hresolve : ∀ blobId, call.resolve blobId =
        { call with inputs := call.inputs ++ [⟨blobId, input.role⟩] } := by
      intro blobId
      rw [IndexCall.resolve, hrest]
      simp only [hmissing]
    obtain ⟨m, hm⟩ := @statement_reference db _ _ hreference hmissing hresult
    rw [hresolve] at hm
    obtain ⟨n, hn⟩ := @ih (db.ensureBlob input.hash).1
      { call with inputs := call.inputs ++ [⟨(db.ensureBlob input.hash).2, input.role⟩] }
      hmissing hresult (by
        rw [List.length_append, List.length_singleton, ← List.drop_drop, hrest]
        rfl)
    refine ⟨n + m, ?_⟩
    rw [Function.iterate_add_apply, hm, hn, ensureInputs]
    simp only [List.append_assoc, List.singleton_append]

theorem statement_outputs {rest : List OutputRef} (hmissing : call.missing = false)
    (hresult : call.result = none) (hinputs : call.recipe.inputs.drop call.inputs.length = [])
    (hrest : call.recipe.outputs.drop call.outputs.length = rest) :
    ∃ n, statement^[n] (db, call) =
      ((db.ensureOutputs rest).1,
        { call with outputs := call.outputs ++ (db.ensureOutputs rest).2 }) := by
  induction rest generalizing db call with
  | nil => exact ⟨0, by simp [ensureOutputs]⟩
  | cons output rest ih =>
    have houtput : call.recipe.outputs[call.outputs.length]? = some output := by
      rw [← List.head?_drop, hrest]
      rfl
    have hreference : call.reference = some output.hash := by
      rw [IndexCall.reference, hinputs, houtput]
      rfl
    have hresolve : ∀ blobId, call.resolve blobId =
        { call with outputs := call.outputs ++ [⟨blobId, output.size, output.name⟩] } := by
      intro blobId
      rw [IndexCall.resolve, hinputs]
      simp only [houtput, hmissing]
    obtain ⟨m, hm⟩ := @statement_reference db _ _ hreference hmissing hresult
    rw [hresolve] at hm
    obtain ⟨n, hn⟩ := @ih (db.ensureBlob output.hash).1
      { call with
        outputs := call.outputs ++ [⟨(db.ensureBlob output.hash).2, output.size, output.name⟩] }
      hmissing hresult hinputs (by
        rw [List.length_append, List.length_singleton, ← List.drop_drop, hrest]
        rfl)
    refine ⟨n + m, ?_⟩
    rw [Function.iterate_add_apply, hm, hn, ensureOutputs]
    simp only [List.append_assoc, List.singleton_append]

theorem length_ensureInputs (db : Db) (inputs : List InputRef) :
    (db.ensureInputs inputs).2.length = inputs.length := by
  induction inputs generalizing db with
  | nil => rfl
  | cons input inputs ih => rw [ensureInputs, List.length_cons, ih, List.length_cons]

theorem length_ensureOutputs (db : Db) (outputs : List OutputRef) :
    (db.ensureOutputs outputs).2.length = outputs.length := by
  induction outputs generalizing db with
  | nil => rfl
  | cons output outputs ih => rw [ensureOutputs, List.length_cons, ih, List.length_cons]

end Db

/-! ## Several connections -/

/-- The index, and the calls of `index_recipe` in flight, one for each connection. -/
structure IndexWorld where
  db : Db
  calls : List Db.IndexCall := []

inductive IndexMove where
  | start (recipeBlobId : Nat) (recipe : Recipe) (seekClass : SeekClass) (source : RecipeSource)
  | statement (connection : Nat)
  | upsert (hash : Blake3) (size : Option Nat) (ns : Namespace) (residency : Residency)
  | setResidency (blobId : Nat) (residency : Residency)
  /-- `index_recipe_in`: the whole transaction, or nothing of it. -/
  | indexIn (recipeBlobId : Nat) (recipe : Recipe) (seekClass : SeekClass) (source : RecipeSource)

/-- Does the move belong to indexing a recipe? -/
def IndexMove.isIndexing : IndexMove → Bool
  | .statement _ | .indexIn _ _ _ _ => true
  | _ => false

namespace IndexWorld

def next (world : IndexWorld) : IndexMove → IndexWorld
  | .start recipeBlobId recipe seekClass source =>
    { world with calls := world.calls ++ [{ recipeBlobId, recipe, seekClass, source }] }
  | .statement connection =>
    match world.calls[connection]? with
    | some call =>
      let (db, call) := world.db.indexStatement call
      { db, calls := world.calls.set connection call }
    | none => world
  | .upsert hash size ns residency =>
    { world with db := (world.db.upsertBlob hash size ns residency).1 }
  | .setResidency blobId residency => { world with db := world.db.setResidency blobId residency }
  | .indexIn recipeBlobId recipe seekClass source =>
    match world.db.indexRecipe recipeBlobId recipe seekClass source with
    | .ok (db, _) => { world with db }
    | .error _ => world

/-- Is a call between the look-up that missed this hash and its upsert? -/
def Awaits (world : IndexWorld) (hash : Blake3) : Prop :=
  ∃ call ∈ world.calls, call.missing = true ∧ call.reference = some hash

/-- Nobody gives a hash bytes while a call waits to upsert it as absent. -/
def Quiet (world : IndexWorld) : IndexMove → Prop
  | .upsert hash _ _ residency => residency = .absent ∨ ¬ world.Awaits hash
  | .setResidency blobId residency =>
    residency = .absent ∨
      ∀ row ∈ world.db.blobs, row.blobId = blobId → ¬ world.Awaits row.hash
  | _ => True

/-- What a call waits to create has no row, or an absent one. -/
def Sound (world : IndexWorld) : Prop :=
  ∀ row ∈ world.db.blobs, world.Awaits row.hash → row.residency = .absent

/-- Every row is still there as it was. -/
def KeepsRows (world world' : IndexWorld) : Prop :=
  ∀ row ∈ world.db.blobs, row ∈ world'.db.blobs

end IndexWorld

/-! ## Rows that writes leave alone -/

namespace Db

variable {db : Db} {hash : Blake3} {row : BlobRow}

/-- After an upsert a row is an old one, or the hash's own with the residency written. -/
theorem mem_upsertBlob {size : Option Nat} {ns : Namespace} {residency : Residency}
    (hmem : row ∈ (db.upsertBlob hash size ns residency).1.blobs) :
    row ∈ db.blobs ∨ row.hash = hash ∧ row.residency = residency := by
  unfold upsertBlob at hmem
  split at hmem
  · rename_i found hfound
    rcases Table.mem_modify.mp hmem with ⟨hold, _⟩ | ⟨old, hold, hid, rfl⟩
    · exact Or.inl hold
    · obtain ⟨hfoundMem, hkey⟩ := Table.byKey_eq_some.mp hfound
      have hsame : old = found := Table.eq_of_id hold hfoundMem hid
      subst hsame
      exact Or.inr ⟨hkey, rfl⟩
  · simp only [Table.mem_insert] at hmem
    rcases hmem with hold | rfl
    · exact Or.inl hold
    · exact Or.inr ⟨rfl, rfl⟩

/-- Upserting an absent row over none, or over an absent one, changes no row. -/
theorem mem_upsertBlob_absent (hmem : row ∈ db.blobs)
    (habsent : row.hash = hash → row.residency = .absent) :
    row ∈ (db.upsertBlob hash none .data .absent).1.blobs := by
  unfold upsertBlob
  split
  · rename_i found hfound
    obtain ⟨hfoundMem, hkey⟩ := Table.byKey_eq_some.mp hfound
    refine Table.mem_modify.mpr ?_
    by_cases hid : row.blobId = found.blobId
    · have hsame : row = found := Table.eq_of_id hmem hfoundMem hid
      subst hsame
      refine Or.inr ⟨row, hmem, rfl, ?_⟩
      have hresidency := habsent hkey
      cases row
      cases hresidency
      simp [refreshBlob]
    · exact Or.inl ⟨hmem, hid⟩
  · simp only [Table.mem_insert]
    exact Or.inl hmem

theorem mem_ensureBlob (hmem : row ∈ db.blobs) : row ∈ (db.ensureBlob hash).1.blobs := by
  unfold ensureBlob
  split
  · exact hmem
  · rename_i hnone
    refine mem_upsertBlob_absent hmem fun hhash => ?_
    rw [getBlobId, Option.map_eq_none_iff, blobByHash, Table.byKey_eq_none] at hnone
    exact absurd hhash (hnone row hmem)

theorem of_mem_ensureBlob (hmem : row ∈ (db.ensureBlob hash).1.blobs) :
    row ∈ db.blobs ∨ row.residency = .absent := by
  unfold ensureBlob at hmem
  split at hmem
  · exact Or.inl hmem
  · exact (mem_upsertBlob hmem).imp_right And.right

theorem mem_ensureInputs {inputs : List InputRef} (hmem : row ∈ db.blobs) :
    row ∈ (db.ensureInputs inputs).1.blobs := by
  induction inputs generalizing db with
  | nil => exact hmem
  | cons input inputs ih => exact ih (mem_ensureBlob hmem)

theorem of_mem_ensureInputs {inputs : List InputRef}
    (hmem : row ∈ (db.ensureInputs inputs).1.blobs) :
    row ∈ db.blobs ∨ row.residency = .absent := by
  induction inputs generalizing db with
  | nil => exact Or.inl hmem
  | cons input inputs ih =>
    rcases ih hmem with hold | habsent
    · exact of_mem_ensureBlob hold
    · exact Or.inr habsent

theorem mem_ensureOutputs {outputs : List OutputRef} (hmem : row ∈ db.blobs) :
    row ∈ (db.ensureOutputs outputs).1.blobs := by
  induction outputs generalizing db with
  | nil => exact hmem
  | cons output outputs ih => exact ih (mem_ensureBlob hmem)

theorem of_mem_ensureOutputs {outputs : List OutputRef}
    (hmem : row ∈ (db.ensureOutputs outputs).1.blobs) :
    row ∈ db.blobs ∨ row.residency = .absent := by
  induction outputs generalizing db with
  | nil => exact Or.inl hmem
  | cons output outputs ih =>
    rcases ih hmem with hold | habsent
    · exact of_mem_ensureBlob hold
    · exact Or.inr habsent

theorem blobs_insertRecipe {db' : Db} {recipeBlobId recipeId : Nat} {seekClass : SeekClass}
    {source : RecipeSource} {inputs : List RecipeInput} {outputs : List RecipeOutput}
    (hinsert : db.insertRecipe recipeBlobId seekClass source inputs outputs = .ok (db', recipeId)) :
    db'.blobs = db.blobs := by
  unfold insertRecipe at hinsert
  split at hinsert
  · cases hinsert
  · cases hinsert
    rfl

/-- The transaction keeps every row, and creates absent ones only. -/
theorem blobs_indexRecipe {db' : Db} {recipeBlobId recipeId : Nat} {recipe : Recipe}
    {seekClass : SeekClass} {source : RecipeSource}
    (hindex : db.indexRecipe recipeBlobId recipe seekClass source = .ok (db', recipeId)) :
    (∀ row ∈ db.blobs, row ∈ db'.blobs) ∧
      ∀ row ∈ db'.blobs, row ∈ db.blobs ∨ row.residency = .absent := by
  have hblobs := blobs_insertRecipe hindex
  rw [hblobs]
  refine ⟨fun row hmem => mem_ensureOutputs (mem_ensureInputs hmem), fun row hmem => ?_⟩
  rcases of_mem_ensureOutputs hmem with hinputs | habsent
  · exact of_mem_ensureInputs hinputs
  · exact Or.inr habsent

/-! ## One statement -/

namespace IndexCall

variable {call : IndexCall}

theorem missing_resolve {blobId : Nat} (hreference : call.reference = some hash) :
    (call.resolve blobId).missing = false := by
  rw [reference] at hreference
  rw [resolve]
  split
  · rfl
  · rename_i hinputs
    rw [hinputs] at hreference
    split
    · rfl
    · rename_i houtputs
      simp [houtputs] at hreference

end IndexCall

/-- A statement leaves every row alone if what it upserts as absent was not anything else,
creates absent rows only, and goes on waiting only for what has no row. -/
theorem indexStatement_spec {call : IndexCall}
    (habsent : call.missing = true → ∀ row ∈ db.blobs, call.reference = some row.hash →
      row.residency = .absent) :
    (∀ row ∈ db.blobs, row ∈ (db.indexStatement call).1.blobs) ∧
      (∀ row ∈ (db.indexStatement call).1.blobs, row ∈ db.blobs ∨ row.residency = .absent) ∧
      ((db.indexStatement call).2.missing = true →
        ∀ row ∈ (db.indexStatement call).1.blobs,
          (db.indexStatement call).2.reference = some row.hash → row.residency = .absent) := by
  unfold indexStatement
  split
  · exact ⟨fun _ hmem => hmem, fun _ hmem => Or.inl hmem, habsent⟩
  split
  · rename_i hash hreference
    split
    · rename_i hmissing
      refine ⟨fun row hmem => mem_upsertBlob_absent hmem fun hhash => ?_, fun row hmem => ?_,
        fun hwaits => ?_⟩
      · exact habsent hmissing row hmem (hhash ▸ hreference)
      · exact (mem_upsertBlob hmem).imp_right And.right
      · rw [IndexCall.missing_resolve hreference] at hwaits
        cases hwaits
    · split
      · refine ⟨fun _ hmem => hmem, fun _ hmem => Or.inl hmem, fun hwaits => ?_⟩
        rw [IndexCall.missing_resolve hreference] at hwaits
        cases hwaits
      · rename_i hnone
        refine ⟨fun _ hmem => hmem, fun _ hmem => Or.inl hmem, fun _ row hmem hwaits => ?_⟩
        rw [getBlobId, Option.map_eq_none_iff, blobByHash, Table.byKey_eq_none] at hnone
        have hhash : call.reference = some row.hash := hwaits
        rw [hreference, Option.some.injEq] at hhash
        exact absurd hhash.symm (hnone row hmem)
  · rename_i hreference
    have hnobody : ∀ other : IndexCall, other.reference = call.reference →
        ∀ row : BlobRow, other.reference = some row.hash → row.residency = .absent := by
      intro other hsame row hwaits
      rw [hsame, hreference] at hwaits
      cases hwaits
    split
    · rename_i hinsert
      rw [blobs_insertRecipe hinsert]
      exact ⟨fun _ hmem => hmem, fun _ hmem => Or.inl hmem, fun _ row _ => hnobody _ rfl row⟩
    · exact ⟨fun _ hmem => hmem, fun _ hmem => Or.inl hmem, fun _ row _ => hnobody _ rfl row⟩

end Db

/-! ## Runs -/

namespace IndexWorld

variable {world : IndexWorld} {move : IndexMove}

/-- Rows that a move leaves or creates as absent, with the calls as they were. -/
theorem Sound.of_rows (hsound : world.Sound) {db : Db}
    (hrows : ∀ row ∈ db.blobs, row ∈ world.db.blobs ∨ row.residency = .absent) :
    ({ world with db } : IndexWorld).Sound := by
  intro row hmem hawaits
  rcases hrows row hmem with hold | habsent
  · exact hsound row hold hawaits
  · exact habsent

theorem Sound.next (hsound : world.Sound) (hquiet : world.Quiet move) :
    (world.next move).Sound ∧ (move.isIndexing = true → world.KeepsRows (world.next move)) := by
  cases move with
  | start recipeBlobId recipe seekClass source =>
    refine ⟨?_, nofun⟩
    rintro row hmem ⟨call, hcall, hmissing, hreference⟩
    rcases List.mem_append.mp hcall with hold | hnew
    · exact hsound row hmem ⟨call, hold, hmissing, hreference⟩
    · obtain rfl := List.mem_singleton.mp hnew
      cases hmissing
  | statement connection =>
    simp only [IndexWorld.next]
    split
    · rename_i call hcall
      have hmemCall := List.mem_of_getElem? hcall
      have habsent : call.missing = true → ∀ row ∈ world.db.blobs,
          call.reference = some row.hash → row.residency = .absent :=
        fun hmissing row hmem hreference => hsound row hmem ⟨call, hmemCall, hmissing, hreference⟩
      obtain ⟨hkeeps, hrows, hwaits⟩ := Db.indexStatement_spec habsent
      refine ⟨?_, fun _ => hkeeps⟩
      rintro row hmem ⟨other, hother, hmissing, hreference⟩
      rcases List.mem_or_eq_of_mem_set hother with hold | rfl
      · rcases hrows row hmem with hkept | habsent
        · exact hsound row hkept ⟨other, hold, hmissing, hreference⟩
        · exact habsent
      · exact hwaits hmissing row hmem hreference
    · exact ⟨hsound, fun _ _ hmem => hmem⟩
  | upsert hash size ns residency =>
    refine ⟨?_, nofun⟩
    intro row hmem hawaits
    rcases Db.mem_upsertBlob hmem with hold | ⟨hhash, hresidency⟩
    · exact hsound row hold hawaits
    · rcases hquiet with rfl | hnobody
      · exact hresidency
      · exact absurd (hhash ▸ hawaits) hnobody
  | setResidency blobId residency =>
    refine ⟨?_, nofun⟩
    intro row hmem hawaits
    rcases Table.mem_modify.mp hmem with ⟨hold, _⟩ | ⟨old, hold, hid, rfl⟩
    · exact hsound row hold hawaits
    · rcases hquiet with rfl | hnobody
      · rfl
      · exact absurd hawaits (hnobody old hold hid)
  | indexIn recipeBlobId recipe seekClass source =>
    simp only [IndexWorld.next]
    split
    · rename_i hindex
      obtain ⟨hkeeps, hrows⟩ := Db.blobs_indexRecipe hindex
      exact ⟨hsound.of_rows hrows, fun _ => hkeeps⟩
    · exact ⟨hsound, fun _ _ hmem => hmem⟩

/-- As long as no hash gets bytes between a call's look-up and its upsert, indexing leaves
every row that is there as it is, whatever else runs beside it. -/
theorem indexing_keepsRows (db : Db) (before : List IndexMove) (move : IndexMove)
    (hquiet : Runs.Along IndexWorld.next Quiet { db } before)
    (hmove : move.isIndexing = true) :
    (Runs.run IndexWorld.next { db } before).KeepsRows
      ((Runs.run IndexWorld.next { db } before).next move) := by
  have hinit : ({ db } : IndexWorld).Sound := by
    rintro row - ⟨call, hcall, -⟩
    cases hcall
  have hsound : (Runs.run IndexWorld.next { db } before).Sound :=
    hquiet.invariant (fun world move hsound hmeets => (Sound.next hsound hmeets).1) hinit
  have hfree : (Runs.run IndexWorld.next { db } before).Quiet move := by
    cases move with
    | statement | indexIn => trivial
    | start | upsert | setResidency => cases hmove
  exact (hsound.next hfree).2 hmove

instance (world : IndexWorld) (hash : Blake3) : Decidable (world.Awaits hash) :=
  inferInstanceAs (Decidable (∃ call ∈ world.calls, _))

instance (world : IndexWorld) (move : IndexMove) : Decidable (world.Quiet move) := by
  cases move <;> unfold Quiet <;> infer_instance

def copyRecipe : Recipe := ⟨.builtin "assemble" 1, [⟨5, none⟩], [⟨6, 1, none⟩], []⟩

theorem indexing_keepsRows_otherHash :
    (Runs.run IndexWorld.next { db := Db.empty }
      [.start 1 copyRecipe .affine .peer, .statement 0,
        .upsert 7 (some 1) .data .resident]).KeepsRows
      ((Runs.run IndexWorld.next { db := Db.empty }
        [.start 1 copyRecipe .affine .peer, .statement 0,
          .upsert 7 (some 1) .data .resident]).next (.statement 0)) :=
  indexing_keepsRows Db.empty _ _ (by decide) rfl

/-- A blob that arrives between the look-up and the upsert loses its residency. -/
theorem indexing_drops_residency :
    ((Runs.run IndexWorld.next { db := Db.empty }
      [.start 1 copyRecipe .affine .peer, .statement 0,
        .upsert 5 (some 1) .data .resident]).db.blobByHash 5).map BlobRow.residency =
      some .resident ∧
    ((Runs.run IndexWorld.next { db := Db.empty }
      [.start 1 copyRecipe .affine .peer, .statement 0, .upsert 5 (some 1) .data .resident,
        .statement 0]).db.blobByHash 5).map BlobRow.residency = some .absent := by
  decide

end IndexWorld

end Datboi
