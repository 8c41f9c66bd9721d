import Datboi.Exec.License

/-!
# Licenses are earned by delivered outputs

In every session whose calls run no `verified` recipe inside a plan, each recipe that
becomes `replayedLocal` has an execution in the log that delivered all its outputs.
-/

namespace Datboi

open Moves (Moves final)

namespace Site

/-- Recipe objects stay readable. -/
structure KeepsObjects (site site' : Site) : Prop where
  objects : ∀ recipeId hash, site.db.recipeObjectHash recipeId = .ok hash →
    site'.db.recipeObjectHash recipeId = .ok hash
  metadata : ∀ hash, site'.store.loose .metadata hash = site.store.loose .metadata hash

theorem KeepsObjects.refl (site : Site) : site.KeepsObjects site := ⟨fun _ _ => id, fun _ => rfl⟩

theorem KeepsObjects.trans {a b c : Site} (hab : a.KeepsObjects b) (hbc : b.KeepsObjects c) :
    a.KeepsObjects c :=
  ⟨fun id hash hobject => hbc.objects id hash (hab.objects id hash hobject),
    fun hash => (hbc.metadata hash).trans (hab.metadata hash)⟩

theorem KeepsObjects.loadRecipe {exec : Executor} {site site' : Site}
    (hkeeps : site.KeepsObjects site') {recipeId : Nat} {recipe : Recipe}
    (hload : exec.loadRecipe site.db site.store recipeId = .ok recipe) :
    exec.loadRecipe site'.db site'.store recipeId = .ok recipe := by
  unfold Executor.loadRecipe at hload ⊢
  cases hobject : site.db.recipeObjectHash recipeId with
  | error e =>
    rw [hobject] at hload
    cases hload
  | ok hash =>
    rw [hobject] at hload
    rw [hkeeps.objects recipeId hash hobject]
    simp only [Store.get_metadata, hkeeps.metadata] at hload ⊢
    exact hload

/-- At most one recipe gets a new verify state; it is licensed only on the given
proof. -/
structure LicensesOnly (recipeId : Nat) (proof : Prop) (site site' : Site) : Prop
    extends KeepsObjects site site' where
  others : ∀ row ∈ site'.db.recipes, row.recipeId ≠ recipeId → row ∈ site.db.recipes
  top : site'.db.IsLicensed recipeId → site.db.IsLicensed recipeId ∨ proof

section LicensesOnly

variable {recipeId : Nat} {proof : Prop} {site site' : Site}

theorem LicensesOnly.refl (site : Site) : LicensesOnly recipeId proof site site :=
  ⟨KeepsObjects.refl site, fun _ hmem _ => hmem, Or.inl⟩

instance : Trans (LicensesOnly recipeId proof) (LicensesOnly recipeId proof)
    (LicensesOnly recipeId proof) where
  trans hab hbc :=
    ⟨hab.toKeepsObjects.trans hbc.toKeepsObjects,
      fun row hmem hne => hab.others row (hbc.others row hmem hne) hne,
      fun hlicensed => (hbc.top hlicensed).elim hab.top Or.inr⟩

theorem LicensesOnly.of_recipes_eq (hrecipes : site'.db.recipes = site.db.recipes)
    (hkeeps : site.KeepsObjects site') : LicensesOnly recipeId proof site site' := by
  refine ⟨hkeeps, fun row hmem _ => hrecipes ▸ hmem, fun hlicensed => Or.inl ?_⟩
  rwa [Db.IsLicensed, hrecipes] at hlicensed

theorem licensesOnly_markVerify {state : VerifyState} (hproof : state = .replayedLocal → proof) :
    LicensesOnly recipeId proof site { site with db := site.db.markVerify recipeId state } := by
  refine ⟨⟨?_, fun _ => rfl⟩, ?_, ?_⟩
  · intro other hash hobject
    rwa [Db.recipeObjectHash_markVerify]
  · intro row hmem hne
    rcases Table.mem_modify.mp hmem with ⟨hold, _⟩ | ⟨old, _, hid, rfl⟩
    · exact hold
    · exact absurd hid hne
  · intro hlicensed
    rcases Db.isLicensed_markVerify.mp hlicensed with ⟨hne, _⟩ | ⟨_, _, hstate⟩
    · exact absurd rfl hne
    · exact Or.inr (hproof hstate)

theorem LicensesOnly.imp {proof' : Prop} (honly : LicensesOnly recipeId proof site site')
    (himp : proof → proof') : LicensesOnly recipeId proof' site site' :=
  ⟨honly.toKeepsObjects, honly.others, fun hlicensed => (honly.top hlicensed).imp_right himp⟩

/-- What the relation says of a license. -/
theorem LicensesOnly.licensed (honly : LicensesOnly recipeId proof site site') {other : Nat}
    (hlicensed : site'.db.IsLicensed other) :
    site.db.IsLicensed other ∨ (other = recipeId ∧ proof) := by
  by_cases heq : other = recipeId
  · subst heq
    exact (honly.top hlicensed).imp_right fun hproof => ⟨rfl, hproof⟩
  · obtain ⟨row, hmem, rfl, hverify⟩ := hlicensed
    exact Or.inl ⟨row, honly.others row hmem heq, rfl, hverify⟩

end LicensesOnly

end Site

open Site (LicensesOnly KeepsObjects)

/-! ## Executions keep recipe objects -/

namespace Store

variable {store store' : Store} {host : Host} {hash : Blake3}

theorem loose_metadata_publish {bytes : Bytes} (other : Blake3) :
    (store.publish .data hash bytes).2.loose .metadata other = store.loose .metadata other := by
  unfold publish
  split
  · rfl
  · exact loose_metadata_setLoose_data _

theorem loose_metadata_putWithObao {len : Nat} {reader : ByteStream} {outcome : PutOutcome}
    (hput : store.putWithObao host .data hash len reader = .ok (outcome, store')) (other : Blake3) :
    store'.loose .metadata other = store.loose .metadata other := by
  unfold putWithObao at hput
  split at hput
  · cases hput
  · rename_i root sidecar _
    simp only at hput
    split at hput
    · cases hput
    · split at hput
      · cases hput
      · cases hput
        rw [(sameBlobs_putObao sidecar).loose]
        exact loose_metadata_publish other

end Store

/-- A consumer that writes data blobs only. -/
def Consumer.KeepsMetadata {τ : Type} (consumer : Consumer τ) : Prop :=
  ∀ hash size reader store other,
    (consumer.consume hash size reader store).2.loose .metadata other = store.loose .metadata other

namespace Executor

variable {exec : Executor} {τ : Type} {consumer : Consumer τ} {race : PipeRace}

theorem storeConsumer_keepsMetadata : exec.storeConsumer.KeepsMetadata := by
  intro hash size reader store other
  simp only [storeConsumer]
  split
  · rename_i hput
    exact Store.loose_metadata_putWithObao hput other
  · rfl

theorem verifyConsumer_keepsMetadata : exec.verifyConsumer.KeepsMetadata :=
  fun _ _ _ _ _ => rfl

theorem loose_metadata_consumeAll (hconsumer : consumer.KeepsMetadata)
    (outputs : List ((Blake3 × Nat) × ByteStream)) (store : Store) (other : Blake3) :
    (consumeAll consumer outputs store).2.loose .metadata other = store.loose .metadata other := by
  induction outputs generalizing store with
  | nil => rfl
  | cons output rest ih =>
    obtain ⟨⟨hash, size⟩, reader⟩ := output
    have hone := hconsumer hash size reader store other
    unfold consumeAll
    split
    · rename_i next hconsume
      rw [hconsume] at hone
      exact (ih next).trans hone
    · rename_i next hconsume
      rw [hconsume] at hone
      exact (ih next).trans hone

/-- The relation "the metadata files are unchanged". -/
def SameMetadata (site site' : Site) : Prop :=
  ∀ hash, site'.store.loose .metadata hash = site.store.loose .metadata hash

instance : Trans SameMetadata SameMetadata SameMetadata where
  trans hab hbc := fun hash => (hbc hash).trans (hab hash)

theorem onCaches_sameMetadata {α : Type} (m : EStateM ExecError Caches α) (site : Site) :
    Moves SameMetadata (ExecM.onCaches m) site := by
  unfold Moves ExecM.onCaches
  cases m site.caches <;> exact fun _ => rfl

theorem planChildren_sameMetadata (recipe : Recipe) (site : Site) :
    Moves SameMetadata (exec.planChildren recipe) site := by
  unfold Moves planChildren
  exact onCaches_sameMetadata (planInputs _ recipe.inputs) site

theorem executePlanned_sameMetadata (hconsumer : consumer.KeepsMetadata) (recipe : Recipe)
    (op : OpImpl) (children : List Plan) (site : Site) :
    Moves SameMetadata (exec.executePlanned consumer race recipe op children) site := by
  unfold Moves executePlanned executeNode
  split
  · exact fun _ => rfl
  · rename_i streams _
    have hstore := loose_metadata_consumeAll hconsumer (recipe.claims.zip streams) site.store
    simp only
    split <;> exact hstore

/-- An execution keeps every recipe object. -/
theorem executeWith_keepsObjects (hconsumer : consumer.KeepsMetadata) (recipe : Recipe)
    (site : Site) : Moves KeepsObjects (exec.executeWith consumer race recipe) site := by
  have hdb := executeWith_sameDb exec consumer race recipe site
  have hmetadata : Moves SameMetadata (exec.executeWith consumer race recipe) site := by
    unfold executeWith prepare
    refine Moves.moves_bind (Moves.moves_bind (onCaches_sameMetadata _ site) fun op site₁ _ =>
      Moves.moves_bind (planChildren_sameMetadata recipe site₁) fun children site₂ _ _ => rfl) ?_
    rintro ⟨op, children⟩ site₃ _
    exact Moves.moves_bind (executePlanned_sameMetadata hconsumer recipe op children site₃)
      fun results site₄ _ _ => rfl
  refine ⟨fun recipeId hash hobject => ?_, hmetadata⟩
  rw [hdb]
  exact hobject

/-! ## Calls for one recipe -/

section Calls

variable {recipeId : Nat} {proof : Prop} {site : Site}

theorem executeWith_licensesOnly (hconsumer : consumer.KeepsMetadata) (recipe : Recipe) :
    Moves (LicensesOnly recipeId proof) (exec.executeWith consumer race recipe) site := by
  refine LicensesOnly.of_recipes_eq ?_ (executeWith_keepsObjects hconsumer recipe site)
  rw [executeWith_sameDb exec consumer race recipe site]

theorem setVerifyState_licensesOnly {advance : Db.VerifyAdvance} {db : Db}
    (hset : site.db.setVerifyState recipeId advance = .ok db)
    (hproof : advance.state = .replayedLocal → proof) :
    LicensesOnly recipeId proof site { site with db := db } := by
  obtain ⟨_, _, _, _, rfl⟩ := Db.setVerifyState_eq_ok.mp hset
  exact Site.licensesOnly_markVerify hproof

theorem recordOutput_licensesOnly (now : Int) (output : OutputRef × Blake3) (site : Site) :
    LicensesOnly recipeId proof site { site with db := recordOutput now site.db output } := by
  refine LicensesOnly.of_recipes_eq (Db.recipes_upsertBlob _ _ _ _) ⟨?_, fun _ => rfl⟩
  intro other hash hobject
  have hupsert : Db.recipeObjectHash (site.db.upsertBlob output.2 (some output.1.size) .data
      .resident).1 other = .ok hash := Db.recipeObjectHash_upsertBlob hobject
  rw [← hupsert]
  exact Db.recipeObjectHash_modify_blobs _ _ other

variable {participants : List Nat}

/-- Participants that are not `verified` before the call are not advanced by it. -/
theorem licenseParticipants_licensesOnly {site' : Site}
    (hreached : LicensesOnly recipeId proof site site')
    (hsettled : ∀ row ∈ site.db.recipes, row.recipeId ∈ participants →
      row.recipeId ≠ recipeId → row.verify ≠ .verified) :
    Moves (LicensesOnly recipeId proof) (licenseParticipants recipeId participants) site' := by
  refine licenseParticipants_moves LicensesOnly.refl participants ?_
  intro childId hchild hne s row db hs hmem hid hverified
  subst hid
  have hbefore := hreached.others row (hs.others row hmem hne) hne
  exact absurd hverified (hsettled row hbefore hchild hne)

/-- Some of the given log entries delivered every output that the recipe claims. -/
def ProvenBy (exec : Executor) (recipeId : Nat) (site : Site) (entries : List Execution) : Prop :=
  ∃ recipe, exec.loadRecipe site.db site.store recipeId = .ok recipe ∧
    ∃ execution ∈ entries, execution.recipeId = recipeId ∧ execution.isTop = true ∧
      execution.Delivered exec.host ∧ execution.claims = recipe.claims

theorem provenBy_of_executeWith (hverifies : consumer.Verifies exec.host) {recipe : Recipe}
    {site' : Site} {results : List (Blake3 × τ)}
    (hload : exec.loadRecipe site.db site.store recipeId = .ok recipe)
    (hrun : exec.executeWith consumer race recipe site = .ok (results, participants) site') :
    exec.ProvenBy recipeId site (exec.executions consumer race recipeId recipe site) ∧
      participants = exec.innerRecipes recipeId site := by
  obtain ⟨op, children, site₁, streams, hprepare, hproduce, hdelivered, rfl⟩ :=
    executeWith_eq_ok hverifies hrun
  constructor
  · refine ⟨recipe, hload, ⟨recipeId, recipe.claims, streams, true⟩, ?_, rfl, rfl, hdelivered, rfl⟩
    simp only [executions, hprepare, nodeStreams, hproduce]
    exact List.mem_cons_self
  · simp only [innerRecipes, hload, hprepare]

theorem liveExecutions_eq {row : RecipeRow} {recipe : Recipe} {site' : Site}
    (hlive : exec.liveRecipe recipeId site = .ok (row, recipe) site') :
    exec.liveExecutions consumer race recipeId site =
      exec.executions consumer race recipeId recipe site' := by
  simp only [liveExecutions, hlive]

theorem liveExecutions_subset :
    exec.liveExecutions consumer race recipeId site ⊆
      exec.loadedExecutions consumer race recipeId site := by
  intro execution hmem
  unfold liveExecutions at hmem
  split at hmem
  · cases hmem
  · rename_i hlive
    obtain ⟨rfl, _, _, _, hload⟩ := liveRecipe_eq_ok hlive
    simpa only [loadedExecutions, hload] using hmem

theorem attempt_licensesOnly (hconsumer : consumer.KeepsMetadata) (recipe : Recipe) :
    Moves (LicensesOnly recipeId proof) (exec.attempt consumer race recipeId recipe) site :=
  attempt_moves (executeWith_licensesOnly hconsumer recipe) fun _ _ _ _ _ hset =>
    setVerifyState_licensesOnly hset fun hstate => by cases hstate

/-- The rest of a call whose own operation is proven licenses the top recipe only. -/
theorem licenseParticipants_of_proven {site₁ : Site} (hsettled : exec.InnerSettled site recipeId)
    (hinner : participants = exec.innerRecipes recipeId site)
    (hreached : LicensesOnly recipeId proof site site₁) :
    Moves (LicensesOnly recipeId proof) (licenseParticipants recipeId participants) site₁ :=
  licenseParticipants_licensesOnly hreached fun row hmem hparticipant hne =>
    hsettled row hmem (hinner ▸ hparticipant) hne

theorem recordOutputs_licensesOnly (now : Int) (recipe : Recipe)
    (outputs : List (Blake3 × PutOutcome)) (site : Site) :
    Moves (LicensesOnly recipeId proof) (recordOutputs now recipe outputs) site :=
  recordOutputs_moves LicensesOnly.refl fun output _ s _ => recordOutput_licensesOnly now output s

theorem advanceTop_licensesOnly (hproof : proof) (verify : VerifyState) (site : Site) :
    Moves (LicensesOnly recipeId proof) (advanceTop recipeId verify) site :=
  advanceTop_moves (LicensesOnly.refl site) fun _ hset =>
    setVerifyState_licensesOnly hset fun _ => hproof

theorem rehabilitateRecipe_licensesOnly (hproof : proof) (site : Site) :
    Moves (LicensesOnly recipeId proof) (ExecM.onDb (·.rehabilitateRecipe recipeId)) site := by
  refine onDb_moves (LicensesOnly.refl site) fun db hset => ?_
  unfold Db.rehabilitateRecipe at hset
  split at hset
  · cases hset
  · split at hset
    · cases hset
      exact Site.licensesOnly_markVerify fun _ => hproof
    · cases hset

theorem replay_licensesOnly (around : Surroundings)
    (hsettled : exec.InnerSettled site recipeId) :
    Moves (LicensesOnly recipeId (exec.ProvenBy recipeId site
      (exec.liveExecutions exec.storeConsumer around.race recipeId site)))
      (exec.replay around recipeId) site := by
  unfold replay
  refine Moves.moves_bind (liveRecipe_moves (LicensesOnly.refl site)) ?_
  rintro ⟨row, recipe⟩ site₁ hlive
  obtain ⟨rfl, _, _, _, hload⟩ := liveRecipe_eq_ok hlive
  refine Moves.moves_bind_reached (attempt_licensesOnly storeConsumer_keepsMetadata recipe) ?_
  rintro ⟨outputs, participants⟩ site₂ hattempt hreached
  obtain ⟨hproven, hinner⟩ := provenBy_of_executeWith storeConsumer_verifies hload
    (attempt_eq_ok hattempt)
  rw [← liveExecutions_eq hlive] at hproven
  refine Moves.moves_bind_reached (advanceTop_licensesOnly hproven row.verify site₂) ?_
  intro _ site₃ _ hadvanced
  refine Moves.moves_bind (licenseParticipants_of_proven hsettled hinner
    (Trans.trans hreached hadvanced)) ?_
  intro _ site₄ _
  exact Moves.moves_bind (recordOutputs_licensesOnly around.now recipe outputs site₄)
    fun _ site₅ _ => LicensesOnly.refl site₅

theorem license_licensesOnly (race : PipeRace) (hsettled : exec.InnerSettled site recipeId) :
    Moves (LicensesOnly recipeId (exec.ProvenBy recipeId site
      (exec.liveExecutions exec.verifyConsumer race recipeId site)))
      (exec.license race recipeId) site := by
  unfold license
  refine Moves.moves_bind (liveRecipe_moves (LicensesOnly.refl site)) ?_
  rintro ⟨row, recipe⟩ site₁ hlive
  obtain ⟨rfl, _, _, _, hload⟩ := liveRecipe_eq_ok hlive
  refine Moves.moves_bind_reached (attempt_licensesOnly verifyConsumer_keepsMetadata recipe) ?_
  rintro ⟨results, participants⟩ site₂ hattempt hreached
  obtain ⟨hproven, hinner⟩ := provenBy_of_executeWith verifyConsumer_verifies hload
    (attempt_eq_ok hattempt)
  rw [← liveExecutions_eq hlive] at hproven
  refine Moves.moves_bind_reached (advanceTop_licensesOnly hproven row.verify site₂) ?_
  intro _ site₃ _ hadvanced
  exact licenseParticipants_of_proven hsettled hinner (Trans.trans hreached hadvanced)

theorem rehabilitate_licensesOnly (around : Surroundings)
    (hsettled : exec.InnerSettled site recipeId) :
    Moves (LicensesOnly recipeId (exec.ProvenBy recipeId site
      (exec.loadedExecutions exec.storeConsumer around.race recipeId site)))
      (exec.rehabilitate around recipeId) site := by
  unfold Moves rehabilitate
  split
  · exact LicensesOnly.refl site
  split
  · refine (replay_licensesOnly around hsettled).imp fun hproven => ?_
    obtain ⟨recipe, hload, execution, hmem, hproof⟩ := hproven
    exact ⟨recipe, hload, execution, liveExecutions_subset hmem, hproof⟩
  split
  · exact LicensesOnly.refl site
  · rename_i recipe hload
    refine Moves.moves_bind_reached (m := exec.executeToStore around.race recipe)
      (executeWith_licensesOnly storeConsumer_keepsMetadata recipe) ?_
    rintro ⟨outputs, participants⟩ site₁ hexecute hreached
    obtain ⟨hproven, hinner⟩ := provenBy_of_executeWith storeConsumer_verifies hload hexecute
    have hentries : exec.executions exec.storeConsumer around.race recipeId recipe site =
        exec.loadedExecutions exec.storeConsumer around.race recipeId site := by
      simp only [loadedExecutions, hload]
    rw [hentries] at hproven
    refine Moves.moves_bind_reached (rehabilitateRecipe_licensesOnly hproven site₁) ?_
    intro _ site₂ _ hcleared
    refine Moves.moves_bind (licenseParticipants_of_proven hsettled hinner
      (Trans.trans hreached hcleared)) ?_
    intro _ site₃ _
    exact Moves.moves_bind (recordOutputs_licensesOnly around.now recipe outputs site₃)
      fun _ site₄ _ => LicensesOnly.refl site₄

end Calls

/-! ## Blessing jobs -/

section Bless

variable {site site' : Site} {job : BlessJob}

/-- A job that may license a recipe materializes that recipe's only output. -/
def JobSound (exec : Executor) (site : Site) (job : BlessJob) : Prop :=
  ∀ recipeId, job.license = some recipeId → ∃ node children size recipe,
    job.plan = .op node 0 [(job.hash, size)] children (some recipeId) ∧
    exec.loadRecipe site.db site.store recipeId = .ok recipe ∧
    recipe.claims = [(job.hash, size)]

theorem JobSound.mono (hsound : exec.JobSound site job) (hkeeps : site.KeepsObjects site') :
    exec.JobSound site' job := by
  intro recipeId hlicense
  obtain ⟨node, children, size, recipe, hplan, hload, hclaims⟩ := hsound recipeId hlicense
  exact ⟨node, children, size, recipe, hplan, hkeeps.loadRecipe hload, hclaims⟩

theorem licensable_eq_some {plan : Plan} {recipeId : Nat} (hlicense : licensable plan = some recipeId) :
    ∃ node outputIx outputs children, plan = .op node outputIx outputs children (some recipeId) ∧
      outputs.length = 1 := by
  cases plan with
  | literal hash len => cases hlicense
  | op node outputIx outputs children id =>
    simp only [licensable] at hlicense
    split at hlicense
    · rename_i hsingle
      exact ⟨node, outputIx, outputs, children, by rw [hlicense], hsingle⟩
    · cases hlicense

/-- A licensable plan is a route to its blob through a single-output recipe. -/
theorem jobSound_of_plan {hash : Blake3} {plan : Plan} {caches caches' : Caches}
    (hplan : exec.plan site.db site.store hash 0 [] caches = .ok plan caches') {len : Nat}
    {route : Option Nat} : exec.JobSound site ⟨hash, len, plan, licensable plan, route⟩ := by
  intro recipeId hlicense
  obtain ⟨node, outputIx, outputs, children, rfl, hsingle⟩ := licensable_eq_some hlicense
  have hrouted := plan_routed hplan
  obtain ⟨row, _, _, hid, recipe, hload, hix, hclaims, _⟩ := hrouted.followsRecipe
  have htarget := hrouted.target_eq
  obtain ⟨⟨target, size⟩, rfl⟩ := List.length_eq_one_iff.mp hsingle
  obtain rfl : outputIx = 0 := by simpa using hix
  obtain rfl : target = hash := by simpa [Plan.target] using htarget
  cases hid
  exact ⟨node, children, size, recipe, rfl, hload, hclaims.symm⟩

theorem keepsObjects_upsertBlob (site : Site) (hash : Blake3) (size : Option Nat)
    (residency : Residency) :
    site.KeepsObjects { site with db := (site.db.upsertBlob hash size .data residency).1 } :=
  ⟨fun _ _ hobject => Db.recipeObjectHash_upsertBlob hobject, fun _ => rfl⟩

/-- Triage repairs a residency or hands out a job that is sound. -/
theorem blessTriage_cases (exec : Executor) (includeAffine : Bool) (hash : Blake3) (len : Nat) (site : Site) :
    site.KeepsObjects (final (exec.blessTriage true includeAffine hash len site)) ∧
    (final (exec.blessTriage true includeAffine hash len site)).db.recipes = site.db.recipes ∧
    ∀ job site', exec.blessTriage true includeAffine hash len site = .ok (some job) site' →
      exec.JobSound site job := by
  unfold blessTriage
  split
  · refine ⟨keepsObjects_upsertBlob site hash (some len) .resident, Db.recipes_upsertBlob _ _ _ _, ?_⟩
    intro job site' hrun
    cases hrun
  · rw [if_neg (by simp)]
    cases hplan : exec.plan site.db site.store hash 0 [] site.caches with
    | error e caches =>
      simp only [ExecM.onCaches, hplan]
      exact ⟨⟨fun _ _ => id, fun _ => rfl⟩, rfl, fun job site' hrun => by cases hrun⟩
    | ok plan caches =>
      simp only [ExecM.onCaches, hplan]
      split
      · exact ⟨⟨fun _ _ => id, fun _ => rfl⟩, rfl, fun job site' hrun => by cases hrun⟩
      · exact ⟨⟨fun _ _ => id, fun _ => rfl⟩, rfl, fun job site' hrun => by cases hrun⟩
      · refine ⟨⟨fun _ _ => id, fun _ => rfl⟩, rfl, fun job site' hrun => ?_⟩
        cases hrun
        exact jobSound_of_plan hplan

/-- A guest that finished leaves the same stream to a pipe's reader either way. -/
theorem pipeStream_eq_guestStream {result : Except RuntimeError Unit} {written : Bytes}
    (hclean : (guestStream result written).failure = none) :
    pipeStream result written = guestStream result written := by
  cases result with
  | ok _ => rfl
  | error e => cases hclean

/-- A single-output node streams the same bytes to its consumer and into the log. -/
theorem nodeStreams_of_openNodeSequential {node : OpImpl} {claim : Blake3 × Nat}
    {children : List Opened} {reader : ByteStream}
    (hopen : exec.openNodeSequential node 0 [claim] children = .ok reader)
    (hclean : reader.failure = none) :
    exec.nodeStreams exec.verifyConsumer (fun _ => none) node [claim] children = [reader] := by
  have hbuiltin : exec.produceBuiltin node [claim] children = .ok (.ok (), [reader]) := by
    rw [produceBuiltin, if_neg (by simp), hopen]
    rfl
  cases node with
  | assemble params => simp only [nodeStreams, produce, hbuiltin]
  | deflate offset len => simp only [nodeStreams, produce, hbuiltin]
  | extractor compiled memberIx =>
    obtain ⟨⟨result, written⟩, hrun, hdone⟩ := Moves.except_bind_eq_ok.mp hopen
    cases hdone
    have hproduce : exec.produce exec.verifyConsumer (fun _ => none) (.extractor compiled memberIx)
        [claim] children = .ok (result, written.map (pipeStream result)) := by
      simp only [produce]
      rw [if_neg (by simp)]
      exact Moves.except_bind_eq_ok.mpr ⟨(result, written), hrun, rfl⟩
    obtain ⟨bytes, rfl⟩ := List.length_eq_one_iff.mp (length_runExtractorNode hrun)
    simp only [nodeStreams, hproduce]
    exact congrArg (fun reader => [reader]) (pipeStream_eq_guestStream hclean)
  | transform component compiled op params seek randomAccessInputs =>
    obtain ⟨⟨result, written⟩, hrun, hdone⟩ := Moves.except_bind_eq_ok.mp hopen
    cases hdone
    have hproduce : exec.produce exec.verifyConsumer (fun _ => none)
        (.transform component compiled op params seek randomAccessInputs) [claim] children =
        .ok (result, written.map (pipeStream result)) :=
      Moves.except_bind_eq_ok.mpr ⟨(result, written), hrun, rfl⟩
    obtain ⟨bytes, rfl⟩ := List.length_eq_one_iff.mp (length_runTransformNode hrun)
    simp only [nodeStreams, hproduce]
    exact congrArg (fun reader => [reader]) (pipeStream_eq_guestStream hclean)

/-- What a worker that materialized its blob has shown. -/
theorem planExecutions_of_materializePlan {store store' : Store} {hash : Blake3}
    {node : OpImpl} {children : List Plan} {size recipeId : Nat}
    (hrun : exec.materializePlan hash (.op node 0 [(hash, size)] children (some recipeId)) store =
      .ok (true, store')) :
    store.has .data hash = false ∧
    ∃ execution ∈ exec.planExecutions store true (.op node 0 [(hash, size)] children (some recipeId)),
      execution.recipeId = recipeId ∧ execution.isTop = true ∧
      execution.Delivered exec.host ∧ execution.claims = [(hash, size)] := by
  unfold materializePlan at hrun
  split at hrun
  · cases hrun
  · rename_i habsent
    refine ⟨by simpa using habsent, ?_⟩
    split at hrun
    · cases hrun
    split at hrun
    · cases hrun
    · rename_i reader hopen
      split at hrun
      · cases hrun
      · rename_i outcome hput
        have hdelivers : exec.host.Delivers (hash, size) reader :=
          Store.delivers_of_putWithObao hput
        refine ⟨⟨recipeId, [(hash, size)], [reader], true⟩, ?_, rfl, rfl,
          .cons hdelivers .nil, rfl⟩
        unfold openPlan at hopen
        simp only [planExecutions, nodeStreams_of_openNodeSequential hopen hdelivers.1]
        exact List.mem_append_left _ List.mem_cons_self

theorem recordMaterialized_licensesOnly (now : Int) (hash : Blake3) (len recipeId : Nat)
    (license : Option Nat) (hlicense : ∀ other, license = some other → other = recipeId)
    (site : Site) :
    Moves (LicensesOnly recipeId (license = some recipeId))
      (recordMaterialized now hash len license) site := by
  have hrecord : LicensesOnly recipeId (license = some recipeId) site { site with
      db := ((site.db.upsertBlob hash (some len) .data .resident).1.setVerified
        (site.db.upsertBlob hash (some len) .data .resident).2 now) } := by
    refine LicensesOnly.of_recipes_eq (Db.recipes_upsertBlob _ _ _ _) ⟨?_, fun _ => rfl⟩
    intro other object hobject
    rw [← Db.recipeObjectHash_upsertBlob hobject]
    exact Db.recipeObjectHash_modify_blobs _ _ other
  unfold Moves recordMaterialized
  simp only
  split
  · exact hrecord
  · rename_i licensed
    obtain rfl := hlicense licensed rfl
    split
    · exact hrecord
    · split
      · refine Trans.trans hrecord (?_ : LicensesOnly licensed (some licensed = some licensed) _ _)
        exact onDb_moves (LicensesOnly.refl _) fun db hset =>
          setVerifyState_licensesOnly hset fun _ => rfl
      · exact hrecord

theorem poisonRoute_licensesOnly {proof : Prop} (recipeId : Nat) (site : Site) :
    Moves (LicensesOnly recipeId proof) (poisonRoute recipeId) site := by
  unfold Moves poisonRoute
  split
  · exact LicensesOnly.refl site
  · split
    · exact LicensesOnly.refl site
    · exact onDb_moves (LicensesOnly.refl site) fun db hset =>
        setVerifyState_licensesOnly hset fun hstate => by cases hstate

/-- The retirement of an answer licenses at most the job's recipe, and only for a blob
that was materialized. -/
theorem blessRetire_licensesOnly (now : Int) (job : BlessJob) (answer : Except ExecError Bool)
    (site : Site) :
    ∃ recipeId, LicensesOnly recipeId (answer = .ok true ∧ job.license = some recipeId) site
      (blessRetire now true job answer site) := by
  unfold blessRetire
  split
  · have hrecord := recordMaterialized_licensesOnly now job.hash job.len (job.license.getD 0)
      job.license (fun other hother => by rw [hother]; rfl) site
    rw [if_pos rfl]
    refine ⟨job.license.getD 0, ?_⟩
    unfold Moves at hrecord
    split <;> rename_i hrun <;> rw [hrun] at hrecord <;>
      exact hrecord.imp fun hlicense => ⟨rfl, hlicense⟩
  · exact ⟨0, LicensesOnly.refl site⟩
  · split
    · rename_i recipeId _
      split
      · have hpoison : Moves (LicensesOnly recipeId False) (poisonRoute recipeId) site :=
          poisonRoute_licensesOnly recipeId site
        refine ⟨recipeId, ?_⟩
        unfold Moves at hpoison
        split <;> rename_i hrun <;> rw [hrun] at hpoison <;> exact hpoison.imp False.elim
      · exact ⟨recipeId, LicensesOnly.refl site⟩
    · exact ⟨0, LicensesOnly.refl site⟩

theorem loose_metadata_materializePlan {store store' : Store} {hash : Blake3} {plan : Plan}
    {done : Bool} (hrun : exec.materializePlan hash plan store = .ok (done, store'))
    (other : Blake3) : store'.loose .metadata other = store.loose .metadata other := by
  unfold materializePlan at hrun
  split at hrun
  · cases hrun
    rfl
  split at hrun
  · cases hrun
  split at hrun
  · cases hrun
  split at hrun
  · cases hrun
  · rename_i hput
    cases hrun
    exact Store.loose_metadata_putWithObao hput other

theorem blessWork_cases (exec : Executor) (job : BlessJob) (store : Store) :
    (∀ hash, (exec.blessWork true job store).2.loose .metadata hash = store.loose .metadata hash) ∧
      ((exec.blessWork true job store).1 = .ok true →
        ∃ store', exec.materializePlan job.hash job.plan store = .ok (true, store')) := by
  unfold blessWork
  rw [if_pos rfl]
  cases hrun : exec.materializePlan job.hash job.plan store with
  | ok result =>
    obtain ⟨done, store'⟩ := result
    refine ⟨loose_metadata_materializePlan hrun, fun hdone => ⟨store', ?_⟩⟩
    cases hdone
    rfl
  | error e => cases e <;> exact ⟨fun _ => rfl, fun hdone => by cases hdone⟩

end Bless

end Executor

/-! ## Sessions -/

/-- Jobs in flight are sound, and every answer that may license a recipe is backed by
the log. -/
structure Session.Sound (exec : Executor) (session : Session) : Prop where
  jobs : ∀ job ∈ session.jobs, exec.JobSound session.site job
  answers : ∀ job, (job, .ok true) ∈ session.answers →
    ∀ recipeId, job.license = some recipeId → exec.Proven session recipeId

namespace Executor

variable {exec : Executor} {session session' : Session}

theorem Proven.mono {recipeId : Nat} (hproven : exec.Proven session recipeId)
    (hkeeps : session.site.KeepsObjects session'.site) (hlog : session.log ⊆ session'.log) :
    exec.Proven session' recipeId := by
  obtain ⟨execution, hmem, hid, htop, hdelivered, recipe, hload, hclaims⟩ := hproven
  exact ⟨execution, hlog hmem, hid, htop, hdelivered, recipe, hkeeps.loadRecipe hload, hclaims⟩

/-- A step that adds to the log and moves no job keeps a session sound. -/
theorem sound_of_keepsObjects (hsound : session.Sound exec)
    (hkeeps : session.site.KeepsObjects session'.site) (hlog : session.log ⊆ session'.log)
    (hjobs : session'.jobs ⊆ session.jobs) (hanswers : session'.answers ⊆ session.answers) :
    session'.Sound exec :=
  ⟨fun job hjob => (hsound.jobs job (hjobs hjob)).mono hkeeps,
    fun job hanswer recipeId hlicense =>
      (hsound.answers job (hanswers hanswer) recipeId hlicense).mono hkeeps hlog⟩

/-- A call for one recipe: what it licenses is proven by its own log entries. -/
theorem call_sound {recipeId : Nat} {site' : Site} {entries : List Execution}
    (hsound : session.Sound exec)
    (honly : LicensesOnly recipeId (exec.ProvenBy recipeId session.site entries)
      session.site site') :
    exec.LicensesProven session { session with site := site', log := session.log ++ entries } ∧
    Session.Sound exec { session with site := site', log := session.log ++ entries } := by
  refine ⟨?_, sound_of_keepsObjects hsound honly.toKeepsObjects (List.subset_append_left _ _)
    (fun _ => id) (fun _ => id)⟩
  intro other hlicensed
  refine (honly.licensed hlicensed).imp_right ?_
  rintro ⟨rfl, recipe, hload, execution, hmem, hid, htop, hdelivered, hclaims⟩
  exact ⟨execution, List.mem_append_right _ hmem, hid, htop, hdelivered, recipe,
    honly.toKeepsObjects.loadRecipe hload, hclaims⟩

theorem triageStep_eq (exec : Executor) (includeAffine : Bool) (hash : Blake3) (len : Nat) (session : Session) :
    ∃ jobs, exec.triageStep includeAffine hash len session = { session with
        site := final (exec.blessTriage true includeAffine hash len session.site)
        jobs := session.jobs ++ jobs } ∧
      ∀ job ∈ jobs, exec.JobSound session.site job := by
  have hjob := (blessTriage_cases exec includeAffine hash len session.site).2.2
  unfold triageStep
  cases hrun : exec.blessTriage true includeAffine hash len session.site with
  | error e site => exact ⟨[], by simp, by simp⟩
  | ok job site =>
    cases job with
    | none => exact ⟨[], by simp, by simp⟩
    | some job => exact ⟨[job], rfl, by simpa using hjob job site hrun⟩

theorem triageStep_sound (includeAffine : Bool) (hash : Blake3) (len : Nat)
    (hsound : session.Sound exec) :
    exec.LicensesProven session (exec.triageStep includeAffine hash len session) ∧
      (exec.triageStep includeAffine hash len session).Sound exec := by
  obtain ⟨hkeeps, hrecipes, _⟩ := blessTriage_cases exec includeAffine hash len session.site
  obtain ⟨jobs, hstep, hjobs⟩ := triageStep_eq exec includeAffine hash len session
  constructor
  · intro recipeId hlicensed
    left
    simp only [hstep, Db.IsLicensed, hrecipes] at hlicensed
    exact hlicensed
  · rw [hstep]
    refine ⟨fun job hjob => ?_, fun job hanswer recipeId hlicense =>
      (hsound.answers job hanswer recipeId hlicense).mono hkeeps (fun _ => id)⟩
    rcases List.mem_append.mp hjob with hold | hnew
    · exact (hsound.jobs job hold).mono hkeeps
    · exact (hjobs job hnew).mono hkeeps

theorem workStep_sound (ix : Nat) (hsound : session.Sound exec) :
    exec.LicensesProven session (exec.workStep ix session) ∧
      (exec.workStep ix session).Sound exec := by
  unfold workStep
  cases hjob : session.jobs[ix]? with
  | none => exact ⟨fun _ => Or.inl, hsound⟩
  | some job =>
    obtain ⟨hmetadata, hdone⟩ := blessWork_cases exec job session.site.store
    have hkeeps : session.site.KeepsObjects
        { session.site with store := (exec.blessWork true job session.site.store).2 } :=
      ⟨fun _ _ => id, hmetadata⟩
    refine ⟨fun _ => Or.inl, ⟨fun other hother =>
      (hsound.jobs other (List.mem_of_mem_eraseIdx hother)).mono hkeeps, ?_⟩⟩
    intro other hanswer recipeId hlicense
    rcases List.mem_append.mp hanswer with hold | hnew
    · exact (hsound.answers other hold recipeId hlicense).mono hkeeps
        (List.subset_append_left _ _)
    · obtain ⟨rfl, hanswered⟩ := Prod.mk.inj (List.mem_singleton.mp hnew)
      obtain ⟨store', hmaterialized⟩ := hdone hanswered.symm
      obtain ⟨node, children, size, recipe, hplan, hload, hclaims⟩ :=
        hsound.jobs other (List.mem_of_getElem? hjob) recipeId hlicense
      rw [hplan] at hmaterialized
      obtain ⟨habsent, execution, hmem, hid, htop, hdelivered, hexecuted⟩ :=
        planExecutions_of_materializePlan hmaterialized
      refine ⟨execution, List.mem_append_right _ ?_, hid, htop, hdelivered, recipe,
        hkeeps.loadRecipe hload, hexecuted.trans hclaims.symm⟩
      rw [habsent, hplan]
      exact hmem

theorem retireStep_sound (now : Int) (ix : Nat) (hsound : session.Sound exec) :
    exec.LicensesProven session (retireStep now ix session) ∧
      (retireStep now ix session).Sound exec := by
  unfold retireStep
  cases hanswer : session.answers[ix]? with
  | none => exact ⟨fun _ => Or.inl, hsound⟩
  | some pair =>
    obtain ⟨job, answer⟩ := pair
    obtain ⟨recipeId, honly⟩ := blessRetire_licensesOnly now job answer session.site
    refine ⟨?_, sound_of_keepsObjects hsound honly.toKeepsObjects (fun _ => id) (fun _ => id)
      (List.eraseIdx_subset)⟩
    intro other hlicensed
    refine (honly.licensed hlicensed).imp_right ?_
    rintro ⟨rfl, rfl, hlicense⟩
    exact (hsound.answers job (List.mem_of_getElem? hanswer) other hlicense).mono
      honly.toKeepsObjects (fun _ => id)

/-- One step: what it licenses is proven, and the session stays sound. -/
theorem licenseStep_sound (step : LicenseStep) (hsound : session.Sound exec)
    (hsettled : exec.StepSettled session step) :
    exec.LicensesProven session (exec.licenseStep session step) ∧
      (exec.licenseStep session step).Sound exec := by
  cases step with
  | replay around recipeId => exact call_sound hsound (replay_licensesOnly around hsettled)
  | license race recipeId => exact call_sound hsound (license_licensesOnly race hsettled)
  | rehabilitate around recipeId =>
    exact call_sound hsound (rehabilitate_licensesOnly around hsettled)
  | blessTriage includeAffine hash len => exact triageStep_sound includeAffine hash len hsound
  | blessWork ix => exact workStep_sound ix hsound
  | blessRetire now ix => exact retireStep_sound now ix hsound

/-- Every step of the run meets the condition in the state it is taken in. -/
def RunSettled (exec : Executor) : Session → List LicenseStep → Prop
  | _, [] => True
  | session, step :: rest =>
    exec.StepSettled session step ∧ RunSettled exec (exec.licenseStep session step) rest

theorem licenseSteps_sound (steps : List LicenseStep) (hsound : session.Sound exec)
    (hsettled : exec.RunSettled session steps) : (exec.licenseSteps session steps).Sound exec := by
  induction steps generalizing session with
  | nil => exact hsound
  | cons step rest ih => exact ih (licenseStep_sound step hsound hsettled.1).2 hsettled.2

theorem runSettled_append {steps rest : List LicenseStep} :
    exec.RunSettled session (steps ++ rest) ↔
      exec.RunSettled session steps ∧ exec.RunSettled (exec.licenseSteps session steps) rest := by
  induction steps generalizing session with
  | nil => simp [RunSettled, licenseSteps]
  | cons step steps ih => simp [RunSettled, licenseSteps, ih, and_assoc]

/-- In every session that starts without blessing jobs in flight, and whose calls run no
`verified` recipe inside a plan, a recipe becomes `replayedLocal` only after some
execution delivered all its claimed outputs. -/
theorem licensed_only_when_proven (exec : Executor) (site : Site) (steps : List LicenseStep)
    (step : LicenseStep) (hsettled : exec.RunSettled { site := site } (steps ++ [step])) :
    exec.LicensesProven (exec.licenseSteps { site := site } steps)
      (exec.licenseStep (exec.licenseSteps { site := site } steps) step) := by
  obtain ⟨hsteps, hstep, _⟩ := runSettled_append.mp hsettled
  have hfresh : Session.Sound exec { site := site } :=
    ⟨by simp, by simp⟩
  exact (licenseStep_sound step (licenseSteps_sound steps hfresh hsteps) hstep).1

/-! ## A recipe licensed for one of its two outputs -/

/-- The component blob 9 unpacks blob 1; the recipe claims two outputs. -/
def pairRecipe : Recipe :=
  ⟨.wasm 9 .transform1 "unpack", [⟨1, none⟩], [⟨8, 1, some "a"⟩, ⟨5, 1, some "b"⟩], []⟩

/-- A blob that continues the first of the two outputs. -/
def continuedRecipe : Recipe :=
  ⟨.builtin "assemble" 1, [⟨8, none⟩], [⟨2065, 2, none⟩], []⟩

/-- The component writes its first output only. -/
def pairExec : Executor where
  host := { Host.sample with
    decodeRecipe := fun bytes => .ok (if bytes = [1] then pairRecipe else continuedRecipe)
    decodeAssembleParams := fun _ => .ok ⟨[.blobRange 0 0 1, .literal [8]]⟩
    runTransform := fun _ _ _ _ => .ok (.write 0 [7] .done) }

/-- Both recipes are indexed and verified, and nothing but the component and its
input is stored. -/
def pairSite : Site where
  db :=
    let db := (Db.empty.upsertBlob 9 (some 1) .data .resident).1
    let db := (db.upsertBlob 1 (some 1) .data .resident).1
    let recipes : List (Blake3 × Recipe) := [(101, pairRecipe), (102, continuedRecipe)]
    recipes.foldl (fun db recipe =>
      let (db, recipeBlob) := Db.upsertBlob db recipe.1 (some 1) .metadata .resident
      match db.indexRecipe recipeBlob recipe.2 .opaqueSeek .localIngest with
      | .ok (db, recipeId) => db.markVerify recipeId .verified
      | .error _ => db) db
  store := (((Store.empty.setLoose .data 9 (some [9])).setLoose .data 1 (some [3])).setLoose
    .metadata 101 (some [1])).setLoose .metadata 102 (some [2])
  caches := .empty

def pairReplay : LicenseStep := .replay ⟨0, fun _ => none⟩ 2

/-- The component as it was meant: both outputs come out. -/
def wholeExec : Executor where
  host := { pairExec.host with
    runTransform := fun _ _ _ _ => .ok (.write 0 [7] (.write 1 [4] .done)) }

/-- Once the inner recipe is licensed on its own, replaying the outer one is settled. -/
theorem license_then_replay_proven :
    wholeExec.RunSettled { site := pairSite } ([.license (fun _ => none) 1] ++ [pairReplay]) ∧
      wholeExec.Proven (wholeExec.licenseSteps { site := pairSite }
        [.license (fun _ => none) 1, pairReplay]) 2 := by
  have hsettled : wholeExec.RunSettled { site := pairSite }
      ([.license (fun _ => none) 1] ++ [pairReplay]) := by
    refine ⟨by decide +kernel, by decide +kernel, trivial⟩
  refine ⟨hsettled, ?_⟩
  have hproven := licensed_only_when_proven wholeExec pairSite [.license (fun _ => none) 1]
    pairReplay hsettled 2
  exact (hproven (by decide +kernel)).resolve_left (by decide +kernel)

/-- Replaying the outer recipe licenses the inner one, though nothing has ever produced
its second output. -/
theorem replay_licenses_unproven_participant :
    ¬ pairSite.db.IsLicensed 1 ∧
      (pairExec.licenseStep { site := pairSite } pairReplay).site.db.IsLicensed 1 ∧
      ∀ execution ∈ (pairExec.licenseStep { site := pairSite } pairReplay).log,
        execution.recipeId = 1 → ¬ execution.Delivered pairExec.host := by
  decide +kernel

end Executor

end Datboi
