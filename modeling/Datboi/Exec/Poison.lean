import Datboi.Exec.Blame
import Datboi.Index.Writes

/-!
# Which recipe a failure poisons

An execution poisons the recipe at its top and no other, and only when the failure
indicts a claim. Then something in the tree is at fault: the recipe itself, or a
recipe or literal below it.
-/

namespace Datboi

open Moves (Moves final)

namespace Site

/-- At most one recipe is newly poisoned, and only on the given grounds. -/
def FailsOnly (recipeId : Nat) (grounds : Prop) (site site' : Site) : Prop :=
  ∀ other, site'.db.IsFailed other → site.db.IsFailed other ∨ (other = recipeId ∧ grounds)

variable {recipeId : Nat} {grounds : Prop} {site site' : Site}

theorem FailsOnly.refl (site : Site) : FailsOnly recipeId grounds site site := fun _ => Or.inl

instance : Trans (FailsOnly recipeId grounds) (FailsOnly recipeId grounds)
    (FailsOnly recipeId grounds) where
  trans hab hbc := fun other hfailed => (hbc other hfailed).elim (hab other) Or.inr

theorem FailsOnly.of_recipes_eq (hrecipes : site'.db.recipes = site.db.recipes) :
    FailsOnly recipeId grounds site site' := by
  intro other hfailed
  rw [Db.IsFailed, hrecipes] at hfailed
  exact Or.inl hfailed

theorem FailsOnly.imp {grounds' : Prop} (hfails : FailsOnly recipeId grounds site site')
    (himp : grounds → grounds') : FailsOnly recipeId grounds' site site' :=
  fun other hfailed => (hfails other hfailed).imp_right fun hother => ⟨hother.1, himp hother.2⟩

end Site

namespace Executor

variable (exec : Executor)

/-- What the site makes of a recipe's operation. -/
def resolved (site : Site) : Recipe → Except ExecError OpImpl :=
  exec.resolveOpWith (exec.lookupComponent site.store site.caches)

/-- The recipe's own operation is at fault: it cannot be resolved, or it breaks its
claims on inputs that are the claimed ones. -/
def OwnFault (site : Site) (recipe : Recipe) : Prop :=
  (∃ e, e.isClaimFailure = true ∧ exec.resolved site recipe = .error e) ∨
    ∃ op children site', exec.prepare recipe site = .ok (op, children) site' ∧
      exec.BreaksClaims op recipe.claims children

/-- Something that the recipe takes its inputs from is at fault. -/
def FaultBelow (site : Site) (recipe : Recipe) : Prop :=
  (∃ input ∈ recipe.inputs, UnusableBelow exec site.db site.store (exec.resolved site) input.hash) ∨
    ∃ op children site', exec.prepare recipe site = .ok (op, children) site' ∧
      ∃ child ∈ children, exec.FaultIn site.store child

/-- The recipe loads, and it or something below it is at fault. -/
def FaultFound (site : Site) (recipeId : Nat) : Prop :=
  ∃ recipe, exec.loadRecipe site.db site.store recipeId = .ok recipe ∧
    (exec.OwnFault site recipe ∨ exec.FaultBelow site recipe)

variable {exec}

/-! ## Preparation -/

section Prepare

variable {recipe : Recipe} {site site' : Site}

theorem onCaches_eq_ok {α : Type} {m : EStateM ExecError Caches α} {a : α}
    (hrun : ExecM.onCaches m site = .ok a site') :
    ∃ caches, m site.caches = .ok a caches ∧ site' = { site with caches := caches } := by
  unfold ExecM.onCaches at hrun
  split at hrun
  · rename_i hm
    cases hrun
    exact ⟨_, hm, rfl⟩
  · cases hrun

theorem onCaches_eq_error {α : Type} {m : EStateM ExecError Caches α} {e : ExecError}
    (hrun : ExecM.onCaches m site = .error e site') :
    ∃ caches, m site.caches = .error e caches ∧ site' = { site with caches := caches } := by
  unfold ExecM.onCaches at hrun
  split at hrun
  · cases hrun
  · rename_i hm
    cases hrun
    exact ⟨_, hm, rfl⟩

/-- Planning the inputs is a pure search, from every state of the caches on the way. -/
theorem planInputs_plan_computes (exec : Executor) (site : Site) (inputs : List InputRef)
    {caches : Caches} (hagrees : exec.Agrees site.store site.caches caches) :
    Memo.Computes (exec.Agrees site.store)
      (planInputs (fun hash => exec.plan site.db site.store hash 1 []) inputs)
      (planInputs (fun hash => exec.purePlan site.db site.store site.caches hash 1 []) inputs)
      caches := by
  apply planInputs_computes _ inputs caches hagrees
  intro hash caches' hagrees'
  exact planWith_computes (exec.resolveOp_resolvesAs site.store site.caches) _ _ _ _ hagrees'

theorem resolveTop_eq_ok {op : OpImpl} (hrun : exec.resolveTop recipe site = .ok op site') :
    ∃ caches, exec.Agrees site.store site.caches caches ∧
      site' = { site with caches := caches } := by
  obtain ⟨caches, hresolve, rfl⟩ := onCaches_eq_ok hrun
  exact ⟨caches, (Memo.Computes.of_ok (exec.resolveOp_resolvesAs site.store site.caches recipe
    site.caches (exec.agrees_refl _ _)) hresolve).2, rfl⟩

/-- The plans of a prepared recipe. -/
theorem prepare_eq_ok {op : OpImpl} {children : List Plan}
    (hrun : exec.prepare recipe site = .ok (op, children) site') :
    site'.store = site.store ∧ site'.db = site.db ∧ ∀ child ∈ children, child.Indexed := by
  obtain ⟨op', site₁, hresolve, hrest⟩ := Moves.bind_eq_ok hrun
  obtain ⟨caches, hagrees, rfl⟩ := resolveTop_eq_ok hresolve
  obtain ⟨children', site₂, hplan, hdone⟩ := Moves.bind_eq_ok hrest
  cases hdone
  obtain ⟨caches', hinputs, rfl⟩ := onCaches_eq_ok hplan
  refine ⟨rfl, rfl, ?_⟩
  have hpure := (Memo.Computes.of_ok
    (planInputs_plan_computes exec site recipe.inputs hagrees) hinputs).1
  obtain ⟨hlength, hpairs⟩ := planInputs_eq_ok hpure
  intro child hchild node hwithin
  obtain ⟨ix, hix, rfl⟩ := List.getElem_of_mem hchild
  have hpair := hpairs (recipe.inputs[ix], children[ix]) (List.mem_iff_getElem.mpr
    ⟨ix, by rw [List.length_zip]; omega, List.getElem_zip⟩)
  exact (planWith_sound hpair).indexed node hwithin

theorem prepare_eq_error {e : ExecError} (hrun : exec.prepare recipe site = .error e site') :
    exec.resolved site recipe = .error e ∨
      ∃ input ∈ recipe.inputs,
        exec.purePlan site.db site.store site.caches input.hash 1 [] = .error e := by
  rcases Moves.bind_eq_error hrun with hresolve | ⟨op, site₁, hresolve, hrest⟩
  · obtain ⟨_, herror, _⟩ := onCaches_eq_error hresolve
    exact Or.inl (Memo.Computes.of_error (exec.resolveOp_resolvesAs site.store site.caches recipe
      site.caches (exec.agrees_refl _ _)) herror)
  · obtain ⟨caches, hagrees, rfl⟩ := resolveTop_eq_ok hresolve
    rcases Moves.bind_eq_error hrest with hplan | ⟨_, _, _, hdone⟩
    · obtain ⟨_, herror, _⟩ := onCaches_eq_error hplan
      exact Or.inr (planInputs_eq_error (Memo.Computes.of_error
        (planInputs_plan_computes exec site recipe.inputs hagrees) herror))
    · cases hdone

/-- An execution that fails on a claim has a fault in its tree. -/
theorem fault_of_executeWith {τ : Type} {consumer : Consumer τ} {race : PipeRace} {e : ExecError}
    (haccepts : consumer.Accepts exec.host)
    (hrun : exec.executeWith consumer race recipe site = .error e site')
    (hclaim : e.isClaimFailure = true) :
    exec.OwnFault site recipe ∨ exec.FaultBelow site recipe := by
  rcases Moves.bind_eq_error hrun with hprepare | ⟨⟨op, children⟩, site₁, hprepare, hrest⟩
  · rcases prepare_eq_error hprepare with hresolve | ⟨input, hinput, hplan⟩
    · exact Or.inl (Or.inl ⟨e, hclaim, hresolve⟩)
    · exact Or.inr (Or.inl ⟨input, hinput, unusableBelow_of_planWith hplan hclaim⟩)
  · obtain ⟨hstore, _, hindexed⟩ := prepare_eq_ok hprepare
    by_contra hnone
    rw [not_or] at hnone
    have hchildren : ∀ child ∈ children, ¬ exec.FaultIn site₁.store child := fun child hchild hfault =>
      hnone.2 (Or.inr ⟨op, children, site₁, hprepare, child, hchild, hstore ▸ hfault⟩)
    obtain ⟨inputs, hmatches, hholds⟩ := holdsAll_of_not_faultIn children hindexed hchildren
    have hmeets : exec.Meets op recipe.claims inputs := by
      by_contra hbroken
      exact hnone.1 (Or.inr ⟨op, children, site₁, hprepare, inputs, hmatches, hbroken⟩)
    obtain ⟨results, site₂, hexecute⟩ := executeNode_of_meets race haccepts hholds hmeets site₁
    rcases Moves.bind_eq_error hrest with herror | ⟨_, _, _, hdone⟩
    · rw [executePlanned, hexecute] at herror
      cases herror
    · cases hdone

end Prepare

/-! ## Calls for one recipe -/

section Calls

open Site (FailsOnly)

variable {recipeId : Nat} {grounds : Prop} {site site' : Site}

theorem setVerifyState_failsOnly {advance : Db.VerifyAdvance} {target : Nat} {db : Db}
    (hset : site.db.setVerifyState target advance = .ok db)
    (hgrounds : advance = .failed → target = recipeId ∧ grounds) :
    FailsOnly recipeId grounds site { site with db := db } := by
  obtain ⟨_, _, _, _, rfl⟩ := Db.setVerifyState_eq_ok.mp hset
  intro other hfailed
  refine (Db.isFailed_of_markVerify hfailed).imp_right ?_
  rintro ⟨rfl, hstate⟩
  cases advance with
  | failed => exact hgrounds rfl
  | verified | replayedLocal => cases hstate

theorem attempt_failsOnly {τ : Type} {consumer : Consumer τ} {race : PipeRace} {recipe : Recipe}
    (haccepts : consumer.Accepts exec.host) :
    Moves (FailsOnly recipeId (exec.OwnFault site recipe ∨ exec.FaultBelow site recipe))
      (exec.attempt consumer race recipeId recipe) site := by
  refine attempt_moves (FailsOnly.of_recipes_eq ?_) ?_
  · have hdb := executeWith_sameDb exec consumer race recipe site
    exact congrArg Db.recipes hdb
  · intro e s db hrun hclaim hset
    exact setVerifyState_failsOnly hset fun _ => ⟨rfl, fault_of_executeWith haccepts hrun hclaim⟩

theorem advanceTop_failsOnly (verify : VerifyState) :
    Moves (FailsOnly recipeId grounds) (advanceTop recipeId verify) site :=
  advanceTop_moves (FailsOnly.refl site) fun _ hset =>
    setVerifyState_failsOnly hset fun hadvance => by cases hadvance

theorem licenseParticipants_failsOnly (participants : List Nat) :
    Moves (FailsOnly recipeId grounds) (licenseParticipants recipeId participants) site :=
  licenseParticipants_moves FailsOnly.refl participants fun _ _ _ _ _ _ _ _ _ _ hset =>
    setVerifyState_failsOnly hset fun hadvance => by cases hadvance

/-- A replay poisons at most its own recipe, for a fault in the tree it executed. -/
theorem replay_failsOnly (around : Surroundings) :
    Moves (FailsOnly recipeId (exec.FaultFound site recipeId)) (exec.replay around recipeId) site := by
  unfold replay
  refine Moves.moves_bind (liveRecipe_moves (FailsOnly.refl site)) ?_
  rintro ⟨row, recipe⟩ site₁ hlive
  obtain ⟨rfl, _, _, _, hload⟩ := liveRecipe_eq_ok hlive
  refine Moves.moves_bind ((attempt_failsOnly storeConsumer_accepts).imp fun hfault =>
    ⟨recipe, hload, hfault⟩) ?_
  rintro ⟨outputs, participants⟩ site₂ _
  refine Moves.moves_bind (advanceTop_failsOnly row.verify) fun _ site₃ _ => ?_
  refine Moves.moves_bind (licenseParticipants_failsOnly participants) fun _ site₄ _ => ?_
  refine Moves.moves_bind (recordOutputs_moves FailsOnly.refl fun output _ s _ => ?_)
    fun _ site₅ _ => FailsOnly.refl site₅
  exact FailsOnly.of_recipes_eq (Db.recipes_upsertBlob _ _ _ _)

theorem license_failsOnly (race : PipeRace) :
    Moves (FailsOnly recipeId (exec.FaultFound site recipeId)) (exec.license race recipeId) site := by
  unfold license
  refine Moves.moves_bind (liveRecipe_moves (FailsOnly.refl site)) ?_
  rintro ⟨row, recipe⟩ site₁ hlive
  obtain ⟨rfl, _, _, _, hload⟩ := liveRecipe_eq_ok hlive
  refine Moves.moves_bind ((attempt_failsOnly verifyConsumer_accepts).imp fun hfault =>
    ⟨recipe, hload, hfault⟩) ?_
  rintro ⟨results, participants⟩ site₂ _
  refine Moves.moves_bind (advanceTop_failsOnly row.verify) fun _ site₃ _ => ?_
  exact licenseParticipants_failsOnly participants

/-! ## Short sequential inputs -/

/-- A sequential input of the transform ended before its claimed length, under the
guest's hands. -/
def RanDry {τ : Type} (exec : Executor) (consumer : Consumer τ) (race : PipeRace) (op : OpImpl)
    (claims : List (Blake3 × Nat)) (children : List Opened) : Prop :=
  ∃ component compiled name params seek randomAccessInputs inputs program,
    op = .transform component compiled name params seek randomAccessInputs ∧
    openTransformInputs randomAccessInputs children 0 = .ok inputs ∧
    exec.host.runTransform compiled name params (fuelBudget (children.map Opened.len) claims) =
      .ok program ∧
    (program.run maxRead
      ⟨inputs, claims.mapIdx (racingSink consumer race)⟩).2.endedEarly.isSome = true

variable {τ : Type} {consumer : Consumer τ} {race : PipeRace}

variable {op : OpImpl} {materialize : Bool} {job : BlessJob}

/-- Whatever the guest made of the truncated view, the run reports the short input. -/
theorem executeNode_of_ranDry {claims : List (Blake3 × Nat)} {children : List Opened}
    (hdry : exec.RanDry consumer race op claims children) (site : Site) :
    ∃ ix claimed actual site', exec.executeNode consumer race op claims children site =
      .error (.runtime (.inputLengthMismatch ix claimed actual)) site' := by
  obtain ⟨component, compiled, name, params, seek, randomAccessInputs, inputs, program, rfl,
    hinputs, hprogram, hearly⟩ := hdry
  obtain ⟨⟨ix, claimed, actual⟩, hended⟩ := Option.isSome_iff_exists.mp hearly
  obtain ⟨streams, hproduce⟩ : ∃ streams, exec.produce consumer race
      (.transform component compiled name params seek randomAccessInputs) claims children =
      .ok (.error (.inputLengthMismatch ix claimed actual), streams) :=
    ⟨_, by simp only [produce, runTransformNode, hinputs, hprogram, runGuest, hended, bind,
      Except.bind, pure, Except.pure]; rfl⟩
  exact ⟨ix, claimed, actual,
    { site with store := (consumeAll consumer (claims.zip streams) site.store).2 },
    by simp only [executeNode, hproduce]⟩

/-- A short sequential input of the top operation never poisons its recipe. -/
theorem attempt_of_ranDry (recipeId : Nat) {recipe : Recipe} {children : List Plan}
    (hprepare : exec.prepare recipe site = .ok (op, children) site')
    (hdry : exec.RanDry consumer race op recipe.claims (exec.openPlans site'.store children)) :
    ∃ e site₁, exec.attempt consumer race recipeId recipe site = .error e site₁ ∧
      site₁.db = site.db := by
  obtain ⟨ix, claimed, actual, site₁, hexecute⟩ := executeNode_of_ranDry hdry site'
  have hrun : exec.executeWith consumer race recipe site =
      .error (.runtime (.inputLengthMismatch ix claimed actual)) site₁ := by
    rw [executeWith, Moves.bind_apply, hprepare]
    simp only [Moves.bind_apply, executePlanned, hexecute]
  refine ⟨.runtime (.inputLengthMismatch ix claimed actual), site₁, ?_,
    db_eq_of_executeWith_error hrun⟩
  rw [attempt, hrun]
  rfl

theorem replay_of_ranDry {around : Surroundings} {recipe : Recipe} {children : List Plan}
    (hload : exec.loadRecipe site.db site.store recipeId = .ok recipe)
    (hprepare : exec.prepare recipe site = .ok (op, children) site')
    (hdry : exec.RanDry exec.storeConsumer around.race op recipe.claims
      (exec.openPlans site'.store children)) :
    (final (exec.replay around recipeId site)).db = site.db := by
  unfold replay
  rw [Moves.bind_apply]
  cases hlive : exec.liveRecipe recipeId site with
  | error e site₁ =>
    rw [liveRecipe_eq_error hlive]
    rfl
  | ok found site₁ =>
    obtain ⟨row, recipe'⟩ := found
    obtain ⟨rfl, _, _, _, hload'⟩ := liveRecipe_eq_ok hlive
    obtain rfl := Except.ok.inj (hload.symm.trans hload')
    obtain ⟨e, site₂, hattempt, hdb⟩ := attempt_of_ranDry recipeId hprepare hdry
    simp only [Moves.bind_apply, hattempt]
    exact hdb

/-! ## Routes -/

theorem poisonRoute_failsOnly (hgrounds : grounds) :
    Moves (FailsOnly recipeId grounds) (poisonRoute recipeId) site := by
  unfold Moves poisonRoute
  split
  · exact FailsOnly.refl site
  · split
    · exact FailsOnly.refl site
    · exact onDb_moves (FailsOnly.refl site) fun db hset =>
        setVerifyState_failsOnly hset fun _ => ⟨rfl, hgrounds⟩

/-- A planned route is for its blob. -/
theorem plan_indexed {hash : Blake3} {plan : Plan} {caches : Caches}
    (hplan : exec.plan site.db site.store hash 0 [] site.caches = .ok plan caches) :
    plan.target = some hash ∧ plan.Indexed :=
  ⟨(plan_routed hplan).target_eq, (plan_routed hplan).indexed⟩

/-- What a route without a fault delivers. -/
theorem delivers_of_not_faultIn {store : Store} {hash : Blake3} {plan : Plan}
    (htarget : plan.target = some hash) (hindexed : plan.Indexed)
    (hsound : ¬ exec.FaultIn store plan) :
    ∃ bytes, (exec.openPlan store plan).sequential = .ok ⟨bytes, none⟩ ∧
      exec.host.Delivers (hash, plan.len) ⟨bytes, none⟩ := by
  obtain ⟨bytes, ⟨hhash, hlen⟩, hholds⟩ := holds_of_not_faultIn plan hindexed hsound
  refine ⟨bytes, hholds.sequential_eq, rfl, hlen, ?_⟩
  exact Option.some.inj (hhash.symm.trans htarget)

section Bless

variable {hash : Blake3} {plan : Plan} {store : Store} {bytes : Bytes} {e : ExecError}
variable (hopen : (exec.openPlan store plan).sequential = .ok ⟨bytes, none⟩)
variable (hdelivers : exec.host.Delivers (hash, plan.len) ⟨bytes, none⟩)
include hopen hdelivers

/-- Only the disk can refuse a sound route. -/
theorem materializePlan_error (hrun : exec.materializePlan hash plan store = .error e) :
    e = .insufficientHeadroom hash (headroomNeed plan.len) (store.availableBytes.getD 0) := by
  unfold materializePlan at hrun
  split at hrun
  · cases hrun
  split at hrun
  · rename_i hroom
    cases hrun
    unfold checkHeadroom at hroom
    split at hroom
    · cases hroom
    · rename_i available havailable
      split at hroom
      · cases hroom
        rw [havailable]
        rfl
      · cases hroom
  · obtain ⟨outcome, store', hput⟩ := store.putWithObao_of_delivers .data hdelivers
    simp [hopen, hput] at hrun

theorem blessPlan_isOk : ∃ result, exec.blessPlan hash plan store = .ok result := by
  obtain ⟨_, hlen, hhash⟩ := hdelivers
  simp only at hlen hhash
  have htake : bytes.take plan.len = bytes := by
    rw [← hlen, List.take_length]
  unfold blessPlan
  split
  · exact ⟨_, rfl⟩
  · simp [hopen, Obao.compute, hlen, htake, hhash]

end Bless

/-- A worker's answer indicts the route only if the route has a fault. -/
theorem faultIn_of_blessWork {store : Store} {e : ExecError}
    (htarget : job.plan.target = some job.hash) (hindexed : job.plan.Indexed)
    (hwork : (exec.blessWork materialize job store).1 = .error e)
    (hclaim : e.isClaimFailure = true) : exec.FaultIn store job.plan := by
  by_contra hsound
  obtain ⟨bytes, hopen, hdelivers⟩ := delivers_of_not_faultIn htarget hindexed hsound
  unfold blessWork at hwork
  cases materialize with
  | false =>
    obtain ⟨⟨done, store'⟩, hbless⟩ := blessPlan_isOk hopen hdelivers
    simp [hbless] at hwork
  | true =>
    rw [if_pos rfl] at hwork
    cases hrun : exec.materializePlan job.hash job.plan store with
    | ok result =>
      rw [hrun] at hwork
      cases hwork
    | error e' =>
      rw [hrun, materializePlan_error hopen hdelivers hrun] at hwork
      cases hwork
      cases hclaim

theorem blessTriage_job {includeAffine : Bool} {hash : Blake3} {len : Nat}
    (hrun : exec.blessTriage materialize includeAffine hash len site =
      .ok (some job) site') :
    job.plan.target = some job.hash ∧ job.plan.Indexed ∧ job.route = job.plan.recipeId? := by
  unfold blessTriage at hrun
  split at hrun
  · cases hrun
  split at hrun
  · cases hrun
  split at hrun
  · cases hrun
  · rename_i plan site₁ hplan
    obtain ⟨caches, hplanned, rfl⟩ := onCaches_eq_ok hplan
    obtain ⟨htarget, hindexed⟩ := plan_indexed hplanned
    split at hrun
    · cases hrun
    · cases hrun
    · cases hrun
      exact ⟨htarget, hindexed, rfl⟩

/-- Recording a materialized blob poisons nothing. -/
theorem recordMaterialized_failsOnly (now : Int) (hash : Blake3) (len : Nat)
    (license : Option Nat) :
    Moves (FailsOnly recipeId grounds) (recordMaterialized now hash len license) site := by
  have hrecord : ∀ db blobId, site.db.upsertBlob hash (some len) .data .resident = (db, blobId) →
      FailsOnly recipeId grounds site { site with db := db.setVerified blobId now } := by
    intro db blobId hupsert
    apply FailsOnly.of_recipes_eq
    have hrecipes : (site.db.upsertBlob hash (some len) .data .resident).1.recipes =
        site.db.recipes := Db.recipes_upsertBlob hash (some len) .data .resident
    rwa [hupsert] at hrecipes
  unfold Moves recordMaterialized
  simp only
  split
  · exact hrecord _ _ rfl
  · split
    · exact hrecord _ _ rfl
    · split
      · refine Trans.trans (hrecord _ _ rfl) (?_ : FailsOnly recipeId grounds _ _)
        exact onDb_moves (FailsOnly.refl _) fun db hset =>
          setVerifyState_failsOnly hset fun hadvance => by cases hadvance
      · exact hrecord _ _ rfl

/-- The coordinator poisons the route of a job whose worker found it broken. -/
theorem blessRetire_failsOnly (now : Int) {includeAffine : Bool} {hash : Blake3} {len : Nat}
    {triaged triaged' : Site} (store : Store)
    (htriage : exec.blessTriage materialize includeAffine hash len triaged =
      .ok (some job) triaged') {other : Nat}
    (hfailed : (blessRetire now materialize job (exec.blessWork materialize job store).1
      site).db.IsFailed other) :
    site.db.IsFailed other ∨ (job.plan.recipeId? = some other ∧ exec.FaultIn store job.plan) := by
  obtain ⟨htarget, hindexed, hroute⟩ := blessTriage_job htriage
  unfold blessRetire at hfailed
  cases hanswer : (exec.blessWork materialize job store).1 with
  | ok done =>
    left
    rw [hanswer] at hfailed
    cases done with
    | false => exact hfailed
    | true =>
      have hmoves : Moves (FailsOnly 0 False)
          (recordMaterialized now job.hash job.len job.license) site :=
        recordMaterialized_failsOnly now job.hash job.len job.license
      unfold Moves at hmoves
      cases materialize with
      | false => exact hfailed
      | true =>
        refine (hmoves other ?_).resolve_right fun hnone => hnone.2
        simp only [if_true] at hfailed
        split at hfailed <;> rename_i hrun <;> rwa [hrun]
  | error e =>
    rw [hanswer, hroute] at hfailed
    simp only at hfailed
    split at hfailed
    · rename_i recipeId hrecipe
      split at hfailed
      · rename_i hclaim
        have hfault := faultIn_of_blessWork htarget hindexed hanswer hclaim
        have hmoves : Moves (FailsOnly recipeId (exec.FaultIn store job.plan))
            (poisonRoute recipeId) site := poisonRoute_failsOnly hfault
        rw [hrecipe, Option.some.injEq, eq_comm]
        refine hmoves other ?_
        split at hfailed <;> rename_i hrun <;> rwa [hrun]
      · exact Or.inl hfailed
    · exact Or.inl hfailed

end Calls

end Executor

end Datboi
