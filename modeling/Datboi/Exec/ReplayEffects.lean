import Datboi.Exec.Replay
import Datboi.Lib.Moves

/-!
# What executing a recipe does to the index

An execution itself leaves the index alone; only recording its outcome writes.
A success advances recipes to `replayedLocal` and marks outputs resident, a claim
failure marks the one recipe that was run.
-/

namespace Datboi

open Moves (Moves final)

/-! ## Verify-state writes -/

namespace Db

theorem setVerifyState_eq_ok {db db' : Db} {recipeId : Nat} {advance : VerifyAdvance} :
    db.setVerifyState recipeId advance = .ok db' ↔
      ∃ row ∈ db.recipes, row.recipeId = recipeId ∧
        row.verify.canTransitionTo advance.state = true ∧
        db' = db.markVerify recipeId advance.state := by
  unfold setVerifyState
  constructor
  · intro hset
    split at hset
    · cases hset
    · rename_i row hfound
      obtain ⟨hmem, hid⟩ := Table.byId_eq_some.mp hfound
      split at hset
      · rename_i hlegal
        exact ⟨row, hmem, hid, hlegal, (Except.ok.inj hset).symm⟩
      · cases hset
  · rintro ⟨row, hmem, hid, hlegal, rfl⟩
    have hfound : db.recipes.byId recipeId = some row := Table.byId_eq_some.mpr ⟨hmem, hid⟩
    simp only [hfound, hlegal, ↓reduceIte]

theorem recipeById_eq_ok {db : Db} {recipeId : Nat} {row : RecipeRow} :
    db.recipeById recipeId = .ok row ↔ row ∈ db.recipes ∧ row.recipeId = recipeId := by
  rw [recipeById, ← RecipeRow.row_id, ← Table.byId_eq_some]
  cases db.recipes.byId recipeId <;> simp

end Db

/-! ## Executions -/

/-- The relation "the index is unchanged". -/
def Site.SameDb (site site' : Site) : Prop := site'.db = site.db

instance : Trans Site.SameDb Site.SameDb Site.SameDb where
  trans hab hbc := hbc.trans hab

namespace Executor

variable {exec : Executor} {τ : Type} {consumer : Consumer τ} {race : PipeRace}

theorem onCaches_sameDb {α : Type} (m : EStateM ExecError Caches α) (site : Site) :
    Moves Site.SameDb (ExecM.onCaches m) site := by
  unfold Moves ExecM.onCaches
  cases m site.caches <;> rfl

theorem resolveTop_sameDb (recipe : Recipe) (site : Site) :
    Moves Site.SameDb (exec.resolveTop recipe) site := onCaches_sameDb _ site

theorem planChildren_sameDb (recipe : Recipe) (site : Site) :
    Moves Site.SameDb (exec.planChildren recipe) site := by
  unfold Moves planChildren
  exact onCaches_sameDb (planInputs _ recipe.inputs) site

theorem executePlanned_sameDb (recipe : Recipe) (op : OpImpl) (children : List Plan)
    (site : Site) :
    Moves Site.SameDb (exec.executePlanned consumer race recipe op children) site := by
  unfold Moves executePlanned executeNode
  split
  · rfl
  · simp only
    split <;> rfl

theorem prepare_sameDb (recipe : Recipe) (site : Site) :
    Moves Site.SameDb (exec.prepare recipe) site := by
  unfold prepare
  refine Moves.moves_bind (resolveTop_sameDb recipe site) ?_
  intro op site₁ _
  refine Moves.moves_bind (planChildren_sameDb recipe site₁) ?_
  intro children site₂ _
  exact rfl

variable (exec consumer race) in
/-- An execution writes the store and the caches, never the index. -/
theorem executeWith_sameDb (recipe : Recipe) (site : Site) :
    Moves Site.SameDb (exec.executeWith consumer race recipe) site := by
  unfold executeWith
  refine Moves.moves_bind (prepare_sameDb recipe site) ?_
  rintro ⟨op, children⟩ site₁ _
  refine Moves.moves_bind (executePlanned_sameDb recipe op children site₁) ?_
  intro results site₂ _
  exact rfl

variable {recipe : Recipe} {site' : Site} {e : ExecError}

theorem db_eq_of_executeWith_error {site : Site}
    (hrun : exec.executeWith consumer race recipe site = .error e site') : site'.db = site.db := by
  have hsame := executeWith_sameDb exec consumer race recipe site
  rwa [Moves, hrun] at hsame

/-! ## Recording -/

theorem onDb_ok {write : Db → Except IndexError Db} {site : Site}
    (hrun : ExecM.onDb write site = .ok () site') :
    ∃ db, write site.db = .ok db ∧ site' = { site with db := db } := by
  unfold ExecM.onDb at hrun
  split at hrun
  · rename_i db hwrite
    cases hrun
    exact ⟨db, hwrite, rfl⟩
  · cases hrun

/-! Recording fails only in the index. -/

theorem onDb_error {write : Db → Except IndexError Db} {site : Site}
    (hrun : ExecM.onDb write site = .error e site') : ∃ indexError, e = .index indexError := by
  unfold ExecM.onDb at hrun
  split at hrun
  · cases hrun
  · cases hrun
    exact ⟨_, rfl⟩

theorem advanceTop_error {recipeId : Nat} {verify : VerifyState} {site : Site}
    (hrun : advanceTop recipeId verify site = .error e site') :
    ∃ indexError, e = .index indexError := by
  unfold advanceTop at hrun
  split at hrun
  · exact onDb_error hrun
  · cases hrun

theorem licenseParticipants_error {recipeId : Nat} {participants : List Nat} {site : Site}
    (hrun : licenseParticipants recipeId participants site = .error e site') :
    ∃ indexError, e = .index indexError := by
  induction participants generalizing site with
  | nil => cases hrun
  | cons childId rest ih =>
    unfold licenseParticipants at hrun
    split at hrun
    · exact ih hrun
    · split at hrun
      · cases hrun
        exact ⟨_, rfl⟩
      · split at hrun
        · rcases Moves.bind_eq_error hrun with herror | ⟨_, _, _, hrest⟩
          · exact onDb_error herror
          · exact ih hrest
        · exact ih hrun

section Rules

variable {R : Site → Site → Prop} {recipeId : Nat} {site : Site}

/-- A write to the index moves the state by the write, or not at all. -/
theorem onDb_moves {write : Db → Except IndexError Db} (hrefl : R site site)
    (hwrite : ∀ db, write site.db = .ok db → R site { site with db := db }) :
    Moves R (ExecM.onDb write) site := by
  unfold Moves ExecM.onDb
  split
  · rename_i db heq
    exact hwrite db heq
  · exact hrefl

theorem advanceTop_moves {verify : VerifyState} (hrefl : R site site)
    (hadvance : ∀ db, site.db.setVerifyState recipeId .replayedLocal = .ok db →
      R site { site with db := db }) :
    Moves R (advanceTop recipeId verify) site := by
  unfold advanceTop
  split
  · exact onDb_moves hrefl hadvance
  · exact hrefl

/-- The participants' advances, from what one of them does in any state on the way. -/
theorem licenseParticipants_moves [Trans R R R] (hrefl : ∀ site, R site site)
    (participants : List Nat)
    (hadvance : ∀ childId ∈ participants, childId ≠ recipeId → ∀ s row db, R site s →
      row ∈ s.db.recipes → row.recipeId = childId → row.verify = .verified →
      s.db.setVerifyState childId .replayedLocal = .ok db → R s { s with db := db }) :
    Moves R (licenseParticipants recipeId participants) site := by
  have hgeneral : ∀ s, R site s → Moves R (licenseParticipants recipeId participants) s := by
    induction participants with
    | nil => exact fun s _ => hrefl s
    | cons childId rest ih =>
      intro s hreached
      have hrest := ih fun other hother => hadvance other (List.mem_cons_of_mem childId hother)
      unfold Moves licenseParticipants
      split
      · exact hrest s hreached
      · rename_i hne
        split
        · exact hrefl s
        · rename_i row hfound
          obtain ⟨hmem, hid⟩ := Db.recipeById_eq_ok.mp hfound
          split
          · rename_i hverified
            have hstep := fun db => hadvance childId List.mem_cons_self hne s row db hreached
              hmem hid hverified
            refine Moves.moves_bind (onDb_moves (hrefl s) hstep) ?_
            intro _ s' hrun
            obtain ⟨db, hset, rfl⟩ := onDb_ok hrun
            exact hrest _ (Trans.trans hreached (hstep db hset))
          · exact hrest s hreached
  exact hgeneral site (hrefl site)

theorem recordOutputs_moves [Trans R R R] {now : Int} {recipe : Recipe}
    {outputs : List (Blake3 × PutOutcome)} (hrefl : ∀ site, R site site)
    (hrecord : ∀ output ∈ recipe.outputs.zip (outputs.map Prod.fst), ∀ s, R site s →
      R s { s with db := recordOutput now s.db output }) :
    Moves R (recordOutputs now recipe outputs) site := by
  unfold Moves recordOutputs
  generalize recipe.outputs.zip (outputs.map Prod.fst) = records at hrecord
  have hgeneral : ∀ s, R site s →
      R s { s with db := records.foldl (recordOutput now) s.db } := by
    induction records with
    | nil => exact fun s _ => hrefl s
    | cons output rest ih =>
      intro s hreached
      have hstep := hrecord output List.mem_cons_self s hreached
      exact Trans.trans hstep (ih (fun other hother => hrecord other
        (List.mem_cons_of_mem output hother)) _ (Trans.trans hreached hstep))
  exact hgeneral site (hrefl site)

end Rules

/-! ## Replays -/

theorem poisonOnClaimFailure_apply {α : Type} (recipeId : Nat) (e : ExecError) (site : Site) :
    (poisonOnClaimFailure recipeId e : ExecM α) site =
      if e.isClaimFailure then
        match site.db.setVerifyState recipeId .failed with
        | .ok db => .error e { site with db := db }
        | .error indexError => .error (.index indexError) site
      else .error e site := by
  unfold poisonOnClaimFailure
  cases e.isClaimFailure with
  | false => rfl
  | true =>
    rw [if_pos rfl, if_pos rfl, Moves.bind_apply, ExecM.onDb]
    cases site.db.setVerifyState recipeId .failed <;> rfl

/-- The failures of an attempt: the execution's own, and the poison on top of it
when it indicts the claim. -/
inductive AttemptFailure (exec : Executor) (consumer : Consumer τ) (race : PipeRace)
    (recipeId : Nat) (recipe : Recipe) (site : Site) : ExecError → Site → Prop
  | poisoned {e : ExecError} {s : Site} {db : Db}
      (hrun : exec.executeWith consumer race recipe site = .error e s)
      (hclaim : e.isClaimFailure = true) (hset : s.db.setVerifyState recipeId .failed = .ok db) :
      AttemptFailure exec consumer race recipeId recipe site e { s with db := db }
  | unrecorded {e : ExecError} {s : Site} {indexError : IndexError}
      (hrun : exec.executeWith consumer race recipe site = .error e s) :
      AttemptFailure exec consumer race recipeId recipe site (.index indexError) s
  | environment {e : ExecError} {s : Site}
      (hrun : exec.executeWith consumer race recipe site = .error e s)
      (hclaim : e.isClaimFailure = false) :
      AttemptFailure exec consumer race recipeId recipe site e s

variable (exec consumer race) in
theorem attempt_cases (recipeId : Nat) (recipe : Recipe) (site : Site) :
    (∃ result s, exec.executeWith consumer race recipe site = .ok result s ∧
      exec.attempt consumer race recipeId recipe site = .ok result s) ∨
    ∃ e s, exec.attempt consumer race recipeId recipe site = .error e s ∧
      AttemptFailure exec consumer race recipeId recipe site e s := by
  unfold attempt
  cases hrun : exec.executeWith consumer race recipe site with
  | ok result s => exact Or.inl ⟨result, s, rfl, rfl⟩
  | error e s =>
    right
    simp only [poisonOnClaimFailure_apply]
    cases hclaim : e.isClaimFailure with
    | false => exact ⟨e, s, by simp, .environment hrun hclaim⟩
    | true =>
      cases hset : s.db.setVerifyState recipeId .failed with
      | ok db => exact ⟨e, { s with db := db }, by simp, .poisoned hrun hclaim hset⟩
      | error indexError => exact ⟨.index indexError, s, by simp, .unrecorded hrun⟩

theorem attempt_eq_ok {recipeId : Nat} {site : Site} {result : List (Blake3 × τ) × List Nat}
    (hrun : exec.attempt consumer race recipeId recipe site = .ok result site') :
    exec.executeWith consumer race recipe site = .ok result site' := by
  rcases attempt_cases exec consumer race recipeId recipe site
    with ⟨_, _, hexecute, heq⟩ | ⟨_, _, heq, _⟩
  · rw [heq] at hrun
    cases hrun
    exact hexecute
  · rw [heq] at hrun
    cases hrun

theorem attempt_moves {R : Site → Site → Prop} [Trans R R R] {recipeId : Nat} {site : Site}
    (hexecute : Moves R (exec.executeWith consumer race recipe) site)
    (hpoison : ∀ e s db, exec.executeWith consumer race recipe site = .error e s →
      e.isClaimFailure = true → s.db.setVerifyState recipeId .failed = .ok db →
      R s { s with db := db }) : Moves R (exec.attempt consumer race recipeId recipe) site := by
  unfold Moves at hexecute ⊢
  rcases attempt_cases exec consumer race recipeId recipe site
    with ⟨result, s, hrun, heq⟩ | ⟨e, s, heq, hfailure⟩
  · rw [heq]
    rwa [hrun] at hexecute
  · rw [heq]
    cases hfailure with
    | poisoned hrun hclaim hset =>
      rw [hrun] at hexecute
      exact Trans.trans hexecute (hpoison _ _ _ hrun hclaim hset)
    | unrecorded hrun => rwa [hrun] at hexecute
    | environment hrun hclaim => rwa [hrun] at hexecute

theorem liveRecipe_eq_ok {recipeId : Nat} {row : RecipeRow} {site : Site}
    (hlive : exec.liveRecipe recipeId site = .ok (row, recipe) site') :
    site' = site ∧ row ∈ site.db.recipes ∧ row.recipeId = recipeId ∧ row.verify ≠ .failed ∧
      exec.loadRecipe site.db site.store recipeId = .ok recipe := by
  unfold liveRecipe at hlive
  split at hlive
  · cases hlive
  · rename_i found hfound
    obtain ⟨hmem, hid⟩ := Db.recipeById_eq_ok.mp hfound
    split at hlive
    · cases hlive
    · rename_i hverify
      split at hlive
      · cases hlive
      · rename_i hload
        cases hlive
        exact ⟨rfl, hmem, hid, hverify, hload⟩

theorem liveRecipe_moves {R : Site → Site → Prop} {recipeId : Nat} {site : Site}
    (hrefl : R site site) : Moves R (exec.liveRecipe recipeId) site := by
  unfold Moves liveRecipe
  split
  · exact hrefl
  · split
    · exact hrefl
    · split <;> exact hrefl

theorem liveRecipe_eq_error {recipeId : Nat} {site : Site}
    (hrun : exec.liveRecipe recipeId site = .error e site') : site' = site := by
  have hmoves : Moves (fun s s' => s' = s) (exec.liveRecipe recipeId) site := liveRecipe_moves rfl
  rwa [Moves, hrun] at hmoves

end Executor

end Datboi
