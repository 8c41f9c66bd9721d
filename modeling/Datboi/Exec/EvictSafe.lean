import Datboi.Exec.Evict
import Datboi.Exec.ReplayEffects
import Datboi.Index.Writes

/-!
# Eviction loses nothing

Each drop is checked against the fixpoint of the moment, so grounding is preserved
by one drop, and therefore by every sequence of planner runs. The licensing replays
of a planner run only touch recipes that are not licensed yet, so even a disproved
one takes no grounding away.
-/

namespace Datboi

open Moves (Moves final)

namespace Site

/-- Nothing reconstructible under the drop rule is lost between two states. -/
def KeepsGrounded (site site' : Site) : Prop := site.db.KeepsGrounded site'.db

instance : Trans KeepsGrounded KeepsGrounded KeepsGrounded where
  trans hab hbc := Finset.Subset.trans hab hbc

theorem KeepsGrounded.refl (site : Site) : site.KeepsGrounded site := Db.KeepsGrounded.refl site.db

theorem keepsGrounded_of_db_eq {site site' : Site} (hdb : site'.db = site.db) :
    site.KeepsGrounded site' := by
  rw [KeepsGrounded, hdb]
  exact Db.KeepsGrounded.refl site.db

end Site

namespace Executor

variable {exec : Executor} {site : Site}

/-! ## One drop -/

theorem dropLiteral_keepsGrounded {row : BlobRow} {store : Store}
    (hevictable : site.db.isEvictable row.blobId = true) :
    site.KeepsGrounded (dropLiteral row store site) := by
  simp only [dropLiteral]
  split
  · exact (Db.groundingLE_setResidency_resident row.blobId).keepsGrounded
  · exact Db.keepsGrounded_of_isEvictable hevictable (by decide)

theorem evictWith_keepsGrounded (protectedIds : List Nat) (hash : Blake3) (site : Site) :
    Moves Site.KeepsGrounded (exec.evictWith protectedIds hash) site := by
  unfold Moves evictWith
  split
  · exact Site.KeepsGrounded.refl site
  · split
    · exact Site.KeepsGrounded.refl site
    split
    · exact Site.KeepsGrounded.refl site
    split
    · exact Site.KeepsGrounded.refl site
    split
    · exact Site.KeepsGrounded.refl site
    · rename_i hevictable
      split
      · exact Site.KeepsGrounded.refl site
      · exact Site.keepsGrounded_of_db_eq rfl
      · exact dropLiteral_keepsGrounded (by simpa using hevictable)

/-! ## Licensing replays -/

variable {recipeId : Nat}

theorem setVerifyState_replayedLocal_keepsGrounded {db : Db}
    (hset : site.db.setVerifyState recipeId .replayedLocal = .ok db) :
    site.KeepsGrounded { site with db := db } := by
  obtain ⟨_, _, _, _, rfl⟩ := Db.setVerifyState_eq_ok.mp hset
  exact (Db.groundingLE_markVerify fun _ => rfl).keepsGrounded

theorem setVerifyState_failed_keepsGrounded {db : Db}
    (hunlicensed : ¬ site.db.IsLicensed recipeId)
    (hset : site.db.setVerifyState recipeId .failed = .ok db) :
    site.KeepsGrounded { site with db := db } := by
  obtain ⟨_, _, _, _, rfl⟩ := Db.setVerifyState_eq_ok.mp hset
  exact (Db.groundingLE_markVerify fun hlicensed => absurd hlicensed hunlicensed).keepsGrounded

theorem recordOutput_keepsGrounded (now : Int) (output : OutputRef × Blake3) (site : Site) :
    site.KeepsGrounded { site with db := recordOutput now site.db output } := by
  have hupsert : site.db.GroundingLE _ :=
    Db.groundingLE_upsertBlob_resident output.2 (some output.1.size) .data
  exact (Trans.trans hupsert (Db.groundingLE_setVerified _ now) : Db.GroundingLE _ _).keepsGrounded

/-- A replay of a recipe that is not licensed loses nothing, whatever comes of it. -/
theorem replay_keepsGrounded (around : Surroundings) (hunlicensed : ¬ site.db.IsLicensed recipeId) :
    Moves Site.KeepsGrounded (exec.replay around recipeId) site := by
  unfold replay
  refine Moves.moves_bind (liveRecipe_moves (Site.KeepsGrounded.refl site)) ?_
  rintro ⟨row, recipe⟩ site₁ hlive
  obtain ⟨rfl, _⟩ := liveRecipe_eq_ok hlive
  have hexecute : Moves Site.KeepsGrounded
      (exec.executeWith exec.storeConsumer around.race recipe) site₁ :=
    Site.keepsGrounded_of_db_eq (executeWith_sameDb _ _ _ recipe site₁)
  refine Moves.moves_bind (attempt_moves hexecute ?_) ?_
  · intro e s db hrun _ hset
    rw [← db_eq_of_executeWith_error hrun] at hunlicensed
    exact setVerifyState_failed_keepsGrounded hunlicensed hset
  rintro ⟨outputs, participants⟩ site₂ _
  refine Moves.moves_bind (advanceTop_moves (Site.KeepsGrounded.refl site₂)
    fun db hset => setVerifyState_replayedLocal_keepsGrounded hset) ?_
  intro _ site₃ _
  refine Moves.moves_bind (licenseParticipants_moves Site.KeepsGrounded.refl participants
    fun _ _ _ _ _ _ _ _ _ _ hset => setVerifyState_replayedLocal_keepsGrounded hset) ?_
  intro _ site₄ _
  refine Moves.moves_bind (recordOutputs_moves Site.KeepsGrounded.refl
    fun output _ s _ => recordOutput_keepsGrounded around.now output s) ?_
  intro _ site₅ _
  exact Site.KeepsGrounded.refl site₅

/-- A failed attempt has licensed nothing. -/
theorem isLicensed_of_attempt_error {τ : Type} {consumer : Consumer τ} {race : PipeRace}
    {other : Nat} {recipe : Recipe} {e : ExecError} {site' : Site}
    (hrun : exec.attempt consumer race recipeId recipe site = .error e site')
    (hlicensed : site'.db.IsLicensed other) : site.db.IsLicensed other := by
  rcases attempt_cases exec consumer race recipeId recipe site
    with ⟨_, _, _, heq⟩ | ⟨_, _, heq, hfailure⟩
  · rw [heq] at hrun
    cases hrun
  · rw [heq] at hrun
    cases hrun
    cases hfailure with
    | poisoned hexecute _ hset =>
      obtain ⟨_, _, _, _, rfl⟩ := Db.setVerifyState_eq_ok.mp hset
      rcases Db.isLicensed_markVerify.mp hlicensed with ⟨_, hbefore⟩ | ⟨_, _, hstate⟩
      · rwa [db_eq_of_executeWith_error hexecute] at hbefore
      · cases hstate
    | unrecorded hexecute => rwa [db_eq_of_executeWith_error hexecute] at hlicensed
    | environment hexecute _ => rwa [db_eq_of_executeWith_error hexecute] at hlicensed

/-- A replay that ends in a claim failure has licensed nothing. -/
theorem isLicensed_of_replay_error {around : Surroundings} {other : Nat} {e : ExecError}
    {site' : Site} (hrun : exec.replay around recipeId site = .error e site')
    (hclaim : e.isClaimFailure = true) (hlicensed : site'.db.IsLicensed other) :
    site.db.IsLicensed other := by
  unfold replay at hrun
  rcases Moves.bind_eq_error hrun with hdead | ⟨⟨row, recipe⟩, site₁, hlive, hlater⟩
  · rwa [liveRecipe_eq_error hdead] at hlicensed
  obtain ⟨rfl, _⟩ := liveRecipe_eq_ok hlive
  rcases Moves.bind_eq_error hlater with hattempt | ⟨⟨outputs, participants⟩, site₂, _, hsettle⟩
  · exact isLicensed_of_attempt_error hattempt hlicensed
  -- From here on only the index can fail, and that is no claim failure.
  suffices hindex : ∃ indexError, e = .index indexError by
    obtain ⟨indexError, rfl⟩ := hindex
    cases hclaim
  rcases Moves.bind_eq_error hsettle with hadvance | ⟨_, site₃, _, hchildren⟩
  · exact advanceTop_error hadvance
  rcases Moves.bind_eq_error hchildren with hparticipants | ⟨_, site₄, _, hrecord⟩
  · exact licenseParticipants_error hparticipants
  cases hrecord

/-! ## Planner runs -/

theorem evictCandidates_keepsGrounded (protectedIds : List Nat) (target : Nat)
    (candidates : List BlobRow) (progress : EvictProgress) (site : Site) :
    Moves Site.KeepsGrounded (exec.evictCandidates protectedIds target candidates progress)
      site := by
  induction candidates generalizing progress site with
  | nil => exact Site.KeepsGrounded.refl site
  | cons candidate rest ih =>
    unfold evictCandidates
    split
    · exact Site.KeepsGrounded.refl site
    · exact Moves.moves_bind (evictWith_keepsGrounded protectedIds candidate.hash site)
        fun outcome s _ => ih _ s

/-- The routes of one candidate: every row still read as `verified` is in fact not
licensed, also after the failed replays of the rows before it. -/
theorem licenseRoute_keepsGrounded (around : Nat → Surroundings) (recipes : List RecipeRow)
    (site : Site)
    (hcurrent : ∀ recipe ∈ recipes, recipe.verify = .verified →
      ¬ site.db.IsLicensed recipe.recipeId) :
    Moves Site.KeepsGrounded (exec.licenseRoute around recipes) site := by
  induction recipes generalizing site with
  | nil => exact Site.KeepsGrounded.refl site
  | cons recipe rest ih =>
    have hrest := fun other hother => hcurrent other (List.mem_cons_of_mem recipe hother)
    unfold Moves licenseRoute
    split
    · exact ih site hrest
    · rename_i hverified
      have hunlicensed := hcurrent recipe List.mem_cons_self (by simpa using hverified)
      have hreplay : Moves Site.KeepsGrounded (exec.replay (around recipe.recipeId)
          recipe.recipeId) site := replay_keepsGrounded _ hunlicensed
      unfold Moves at hreplay
      split
      · rename_i hrun
        rwa [hrun] at hreplay
      · rename_i e s hrun
        rw [hrun] at hreplay
        split
        · rename_i hclaim
          refine Trans.trans hreplay (ih s fun other hother hverify hlicensed => ?_)
          exact hrest other hother hverify (isLicensed_of_replay_error hrun hclaim hlicensed)
        · exact hreplay

theorem not_isLicensed_of_recipesForOutput {blobId : Nat} {recipe : RecipeRow}
    (hmem : recipe ∈ site.db.recipesForOutput blobId) (hverify : recipe.verify = .verified) :
    ¬ site.db.IsLicensed recipe.recipeId := by
  rintro ⟨row, hrow, hid, hlicensed⟩
  have hrecipe := Db.mem_recipes_of_mem_recipesForOutput hmem
  rw [Table.eq_of_id hrow hrecipe hid, hverify] at hlicensed
  cases hlicensed

theorem licenseAndEvict_keepsGrounded (protectedIds : List Nat) (around : Nat → Surroundings)
    (candidate : BlobRow) (progress : EvictProgress) (site : Site) :
    Moves Site.KeepsGrounded (exec.licenseAndEvict protectedIds around candidate progress)
      site := by
  unfold licenseAndEvict
  refine Moves.moves_bind (licenseRoute_keepsGrounded around _ site
    fun recipe hmem => not_isLicensed_of_recipesForOutput hmem) ?_
  intro licensed s _
  split
  · exact Moves.moves_bind (evictWith_keepsGrounded protectedIds candidate.hash s)
      fun _ s' _ => Site.KeepsGrounded.refl s'
  · exact Site.KeepsGrounded.refl s

theorem licenseCandidates_keepsGrounded (protectedIds : List Nat) (target : Nat)
    (around : Nat → Surroundings) (candidates : List BlobRow) (progress : EvictProgress)
    (site : Site) :
    Moves Site.KeepsGrounded
      (exec.licenseCandidates protectedIds target around candidates progress) site := by
  induction candidates generalizing progress site with
  | nil => exact Site.KeepsGrounded.refl site
  | cons candidate rest ih =>
    unfold licenseCandidates
    split
    · exact Site.KeepsGrounded.refl site
    · split
      · exact ih _ site
      · exact Moves.moves_bind
          (licenseAndEvict_keepsGrounded protectedIds around candidate progress site)
          fun progress' s _ => ih progress' s

theorem evictCovered_keepsGrounded (around : Nat → Surroundings) (target : Nat) (license : Bool)
    (site : Site) :
    Moves Site.KeepsGrounded (exec.evictCovered around target license) site := by
  unfold Moves evictCovered
  simp only
  split
  · exact Site.KeepsGrounded.refl site
  · split
    · exact Site.KeepsGrounded.refl site
    · rename_i protectedIds _
      refine Moves.moves_bind (evictCandidates_keepsGrounded protectedIds target _ _ site) ?_
      intro progress s _
      split
      · exact Site.KeepsGrounded.refl s
      · have hpass : Moves Site.KeepsGrounded (exec.licensePass protectedIds target around progress)
            s := licenseCandidates_keepsGrounded protectedIds target around _ progress s
        exact Moves.moves_bind hpass fun _ s' _ => Site.KeepsGrounded.refl s'

end Executor

/-! ## Sequences of eviction steps -/

/-- The entry points that may drop literals. -/
inductive EvictStep where
  | one (protectedIds : List Nat) (hash : Blake3)
  | covered (around : Nat → Surroundings) (target : Nat) (license : Bool)
  | reclaim (around : Nat → Surroundings) (reclaimBytes : Nat)

namespace Executor

variable (exec : Executor)

/-- The state one step ends in, also when it fails midway. -/
def evictStep (site : Site) : EvictStep → Site
  | .one protectedIds hash => final (exec.evictWith protectedIds hash site)
  | .covered around target license => final (exec.evictCovered around target license site)
  | .reclaim around reclaimBytes => final (exec.evictReclaim around reclaimBytes site)

def evictSteps (site : Site) (steps : List EvictStep) : Site := steps.foldl exec.evictStep site

theorem evictStep_keepsGrounded (site : Site) (step : EvictStep) :
    site.KeepsGrounded (exec.evictStep site step) := by
  cases step with
  | one protectedIds hash => exact evictWith_keepsGrounded protectedIds hash site
  | covered around target license => exact evictCovered_keepsGrounded around target license site
  | reclaim around reclaimBytes => exact evictCovered_keepsGrounded around _ false site

theorem evictSteps_keepsGrounded (site : Site) (steps : List EvictStep) :
    site.KeepsGrounded (exec.evictSteps site steps) := by
  induction steps generalizing site with
  | nil => exact Site.KeepsGrounded.refl site
  | cons step rest ih =>
    exact Trans.trans (evictStep_keepsGrounded exec site step) (ih (exec.evictStep site step))

end Executor

/-- A set of blobs that the licensed recipes can only produce from one another
loses its grounding together with its last literal. -/
theorem Db.exists_isResident_of_mem_grounded {db : Db} {s : Set Nat} {blobId : Nat}
    (hgrounded : blobId ∈ db.grounded .eviction none) (hmem : blobId ∈ s)
    (hself : ∀ row ∈ db.recipes, row.verify = .replayedLocal →
      (∃ output ∈ row.outputIds, output ∈ s) → ∃ input ∈ row.inputIds, input ∈ s) :
    ∃ literal ∈ s, db.IsResident literal := by
  by_contra hnone
  push Not at hnone
  -- Without a literal in the set, its complement is closed and holds every literal.
  have hcomplement : Saturation.closure (db.permittedRules .eviction) ↑(db.literalIds none) ⊆ sᶜ := by
    apply Saturation.closure_subset
    · intro literal hliteral hin
      exact hnone literal hin (Db.mem_literalIds.mp hliteral).1
    · intro rule hrule hpremises output houtput hin
      obtain ⟨row, hrow, hlicensed, rfl⟩ := Db.mem_permittedRules_eviction.mp hrule
      obtain ⟨input, hinput, hinputs⟩ := hself row hrow hlicensed ⟨output, houtput, hin⟩
      exact hpremises input hinput hinputs
  rw [← Db.coe_grounded] at hcomplement
  exact hcomplement hgrounded hmem

/-- Eviction never loses data: what is grounded under the drop rule before any
sequence of eviction steps is grounded after it. In particular, two blobs whose
licensed recipes need one of the two are never both dropped. -/
theorem Executor.evictSteps_preserve_grounded (exec : Executor) (site : Site)
    (steps : List EvictStep) :
    site.db.grounded .eviction none ⊆
      (exec.evictSteps site steps).db.grounded .eviction none ∧
    ∀ a b : Nat, a ∈ site.db.grounded .eviction none →
      (∀ row ∈ (exec.evictSteps site steps).db.recipes, row.verify = .replayedLocal →
        a ∈ row.outputIds ∨ b ∈ row.outputIds → a ∈ row.inputIds ∨ b ∈ row.inputIds) →
      (exec.evictSteps site steps).db.IsResident a ∨
        (exec.evictSteps site steps).db.IsResident b := by
  have hkeeps := exec.evictSteps_keepsGrounded site steps
  refine ⟨hkeeps, ?_⟩
  intro a b hgrounded hinverse
  obtain ⟨literal, hliteral, hresident⟩ :=
    Db.exists_isResident_of_mem_grounded (s := {a, b}) (hkeeps hgrounded) (Or.inl rfl) <| by
      rintro row hrow hlicensed ⟨output, houtput, hin⟩
      have houtputs : a ∈ row.outputIds ∨ b ∈ row.outputIds := by
        rcases hin with rfl | rfl
        · exact Or.inl houtput
        · exact Or.inr houtput
      rcases hinverse row hrow hlicensed houtputs with hinput | hinput
      · exact ⟨a, hinput, Or.inl rfl⟩
      · exact ⟨b, hinput, Or.inr rfl⟩
  rcases hliteral with rfl | rfl
  · exact Or.inl hresident
  · exact Or.inr hresident


end Datboi
