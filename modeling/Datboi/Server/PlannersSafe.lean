import Datboi.Server.Planners

/-!
# What the eviction guard leaves open

A check says that its victim is evictable at that moment, and only residency flips can change
the answer. A run in which no flip takes the answer away from another planner's victim loses
nothing, and so does every run in which no lease runs out under a planner at work. Nothing
else excludes that two planners drop the two halves of an inverse pair.
-/

namespace Datboi

open Moves (final)

namespace Executor

variable {exec : Executor} {site site' : Site}

/-- A check reads the index and leaves it alone. -/
theorem checkVictim_db (protectedIds : List Nat) (hash : Blake3) :
    (final (exec.checkVictim protectedIds hash site)).db = site.db := by
  unfold checkVictim
  split
  · rfl
  split
  · rfl
  split
  · rfl
  split
  · rfl
  split
  · rfl
  split <;> rfl

theorem isEvictable_of_checkVictim {protectedIds : List Nat} {hash : Blake3} {victim : Victim}
    (hrun : exec.checkVictim protectedIds hash site = .ok (.inr victim) site') :
    site.db.isEvictable victim.blobId = true := by
  unfold checkVictim at hrun
  split at hrun
  · cases hrun
  split at hrun
  · cases hrun
  split at hrun
  · cases hrun
  split at hrun
  · cases hrun
  split at hrun
  · cases hrun
  rename_i hevictable
  split at hrun
  · cases hrun
  · cases hrun
  · cases hrun
    simpa using hevictable

theorem flipVictim_keepsGrounded {victim : Victim}
    (hevictable : site.db.isEvictable victim.blobId = true) :
    site.KeepsGrounded (flipVictim victim site) := by
  unfold flipVictim
  split
  · exact (Db.groundingLE_setResidency_resident victim.blobId).keepsGrounded
  · exact Db.keepsGrounded_of_isEvictable hevictable (by decide)

end Executor

variable {exec : Executor} {site site' : Site}

theorem Work.check_db (exec : Executor) (site : Site) (work : Work) (hash : Blake3) :
    (final (work.check exec hash site)).db = site.db := by
  cases work with
  | covered protectedIds target => exact Executor.checkVictim_db protectedIds hash
  | swap =>
    unfold Work.check
    simp only
    split
    · rfl
    · exact Executor.checkVictim_db _ hash

theorem Work.isEvictable_of_check {work : Work} {hash : Blake3} {victim : Victim}
    (hrun : work.check exec hash site = .ok (.inr victim) site') :
    site.db.isEvictable victim.blobId = true := by
  cases work with
  | covered protectedIds target => exact Executor.isEvictable_of_checkVictim hrun
  | swap =>
    unfold Work.check at hrun
    simp only at hrun
    split at hrun
    · cases hrun
    · exact Executor.isEvictable_of_checkVictim hrun

/-- The next statement of a walk leaves the index alone, and takes only evictable literals
in hand. -/
theorem Planner.next_spec (exec : Executor) (walk : Walk) (site : Site) :
    (Planner.next exec walk site).2.db = site.db ∧
      ∀ victim, (Planner.next exec walk site).1.inHand = some victim →
        site.db.isEvictable victim.blobId = true := by
  unfold Planner.next
  split
  · exact ⟨rfl, nofun⟩
  · rename_i hash rest hvictims
    split
    · exact ⟨rfl, nofun⟩
    · have hdb := Work.check_db exec site walk.work hash
      split
      · rename_i hrun
        rw [hrun] at hdb
        exact ⟨hdb, nofun⟩
      · rename_i hrun
        rw [hrun] at hdb
        exact ⟨hdb, nofun⟩
      · rename_i victim site' hrun
        rw [hrun] at hdb
        refine ⟨hdb, fun other hother => ?_⟩
        cases hother
        exact Work.isEvictable_of_check hrun

theorem Planner.inHand_list (site : Site) (plan : Nat ⊕ List Blake3) :
    (Planner.list exec site plan).inHand = none := by
  unfold Planner.list
  split
  · simp only
    split
    · rfl
    split <;> rfl
  · rfl

namespace Planners

variable {ι : Type} [DecidableEq ι]

/-- What the planners have in hand is evictable. -/
def World.Sound (world : World ι) : Prop :=
  ∀ who victim, (world.planners who).inHand = some victim →
    world.site.db.isEvictable victim.blobId = true

variable (exec : Executor) (holder : ι → GuardHolder)

/-- A flip leaves the other planners' victims evictable. -/
def Step.Meets (world : World ι) : Step ι → Prop
  | .flip who => ∀ mine walk, world.planners who = .flip mine walk →
      ∀ other, other ≠ who → ∀ victim, (world.planners other).inHand = some victim →
        (Executor.flipVictim mine world.site).db.isEvictable victim.blobId = true
  | _ => True

def Along : World ι → List (Step ι) → Prop
  | _, [] => True
  | world, step :: rest => step.Meets world ∧ Along (world.step exec holder step) rest

variable {exec holder} {world : World ι}

omit [DecidableEq ι] in
theorem World.Sound.of_idle (hidle : ∀ who, world.planners who = .idle) : world.Sound := by
  intro who victim hvictim
  rw [hidle who] at hvictim
  cases hvictim

variable {who : ι} {planner : Planner} {guard : GcGuard}

/-- A statement of one planner that leaves the index alone and takes nothing in hand but
what is evictable. -/
theorem World.Sound.set (hsound : world.Sound) {site : Site} (hdb : site.db = world.site.db)
    (hplanner : ∀ victim, planner.inHand = some victim →
      world.site.db.isEvictable victim.blobId = true) :
    World.Sound { world.set who planner with site := site, guard := guard } ∧
      world.site.KeepsGrounded site := by
  refine ⟨?_, Site.keepsGrounded_of_db_eq hdb⟩
  intro other victim hvictim
  simp only [hdb]
  by_cases hother : other = who
  · subst hother
    simp only [World.set, Function.update_self] at hvictim
    exact hplanner victim hvictim
  · simp only [World.set, Function.update_of_ne hother] at hvictim
    exact hsound other victim hvictim

/-- One statement keeps what is in hand evictable, and loses nothing. -/
theorem World.Sound.step (hsound : world.Sound) {step : Step ι}
    (hmeets : step.Meets world) :
    (world.step exec holder step).Sound ∧
      world.site.KeepsGrounded (world.step exec holder step).site := by
  have hsame : world.Sound ∧ world.site.KeepsGrounded world.site :=
    ⟨hsound, Site.KeepsGrounded.refl world.site⟩
  cases step with
  | claim who now =>
    simp only [World.step]
    split
    · exact hsound.set rfl nofun
    · exact hsame
  | list who plan =>
    simp only [World.step]
    split
    · exact hsound.set rfl fun victim hvictim => by
        rw [Planner.inHand_list] at hvictim
        cases hvictim
    · exact hsame
  | next who =>
    simp only [World.step]
    split
    · rename_i walk _
      obtain ⟨hdb, hvictim⟩ := Planner.next_spec exec walk world.site
      exact hsound.set hdb hvictim
    · exact hsame
  | unlink who =>
    simp only [World.step]
    split
    · rename_i victim walk hunlink
      refine hsound.set rfl fun other hother => ?_
      cases hother
      exact hsound who victim (by rw [hunlink]; rfl)
    · exact hsame
  | flip who =>
    -- The one statement that writes the index.
    simp only [World.step]
    split
    · rename_i victim walk hflip
      have hevictable := hsound who victim (by rw [hflip]; rfl)
      refine ⟨?_, Executor.flipVictim_keepsGrounded hevictable⟩
      intro other checked hchecked
      by_cases hother : other = who
      · subst hother
        simp only [World.set, Function.update_self] at hchecked
        cases hchecked
      · simp only [World.set, Function.update_of_ne hother] at hchecked
        exact hmeets victim walk hflip other hother checked hchecked
    · exact hsame
  | release who =>
    simp only [World.step]
    split
    · exact hsound.set rfl nofun
    · exact hsame

theorem keepsGrounded_run (hsound : world.Sound) {steps : List (Step ι)}
    (halong : Along exec holder world steps) :
    world.site.KeepsGrounded (world.run exec holder steps).site := by
  induction steps generalizing world with
  | nil => exact Site.KeepsGrounded.refl world.site
  | cons step rest ih =>
    obtain ⟨hmeets, hrest⟩ := halong
    obtain ⟨hsound', hstep⟩ := hsound.step hmeets
    exact Trans.trans hstep (ih hsound' hrest)

/-- Planners that start idle lose nothing together: what is grounded under the drop rule
stays grounded, as long as no flip takes another planner's answer away. -/
theorem guarded_eviction_safe (exec : Executor) (holder : ι → GuardHolder) (world : World ι)
    (hidle : ∀ who, world.planners who = .idle) (steps : List (Step ι))
    (halong : Along exec holder world steps) :
    world.site.db.grounded .eviction none ⊆
      (world.run exec holder steps).site.db.grounded .eviction none :=
  keepsGrounded_run (World.Sound.of_idle hidle) halong

/-! ## Leases that hold -/

/-- No claim succeeds while another planner is at work: no lease runs out under its holder. -/
def Leased (exec : Executor) (holder : ι → GuardHolder) : World ι → List (Step ι) → Prop
  | _, [] => True
  | world, step :: rest =>
    (∀ who now guard, step = .claim who now → world.planners who = .idle →
      world.guard.claim (holder who) now guardTtlSecs = some guard →
        ∀ other, world.planners other = .idle) ∧
    Leased exec holder (world.step exec holder step) rest

/-- At most one planner is at work. -/
def World.Exclusive (world : World ι) : Prop :=
  ∀ a b, a ≠ b → world.planners a = .idle ∨ world.planners b = .idle

theorem World.Exclusive.set (hexclusive : world.Exclusive) {site : Site}
    (hbusy : world.planners who ≠ .idle) :
    World.Exclusive { world.set who planner with site := site, guard := guard } := by
  have hothers : ∀ other, other ≠ who → world.planners other = .idle := fun other hother =>
    (hexclusive other who hother).resolve_right hbusy
  intro a b hab
  simp only [World.set]
  by_cases ha : a = who
  · right
    have hb : b ≠ who := fun hb => hab (ha.trans hb.symm)
    rw [Function.update_of_ne hb]
    exact hothers b hb
  · left
    rw [Function.update_of_ne ha]
    exact hothers a ha

theorem World.Exclusive.claim (hidle : ∀ other, world.planners other = .idle) {site : Site} :
    World.Exclusive { world.set who planner with site := site, guard := guard } := by
  intro a b hab
  simp only [World.set]
  by_cases ha : a = who
  · right
    have hb : b ≠ who := fun hb => hab (ha.trans hb.symm)
    rw [Function.update_of_ne hb]
    exact hidle b
  · left
    rw [Function.update_of_ne ha]
    exact hidle a

/-- Only a claim puts an idle planner to work. -/
theorem World.Exclusive.step (hexclusive : world.Exclusive) {step : Step ι}
    (hclaim : ∀ who now guard, step = .claim who now → world.planners who = .idle →
      world.guard.claim (holder who) now guardTtlSecs = some guard →
        ∀ other, world.planners other = .idle) :
    (world.step exec holder step).Exclusive := by
  cases step with
  | claim who now =>
    simp only [World.step]
    split
    · rename_i guard hidle hguard
      exact World.Exclusive.claim (hclaim who now guard rfl hidle hguard)
    · exact hexclusive
  | list who plan =>
    simp only [World.step]
    split
    · rename_i hclaimed
      exact hexclusive.set (by rw [hclaimed]; nofun)
    · exact hexclusive
  | next who =>
    simp only [World.step]
    split
    · rename_i hwalking
      exact hexclusive.set (by rw [hwalking]; nofun)
    · exact hexclusive
  | unlink who =>
    simp only [World.step]
    split
    · rename_i hunlink
      exact hexclusive.set (by rw [hunlink]; nofun)
    · exact hexclusive
  | flip who =>
    simp only [World.step]
    split
    · rename_i hflip
      exact hexclusive.set (by rw [hflip]; nofun)
    · exact hexclusive
  | release who =>
    simp only [World.step]
    split
    · rename_i hdone
      exact hexclusive.set (by rw [hdone]; nofun)
    · exact hexclusive

omit [DecidableEq ι] in
theorem World.Exclusive.meets (hexclusive : world.Exclusive) (step : Step ι) :
    step.Meets world := by
  cases step with
  | flip who =>
    intro mine walk hflip other hother victim hvictim
    rcases hexclusive other who hother with hidle | hidle
    · rw [hidle] at hvictim
      cases hvictim
    · rw [hidle] at hflip
      cases hflip
  | _ => trivial

theorem along_of_leased (hexclusive : world.Exclusive) {steps : List (Step ι)}
    (hleased : Leased exec holder world steps) : Along exec holder world steps := by
  induction steps generalizing world with
  | nil => trivial
  | cons step rest ih =>
    obtain ⟨hclaim, hrest⟩ := hleased
    exact ⟨hexclusive.meets step, ih (hexclusive.step hclaim) hrest⟩

/-- While leases hold, the guard does what it is for. -/
theorem leased_eviction_safe (exec : Executor) (holder : ι → GuardHolder) (world : World ι)
    (hidle : ∀ who, world.planners who = .idle) (steps : List (Step ι))
    (hleased : Leased exec holder world steps) :
    world.site.KeepsGrounded (world.run exec holder steps).site :=
  keepsGrounded_run (World.Sound.of_idle hidle)
    (along_of_leased (fun a _ _ => Or.inl (hidle a)) hleased)

/-! ## A lease that runs out -/

/-- Two loose blobs, each with a licensed recipe from the other. -/
def inverseSite : Site where
  db :=
    let db := (Db.empty.upsertBlob 7 (some 1) .data .resident).1
    let db := (db.upsertBlob 8 (some 1) .data .resident).1
    let recipes : List (Nat × Nat × Nat) := [(3, 2, 1), (4, 1, 2)]
    recipes.foldl (fun db recipe =>
      match db.insertRecipe recipe.1 .affine .localIngest [⟨recipe.2.1, none⟩]
          [⟨recipe.2.2, 1, none⟩] with
      | .ok (db, recipeId) => db.markVerify recipeId .replayedLocal
      | .error _ => db) db
  store := (Store.empty.setLoose .data 7 (some [6])).setLoose .data 8 (some [7])
  caches := .empty

def plannerExec : Executor where
  host := Host.sample

/-- The daemon and a person at the command line. -/
def twoHolders (who : Bool) : GuardHolder := ⟨if who then 1 else 2⟩

/-- The first planner has unlinked a blob when its lease runs out; the second finds those bytes
gone and their row standing, and takes the other blob. -/
def lapsedSteps : List (Step Bool) :=
  [.claim true 0, .list true (.inl 2), .next true, .unlink true,
    .claim false 900, .list false (.inl 2), .next false, .next false, .unlink false,
    .flip true, .flip false]

def inverseWorld : World Bool where
  site := inverseSite

/-- Both halves of the pair are gone. -/
theorem lapsed_lease_strands_pair :
    ¬ inverseWorld.site.db.grounded .eviction none ⊆
      (inverseWorld.run plannerExec twoHolders lapsedSteps).site.db.grounded .eviction none := by
  decide +kernel

/-- One planner after the other, over the same pair. -/
def leasedSteps : List (Step Bool) :=
  [.claim true 0, .list true (.inl 2), .next true, .unlink true, .flip true, .next true,
    .next true, .release true, .claim false 10, .list false (.inl 1), .release false]

theorem guarded_eviction_safe_pair :
    Along plannerExec twoHolders inverseWorld leasedSteps ∧
      inverseWorld.site.db.grounded .eviction none ⊆
        (inverseWorld.run plannerExec twoHolders leasedSteps).site.db.grounded .eviction none := by
  have halong : Along plannerExec twoHolders inverseWorld leasedSteps := by
    refine ⟨trivial, trivial, trivial, trivial, ?_, trivial, trivial, trivial, trivial, trivial,
      trivial, trivial⟩
    intro mine walk _ other hother victim hvictim
    cases other with
    | false =>
      have hnone : (((inverseWorld.run plannerExec twoHolders (leasedSteps.take 4)).planners
        false).inHand) = none := by decide +kernel
      exact absurd (hnone.symm.trans hvictim) nofun
    | true => exact absurd rfl hother
  exact ⟨halong, guarded_eviction_safe plannerExec twoHolders inverseWorld (fun _ => rfl)
    leasedSteps halong⟩

theorem leased_eviction_safe_turn :
    inverseWorld.site.KeepsGrounded
      (inverseWorld.run plannerExec twoHolders (leasedSteps.take 8)).site := by
  refine leased_eviction_safe plannerExec twoHolders inverseWorld (fun _ => rfl) _ ?_
  refine ⟨fun _ _ _ _ _ _ _ => rfl, ?_, ?_, ?_, ?_, ?_, ?_, ?_, trivial⟩
  all_goals
    intro who now guard heq
    cases heq

end Planners

end Datboi
