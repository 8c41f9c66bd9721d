import Datboi.Lib.Runs
import Datboi.Server.RefinerOrder

/-!
# The hand-off of fresh blobs

Ingests put blob ids into the inbox of the prime worker, drones set a flag there when their
work calls for maintenance. A wake takes both; the ids are then offered to the enabled families
one by one, and maintenance follows once every family has drained. What is offered and what
ends a pass is recorded beside the workers' state.
-/

namespace Datboi.Refiner

/-- A pass that is over: whether its wake took the maintenance flag, and whether maintenance
ran. -/
structure EndedPass where
  tookMaintenanceDue : Bool
  maintained : Bool
  deriving DecidableEq, Repr

/-- The workers with the other half of the inbox, and with what has been notified and
offered. -/
structure World where
  refiner : State
  maintenanceDue : Bool := false
  /-- Whether the pass under way took the flag. -/
  taken : Bool := false
  /-- Whether the maintainer could be set up. -/
  maintainer : Bool
  notified : List Nat := []
  offered : List (Nat × Blake3) := []
  passes : List EndedPass := []

inductive Move where
  | step (step : Step)
  /-- A drone has finished real work. -/
  | droneSignal
  /-- The mid-drain enqueue failed, and the ids are staged again. -/
  | restage
  /-- What tells whether the next family has work cannot be read. -/
  | skipFamily

/-- What a step notifies. -/
def Step.notified : Step → List Nat
  | .notifyFresh blobIds => blobIds
  | _ => []

/-- The blobs that a step offers to `enqueue_fresh` successfully, with the family. -/
def State.offered (s : State) : Step → List (Nat × Blake3)
  | .enqueue _ =>
    match s.prime with
    | .enqueueing ⟨fresh, _, (analyzer, .fresh) :: _⟩ => fresh.map (·, analyzer.id)
    | _ => []
  | .takeFresh _ =>
    match s.prime with
    | .draining (some analyzer) _ => s.inbox.map (·, analyzer.id)
    | _ => []
  | _ => []

namespace World

variable (roster : Roster) (w : World)

/-- Sleep on an empty inbox; otherwise take the ids and the flag. -/
def wake (ambientDue : Bool) : World :=
  match w.refiner.prime with
  | .waiting =>
    if w.refiner.inbox = [] ∧ w.maintenanceDue = false ∧ ambientDue = false then w
    else { w with
      refiner := w.refiner.wake roster ambientDue
      maintenanceDue := false
      taken := w.maintenanceDue }
  | _ => w

/-- An error of the enqueue pass: the worker backs off and starts over. -/
def abandon : World :=
  match w.refiner.prime with
  | .enqueueing _ => { w with
      refiner := w.refiner.abandon
      taken := false
      passes := w.passes ++ [⟨w.taken, false⟩] }
  | _ => w

/-- Go on with the next family; after the last one, run maintenance. -/
def enterFamily : World :=
  match w.refiner.prime with
  | .draining none [] => { w with
      refiner := w.refiner.enterFamily
      taken := false
      passes := w.passes ++ [⟨w.taken, w.maintainer⟩] }
  | _ => { w with refiner := w.refiner.enterFamily }

def skipFamily : World :=
  match w.refiner.prime with
  | .draining none (_ :: todo) => { w with
      refiner := { w.refiner with prime := .draining none todo } }
  | _ => w

def next : Move → World
  | .step (.wake ambientDue) => w.wake roster ambientDue
  | .step .abandon => w.abandon
  | .step .enterFamily => w.enterFamily
  | .step step => { w with
      refiner := w.refiner.apply roster step
      notified := w.notified ++ step.notified
      offered := w.offered ++ w.refiner.offered step }
  | .droneSignal => { w with maintenanceDue := true }
  | .restage => w
  | .skipFamily => w.skipFamily

/-- The blob is in the inbox, or the family has been offered it. -/
def Kept (family : Analyzer) (blobId : Nat) : Prop :=
  blobId ∈ w.refiner.inbox ∨ (blobId, family.id) ∈ w.offered

/-- A pass that fails has taken no flag and no blob that is still to be offered; what a drain
takes has been offered to the other enabled families; and a pass that took the flag has a
maintainer to run. -/
def Keeps : Move → Prop
  | .step .abandon => ∀ pass, w.refiner.prime = .enqueueing pass →
      w.taken = false ∧
        ∀ blobId ∈ pass.fresh, ∀ family, (family, .fresh) ∈ pass.todo → w.Kept family blobId
  | .step (.takeFresh _) => ∀ family todo, w.refiner.prime = .draining (some family) todo →
      ∀ blobId ∈ w.refiner.inbox, ∀ other ∈ roster.families, other.enabled = true →
        other ≠ family → (blobId, other.id) ∈ w.offered
  | .step .enterFamily => w.refiner.prime = .draining none [] → w.taken = true →
      w.maintainer = true
  | _ => True

/-- No enqueue pass is under way. -/
def AtBoundary : Prop := ∀ pass, w.refiner.prime ≠ .enqueueing pass

/-- Nothing that was notified is lost, and no signal. -/
structure HandsOff : Prop where
  fresh : w.AtBoundary → ∀ blobId ∈ w.notified, blobId ∈ w.refiner.inbox ∨
    ∀ family ∈ roster.families, family.enabled = true → (blobId, family.id) ∈ w.offered
  maintenance : ∀ pass ∈ w.passes, pass.tookMaintenanceDue = true → pass.maintained = true

/-! ## The invariant -/

/-- During a pass, a blob that a family still lacks is one that the pass has yet to offer. -/
structure Sound : Prop where
  fresh : ∀ blobId ∈ w.notified, ∀ family ∈ roster.families, family.enabled = true →
    w.Kept family blobId ∨ ∃ pass, w.refiner.prime = .enqueueing pass ∧ blobId ∈ pass.fresh ∧
      (family, .fresh) ∈ pass.todo
  maintenance : ∀ pass ∈ w.passes, pass.tookMaintenanceDue = true → pass.maintained = true

variable {roster w} {w' : World}

theorem Sound.handsOff (hsound : w.Sound roster) : w.HandsOff roster := by
  refine ⟨fun hboundary blobId hmem => ?_, hsound.maintenance⟩
  by_cases hinbox : blobId ∈ w.refiner.inbox
  · exact Or.inl hinbox
  · refine Or.inr fun family hfamily henabled => ?_
    rcases hsound.fresh blobId hmem family hfamily henabled with hkept | ⟨pass, hprime, -⟩
    · exact hkept.resolve_left hinbox
    · exact absurd hprime (hboundary pass)

/-- A move that only adds. -/
theorem Sound.grows (hsound : w.Sound roster) (hinbox : w.refiner.inbox ⊆ w'.refiner.inbox)
    (hoffered : w.offered ⊆ w'.offered) (hnotified : w'.notified ⊆ w.notified)
    (hprime : ∀ pass, w.refiner.prime = .enqueueing pass → w'.refiner.prime = .enqueueing pass)
    (hpasses : ∀ pass ∈ w'.passes, pass.tookMaintenanceDue = true → pass.maintained = true) :
    w'.Sound roster := by
  refine ⟨fun blobId hmem family hfamily henabled => ?_, hpasses⟩
  rcases hsound.fresh blobId (hnotified hmem) family hfamily henabled with
    (hinside | hoffer) | ⟨pass, hpass, hrest⟩
  · exact Or.inl (Or.inl (hinbox hinside))
  · exact Or.inl (Or.inr (hoffered hoffer))
  · exact Or.inr ⟨pass, hprime pass hpass, hrest⟩

/-- A pass with fresh blobs has a statement for every enabled family. -/
theorem fresh_mem_script {fresh : List Nat} (ambientDue : Bool) (hfresh : fresh ≠ [])
    {family : Analyzer} (hfamily : family ∈ roster.families) (henabled : family.enabled = true) :
    (family, Statement.fresh) ∈ script roster fresh ambientDue := by
  refine List.mem_flatMap.mpr ⟨family, mem_sweepRoster.mpr hfamily, ?_⟩
  rw [statements, if_pos henabled, if_neg hfresh]
  exact List.mem_append_left _ (List.mem_singleton.mpr rfl)

theorem sound_wake (hsound : w.Sound roster) (ambientDue : Bool) :
    (w.wake roster ambientDue).Sound roster := by
  unfold wake
  split
  · rename_i hwaiting
    split
    · exact hsound
    · refine ⟨fun blobId hmem family hfamily henabled => ?_, hsound.maintenance⟩
      rcases hsound.fresh blobId hmem family hfamily henabled with
        (hinbox | hoffer) | ⟨pass, hprime, -⟩
      · -- the ids of the inbox are now those of the pass
        have hwake : w.refiner.wake roster ambientDue = { w.refiner with
            inbox := []
            prime := .enqueueing
              ⟨w.refiner.inbox, ambientDue, script roster w.refiner.inbox ambientDue⟩ } := by
          rw [State.wake, hwaiting]
        refine Or.inr ⟨_, congrArg State.prime hwake, hinbox, ?_⟩
        exact fresh_mem_script ambientDue (List.ne_nil_of_mem hinbox) hfamily henabled
      · exact Or.inl (Or.inr hoffer)
      · rw [hwaiting] at hprime
        cases hprime
  · exact hsound

theorem sound_abandon (hsound : w.Sound roster) (hkeeps : w.Keeps roster (.step .abandon)) :
    w.abandon.Sound roster := by
  unfold abandon
  split
  · rename_i pass hpass
    obtain ⟨htaken, hoffered⟩ := hkeeps pass hpass
    have hinbox : w.refiner.abandon.inbox = w.refiner.inbox := by
      rw [State.abandon, hpass]
    refine ⟨fun blobId hmem family hfamily henabled => Or.inl ?_, fun ended hended => ?_⟩
    · have hkept : w.Kept family blobId := by
        rcases hsound.fresh blobId hmem family hfamily henabled with
          hkept | ⟨other, hother, hfresh, htodo⟩
        · exact hkept
        · rw [hpass, Prime.enqueueing.injEq] at hother
          subst hother
          exact hoffered blobId hfresh family htodo
      rw [Kept, hinbox]
      exact hkept
    · rcases List.mem_append.mp hended with hended | hended
      · exact hsound.maintenance ended hended
      · rw [List.mem_singleton.mp hended, htaken]
        exact fun htook => absurd htook Bool.false_ne_true
  · exact hsound

theorem enterFamily_inbox (s : State) : s.enterFamily.inbox = s.inbox := by
  unfold State.enterFamily
  split
  · rfl
  · split
    · rfl
    · rfl
  · rfl

theorem enterFamily_enqueueing {s : State} {pass : Pass} (hprime : s.prime = .enqueueing pass) :
    s.enterFamily = s := by
  rw [State.enterFamily, hprime]

section

variable (hsound : w.Sound roster)

include hsound

theorem sound_enterFamily (hkeeps : w.Keeps roster (.step .enterFamily)) :
    w.enterFamily.Sound roster := by
  have hinbox : w.refiner.inbox ⊆ w.refiner.enterFamily.inbox := by
    rw [enterFamily_inbox]
    exact List.Subset.refl _
  have hprime : ∀ pass, w.refiner.prime = .enqueueing pass →
      w.refiner.enterFamily.prime = .enqueueing pass := by
    intro pass hpass
    rw [enterFamily_enqueueing hpass]
    exact hpass
  unfold enterFamily
  split
  · rename_i hlast
    refine hsound.grows hinbox (List.Subset.refl _) (List.Subset.refl _) hprime ?_
    intro ended hended
    rcases List.mem_append.mp hended with hended | hended
    · exact hsound.maintenance ended hended
    · rw [List.mem_singleton.mp hended]
      exact hkeeps hlast
  · exact hsound.grows hinbox (List.Subset.refl _) (List.Subset.refl _) hprime hsound.maintenance

theorem sound_skipFamily : w.skipFamily.Sound roster := by
  unfold skipFamily
  split
  · rename_i hprime
    refine hsound.grows (List.Subset.refl _) (List.Subset.refl _) (List.Subset.refl _) ?_
      hsound.maintenance
    intro pass hpass
    rw [hprime] at hpass
    cases hpass
  · exact hsound

/-- The turn of a family offers it the blobs of the pass; the others still have theirs. -/
theorem sound_enqueue (nowUnix : Int) :
    (w.next roster (.step (.enqueue nowUnix))).Sound roster := by
  change World.Sound roster { w with
    refiner := w.refiner.enqueue roster nowUnix
    notified := w.notified ++ []
    offered := w.offered ++ w.refiner.offered (.enqueue nowUnix) }
  rw [List.append_nil]
  refine ⟨fun blobId hmem family hfamily henabled => ?_, hsound.maintenance⟩
  have hinbox : (w.refiner.enqueue roster nowUnix).inbox = w.refiner.inbox := by
    unfold State.enqueue
    split
    · rfl
    · rfl
    · rfl
  rcases hsound.fresh blobId hmem family hfamily henabled with
    (hinside | hoffer) | ⟨⟨fresh, ambientDue, todo⟩, hpass, hfresh, htodo⟩
  · refine Or.inl (Or.inl ?_)
    rw [hinbox]
    exact hinside
  · exact Or.inl (Or.inr (List.mem_append_left _ hoffer))
  · cases todo with
    | nil => exact absurd htodo List.not_mem_nil
    | cons entry todo =>
      rcases List.mem_cons.mp htodo with heq | hrest
      · -- it is this family's turn
        subst heq
        refine Or.inl (Or.inr (List.mem_append_right _ ?_))
        rw [State.offered, hpass]
        exact List.mem_map.mpr ⟨blobId, hfresh, rfl⟩
      · refine Or.inr ⟨⟨fresh, ambientDue, todo⟩, ?_, hfresh, hrest⟩
        change (w.refiner.enqueue roster nowUnix).prime = _
        rw [State.enqueue, hpass]

theorem sound_takeFresh {nowUnix : Int} (hkeeps : w.Keeps roster (.step (.takeFresh nowUnix))) :
    (w.next roster (.step (.takeFresh nowUnix))).Sound roster := by
  change World.Sound roster { w with
    refiner := w.refiner.takeFresh nowUnix
    notified := w.notified ++ []
    offered := w.offered ++ w.refiner.offered (.takeFresh nowUnix) }
  rw [List.append_nil]
  refine ⟨fun blobId hmem family hfamily henabled => ?_, hsound.maintenance⟩
  rcases hsound.fresh blobId hmem family hfamily henabled with
    (hinside | hoffer) | ⟨pass, hpass, hrest⟩
  · refine Or.inl ?_
    cases hprime : w.refiner.prime with
    | draining current todo =>
      cases current with
      | some draining =>
        refine Or.inr ?_
        change _ ∈ w.offered ++ w.refiner.offered (.takeFresh nowUnix)
        by_cases hsame : family = draining
        · subst hsame
          refine List.mem_append_right _ ?_
          rw [State.offered, hprime]
          exact List.mem_map.mpr ⟨blobId, hinside, rfl⟩
        · -- another family has been offered the blob before
          refine List.mem_append_left _ ?_
          exact hkeeps draining todo hprime blobId hinside family hfamily henabled hsame
      | none =>
        refine Or.inl ?_
        rw [State.takeFresh, hprime]
        exact hinside
    | waiting =>
      refine Or.inl ?_
      rw [State.takeFresh, hprime]
      exact hinside
    | enqueueing pass =>
      refine Or.inl ?_
      rw [State.takeFresh, hprime]
      exact hinside
  · exact Or.inl (Or.inr (List.mem_append_left _ hoffer))
  · refine Or.inr ⟨pass, ?_, hrest⟩
    change (w.refiner.takeFresh nowUnix).prime = _
    rw [State.takeFresh, hpass]
    exact hpass

theorem sound_notifyFresh (blobIds : List Nat) :
    (w.next roster (.step (.notifyFresh blobIds))).Sound roster := by
  change World.Sound roster { w with
    refiner := { w.refiner with inbox := w.refiner.inbox ++ blobIds }
    notified := w.notified ++ blobIds
    offered := w.offered ++ [] }
  rw [List.append_nil]
  refine ⟨fun blobId hmem family hfamily henabled => ?_, hsound.maintenance⟩
  rcases List.mem_append.mp hmem with hold | hnew
  · rcases hsound.fresh blobId hold family hfamily henabled with (hinside | hoffer) | hpass
    · exact Or.inl (Or.inl (List.mem_append_left _ hinside))
    · exact Or.inl (Or.inr hoffer)
    · exact Or.inr hpass
  · exact Or.inl (Or.inl (List.mem_append_right _ hnew))

/-- A step that neither takes nor offers. -/
theorem sound_elsewhere {s : State} (hinbox : s.inbox = w.refiner.inbox)
    (hprime : ∀ pass, w.refiner.prime = .enqueueing pass → s.prime = .enqueueing pass) :
    World.Sound roster { w with
      refiner := s
      notified := w.notified ++ []
      offered := w.offered ++ [] } := by
  rw [List.append_nil, List.append_nil]
  refine hsound.grows ?_ (List.Subset.refl _) (List.Subset.refl _) hprime hsound.maintenance
  intro blobId hmem
  change blobId ∈ s.inbox
  rw [hinbox]
  exact hmem

theorem sound_next {move : Move} (hkeeps : w.Keeps roster move) :
    (w.next roster move).Sound roster := by
  cases move with
  | droneSignal => exact ⟨hsound.fresh, hsound.maintenance⟩
  | restage => exact hsound
  | skipFamily => exact sound_skipFamily hsound
  | step step =>
    cases step with
    | wake ambientDue => exact sound_wake hsound ambientDue
    | abandon => exact sound_abandon hsound hkeeps
    | enterFamily => exact sound_enterFamily hsound hkeeps
    | enqueue nowUnix => exact sound_enqueue hsound nowUnix
    | takeFresh nowUnix => exact sound_takeFresh hsound hkeeps
    | notifyFresh blobIds => exact sound_notifyFresh hsound blobIds
    | leaveFamily =>
      refine sound_elsewhere hsound (s := w.refiner.leaveFamily) ?_ fun pass hpass => ?_
      · unfold State.leaveFamily
        split
        · rfl
        · rfl
      · rw [State.leaveFamily, hpass]
        exact hpass
    | claim analyzer nowUnix =>
      refine sound_elsewhere hsound (s := w.refiner.apply roster (.claim analyzer nowUnix))
        ?_ fun pass hpass => ?_
      · rw [State.apply]
        split
        · rfl
        · rfl
      · rw [State.apply]
        split
        · exact hpass
        · exact hpass
    | index db sourceFileBlobs absentEligible =>
      exact sound_elsewhere hsound rfl fun _ hpass => hpass
    | renew blobId analyzer nowUnix =>
      exact sound_elsewhere hsound rfl fun _ hpass => hpass
    | complete blobId analyzer outcome detail atUnix =>
      exact sound_elsewhere hsound rfl fun _ hpass => hpass
    | defer blobId analyzer waitingOn =>
      exact sound_elsewhere hsound rfl fun _ hpass => hpass
    | bumpDatMatchedPriorities => exact sound_elsewhere hsound rfl fun _ hpass => hpass

end

/-- The prime has just been started. -/
def start (sweep : Sweep) (maintainer : Bool) : World where
  refiner := { sweep := sweep }
  maintainer := maintainer

end World

/-- In every run in which no drain takes what the other families still lack, no pass fails with
blobs or a signal in hand, and no pass takes a signal without a maintainer, whatever was
notified is in the inbox or offered to every enabled family, and every signal that was taken
was followed by maintenance. -/
theorem fresh_handoff_loses_nothing (roster : Roster) (sweep : Sweep) (maintainer : Bool)
    (moves : List Move)
    (halong : Runs.Along (World.next roster) (World.Keeps roster)
      (World.start sweep maintainer) moves) :
    (Runs.run (World.next roster) (World.start sweep maintainer) moves).HandsOff roster := by
  have hinit : (World.start sweep maintainer).Sound roster := by
    refine ⟨fun blobId hmem => ?_, fun pass hmem => ?_⟩
    · exact absurd hmem List.not_mem_nil
    · exact absurd hmem List.not_mem_nil
  have hsound : World.Sound roster
      (Runs.run (World.next roster) (World.start sweep maintainer) moves) :=
    halong.invariant (fun w move hsound hkeeps => World.sound_next hsound hkeeps) hinit
  exact hsound.handsOff

/-- One blob is handed to both families, they drain it, a drone signals, and maintenance
runs. -/
def handedRun : List Move :=
  [.step (.index firstDb [1] []), .step (.notifyFresh [1]), .step (.wake false),
    .step (.enqueue 10), .step (.enqueue 10), .step (.enqueue 10), .step .enterFamily,
    .step (.takeFresh 11), .step (.claim splitter 11), .droneSignal,
    .step (.complete 1 1 .negative none 12), .step .leaveFamily, .skipFamily,
    .step .enterFamily, .step (.wake false)]

theorem fresh_handoff_loses_nothing_handed :
    (Runs.run (World.next pairRoster) (World.start { db := Db.empty } true)
      handedRun).HandsOff pairRoster := by
  refine fresh_handoff_loses_nothing pairRoster _ true handedRun ⟨trivial, trivial, trivial,
    trivial, trivial, trivial, ?_, ?_, trivial, trivial, trivial, trivial, trivial, ?_, trivial,
    trivial⟩
  · exact fun _ _ => rfl
  · intro family todo _ blobId hmem
    exact absurd hmem List.not_mem_nil
  · exact fun _ _ => rfl

/-- The second blob arrives while the structural family drains. -/
def lostRun : List Move :=
  [.step (.index firstDb [1] []), .step (.notifyFresh [1]), .step (.wake false),
    .step (.enqueue 10), .step (.enqueue 10), .step (.enqueue 10), .step .enterFamily,
    .step (.index secondDb [1, 2] []), .step (.notifyFresh [2]), .step (.takeFresh 11)]

/-- A drone signals, and the pass that takes the signal fails. -/
def forgottenRun : List Move :=
  [.droneSignal, .step (.wake true), .step .abandon]

/-- The family that drains gets the blob, the other one does not; and the signal is gone though
no maintenance ran. -/
theorem fresh_handoff_loses :
    ¬ (Runs.run (World.next pairRoster) (World.start { db := Db.empty } true)
        lostRun).HandsOff pairRoster ∧
      ¬ (Runs.run (World.next pairRoster) (World.start { db := Db.empty } true)
        forgottenRun).HandsOff pairRoster := by
  constructor
  · intro hhands
    have hboundary : (Runs.run (World.next pairRoster) (World.start { db := Db.empty } true)
        lostRun).AtBoundary := fun pass hpass => by cases hpass
    rcases hhands.fresh hboundary 2 (by decide +kernel) with hinbox | hoffered
    · revert hinbox
      decide +kernel
    · have hlacks := hoffered chunker (by decide) rfl
      revert hlacks
      decide +kernel
  · intro hhands
    have hserved := hhands.maintenance ⟨true, false⟩ (by decide +kernel) rfl
    cases hserved

end Datboi.Refiner
