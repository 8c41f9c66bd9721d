import Datboi.Server.Refiner

/-!
# Structural analysis before fallback

A fallback row is only ever written for a blob that every enabled structural family has already
queued, concluded on or deferred, as long as two things stay away: the mid-drain enqueue of a
fallback family, and writes that make a blob a structural candidate behind the scan.
-/

namespace Datboi.Refiner

/-- An enabled structural family. -/
def Structural (roster : Roster) (family : Analyzer) : Prop :=
  family ∈ roster.families ∧ family.cls = .structural ∧ family.enabled = true

/-- A fallback family. -/
def Fallback (roster : Roster) (family : Analyzer) : Prop :=
  family ∈ roster.families ∧ family.cls = .fallback

/-- The family has concluded on the blob, has deferred it or has it queued. -/
def Covered (sweep : Sweep) (family : Analyzer) (blobId : Nat) : Prop :=
  sweep.isAnalyzed blobId family.id = true ∨ sweep.isDeferred blobId family.id = true ∨
    sweep.isQueued blobId family.id = true

/-- The pass has already been at the blob for this family. -/
def Pass.Passed (pass : Pass) (family : Analyzer) (blobId : Nat) : Prop :=
  (blobId ∈ pass.fresh ∧ (family, .fresh) ∉ pass.todo) ∨
    (pass.ambientDue = true ∧ (family, .insert) ∉ pass.todo)

/-- The step does not queue a blob for a fallback family past its structural families: a
mid-drain enqueue of a fallback family finds only covered blobs, and a write that makes a blob a
structural candidate comes before the blob is queued for a fallback family and before the pass
under way has been at it. -/
def Step.Meets (roster : Roster) (s : State) : Step → Prop
  | .takeFresh _ => ∀ family todo, s.prime = .draining (some family) todo →
      family.cls = .fallback → ∀ blobId ∈ s.inbox,
        s.sweep.isCandidate family.candidacy blobId = true → ∀ other, Structural roster other →
          s.sweep.isCandidate other.candidacy blobId = true → Covered s.sweep other blobId
  | .index db sourceFileBlobs absentEligible => ∀ family, Structural roster family → ∀ blobId,
      ((SweepOp.index db sourceFileBlobs absentEligible).apply s.sweep).isCandidate
          family.candidacy blobId = true →
        s.sweep.isCandidate family.candidacy blobId = true ∨ Covered s.sweep family blobId ∨
          ((∀ other, Fallback roster other → s.sweep.isQueued blobId other.id = false) ∧
            ∀ pass, s.prime = .enqueueing pass → ¬ pass.Passed family blobId)
  | _ => True

/-- Every step of the run meets the condition. -/
def Along (roster : Roster) : State → List Step → Prop
  | _, [] => True
  | s, step :: steps => step.Meets roster s ∧ Along roster (s.apply roster step) steps

/-- Whatever a fallback family has queued is covered, and so is what a pass has been at. -/
structure Ordered (roster : Roster) (s : State) : Prop where
  queued : ∀ fallback, Fallback roster fallback → ∀ blobId,
    s.sweep.isQueued blobId fallback.id = true → ∀ family, Structural roster family →
      s.sweep.isCandidate family.candidacy blobId = true → Covered s.sweep family blobId
  script : ∀ pass, s.prime = .enqueueing pass →
    pass.todo <:+ Refiner.script roster pass.fresh pass.ambientDue
  passed : ∀ pass, s.prime = .enqueueing pass → ∀ family, Structural roster family → ∀ blobId,
    pass.Passed family blobId → s.sweep.isCandidate family.candidacy blobId = true →
      Covered s.sweep family blobId
  draining : ∀ current todo, s.prime = .draining current todo →
    ∀ family ∈ current.toList ++ todo, family ∈ roster.families

variable {roster : Roster} {s : State}

/-! ## The roster -/

variable {family : Analyzer} {fresh : List Nat} {next : Analyzer × Statement} {sweep : Sweep}
  {op : SweepOp} {blobId : Nat} {nowUnix : Int}

theorem mem_sweepRoster : family ∈ sweepRoster roster ↔ family ∈ roster.families := Rows.mem_sortBy

theorem eq_of_id {other : Analyzer} (hfamily : family ∈ roster.families)
    (hother : other ∈ roster.families) (hid : family.id = other.id) : family = other :=
  List.inj_on_of_nodup_map roster.ids_nodup hfamily hother hid

theorem mem_statements {ambientDue : Bool} {entry : Analyzer × Statement}
    (hentry : entry ∈ statements fresh ambientDue family) :
    entry.1 = family ∧ (entry.2 = .insert → ambientDue = true) := by
  unfold statements at hentry
  split at hentry
  · rcases List.mem_append.mp hentry with hfresh | hambient
    · split at hfresh
      · cases hfresh
      · rw [List.mem_singleton.mp hfresh]
        exact ⟨rfl, nofun⟩
    · split at hambient
      · rename_i hdue
        refine ⟨?_, fun _ => hdue⟩
        rcases List.mem_cons.mp hambient with heq | hrest
        · rw [heq]
        · rw [List.mem_singleton.mp hrest]
      · cases hambient
  · cases hentry

theorem mem_script {ambientDue : Bool} {entry : Analyzer × Statement}
    (hentry : entry ∈ script roster fresh ambientDue) :
    entry.1 ∈ roster.families ∧ (entry.2 = .insert → ambientDue = true) := by
  obtain ⟨family, hfamily, hentry⟩ := List.mem_flatMap.mp hentry
  obtain ⟨hfirst, hinsert⟩ := mem_statements hentry
  rw [hfirst]
  exact ⟨mem_sweepRoster.mp hfamily, hinsert⟩

/-- A pass goes through the classes in order. -/
theorem pairwise_script (roster : Roster) (fresh : List Nat) (ambientDue : Bool) :
    (script roster fresh ambientDue).Pairwise fun a b => a.1.cls.rank ≤ b.1.cls.rank := by
  unfold script
  rw [List.pairwise_flatMap]
  constructor
  · intro family _
    refine List.Pairwise.imp_of_mem ?_ (List.pairwise_of_forall fun _ _ => trivial)
    intro a b ha hb _
    rw [(mem_statements ha).1, (mem_statements hb).1]
  · refine List.Pairwise.imp ?_ (Rows.pairwise_sortBy _ _)
    intro family other hrank a ha b hb
    rw [(mem_statements ha).1, (mem_statements hb).1]
    exact hrank

/-- Once a pass is at a fallback family, no structural statement is left. -/
theorem not_mem_todo {pass : Pass}
    (hscript : pass.todo <:+ script roster pass.fresh pass.ambientDue)
    {todo : List (Analyzer × Statement)} (htodo : pass.todo = next :: todo)
    (hnext : next.1.cls = .fallback) (hfamily : Structural roster family) (statement : Statement) :
    (family, statement) ∉ pass.todo := by
  have hpairwise := (pairwise_script roster pass.fresh pass.ambientDue).sublist hscript.sublist
  rw [htodo] at hpairwise ⊢
  intro hmem
  have hclass := hfamily.2.1
  rcases List.mem_cons.mp hmem with heq | hrest
  · rw [← heq, hclass] at hnext
    cases hnext
  · have hrank := (List.pairwise_cons.mp hpairwise).1 _ hrest
    simp only [hnext, hclass, AnalyzerClass.rank] at hrank
    omega

/-! ## Transactions -/

/-- A transaction on the queue keeps a candidate covered. -/
theorem covered_apply (hprune : ∀ candidacy atUnix, op = .prune family.id candidacy atUnix →
      candidacy = family.candidacy)
    (hcandidate : sweep.isCandidate family.candidacy blobId = true)
    (hcovered : Covered sweep family blobId) : Covered (op.apply sweep) family blobId := by
  rcases hcovered with hanalyzed | hdeferred | hqueued
  · exact Or.inl (SweepOp.isAnalyzed_apply op hanalyzed)
  · rcases SweepOp.isDeferred_apply op hdeferred with hkept | hanalyzed
    · exact Or.inr (Or.inl hkept)
    · exact Or.inl hanalyzed
  · by_cases hkept : (op.apply sweep).isQueued blobId family.id = true
    · exact Or.inr (Or.inr hkept)
    rw [Bool.not_eq_true] at hkept
    rcases SweepOp.gone_of_apply hqueued hkept with
      ⟨_, _, _, _, hanalyzed⟩ | ⟨_, _, hdeferred⟩ | ⟨candidacy, atUnix, hop, hnot⟩
    · exact Or.inl hanalyzed
    · exact Or.inr (Or.inl hdeferred)
    · rw [hprune candidacy atUnix hop, hcandidate] at hnot
      cases hnot

/-- Prunes use the family's own candidacy. -/
def OwnCandidacy (roster : Roster) (op : SweepOp) : Prop :=
  ∀ analyzer candidacy atUnix, op = .prune analyzer candidacy atUnix →
    ∃ family ∈ roster.families, family.id = analyzer ∧ family.candidacy = candidacy

theorem OwnCandidacy.covered (hown : OwnCandidacy roster op) (hfamily : Structural roster family)
    (hcandidate : sweep.isCandidate family.candidacy blobId = true)
    (hcovered : Covered sweep family blobId) : Covered (op.apply sweep) family blobId := by
  refine covered_apply (fun candidacy atUnix hop => ?_) hcandidate hcovered
  obtain ⟨other, hother, hid, rfl⟩ := hown _ _ _ hop
  rw [eq_of_id hother hfamily.1 hid]

/-- A transaction whose new fallback rows are covered keeps the order. -/
theorem Ordered.onSweep (hordered : Ordered roster s) (hindex : ¬ op.WritesIndex)
    (hown : OwnCandidacy roster op) (hadded : ∀ fallback, Fallback roster fallback → ∀ blobId,
      s.sweep.isQueued blobId fallback.id = false →
      (op.apply s.sweep).isQueued blobId fallback.id = true → ∀ family,
        Structural roster family → s.sweep.isCandidate family.candidacy blobId = true →
          Covered s.sweep family blobId) : Ordered roster (s.onSweep op) where
  queued fallback hfallback blobId hqueued family hfamily hcandidate := by
    change (op.apply s.sweep).isCandidate family.candidacy blobId = true at hcandidate
    rw [SweepOp.isCandidate_apply hindex] at hcandidate
    refine hown.covered hfamily hcandidate ?_
    by_cases hbefore : s.sweep.isQueued blobId fallback.id = true
    · exact hordered.queued fallback hfallback blobId hbefore family hfamily hcandidate
    · rw [Bool.not_eq_true] at hbefore
      exact hadded fallback hfallback blobId hbefore hqueued family hfamily hcandidate
  script := hordered.script
  passed pass hpass family hfamily blobId hpassed hcandidate := by
    change (op.apply s.sweep).isCandidate family.candidacy blobId = true at hcandidate
    rw [SweepOp.isCandidate_apply hindex] at hcandidate
    exact hown.covered hfamily hcandidate
      (hordered.passed pass hpass family hfamily blobId hpassed hcandidate)
  draining := hordered.draining

/-- A transaction that inserts nothing keeps the order. -/
theorem Ordered.onSweep_of_no_insert (hordered : Ordered roster s) (hindex : ¬ op.WritesIndex)
    (hown : OwnCandidacy roster op)
    (hnone : ∀ blobId analyzer, s.sweep.isQueued blobId analyzer = false →
      (op.apply s.sweep).isQueued blobId analyzer = false) : Ordered roster (s.onSweep op) := by
  refine hordered.onSweep hindex hown ?_
  intro fallback _ blobId hfree hqueued
  rw [hnone blobId fallback.id hfree] at hqueued
  cases hqueued

/-- Only the two enqueue paths insert. -/
theorem no_insert
    (hscan : ∀ analyzer candidacy atUnix, op ≠ .insertUnanalyzed analyzer candidacy atUnix)
    (hfresh : ∀ analyzer candidacy blobIds atUnix,
      op ≠ .enqueueFresh analyzer candidacy blobIds atUnix) (blobId : Nat) (analyzer : Blake3)
    (hfree : sweep.isQueued blobId analyzer = false) :
    (op.apply sweep).isQueued blobId analyzer = false := by
  by_contra hqueued
  rw [Bool.not_eq_false] at hqueued
  rcases SweepOp.added_of_apply hfree hqueued with ⟨_, _, hop, _⟩ | ⟨_, _, _, hop, _⟩
  · exact hscan _ _ _ hop
  · exact hfresh _ _ _ _ hop

/-! ## Steps -/

/-- The same tables with the prime elsewhere. -/
theorem Ordered.elsewhere (hordered : Ordered roster s) {s' : State} (hsweep : s'.sweep = s.sweep)
    (henqueueing : ∀ pass, s'.prime ≠ .enqueueing pass)
    (hdraining : ∀ current todo, s'.prime = .draining current todo →
      ∀ family ∈ current.toList ++ todo, family ∈ roster.families) : Ordered roster s' where
  queued := by
    rw [hsweep]
    exact hordered.queued
  script pass hpass := absurd hpass (henqueueing pass)
  passed pass hpass := absurd hpass (henqueueing pass)
  draining := hdraining

theorem ordered_index (hordered : Ordered roster s) {db : Db}
    {sourceFileBlobs absentEligible : List Nat}
    (hmeets : (Step.index db sourceFileBlobs absentEligible).Meets roster s) :
    Ordered roster (s.onSweep (.index db sourceFileBlobs absentEligible)) where
  queued fallback hfallback blobId hqueued family hfamily hcandidate := by
    rcases hmeets family hfamily blobId hcandidate with hbefore | hcovered | ⟨hfree, _⟩
    · exact hordered.queued fallback hfallback blobId hqueued family hfamily hbefore
    · exact hcovered
    · change s.sweep.isQueued blobId fallback.id = true at hqueued
      rw [hfree fallback hfallback] at hqueued
      cases hqueued
  script := hordered.script
  passed pass hpass family hfamily blobId hpassed hcandidate := by
    rcases hmeets family hfamily blobId hcandidate with hbefore | hcovered | ⟨_, hahead⟩
    · exact hordered.passed pass hpass family hfamily blobId hpassed hbefore
    · exact hcovered
    · exact absurd hpassed (hahead pass hpass)
  draining := hordered.draining

theorem ordered_wake (hordered : Ordered roster s) (ambientDue : Bool) :
    Ordered roster (s.wake roster ambientDue) := by
  unfold State.wake
  split
  · refine ⟨hordered.queued, ?_, ?_, nofun⟩
    · rintro _ ⟨⟩
      exact List.suffix_rfl
    · rintro _ ⟨⟩ family hfamily blobId hpassed
      -- Nothing is passed yet: the script holds every statement of an enabled family.
      have hscript : ∀ statement, (family, statement) ∈ statements s.inbox ambientDue family →
          (family, statement) ∈ script roster s.inbox ambientDue := fun statement hmem =>
        List.mem_flatMap.mpr ⟨family, mem_sweepRoster.mpr hfamily.1, hmem⟩
      rcases hpassed with ⟨hmem, hdone⟩ | ⟨hdue, hdone⟩
      · refine absurd (hscript .fresh ?_) hdone
        rw [statements, if_pos hfamily.2.2, if_neg (List.ne_nil_of_mem hmem)]
        exact List.mem_append_left _ List.mem_cons_self
      · refine absurd (hscript .insert ?_) hdone
        change ambientDue = true at hdue
        rw [statements, if_pos hfamily.2.2, if_pos hdue]
        exact List.mem_append_right _ (List.mem_cons_of_mem _ List.mem_cons_self)
  · exact hordered

theorem statementOp_own (hnext : next.1 ∈ roster.families) :
    OwnCandidacy roster (statementOp fresh nowUnix next) := by
  intro analyzer candidacy atUnix hop
  obtain ⟨family, statement⟩ := next
  cases statement with
  | prune =>
    cases hop
    exact ⟨family, hnext, rfl, rfl⟩
  | fresh => cases hop
  | insert => cases hop

theorem statementOp_index : ¬ (statementOp fresh nowUnix next).WritesIndex := by
  obtain ⟨family, statement⟩ := next
  cases statement <;> exact id

/-- A row that a statement adds is the family's own, and the statement meant the blob. -/
theorem added_of_statementOp {analyzer : Blake3} (hfree : sweep.isQueued blobId analyzer = false)
    (hqueued : ((statementOp fresh nowUnix next).apply sweep).isQueued blobId analyzer = true) :
    next.1.id = analyzer ∧ ((next.2 = .fresh ∧ blobId ∈ fresh) ∨ next.2 = .insert) := by
  obtain ⟨family, statement⟩ := next
  rcases SweepOp.added_of_apply hfree hqueued with ⟨_, _, hop, _⟩ | ⟨_, _, _, hop, hmem, _⟩
  · cases statement <;> cases hop
    exact ⟨rfl, Or.inr rfl⟩
  · cases statement <;> cases hop
    exact ⟨rfl, Or.inl ⟨rfl, hmem⟩⟩

/-- After its statement, a family has covered what the statement meant. -/
theorem covered_statementOp {statement : Statement}
    (hmeant : (statement = .fresh ∧ blobId ∈ fresh) ∨ statement = .insert)
    (hcandidate : sweep.isCandidate family.candidacy blobId = true) :
    Covered ((statementOp fresh nowUnix (family, statement)).apply sweep) family blobId := by
  rcases hmeant with ⟨rfl, hmem⟩ | rfl
  · rcases Sweep.covered_enqueueFresh hmem hcandidate with hanalyzed | hqueued
    · exact Or.inl (SweepOp.isAnalyzed_apply _ hanalyzed)
    · exact Or.inr (Or.inr hqueued)
  · rcases Sweep.covered_insertUnanalyzed nowUnix hcandidate with
      hanalyzed | hdeferred | hqueued
    · exact Or.inl (SweepOp.isAnalyzed_apply _ hanalyzed)
    · rcases SweepOp.isDeferred_apply (statementOp fresh nowUnix (family, .insert)) hdeferred with
        hkept | hanalyzed
      · exact Or.inr (Or.inl hkept)
      · exact Or.inl hanalyzed
    · exact Or.inr (Or.inr hqueued)

/-- What the shorter list of statements has passed is what the longer one had, or what the
statement between them meant. -/
theorem passed_tail {fresh : List Nat} {ambientDue : Bool} {next : Analyzer × Statement}
    {todo : List (Analyzer × Statement)} {family : Analyzer} {blobId : Nat}
    (hpassed : Pass.Passed ⟨fresh, ambientDue, todo⟩ family blobId) :
    Pass.Passed ⟨fresh, ambientDue, next :: todo⟩ family blobId ∨
      (next.1 = family ∧ ((next.2 = .fresh ∧ blobId ∈ fresh) ∨ next.2 = .insert)) := by
  rcases hpassed with ⟨hmem, hdone⟩ | ⟨hdue, hdone⟩
  · by_cases hnext : next = (family, .fresh)
    · rw [hnext]
      exact Or.inr ⟨rfl, Or.inl ⟨rfl, hmem⟩⟩
    · refine Or.inl (Or.inl ⟨hmem, fun htodo => ?_⟩)
      rcases List.mem_cons.mp htodo with heq | hrest
      · exact hnext heq.symm
      · exact hdone hrest
  · by_cases hnext : next = (family, .insert)
    · rw [hnext]
      exact Or.inr ⟨rfl, Or.inr rfl⟩
    · refine Or.inl (Or.inr ⟨hdue, fun htodo => ?_⟩)
      rcases List.mem_cons.mp htodo with heq | hrest
      · exact hnext heq.symm
      · exact hdone hrest

section

variable (hordered : Ordered roster s)

include hordered

theorem ordered_enqueue (nowUnix : Int) : Ordered roster (s.enqueue roster nowUnix) := by
  unfold State.enqueue
  split
  · rename_i fresh ambientDue next todo hprime
    have hscript := hordered.script _ hprime
    obtain ⟨hnext, hinsert⟩ := mem_script (hscript.subset List.mem_cons_self)
    have hown : OwnCandidacy roster (statementOp fresh nowUnix next) := statementOp_own hnext
    have hafter : Ordered roster (s.onSweep (statementOp fresh nowUnix next)) := by
      refine hordered.onSweep statementOp_index hown ?_
      intro fallback hfallback blobId hfree hqueued family hfamily hcandidate
      obtain ⟨hid, hmeant⟩ := added_of_statementOp hfree hqueued
      obtain rfl := eq_of_id hnext hfallback.1 hid
      -- The pass is at a fallback family, so it has been at all structural ones.
      have hdone := not_mem_todo hscript rfl hfallback.2 hfamily
      refine hordered.passed _ hprime family hfamily blobId ?_ hcandidate
      rcases hmeant with ⟨_, hmem⟩ | hstatement
      · exact Or.inl ⟨hmem, hdone .fresh⟩
      · exact Or.inr ⟨hinsert hstatement, hdone .insert⟩
    refine ⟨hafter.queued, ?_, ?_, nofun⟩
    · rintro _ ⟨⟩
      exact (List.suffix_cons next todo).trans hscript
    · rintro _ ⟨⟩ family hfamily blobId hpassed hcandidate
      change ((statementOp fresh nowUnix next).apply s.sweep).isCandidate family.candidacy blobId
        = true at hcandidate
      have hbefore := hcandidate
      rw [SweepOp.isCandidate_apply statementOp_index] at hbefore
      rcases @passed_tail fresh ambientDue next todo family blobId hpassed with
        hpassed | ⟨rfl, hmeant⟩
      · exact hown.covered hfamily hbefore
          (hordered.passed _ hprime family hfamily blobId hpassed hbefore)
      · exact covered_statementOp hmeant hbefore
  · refine hordered.elsewhere rfl nofun ?_
    rintro _ _ ⟨⟩ family hfamily
    exact mem_sweepRoster.mp (by simpa using hfamily)
  · exact hordered

theorem ordered_enterFamily : Ordered roster s.enterFamily := by
  unfold State.enterFamily
  split
  · exact hordered.elsewhere rfl nofun nofun
  · rename_i analyzer todo hprime
    have hdraining := hordered.draining _ _ hprime
    split
    · refine hordered.elsewhere rfl nofun ?_
      rintro _ _ ⟨⟩ family hfamily
      exact hdraining family (by simpa using hfamily)
    · refine hordered.elsewhere rfl nofun ?_
      rintro _ _ ⟨⟩ family hfamily
      exact hdraining family (by simp_all)
  · exact hordered

theorem ordered_takeFresh (hmeets : (Step.takeFresh nowUnix).Meets roster s) :
    Ordered roster (s.takeFresh nowUnix) := by
  unfold State.takeFresh
  split
  · rename_i analyzer todo hprime
    split
    · exact hordered
    have hmember : analyzer ∈ roster.families :=
      hordered.draining _ _ hprime analyzer (by simp)
    have hafter : Ordered roster
        (s.onSweep (.enqueueFresh analyzer.id analyzer.candidacy s.inbox nowUnix)) := by
      refine hordered.onSweep id nofun ?_
      intro fallback hfallback blobId hfree hqueued family hfamily hcandidate
      rcases SweepOp.added_of_apply hfree hqueued with ⟨_, _, hop, _⟩ | ⟨_, _, _, hop, hnew⟩
      · cases hop
      · injection hop with hid hcandidacy hids
        obtain rfl := eq_of_id hmember hfallback.1 hid
        rw [← hids, ← hcandidacy] at hnew
        exact hmeets analyzer todo hprime hfallback.2 blobId hnew.1 hnew.2.2 family hfamily
          hcandidate
    exact ⟨hafter.queued, hafter.script, hafter.passed, hafter.draining⟩
  · exact hordered

theorem ordered_apply {step : Step} (hmeets : step.Meets roster s) :
    Ordered roster (s.apply roster step) := by
  cases step with
  | index db sourceFileBlobs absentEligible => exact ordered_index hordered hmeets
  | notifyFresh blobIds =>
    exact ⟨hordered.queued, hordered.script, hordered.passed, hordered.draining⟩
  | wake ambientDue => exact ordered_wake hordered ambientDue
  | enqueue nowUnix => exact ordered_enqueue hordered nowUnix
  | abandon =>
    rw [State.apply, State.abandon]
    split
    · exact hordered.elsewhere rfl nofun nofun
    · exact hordered
  | enterFamily => exact ordered_enterFamily hordered
  | takeFresh nowUnix => exact ordered_takeFresh hordered hmeets
  | leaveFamily =>
    rw [State.apply, State.leaveFamily]
    split
    · rename_i analyzer todo hprime
      refine hordered.elsewhere rfl nofun ?_
      rintro _ _ ⟨⟩ family hfamily
      exact hordered.draining _ _ hprime family (by simp_all)
    · exact hordered
  | claim analyzer nowUnix =>
    rw [State.apply]
    split
    · exact hordered.onSweep_of_no_insert id nofun (no_insert nofun nofun)
    · exact hordered
  | renew blobId analyzer nowUnix =>
    exact hordered.onSweep_of_no_insert id nofun (no_insert nofun nofun)
  | complete blobId analyzer outcome detail atUnix =>
    exact hordered.onSweep_of_no_insert id nofun (no_insert nofun nofun)
  | defer blobId analyzer waitingOn =>
    exact hordered.onSweep_of_no_insert id nofun (no_insert nofun nofun)
  | bumpDatMatchedPriorities =>
    exact hordered.onSweep_of_no_insert id nofun (no_insert nofun nofun)

theorem ordered_run {steps : List Step} (halong : Along roster s steps) :
    Ordered roster (s.run roster steps) := by
  induction steps generalizing s with
  | nil => exact hordered
  | cons step steps ih => exact ih (ordered_apply hordered halong.1) halong.2

end

theorem Along.drop {done rest : List Step} (halong : Along roster s (done ++ rest)) :
    Along roster s done ∧ Along roster (s.run roster done) rest := by
  induction done generalizing s with
  | nil => exact ⟨trivial, halong⟩
  | cons step done ih =>
    obtain ⟨hdone, hrest⟩ := ih halong.2
    exact ⟨⟨halong.1, hdone⟩, hrest⟩

/-- A claim for a fallback family finds no structural row of an enabled family. -/
theorem not_queued_of_claimed {fallback : Analyzer} {analyzer : Blake3}
    (hfallback : fallback.cls = .fallback)
    (hclaimed : (blobId, analyzer) ∈ (claimOp roster fallback nowUnix).claimed sweep)
    (hfamily : Structural roster family) :
    analyzer = fallback.id ∧ sweep.isQueued blobId family.id = false := by
  obtain ⟨item, hitem, hkey⟩ := List.mem_map.mp hclaimed
  cases hkey
  obtain ⟨row, hrow, hid⟩ := Sweep.mem_claimSweepItems hitem
  obtain ⟨_, hclaimable⟩ := Sweep.mem_claimable hrow
  simp only [Sweep.isClaimable, decide_eq_true_eq, List.any_eq_false] at hclaimable
  have hblocker : family.id ∈ blockedBy roster fallback := by
    refine List.mem_map.mpr ⟨family, List.mem_filter.mpr ⟨mem_sweepRoster.mpr hfamily.1, ?_⟩, rfl⟩
    rw [hfamily.2.1, hfallback, hfamily.2.2]
    decide
  rw [← hid]
  exact ⟨rfl, by simpa using hclaimable.2.2.2 family.id hblocker⟩

/-- In every run of prime and drones whose steps meet the condition: a blob that is claimed for
a fallback family was concluded on or deferred by every enabled structural family whose
candidate it is at that moment. -/
theorem structural_before_fallback {steps : List Step} (hqueue : s.sweep.queue = [])
    (hprime : s.prime = .waiting) (halong : Along roster s steps) :
    ∀ done fallback nowUnix rest blobId analyzer,
      steps = done ++ .claim fallback nowUnix :: rest → fallback.cls = .fallback →
      (blobId, analyzer) ∈ (s.run roster done).claimed roster (.claim fallback nowUnix) →
      ∀ family, Structural roster family →
        (s.run roster done).sweep.isCandidate family.candidacy blobId = true →
        (s.run roster done).sweep.isAnalyzed blobId family.id = true ∨
          (s.run roster done).sweep.isDeferred blobId family.id = true := by
  rintro done fallback nowUnix rest blobId analyzer rfl hfallback hclaimed family hfamily
    hcandidate
  have hstart : Ordered roster s := by
    refine ⟨?_, ?_, ?_, ?_⟩
    · intro fallback _ blobId hqueued
      rw [Sweep.isQueued, hqueue] at hqueued
      cases hqueued
    · rw [hprime]
      intros
      contradiction
    · rw [hprime]
      intros
      contradiction
    · rw [hprime]
      intros
      contradiction
  have hordered := ordered_run hstart halong.drop.1
  rw [State.claimed] at hclaimed
  split at hclaimed
  · rename_i hmember
    obtain ⟨rfl, hfree⟩ := not_queued_of_claimed hfallback hclaimed hfamily
    obtain ⟨row, hrow, hid, hanalyzer, _⟩ := SweepOp.row_of_claimed hclaimed
    have hqueued : (s.run roster done).sweep.isQueued blobId fallback.id = true :=
      Sweep.isQueued_eq_true.mpr ⟨row, hrow, hid, hanalyzer⟩
    rcases hordered.queued fallback ⟨hmember.1, hfallback⟩ blobId hqueued family hfamily
      hcandidate with hanalyzed | hdeferred | hstill
    · exact Or.inl hanalyzed
    · exact Or.inr hdeferred
    · rw [hfree] at hstill
      cases hstill
  · cases hclaimed

/-! ## Two families -/

def splitter : Analyzer := ⟨1, .structural, {}, true⟩

def chunker : Analyzer := ⟨2, .fallback, { residentOnly := true }, true⟩

def pairRoster : Roster := ⟨[chunker, splitter], by decide⟩

/-- One data blob, then two. -/
def firstDb : Db := (Db.empty.upsertBlob 7 (some 64) .data .resident).1

def secondDb : Db := (firstDb.upsertBlob 8 (some 64) .data .resident).1

/-- The prime enqueues and refines the first blob up to its fallback claim. -/
def refineFirst : List Step :=
  [.index firstDb [1] [], .notifyFresh [1], .wake false, .enqueue 10, .enqueue 10, .enqueue 10,
    .enterFamily, .claim splitter 11, .complete 1 1 .negative none 12, .leaveFamily,
    .enterFamily, .claim chunker 13]

/-- While the fallback family drains, a second blob is ingested. -/
def refineSecond : List Step :=
  refineFirst ++ [.index secondDb [1, 2] [], .notifyFresh [2], .takeFresh 14]

/-- The second blob goes to the fallback family, and no structural family has seen it. -/
theorem fallback_before_structural :
    (2, 2) ∈ ((⟨{ db := Db.empty }, [], .waiting⟩ : State).run pairRoster refineSecond).claimed
        pairRoster (.claim chunker 15) ∧
      ((⟨{ db := Db.empty }, [], .waiting⟩ : State).run pairRoster refineSecond).sweep.isCandidate
        splitter.candidacy 2 = true ∧
      ((⟨{ db := Db.empty }, [], .waiting⟩ : State).run pairRoster refineSecond).sweep.isAnalyzed
        2 splitter.id = false ∧
      ((⟨{ db := Db.empty }, [], .waiting⟩ : State).run pairRoster refineSecond).sweep.isDeferred
        2 splitter.id = false ∧
      ((⟨{ db := Db.empty }, [], .waiting⟩ : State).run pairRoster refineSecond).sweep.isQueued
        2 splitter.id = false := by
  refine ⟨?_, ?_, ?_, ?_, ?_⟩ <;> decide +kernel

/-- The first blob came to the fallback family after the structural one had concluded on it. -/
theorem structural_before_fallback_first :
    (1, 2) ∈ ((⟨{ db := Db.empty }, [], .waiting⟩ : State).run pairRoster
        (refineFirst.take 11)).claimed pairRoster (.claim chunker 13) ∧
      (((⟨{ db := Db.empty }, [], .waiting⟩ : State).run pairRoster
          (refineFirst.take 11)).sweep.isAnalyzed 1 1 = true ∨
        ((⟨{ db := Db.empty }, [], .waiting⟩ : State).run pairRoster
          (refineFirst.take 11)).sweep.isDeferred 1 1 = true) := by
  have hclaimed : (1, 2) ∈ ((⟨{ db := Db.empty }, [], .waiting⟩ : State).run pairRoster
      (refineFirst.take 11)).claimed pairRoster (.claim chunker 13) := by decide +kernel
  have halong : Along pairRoster ⟨{ db := Db.empty }, [], .waiting⟩ refineFirst := by
    refine ⟨?_, ?_⟩
    · intro family _ blobId _
      exact Or.inr (Or.inr ⟨fun _ _ => rfl, nofun⟩)
    · exact ⟨trivial, trivial, trivial, trivial, trivial, trivial, trivial, trivial, trivial,
        trivial, trivial, trivial⟩
  refine ⟨hclaimed, ?_⟩
  exact structural_before_fallback rfl rfl halong (refineFirst.take 11) chunker 13 [] 1 2 rfl rfl
    hclaimed splitter ⟨by decide, rfl, rfl⟩ (by decide +kernel)

end Datboi.Refiner
