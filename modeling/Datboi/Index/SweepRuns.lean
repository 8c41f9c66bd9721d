import Datboi.Index.Sweep

/-!
# Runs of the sweep queue

Workers call the queue's methods in any order, and other writers change the tables that the
candidate predicate reads. A lease holds off every other claim until it ends, rows leave only
with a conclusion, a deferral or a failed candidacy, and an item that waits stays out of the
queue as long as the fresh path is not asked for it.
-/

namespace Datboi

namespace Sweep

variable {s : Sweep} {blobId : Nat} {analyzer : Blake3}

/-! ## What the statements do to the queue -/

theorem isQueued_eq_true : s.isQueued blobId analyzer = true ↔
    ∃ row ∈ s.queue, row.blobId = blobId ∧ row.analyzer = analyzer := by
  simp [isQueued]

theorem isQueued_eq_false : s.isQueued blobId analyzer = false ↔
    ∀ row ∈ s.queue, row.blobId = blobId → row.analyzer ≠ analyzer := by
  simp [isQueued]

variable {row : SweepRow} {blockedBy : List Blake3} {limit : Nat} {nowUnix : Int}

theorem mem_insertRow {other : SweepRow} (hmem : other ∈ (s.insertRow row).queue) :
    other ∈ s.queue ∨ (other = row ∧ s.isQueued row.blobId row.analyzer = false) := by
  unfold insertRow at hmem
  split at hmem
  · exact Or.inl hmem
  · rename_i hfree
    rcases List.mem_append.mp hmem with hold | hnew
    · exact Or.inl hold
    · exact Or.inr ⟨List.mem_singleton.mp hnew, by simpa using hfree⟩

theorem subset_insertRow {other : SweepRow} (hmem : other ∈ s.queue) :
    other ∈ (s.insertRow row).queue := by
  unfold insertRow
  split
  · exact hmem
  · exact List.mem_append_left _ hmem

/-- Nothing but the queue changes. -/
structure SameTables (s s' : Sweep) : Prop where
  db : s'.db = s.db
  sourceFileBlobs : s'.sourceFileBlobs = s.sourceFileBlobs
  absentEligible : s'.absentEligible = s.absentEligible
  analysis : s'.analysis = s.analysis
  deferred : s'.deferred = s.deferred

namespace SameTables

variable {s₁ s₂ s₃ : Sweep}

@[refl] theorem refl (s : Sweep) : SameTables s s := ⟨rfl, rfl, rfl, rfl, rfl⟩

theorem trans (h₁₂ : SameTables s₁ s₂) (h₂₃ : SameTables s₂ s₃) : SameTables s₁ s₃ :=
  ⟨h₂₃.db.trans h₁₂.db, h₂₃.sourceFileBlobs.trans h₁₂.sourceFileBlobs,
    h₂₃.absentEligible.trans h₁₂.absentEligible, h₂₃.analysis.trans h₁₂.analysis,
    h₂₃.deferred.trans h₁₂.deferred⟩

theorem eq (hsame : SameTables s₁ s₂) : s₂ = { s₁ with queue := s₂.queue } := by
  cases s₁
  cases s₂
  obtain ⟨rfl, rfl, rfl, rfl, rfl⟩ := hsame
  rfl

theorem isCandidate (hsame : SameTables s₁ s₂) (candidacy : Candidacy) (blobId : Nat) :
    s₂.isCandidate candidacy blobId = s₁.isCandidate candidacy blobId := by
  rw [hsame.eq]
  rfl

theorem isAnalyzed (hsame : SameTables s₁ s₂) (blobId : Nat) (analyzer : Blake3) :
    s₂.isAnalyzed blobId analyzer = s₁.isAnalyzed blobId analyzer := by
  rw [hsame.eq]
  rfl

end SameTables

theorem insertRow_same (s : Sweep) (row : SweepRow) : SameTables s (s.insertRow row) := by
  unfold insertRow
  split <;> exact ⟨rfl, rfl, rfl, rfl, rfl⟩

theorem insertAll_same (s : Sweep) (rows : List SweepRow) : SameTables s (s.insertAll rows) := by
  induction rows generalizing s with
  | nil => exact .refl s
  | cons row rows ih => exact (insertRow_same s row).trans (ih (s.insertRow row))

theorem subset_insertAll {rows : List SweepRow} {row : SweepRow} (hmem : row ∈ s.queue) :
    row ∈ (s.insertAll rows).queue := by
  induction rows generalizing s with
  | nil => exact hmem
  | cons head rows ih => exact ih (subset_insertRow hmem)

/-- A row that an insertion adds has a key that was free. -/
theorem mem_insertAll {rows : List SweepRow} (hmem : row ∈ (s.insertAll rows).queue) :
    row ∈ s.queue ∨ (row ∈ rows ∧ s.isQueued row.blobId row.analyzer = false) := by
  induction rows generalizing s with
  | nil => exact Or.inl hmem
  | cons head rows ih =>
    rcases ih hmem with hold | ⟨hnew, hfree⟩
    · rcases mem_insertRow hold with hold | ⟨rfl, hfree⟩
      · exact Or.inl hold
      · exact Or.inr ⟨List.mem_cons_self, hfree⟩
    · refine Or.inr ⟨List.mem_cons_of_mem head hnew, ?_⟩
      rw [isQueued_eq_false] at hfree ⊢
      exact fun other hother => hfree other (subset_insertRow hother)

theorem queued_insertRow (s : Sweep) (row : SweepRow) :
    (s.insertRow row).isQueued row.blobId row.analyzer = true := by
  unfold insertRow
  split
  · rename_i hqueued
    exact hqueued
  · exact isQueued_eq_true.mpr ⟨row, List.mem_append_right _ List.mem_cons_self, rfl, rfl⟩

theorem queued_insertAll {rows : List SweepRow} {row : SweepRow} (hrow : row ∈ rows) :
    (s.insertAll rows).isQueued row.blobId row.analyzer = true := by
  induction rows generalizing s with
  | nil => cases hrow
  | cons head rows ih =>
    rcases List.mem_cons.mp hrow with rfl | hrest
    · obtain ⟨found, hfound, hkey⟩ := isQueued_eq_true.mp (queued_insertRow s row)
      exact isQueued_eq_true.mpr ⟨found, @subset_insertAll (s.insertRow row) rows _ hfound, hkey⟩
    · exact @ih (s.insertRow head) hrest

/-- An update that keeps each row's key. -/
theorem isQueued_updateRows {f : SweepRow → SweepRow}
    (hkey : ∀ row, (f row).blobId = row.blobId ∧ (f row).analyzer = row.analyzer)
    (blobId : Nat) (analyzer : Blake3) (otherId : Nat) (other : Blake3) :
    (s.updateRows blobId analyzer f).isQueued otherId other = s.isQueued otherId other := by
  simp only [updateRows, isQueued, List.any_map]
  congr 1
  funext row
  simp only [Function.comp_apply]
  split
  · rw [(hkey row).1, (hkey row).2]
  · rfl

theorem mem_updateRows {f : SweepRow → SweepRow}
    (hmem : row ∈ (s.updateRows blobId analyzer f).queue) :
    (∃ old ∈ s.queue, old.blobId = blobId ∧ old.analyzer = analyzer ∧ row = f old) ∨
      row ∈ s.queue ∧ ¬ (row.blobId = blobId ∧ row.analyzer = analyzer) := by
  obtain ⟨old, hold, rfl⟩ := List.mem_map.mp hmem
  by_cases hkey : old.blobId = blobId ∧ old.analyzer = analyzer
  · exact Or.inl ⟨old, hold, hkey.1, hkey.2, if_pos hkey⟩
  · rw [if_neg hkey]
    exact Or.inr ⟨hold, hkey⟩

theorem updateRows_same (s : Sweep) (blobId : Nat) (analyzer : Blake3) (f : SweepRow → SweepRow) :
    SameTables s (s.updateRows blobId analyzer f) := ⟨rfl, rfl, rfl, rfl, rfl⟩

theorem renew_same (s : Sweep) (blobId : Nat) (analyzer : Blake3) (nowUnix leaseSecs : Int) :
    SameTables s (s.renew blobId analyzer nowUnix leaseSecs) := updateRows_same s _ _ _

theorem isQueued_renew (blobId : Nat) (analyzer : Blake3) (nowUnix leaseSecs : Int)
    (otherId : Nat) (other : Blake3) :
    (s.renew blobId analyzer nowUnix leaseSecs).isQueued otherId other =
      s.isQueued otherId other := by
  rw [renew]
  apply isQueued_updateRows
  exact fun _ => ⟨rfl, rfl⟩

theorem isQueued_deleteRow (blobId : Nat) (analyzer : Blake3) (otherId : Nat) (other : Blake3) :
    (s.deleteRow blobId analyzer).isQueued otherId other = true ↔
      s.isQueued otherId other = true ∧ ¬ (otherId = blobId ∧ other = analyzer) := by
  simp only [isQueued_eq_true, deleteRow, List.mem_filter, decide_eq_true_eq]
  constructor
  · rintro ⟨row, ⟨hrow, hkept⟩, rfl, rfl⟩
    exact ⟨⟨row, hrow, rfl, rfl⟩, hkept⟩
  · rintro ⟨⟨row, hrow, rfl, rfl⟩, hkept⟩
    exact ⟨row, ⟨hrow, hkept⟩, rfl, rfl⟩

/-! ## The methods -/

theorem mem_prune {candidacy : Candidacy} {atUnix : Int} :
    row ∈ (s.prune analyzer candidacy atUnix).queue ↔
      row ∈ s.queue ∧ s.isPruned analyzer candidacy atUnix row = false := by
  rw [prune, List.mem_filter, decide_eq_true_eq]

theorem insertUnanalyzed_same (s : Sweep) (analyzer : Blake3) (candidacy : Candidacy)
    (atUnix : Int) : SameTables s (s.insertUnanalyzed analyzer candidacy atUnix) :=
  insertAll_same _ _

/-- A row after the scan was there, or is the new row of an unanalyzed candidate that does not
wait. -/
theorem mem_insertUnanalyzed {candidacy : Candidacy} {atUnix : Int}
    (hmem : row ∈ (s.insertUnanalyzed analyzer candidacy atUnix).queue) :
    row ∈ s.queue ∨
      (row.analyzer = analyzer ∧ s.isAnalyzed row.blobId analyzer = false ∧
        s.isWaiting row.blobId analyzer = false ∧ s.isQueued row.blobId analyzer = false) := by
  rcases mem_insertAll hmem with hold | ⟨hnew, hfree⟩
  · exact Or.inl hold
  · obtain ⟨blob, hblob, rfl⟩ := List.mem_map.mp hnew
    simp only [unanalyzed, List.mem_filter, decide_eq_true_eq] at hblob
    obtain ⟨_, _, _, hanalyzed, hwaiting⟩ := hblob
    exact Or.inr ⟨rfl, hanalyzed, hwaiting, hfree⟩

theorem isQueued_insertUnanalyzed {candidacy : Candidacy} {atUnix : Int} {otherId : Nat}
    {other : Blake3} (hqueued : s.isQueued otherId other = true) :
    (s.insertUnanalyzed analyzer candidacy atUnix).isQueued otherId other = true := by
  obtain ⟨row, hrow, hkey⟩ := isQueued_eq_true.mp hqueued
  exact isQueued_eq_true.mpr ⟨row, subset_insertAll hrow, hkey⟩

/-- After a scan, every candidate is concluded, deferred or queued. -/
theorem covered_insertUnanalyzed {candidacy : Candidacy} (atUnix : Int)
    (hcandidate : s.isCandidate candidacy blobId = true) :
    s.isAnalyzed blobId analyzer = true ∨ s.isDeferred blobId analyzer = true ∨
      (s.insertUnanalyzed analyzer candidacy atUnix).isQueued blobId analyzer = true := by
  by_cases hanalyzed : s.isAnalyzed blobId analyzer = true
  · exact Or.inl hanalyzed
  by_cases hwaiting : s.isWaiting blobId analyzer = true
  · refine Or.inr (Or.inl ?_)
    simp only [isWaiting, isDeferred, List.any_eq_true, decide_eq_true_eq] at hwaiting ⊢
    obtain ⟨row, hrow, hid, hanalyzer, _⟩ := hwaiting
    exact ⟨row, hrow, hid, hanalyzer⟩
  · refine Or.inr (Or.inr ?_)
    obtain ⟨blob, hblob, hadmits⟩ := (Option.any_eq_true _ _).mp hcandidate
    rw [decide_eq_true_eq] at hadmits
    obtain ⟨hmem, rfl⟩ := Table.byId_eq_some.mp hblob
    let row : SweepRow := ⟨blob.blobId, analyzer, priorityAmbient, atUnix, 0⟩
    apply @queued_insertAll _ _ row
    refine List.mem_map.mpr ⟨blob, ?_, rfl⟩
    simp only [unanalyzed, List.mem_filter, decide_eq_true_eq]
    rw [Bool.not_eq_true] at hanalyzed hwaiting
    exact ⟨hmem, hadmits.1, hadmits.2, hanalyzed, hwaiting⟩

section Fresh

variable {candidacy : Candidacy} {atUnix : Int}

theorem enqueueFreshOne_same (s : Sweep) (blobId : Nat) :
    SameTables s (enqueueFreshOne analyzer candidacy atUnix s blobId).1 := by
  unfold enqueueFreshOne
  split
  · exact insertRow_same s _
  · exact updateRows_same s _ _ _

/-- A row after one fresh blob is an old row but for its priority, or the blob's new row. -/
theorem mem_enqueueFreshOne {row : SweepRow}
    (hmem : row ∈ (enqueueFreshOne analyzer candidacy atUnix s blobId).1.queue) :
    (∃ old ∈ s.queue, row.blobId = old.blobId ∧ row.analyzer = old.analyzer ∧
        row.leasedUntil = old.leasedUntil) ∨
      (row.blobId = blobId ∧ row.analyzer = analyzer ∧ s.isQueued blobId analyzer = false ∧
        s.isAnalyzed blobId analyzer = false ∧ s.isCandidate candidacy blobId = true) := by
  unfold enqueueFreshOne at hmem
  split at hmem
  · rename_i hinsert
    rcases mem_insertRow hmem with hold | ⟨rfl, _⟩
    · exact Or.inl ⟨row, hold, rfl, rfl, rfl⟩
    · exact Or.inr ⟨rfl, rfl, hinsert⟩
  · obtain ⟨old, hold, rfl⟩ := List.mem_map.mp hmem
    refine Or.inl ⟨old, hold, ?_⟩
    split
    · dsimp only
      split <;> exact ⟨rfl, rfl, rfl⟩
    · exact ⟨rfl, rfl, rfl⟩

theorem isQueued_enqueueFreshOne {otherId : Nat} {other : Blake3}
    (hqueued : s.isQueued otherId other = true) :
    (enqueueFreshOne analyzer candidacy atUnix s blobId).1.isQueued otherId other = true := by
  unfold enqueueFreshOne
  split
  · obtain ⟨row, hrow, hkey⟩ := isQueued_eq_true.mp hqueued
    exact isQueued_eq_true.mpr ⟨row, subset_insertRow hrow, hkey⟩
  · rw [isQueued_updateRows, hqueued]
    intro row
    split <;> exact ⟨rfl, rfl⟩

/-- The loop of `enqueueFresh` with its count set aside. -/
theorem enqueueFresh_fst (s : Sweep) (blobIds : List Nat) :
    (s.enqueueFresh analyzer candidacy blobIds atUnix).1 =
      blobIds.foldl (fun s blobId => (enqueueFreshOne analyzer candidacy atUnix s blobId).1) s := by
  have hcount : ∀ (ids : List Nat) (s : Sweep) (n : Nat),
      (ids.foldl (fun (acc : Sweep × Nat) blobId =>
        ((enqueueFreshOne analyzer candidacy atUnix acc.1 blobId).1,
          acc.2 + (enqueueFreshOne analyzer candidacy atUnix acc.1 blobId).2)) (s, n)).1 =
      ids.foldl (fun s blobId => (enqueueFreshOne analyzer candidacy atUnix s blobId).1) s := by
    intro ids
    induction ids with
    | nil => exact fun _ _ => rfl
    | cons head ids ih => exact fun s n => ih _ _
  exact hcount blobIds s 0

/-- Predicates that each fresh blob keeps hold after the loop. -/
theorem enqueueFresh_induction {P : Sweep → Prop} {blobIds : List Nat} (hstart : P s)
    (hstep : ∀ s blobId, blobId ∈ blobIds → P s →
      P (enqueueFreshOne analyzer candidacy atUnix s blobId).1) :
    P (s.enqueueFresh analyzer candidacy blobIds atUnix).1 := by
  rw [enqueueFresh_fst]
  induction blobIds generalizing s with
  | nil => exact hstart
  | cons head ids ih =>
    refine ih (hstep s head List.mem_cons_self hstart) ?_
    exact fun s blobId hmem => hstep s blobId (List.mem_cons_of_mem head hmem)

/-- After a fresh enqueue, every listed candidate is concluded or queued. -/
theorem covered_enqueueFresh {blobIds : List Nat} (hmem : blobId ∈ blobIds)
    (hcandidate : s.isCandidate candidacy blobId = true) :
    s.isAnalyzed blobId analyzer = true ∨
      (s.enqueueFresh analyzer candidacy blobIds atUnix).1.isQueued blobId analyzer = true := by
  rw [enqueueFresh_fst]
  induction blobIds generalizing s with
  | nil => cases hmem
  | cons head ids ih =>
    have hsame := @enqueueFreshOne_same analyzer candidacy atUnix s head
    rw [List.foldl_cons]
    rcases List.mem_cons.mp hmem with rfl | hrest
    · by_cases hanalyzed : s.isAnalyzed blobId analyzer = true
      · exact Or.inl hanalyzed
      refine Or.inr ?_
      have hqueued : (enqueueFreshOne analyzer candidacy atUnix s blobId).1.isQueued blobId
          analyzer = true := by
        by_cases hqueued : s.isQueued blobId analyzer = true
        · exact isQueued_enqueueFreshOne hqueued
        · rw [Bool.not_eq_true] at hanalyzed hqueued
          rw [enqueueFreshOne, if_pos ⟨hqueued, hanalyzed, hcandidate⟩]
          exact queued_insertRow s ⟨blobId, analyzer, priorityFresh, atUnix, 0⟩
      rw [← enqueueFresh_fst]
      exact enqueueFresh_induction (P := fun s' => s'.isQueued blobId analyzer = true) hqueued
        fun _ _ _ => isQueued_enqueueFreshOne
    · rw [← hsame.isAnalyzed]
      exact ih hrest (by rw [hsame.isCandidate, hcandidate])

theorem enqueueFresh_same (s : Sweep) (blobIds : List Nat) :
    SameTables s (s.enqueueFresh analyzer candidacy blobIds atUnix).1 :=
  enqueueFresh_induction (SameTables.refl s) fun s' blobId _ hsame =>
    hsame.trans (enqueueFreshOne_same s' blobId)

end Fresh

theorem mem_claimable (hmem : row ∈ s.claimable analyzer blockedBy limit nowUnix) :
    row ∈ s.queue ∧ s.isClaimable analyzer blockedBy nowUnix row = true := by
  have hsorted := List.mem_of_mem_take hmem
  rw [List.mem_insertionSort, List.mem_filter] at hsorted
  exact hsorted

/-- A claimed item has a row that was claimable. -/
theorem mem_claimSweepItems {leaseSecs : Int} {item : SweepItem}
    (hmem : item ∈ (s.claimSweepItems analyzer blockedBy limit nowUnix leaseSecs).2) :
    ∃ row ∈ s.claimable analyzer blockedBy limit nowUnix, row.blobId = item.blobId := by
  obtain ⟨row, hrow, hitem⟩ := List.mem_filterMap.mp hmem
  refine ⟨row, hrow, ?_⟩
  obtain ⟨blob, _, rfl⟩ := Option.map_eq_some_iff.mp hitem
  rfl

/-- Predicates that each renewal keeps hold after the claimed rows are leased. -/
theorem claimSweepItems_induction {P : Sweep → Prop} {leaseSecs : Int} (hstart : P s)
    (hstep : ∀ s blobId, P s → P (s.renew blobId analyzer nowUnix leaseSecs)) :
    P (s.claimSweepItems analyzer blockedBy limit nowUnix leaseSecs).1 := by
  unfold claimSweepItems
  dsimp only
  generalize s.claimable analyzer blockedBy limit nowUnix = rows
  induction rows generalizing s with
  | nil => exact hstart
  | cons row rows ih => exact ih (hstep s row.blobId hstart)

theorem claimSweepItems_same (s : Sweep) (blockedBy : List Blake3) (limit : Nat)
    (nowUnix leaseSecs : Int) :
    SameTables s (s.claimSweepItems analyzer blockedBy limit nowUnix leaseSecs).1 :=
  claimSweepItems_induction (SameTables.refl s) fun s' blobId hsame =>
    hsame.trans (renew_same s' blobId _ _ _)

theorem isQueued_claimSweepItems (blockedBy : List Blake3) (limit : Nat) (nowUnix leaseSecs : Int)
    (otherId : Nat) (other : Blake3) :
    (s.claimSweepItems analyzer blockedBy limit nowUnix leaseSecs).1.isQueued otherId other =
      s.isQueued otherId other :=
  claimSweepItems_induction
    (P := fun s' => s'.isQueued otherId other = s.isQueued otherId other) rfl
    fun _ blobId hsame => (isQueued_renew blobId _ _ _ _ _).trans hsame

end Sweep

/-! ## Runs -/

/-- A transaction on the queue, with what it is given; `enqueue_unanalyzed` is two of them.
`index` stands for what other writers do to the tables that the queue only reads. -/
inductive SweepOp where
  | prune (analyzer : Blake3) (candidacy : Candidacy) (atUnix : Int)
  | insertUnanalyzed (analyzer : Blake3) (candidacy : Candidacy) (atUnix : Int)
  | enqueueFresh (analyzer : Blake3) (candidacy : Candidacy) (blobIds : List Nat) (atUnix : Int)
  | bumpDatMatchedPriorities
  | claim (analyzer : Blake3) (blockedBy : List Blake3) (limit : Nat) (nowUnix leaseSecs : Int)
  | renew (blobId : Nat) (analyzer : Blake3) (nowUnix leaseSecs : Int)
  | release (blobId : Nat) (analyzer : Blake3)
  | complete (blobId : Nat) (analyzer : Blake3) (outcome : AnalysisOutcome)
      (detail : Option String) (atUnix : Int)
  | defer (blobId : Nat) (analyzer : Blake3) (waitingOn : Blake3)
  | index (db : Db) (sourceFileBlobs absentEligible : List Nat)

namespace SweepOp

/-- The tables after the call; a failed one leaves them. -/
def apply (s : Sweep) : SweepOp → Sweep
  | .prune analyzer candidacy atUnix => s.prune analyzer candidacy atUnix
  | .insertUnanalyzed analyzer candidacy atUnix => s.insertUnanalyzed analyzer candidacy atUnix
  | .enqueueFresh analyzer candidacy blobIds atUnix =>
    (s.enqueueFresh analyzer candidacy blobIds atUnix).1
  | .bumpDatMatchedPriorities => s.bumpDatMatchedPriorities.1
  | .claim analyzer blockedBy limit nowUnix leaseSecs =>
    (s.claimSweepItems analyzer blockedBy limit nowUnix leaseSecs).1
  | .renew blobId analyzer nowUnix leaseSecs => s.renew blobId analyzer nowUnix leaseSecs
  | .release blobId analyzer => s.releaseSweepLease blobId analyzer
  | .complete blobId analyzer outcome detail atUnix =>
    match s.completeSweepItem blobId analyzer outcome detail atUnix with
    | .ok s' => s'
    | .error _ => s
  | .defer blobId analyzer waitingOn =>
    match s.deferSweepItem blobId analyzer waitingOn with
    | .ok s' => s'
    | .error _ => s
  | .index db sourceFileBlobs absentEligible => { s with db, sourceFileBlobs, absentEligible }

/-- The items that the call hands out: blob and analyzer. -/
def claimed (s : Sweep) : SweepOp → List (Nat × Blake3)
  | .claim analyzer blockedBy limit nowUnix leaseSecs =>
    (s.claimSweepItems analyzer blockedBy limit nowUnix leaseSecs).2.map fun item =>
      (item.blobId, analyzer)
  | _ => []

/-- The clock reading that the call was given. The scan's reading is that of its prune. -/
def time : SweepOp → Option Int
  | .prune _ _ atUnix => some atUnix
  | .enqueueFresh _ _ _ atUnix => some atUnix
  | .claim _ _ _ nowUnix _ => some nowUnix
  | .renew _ _ nowUnix _ => some nowUnix
  | .complete _ _ _ _ atUnix => some atUnix
  | _ => none

/-- The lease length that the call was given. -/
def lease : SweepOp → Option Int
  | .claim _ _ _ _ leaseSecs => some leaseSecs
  | .renew _ _ _ leaseSecs => some leaseSecs
  | _ => none

/-- The call completes, defers or releases the item. -/
def Ends (blobId : Nat) (analyzer : Blake3) : SweepOp → Prop
  | .release id other => id = blobId ∧ other = analyzer
  | .complete id other _ _ _ => id = blobId ∧ other = analyzer
  | .defer id other _ => id = blobId ∧ other = analyzer
  | _ => False

/-- A nondecreasing clock from `now` on, and one lease length. -/
def Clocked (leaseSecs : Int) : Int → List SweepOp → Prop
  | _, [] => True
  | now, op :: ops =>
    (∀ t ∈ op.time, now ≤ t) ∧ (∀ l ∈ op.lease, l = leaseSecs) ∧
      Clocked leaseSecs (op.time.getD now) ops

def run (s : Sweep) (ops : List SweepOp) : Sweep := ops.foldl apply s

/-- The fresh path is not given a blob that it would queue although the item waits, and the end
of a lease is a time stamp. -/
def Heeds (s : Sweep) : SweepOp → Prop
  | .enqueueFresh analyzer candidacy blobIds _ => ∀ blobId ∈ blobIds,
      s.isWaiting blobId analyzer = true → s.isQueued blobId analyzer = true ∨
        s.isAnalyzed blobId analyzer = true ∨ s.isCandidate candidacy blobId = false
  | .claim _ _ _ nowUnix leaseSecs => nowUnix + leaseSecs < 2 ^ 63
  | .renew _ _ nowUnix leaseSecs => nowUnix + leaseSecs < 2 ^ 63
  | _ => True

/-- Every step of the run heeds the waits. -/
def Heeded : Sweep → List SweepOp → Prop
  | _, [] => True
  | s, op :: ops => op.Heeds s ∧ Heeded (op.apply s) ops

/-! ## Rows come and go -/

section Steps

variable {s : Sweep} {op : SweepOp} {blobId : Nat} {analyzer : Blake3}

theorem isQueued_bump (s : Sweep) (blobId : Nat) (analyzer : Blake3) :
    s.bumpDatMatchedPriorities.1.isQueued blobId analyzer = s.isQueued blobId analyzer := by
  simp only [Sweep.bumpDatMatchedPriorities, Sweep.isQueued, List.any_map]
  congr 1
  funext row
  simp only [Function.comp_apply]
  split <;> rfl

/-- The tables after a conclusion on a blob that is there. -/
def concluded (s : Sweep) (row : Analysis) : Sweep :=
  { s.deleteRow row.blobId row.analyzer with
    analysis := (s.analysis.filter fun old =>
      ¬ (old.blobId = row.blobId ∧ old.analyzer = row.analyzer)) ++ [row]
    deferred := s.deferred.filter fun old =>
      ¬ (old.blobId = row.blobId ∧ old.analyzer = row.analyzer) }

theorem apply_complete (s : Sweep) (blobId : Nat) (analyzer : Blake3) (outcome : AnalysisOutcome)
    (detail : Option String) (atUnix : Int) :
    (complete blobId analyzer outcome detail atUnix).apply s = s ∨
      (complete blobId analyzer outcome detail atUnix).apply s =
        concluded s ⟨blobId, analyzer, outcome, detail, atUnix⟩ := by
  by_cases hblob : s.db.blobById blobId = none
  · exact Or.inl (by simp [apply, Sweep.completeSweepItem, hblob])
  · exact Or.inr (by simp [apply, Sweep.completeSweepItem, hblob, concluded])

/-- The tables after a deferral of an item whose blob is there. -/
def waited (s : Sweep) (row : Deferral) : Sweep :=
  { s.deleteRow row.blobId row.analyzer with
    deferred := (s.deferred.filter fun old =>
      ¬ (old.blobId = row.blobId ∧ old.analyzer = row.analyzer)) ++ [row] }

theorem apply_defer (s : Sweep) (blobId : Nat) (analyzer : Blake3) (waitingOn : Blake3) :
    (defer blobId analyzer waitingOn).apply s = s ∨
      (defer blobId analyzer waitingOn).apply s = waited s ⟨blobId, analyzer, waitingOn⟩ := by
  by_cases hblob : s.db.blobById blobId = none
  · exact Or.inl (by simp [apply, Sweep.deferSweepItem, hblob])
  · exact Or.inr (by simp [apply, Sweep.deferSweepItem, hblob, waited])

/-- A deletion that removes a key removes that key. -/
theorem eq_of_deleteRow {otherId : Nat} {other : Blake3}
    (hqueued : s.isQueued blobId analyzer = true)
    (hgone : (s.deleteRow otherId other).isQueued blobId analyzer = false) :
    blobId = otherId ∧ analyzer = other := by
  by_contra hne
  rw [(Sweep.isQueued_deleteRow otherId other blobId analyzer).mpr ⟨hqueued, hne⟩] at hgone
  cases hgone

/-- A queue row disappears only with a conclusion, with a deferral, or because its blob is no
candidate. -/
theorem gone_of_apply (hqueued : s.isQueued blobId analyzer = true)
    (hgone : (op.apply s).isQueued blobId analyzer = false) :
    (∃ outcome detail atUnix, op = .complete blobId analyzer outcome detail atUnix ∧
        (op.apply s).isAnalyzed blobId analyzer = true) ∨
      (∃ waitingOn, op = .defer blobId analyzer waitingOn ∧
        (op.apply s).isDeferred blobId analyzer = true) ∨
      ∃ candidacy atUnix, op = .prune analyzer candidacy atUnix ∧
        s.isCandidate candidacy blobId = false := by
  obtain ⟨row, hrow, rfl, rfl⟩ := Sweep.isQueued_eq_true.mp hqueued
  cases op with
  | insertUnanalyzed other candidacy atUnix =>
    rw [apply, Sweep.isQueued_insertUnanalyzed hqueued] at hgone
    cases hgone
  | prune other candidacy atUnix =>
    refine Or.inr (Or.inr ?_)
    cases hpruned : s.isPruned other candidacy atUnix row with
    | false =>
      have hkept := Sweep.mem_prune.mpr ⟨hrow, hpruned⟩
      exact absurd rfl (Sweep.isQueued_eq_false.mp hgone row hkept rfl)
    | true =>
      simp only [Sweep.isPruned, decide_eq_true_eq] at hpruned
      obtain ⟨rfl, _, hcandidate⟩ := hpruned
      exact ⟨candidacy, atUnix, rfl, hcandidate⟩
  | enqueueFresh other candidacy blobIds atUnix =>
    have hkept : (s.enqueueFresh other candidacy blobIds atUnix).1.isQueued row.blobId
        row.analyzer = true :=
      Sweep.enqueueFresh_induction
        (P := fun s' => s'.isQueued row.blobId row.analyzer = true) hqueued
        fun _ _ _ => Sweep.isQueued_enqueueFreshOne
    rw [apply, hkept] at hgone
    cases hgone
  | bumpDatMatchedPriorities =>
    rw [apply, isQueued_bump, hqueued] at hgone
    cases hgone
  | claim other blockedBy limit nowUnix leaseSecs =>
    rw [apply, Sweep.isQueued_claimSweepItems, hqueued] at hgone
    cases hgone
  | renew other analyzer nowUnix leaseSecs =>
    rw [apply, Sweep.isQueued_renew, hqueued] at hgone
    cases hgone
  | release other analyzer =>
    rw [apply, Sweep.releaseSweepLease, Sweep.isQueued_updateRows, hqueued] at hgone
    · cases hgone
    · exact fun _ => ⟨rfl, rfl⟩
  | complete other analyzer outcome detail atUnix =>
    rcases apply_complete s other analyzer outcome detail atUnix with hfailed | hdone
    · rw [hfailed, hqueued] at hgone
      cases hgone
    · rw [hdone] at hgone ⊢
      obtain ⟨rfl, rfl⟩ := eq_of_deleteRow hqueued hgone
      exact Or.inl ⟨outcome, detail, atUnix, rfl, by simp [Sweep.isAnalyzed, concluded]⟩
  | defer other analyzer waitingOn =>
    rcases apply_defer s other analyzer waitingOn with hfailed | hdone
    · rw [hfailed, hqueued] at hgone
      cases hgone
    · rw [hdone] at hgone ⊢
      obtain ⟨rfl, rfl⟩ := eq_of_deleteRow hqueued hgone
      exact Or.inr (Or.inl ⟨waitingOn, rfl, by simp [Sweep.isDeferred, waited]⟩)
  | index db sourceFileBlobs absentEligible =>
    change s.isQueued row.blobId row.analyzer = false at hgone
    rw [hqueued] at hgone
    cases hgone

/-- A key that a step adds to the queue is one that an enqueue path inserts. -/
theorem added_of_apply (hfree : s.isQueued blobId analyzer = false)
    (hqueued : (op.apply s).isQueued blobId analyzer = true) :
    (∃ candidacy atUnix, op = .insertUnanalyzed analyzer candidacy atUnix ∧
        s.isAnalyzed blobId analyzer = false ∧ s.isWaiting blobId analyzer = false) ∨
      ∃ candidacy blobIds atUnix, op = .enqueueFresh analyzer candidacy blobIds atUnix ∧
        blobId ∈ blobIds ∧ s.isAnalyzed blobId analyzer = false ∧
        s.isCandidate candidacy blobId = true := by
  cases op with
  | prune other candidacy atUnix =>
    obtain ⟨row, hrow, hid, hanalyzer⟩ := Sweep.isQueued_eq_true.mp hqueued
    exact absurd hanalyzer
      (Sweep.isQueued_eq_false.mp hfree row (Sweep.mem_prune.mp hrow).1 hid)
  | insertUnanalyzed other candidacy atUnix =>
    obtain ⟨row, hrow, rfl, rfl⟩ := Sweep.isQueued_eq_true.mp hqueued
    rcases Sweep.mem_insertUnanalyzed hrow with hold | ⟨rfl, hanalyzed, hwaiting, _⟩
    · exact absurd rfl (Sweep.isQueued_eq_false.mp hfree row hold rfl)
    · exact Or.inl ⟨candidacy, atUnix, rfl, hanalyzed, hwaiting⟩
  | enqueueFresh other candidacy blobIds atUnix =>
    refine Or.inr ?_
    -- The loop inserts the key, if at all, at the first listed blob that has it.
    have hloop : (s.enqueueFresh other candidacy blobIds atUnix).1.isQueued blobId analyzer =
        true → analyzer = other ∧ blobId ∈ blobIds ∧ s.isAnalyzed blobId analyzer = false ∧
          s.isCandidate candidacy blobId = true := by
      refine (Sweep.enqueueFresh_induction (P := fun s' => Sweep.SameTables s s' ∧
        (s'.isQueued blobId analyzer = true → analyzer = other ∧ blobId ∈ blobIds ∧
          s.isAnalyzed blobId analyzer = false ∧ s.isCandidate candidacy blobId = true))
        ⟨.refl s, fun hqueued => ?_⟩ ?_).2
      · rw [hfree] at hqueued
        cases hqueued
      · rintro s' fresh hfresh ⟨hsame, hold⟩
        refine ⟨hsame.trans (Sweep.enqueueFreshOne_same s' fresh), fun hqueued => ?_⟩
        obtain ⟨row, hrow, rfl, rfl⟩ := Sweep.isQueued_eq_true.mp hqueued
        rcases Sweep.mem_enqueueFreshOne hrow with
          ⟨old, hmem, hid, hanalyzer, _⟩ | ⟨rfl, rfl, _, hanalyzed, hcandidate⟩
        · exact hold (Sweep.isQueued_eq_true.mpr ⟨old, hmem, hid.symm, hanalyzer.symm⟩)
        · rw [hsame.isAnalyzed] at hanalyzed
          rw [hsame.isCandidate] at hcandidate
          exact ⟨rfl, hfresh, hanalyzed, hcandidate⟩
    obtain ⟨rfl, hmem, hanalyzed, hcandidate⟩ := hloop hqueued
    exact ⟨candidacy, blobIds, atUnix, rfl, hmem, hanalyzed, hcandidate⟩
  | bumpDatMatchedPriorities =>
    rw [apply, isQueued_bump, hfree] at hqueued
    cases hqueued
  | claim other blockedBy limit nowUnix leaseSecs =>
    rw [apply, Sweep.isQueued_claimSweepItems, hfree] at hqueued
    cases hqueued
  | renew other analyzer nowUnix leaseSecs =>
    rw [apply, Sweep.isQueued_renew, hfree] at hqueued
    cases hqueued
  | release other analyzer =>
    rw [apply, Sweep.releaseSweepLease, Sweep.isQueued_updateRows, hfree] at hqueued
    · cases hqueued
    · exact fun _ => ⟨rfl, rfl⟩
  | complete other analyzer outcome detail atUnix =>
    rcases apply_complete s other analyzer outcome detail atUnix with hfailed | hdone
    · rw [hfailed, hfree] at hqueued
      cases hqueued
    · rw [hdone] at hqueued
      rw [((Sweep.isQueued_deleteRow _ _ _ _).mp hqueued).1] at hfree
      cases hfree
  | defer other analyzer waitingOn =>
    rcases apply_defer s other analyzer waitingOn with hfailed | hdone
    · rw [hfailed, hfree] at hqueued
      cases hqueued
    · rw [hdone] at hqueued
      rw [((Sweep.isQueued_deleteRow _ _ _ _).mp hqueued).1] at hfree
      cases hfree
  | index db sourceFileBlobs absentEligible =>
    change s.isQueued blobId analyzer = true at hqueued
    rw [hfree] at hqueued
    cases hqueued

/-- A conclusion that is there after a step was there before, or the step took the item out of
the queue. -/
theorem analyzed_of_apply (hanalyzed : (op.apply s).isAnalyzed blobId analyzer = true) :
    s.isAnalyzed blobId analyzer = true ∨ (op.apply s).isQueued blobId analyzer = false := by
  cases op with
  | insertUnanalyzed other candidacy atUnix =>
    rw [apply, (Sweep.insertUnanalyzed_same s other candidacy atUnix).isAnalyzed] at hanalyzed
    exact Or.inl hanalyzed
  | enqueueFresh other candidacy blobIds atUnix =>
    rw [apply, (Sweep.enqueueFresh_same s blobIds).isAnalyzed] at hanalyzed
    exact Or.inl hanalyzed
  | claim other blockedBy limit nowUnix leaseSecs =>
    rw [apply, (Sweep.claimSweepItems_same s blockedBy limit nowUnix leaseSecs).isAnalyzed]
      at hanalyzed
    exact Or.inl hanalyzed
  | complete other analyzer' outcome detail atUnix =>
    rcases apply_complete s other analyzer' outcome detail atUnix with hfailed | hdone
    · rw [hfailed] at hanalyzed
      exact Or.inl hanalyzed
    · rw [hdone] at hanalyzed ⊢
      by_cases hkey : blobId = other ∧ analyzer = analyzer'
      · refine Or.inr (Bool.eq_false_iff.mpr fun hqueued => ?_)
        exact ((Sweep.isQueued_deleteRow _ _ _ _).mp hqueued).2 hkey
      · simp only [Sweep.isAnalyzed, concluded, List.any_append, List.any_filter,
          List.any_cons, List.any_nil, Bool.or_false, Bool.or_eq_true, List.any_eq_true,
          decide_eq_true_eq, Bool.and_eq_true] at hanalyzed ⊢
        rcases hanalyzed with ⟨row, hrow, _, hmatch⟩ | ⟨rfl, rfl⟩
        · exact Or.inl ⟨row, hrow, hmatch⟩
        · exact absurd ⟨rfl, rfl⟩ hkey
  | defer other analyzer' waitingOn =>
    rcases apply_defer s other analyzer' waitingOn with hfailed | hdone
    · rw [hfailed] at hanalyzed
      exact Or.inl hanalyzed
    · rw [hdone] at hanalyzed
      exact Or.inl hanalyzed
  | prune | bumpDatMatchedPriorities | renew | release | index => exact Or.inl hanalyzed

/-- Conclusions stay. -/
theorem isAnalyzed_apply (op : SweepOp) (hanalyzed : s.isAnalyzed blobId analyzer = true) :
    (op.apply s).isAnalyzed blobId analyzer = true := by
  cases op with
  | insertUnanalyzed other candidacy atUnix =>
    rw [apply, (Sweep.insertUnanalyzed_same s other candidacy atUnix).isAnalyzed, hanalyzed]
  | enqueueFresh other candidacy blobIds atUnix =>
    rw [apply, (Sweep.enqueueFresh_same s blobIds).isAnalyzed, hanalyzed]
  | claim other blockedBy limit nowUnix leaseSecs =>
    rw [apply, (Sweep.claimSweepItems_same s blockedBy limit nowUnix leaseSecs).isAnalyzed,
      hanalyzed]
  | complete other analyzer' outcome detail atUnix =>
    rcases apply_complete s other analyzer' outcome detail atUnix with hfailed | hdone
    · rw [hfailed, hanalyzed]
    · rw [hdone]
      simp only [Sweep.isAnalyzed, List.any_eq_true, decide_eq_true_eq] at hanalyzed ⊢
      obtain ⟨row, hrow, rfl, rfl⟩ := hanalyzed
      by_cases hkey : row.blobId = other ∧ row.analyzer = analyzer'
      · refine ⟨⟨other, analyzer', outcome, detail, atUnix⟩, ?_, hkey.1.symm, hkey.2.symm⟩
        exact List.mem_append_right _ List.mem_cons_self
      · refine ⟨row, List.mem_append_left _ (List.mem_filter.mpr ⟨hrow, ?_⟩), rfl, rfl⟩
        exact decide_eq_true hkey
  | defer other analyzer' waitingOn =>
    rcases apply_defer s other analyzer' waitingOn with hfailed | hdone
    · rw [hfailed, hanalyzed]
    · rw [hdone]
      exact hanalyzed
  | prune | bumpDatMatchedPriorities | renew | release | index => exact hanalyzed

/-- A deferral stays until the item concludes. -/
theorem isDeferred_apply (op : SweepOp) (hdeferred : s.isDeferred blobId analyzer = true) :
    (op.apply s).isDeferred blobId analyzer = true ∨
      (op.apply s).isAnalyzed blobId analyzer = true := by
  have hsame : ∀ {s' : Sweep}, Sweep.SameTables s s' → s'.isDeferred blobId analyzer = true := by
    intro s' hsame
    rw [Sweep.isDeferred, hsame.deferred]
    exact hdeferred
  cases op with
  | insertUnanalyzed other candidacy atUnix =>
    exact Or.inl (hsame (Sweep.insertUnanalyzed_same s other candidacy atUnix))
  | enqueueFresh other candidacy blobIds atUnix =>
    exact Or.inl (hsame (Sweep.enqueueFresh_same s blobIds))
  | claim other blockedBy limit nowUnix leaseSecs =>
    exact Or.inl (hsame (Sweep.claimSweepItems_same s blockedBy limit nowUnix leaseSecs))
  | complete other analyzer' outcome detail atUnix =>
    rcases apply_complete s other analyzer' outcome detail atUnix with hfailed | hdone
    · rw [hfailed]
      exact Or.inl hdeferred
    · rw [hdone]
      by_cases hkey : blobId = other ∧ analyzer = analyzer'
      · obtain ⟨rfl, rfl⟩ := hkey
        exact Or.inr (by simp [Sweep.isAnalyzed, concluded])
      · simp only [Sweep.isDeferred, List.any_eq_true, decide_eq_true_eq] at hdeferred ⊢
        obtain ⟨row, hrow, rfl, rfl⟩ := hdeferred
        refine Or.inl ⟨row, List.mem_filter.mpr ⟨hrow, ?_⟩, rfl, rfl⟩
        exact decide_eq_true hkey
  | defer other analyzer' waitingOn =>
    rcases apply_defer s other analyzer' waitingOn with hfailed | hdone
    · rw [hfailed]
      exact Or.inl hdeferred
    · rw [hdone]
      simp only [Sweep.isDeferred, List.any_eq_true, decide_eq_true_eq] at hdeferred ⊢
      obtain ⟨row, hrow, rfl, rfl⟩ := hdeferred
      by_cases hkey : row.blobId = other ∧ row.analyzer = analyzer'
      · refine Or.inl ⟨⟨other, analyzer', waitingOn⟩, ?_, hkey.1.symm, hkey.2.symm⟩
        exact List.mem_append_right _ List.mem_cons_self
      · refine Or.inl ⟨row, List.mem_append_left _ (List.mem_filter.mpr ⟨hrow, ?_⟩), rfl, rfl⟩
        exact decide_eq_true hkey
  | prune | bumpDatMatchedPriorities | renew | release | index => exact Or.inl hdeferred

/-- Other writers change the index; the queue's own transactions do not. -/
def WritesIndex : SweepOp → Prop
  | .index _ _ _ => True
  | _ => False

theorem isCandidate_apply (hindex : ¬ op.WritesIndex) (candidacy : Candidacy) (blobId : Nat) :
    (op.apply s).isCandidate candidacy blobId = s.isCandidate candidacy blobId := by
  cases op with
  | insertUnanalyzed other candidacy' atUnix =>
    exact (Sweep.insertUnanalyzed_same s other candidacy' atUnix).isCandidate candidacy blobId
  | enqueueFresh other candidacy' blobIds atUnix =>
    exact (Sweep.enqueueFresh_same s blobIds).isCandidate candidacy blobId
  | claim other blockedBy limit nowUnix leaseSecs =>
    exact (Sweep.claimSweepItems_same s blockedBy limit nowUnix leaseSecs).isCandidate
      candidacy blobId
  | complete other analyzer' outcome detail atUnix =>
    rcases apply_complete s other analyzer' outcome detail atUnix with hfailed | hdone
    · rw [hfailed]
    · rw [hdone]
      rfl
  | defer other analyzer' waitingOn =>
    rcases apply_defer s other analyzer' waitingOn with hfailed | hdone
    · rw [hfailed]
    · rw [hdone]
      rfl
  | prune | bumpDatMatchedPriorities | renew | release => rfl
  | index => exact absurd trivial hindex

/-- No concluded item is in the queue. -/
def Settled (s : Sweep) : Prop :=
  ∀ blobId analyzer, s.isAnalyzed blobId analyzer = true → s.isQueued blobId analyzer = false

theorem settled_apply (hsettled : Settled s) (op : SweepOp) : Settled (op.apply s) := by
  intro blobId analyzer hanalyzed
  rcases analyzed_of_apply hanalyzed with hbefore | hgone
  · by_contra hqueued
    rw [Bool.not_eq_false] at hqueued
    have hnew := added_of_apply (hsettled blobId analyzer hbefore) hqueued
    rcases hnew with ⟨_, _, _, hnot, _⟩ | ⟨_, _, _, _, _, hnot, _⟩
    · rw [hbefore] at hnot
      cases hnot
    · rw [hbefore] at hnot
      cases hnot
  · exact hgone

theorem settled_run (hsettled : Settled s) (ops : List SweepOp) : Settled (run s ops) := by
  induction ops generalizing s with
  | nil => exact hsettled
  | cons op ops ih => exact ih (settled_apply hsettled op)

/-- A claimed item is in the queue, and no lease runs on one of its rows at that time. -/
theorem row_of_claimed (hclaimed : (blobId, analyzer) ∈ op.claimed s) :
    ∃ row ∈ s.queue, row.blobId = blobId ∧ row.analyzer = analyzer ∧
      ∀ t ∈ op.time, row.leasedUntil ≤ t := by
  cases op with
  | claim other blockedBy limit nowUnix leaseSecs =>
    obtain ⟨item, hitem, hkey⟩ := List.mem_map.mp hclaimed
    cases hkey
    obtain ⟨row, hrow, hid⟩ := Sweep.mem_claimSweepItems hitem
    obtain ⟨hmem, hclaimable⟩ := Sweep.mem_claimable hrow
    simp only [Sweep.isClaimable, decide_eq_true_eq] at hclaimable
    obtain ⟨hanalyzer, _, hfree, _⟩ := hclaimable
    refine ⟨row, hmem, hid, hanalyzer, ?_⟩
    rintro _ ⟨⟩
    exact hfree
  | _ => cases hclaimed

/-! ## Leases -/

/-- The item is in the queue, leased until `until_` at least. -/
def Leased (blobId : Nat) (analyzer : Blake3) (until_ : Int) (s : Sweep) : Prop :=
  s.isQueued blobId analyzer = true ∧
    ∀ row ∈ s.queue, row.blobId = blobId → row.analyzer = analyzer → until_ ≤ row.leasedUntil

variable {until_ : Int}

theorem leased_renew (hleased : Leased blobId analyzer until_ s) {nowUnix leaseSecs : Int}
    (hend : until_ ≤ saturatingAddI64 nowUnix leaseSecs) (other : Nat) (analyzer' : Blake3) :
    Leased blobId analyzer until_ (s.renew other analyzer' nowUnix leaseSecs) := by
  refine ⟨?_, ?_⟩
  · rw [Sweep.isQueued_renew]
    exact hleased.1
  · intro row hrow hid hanalyzer
    rcases Sweep.mem_updateRows hrow with ⟨_, _, _, _, rfl⟩ | ⟨hold, _⟩
    · exact hend
    · exact hleased.2 row hold hid hanalyzer

/-- A step before the lease ends keeps it, unless the step ends the item. -/
theorem leased_apply (hleased : Leased blobId analyzer until_ s)
    (hends : ¬ op.Ends blobId analyzer) (htime : ∀ t ∈ op.time, t < until_)
    (hlease : ∀ t ∈ op.time, ∀ l ∈ op.lease, until_ ≤ saturatingAddI64 t l) :
    Leased blobId analyzer until_ (op.apply s) := by
  cases op with
  | prune other candidacy atUnix =>
    -- The prune leaves leased rows alone.
    have hkept : ∀ row ∈ s.queue, row.blobId = blobId → row.analyzer = analyzer →
        s.isPruned other candidacy atUnix row = false := by
      intro row hrow hid hanalyzer
      have huntil := hleased.2 row hrow hid hanalyzer
      have hnow := htime atUnix rfl
      simp only [Sweep.isPruned, decide_eq_false_iff_not]
      omega
    obtain ⟨row, hrow, hid, hanalyzer⟩ := Sweep.isQueued_eq_true.mp hleased.1
    have hstays := Sweep.mem_prune.mpr ⟨hrow, hkept row hrow hid hanalyzer⟩
    refine ⟨Sweep.isQueued_eq_true.mpr ⟨row, hstays, hid, hanalyzer⟩, ?_⟩
    intro old hold
    exact hleased.2 old (Sweep.mem_prune.mp hold).1
  | insertUnanalyzed other candidacy atUnix =>
    refine ⟨Sweep.isQueued_insertUnanalyzed hleased.1, ?_⟩
    intro row hrow hid hanalyzer
    rcases Sweep.mem_insertUnanalyzed hrow with hold | ⟨hother, _, _, hfree⟩
    · exact hleased.2 row hold hid hanalyzer
    · rw [← hother, hid, hanalyzer, hleased.1] at hfree
      cases hfree
  | enqueueFresh other candidacy blobIds atUnix =>
    refine Sweep.enqueueFresh_induction (P := Leased blobId analyzer until_) hleased ?_
    rintro s' fresh - ⟨hqueued, huntil⟩
    refine ⟨Sweep.isQueued_enqueueFreshOne hqueued, ?_⟩
    intro row hrow hid hanalyzer
    rcases Sweep.mem_enqueueFreshOne hrow with
      ⟨old, hold, holdId, holdAnalyzer, hsame⟩ | ⟨hnewId, hnewAnalyzer, hfree, _⟩
    · rw [hsame]
      exact huntil old hold (holdId.symm.trans hid) (holdAnalyzer.symm.trans hanalyzer)
    · rw [← hnewId, ← hnewAnalyzer, hid, hanalyzer, hqueued] at hfree
      cases hfree
  | bumpDatMatchedPriorities =>
    refine ⟨?_, ?_⟩
    · rw [apply, isQueued_bump]
      exact hleased.1
    · intro row hrow hid hanalyzer
      obtain ⟨old, hold, rfl⟩ := List.mem_map.mp hrow
      have hsame := hleased.2 old hold
      split_ifs at hid hanalyzer ⊢
      · exact hsame hid hanalyzer
      · exact hsame hid hanalyzer
  | claim other blockedBy limit nowUnix leaseSecs =>
    refine Sweep.claimSweepItems_induction (P := Leased blobId analyzer until_) hleased ?_
    intro s' claimedId hbefore
    exact leased_renew hbefore (hlease nowUnix rfl leaseSecs rfl) claimedId other
  | renew other analyzer' nowUnix leaseSecs =>
    exact leased_renew hleased (hlease nowUnix rfl leaseSecs rfl) other analyzer'
  | release other analyzer' =>
    refine ⟨?_, ?_⟩
    · rw [apply, Sweep.releaseSweepLease, Sweep.isQueued_updateRows]
      · exact hleased.1
      · exact fun _ => ⟨rfl, rfl⟩
    · intro row hrow hid hanalyzer
      rcases Sweep.mem_updateRows hrow with ⟨old, _, rfl, rfl, rfl⟩ | ⟨hold, _⟩
      · exact absurd ⟨hid, hanalyzer⟩ hends
      · exact hleased.2 row hold hid hanalyzer
  | complete other analyzer' outcome detail atUnix =>
    rcases apply_complete s other analyzer' outcome detail atUnix with hfailed | hdone
    · rw [hfailed]
      exact hleased
    · rw [hdone]
      refine ⟨(Sweep.isQueued_deleteRow _ _ _ _).mpr ⟨hleased.1, ?_⟩, ?_⟩
      · exact fun hkey => hends ⟨hkey.1.symm, hkey.2.symm⟩
      · intro row hrow
        exact hleased.2 row (List.mem_filter.mp hrow).1
  | defer other analyzer' waitingOn =>
    rcases apply_defer s other analyzer' waitingOn with hfailed | hdone
    · rw [hfailed]
      exact hleased
    · rw [hdone]
      refine ⟨(Sweep.isQueued_deleteRow _ _ _ _).mpr ⟨hleased.1, ?_⟩, ?_⟩
      · exact fun hkey => hends ⟨hkey.1.symm, hkey.2.symm⟩
      · intro row hrow
        exact hleased.2 row (List.mem_filter.mp hrow).1
  | index db sourceFileBlobs absentEligible => exact hleased

/-- Leasing a list of rows leases each item of it. -/
theorem leased_foldl_renew {rows : List SweepRow} {nowUnix leaseSecs : Int}
    (hend : until_ ≤ saturatingAddI64 nowUnix leaseSecs)
    (hqueued : s.isQueued blobId analyzer = true)
    (hdue : Leased blobId analyzer until_ s ∨ ∃ row ∈ rows, row.blobId = blobId) :
    Leased blobId analyzer until_
      (rows.foldl (fun s row => s.renew row.blobId analyzer nowUnix leaseSecs) s) := by
  induction rows generalizing s with
  | nil =>
    rcases hdue with hleased | ⟨_, hmem, _⟩
    · exact hleased
    · cases hmem
  | cons head rows ih =>
    refine ih ?_ ?_
    · rw [Sweep.isQueued_renew]
      exact hqueued
    rcases hdue with hleased | ⟨row, hmem, hid⟩
    · exact Or.inl (leased_renew hleased hend _ _)
    rcases List.mem_cons.mp hmem with rfl | hrest
    · refine Or.inl ⟨?_, ?_⟩
      · rw [Sweep.isQueued_renew]
        exact hqueued
      · intro new hnew hnewId hnewAnalyzer
        rcases Sweep.mem_updateRows hnew with ⟨_, _, _, _, rfl⟩ | ⟨_, hother⟩
        · exact hend
        · exact absurd ⟨hnewId.trans hid.symm, hnewAnalyzer⟩ hother
    · exact Or.inr ⟨row, hrest, hid⟩

/-- A claim leases what it hands out. -/
theorem leased_of_claimed (hclaimed : (blobId, analyzer) ∈ op.claimed s)
    (hlease : ∀ t ∈ op.time, ∀ l ∈ op.lease, until_ ≤ saturatingAddI64 t l) :
    Leased blobId analyzer until_ (op.apply s) := by
  obtain ⟨row, hrow, hid, hanalyzer, _⟩ := row_of_claimed hclaimed
  cases op with
  | claim other blockedBy limit nowUnix leaseSecs =>
    obtain ⟨item, hitem, hkey⟩ := List.mem_map.mp hclaimed
    cases hkey
    exact leased_foldl_renew (hlease nowUnix rfl leaseSecs rfl)
      (Sweep.isQueued_eq_true.mpr ⟨row, hrow, hid, hanalyzer⟩)
      (Or.inr (Sweep.mem_claimSweepItems hitem))
  | _ => cases hclaimed

end Steps

/-! ## The protocol -/

section Protocol

variable {s : Sweep} {leaseSecs now : Int} {ops : List SweepOp}

theorem run_append (s : Sweep) (done rest : List SweepOp) :
    run s (done ++ rest) = run (run s done) rest := List.foldl_append

theorem Heeded.drop {done rest : List SweepOp} (hheeded : Heeded s (done ++ rest)) :
    Heeded (run s done) rest := by
  induction done generalizing s with
  | nil => exact hheeded
  | cons op done ih => exact ih hheeded.2

theorem Clocked.drop {done rest : List SweepOp} (hclocked : Clocked leaseSecs now (done ++ rest)) :
    ∃ later, now ≤ later ∧ Clocked leaseSecs later rest := by
  induction done generalizing now with
  | nil => exact ⟨now, le_refl now, hclocked⟩
  | cons op done ih =>
    obtain ⟨later, hlater, hrest⟩ := ih hclocked.2.2
    refine ⟨later, le_trans ?_ hlater, hrest⟩
    cases htime : op.time with
    | none => exact le_refl now
    | some t => exact hclocked.1 t htime

/-- The end of a lease that was taken or renewed at `t` is no earlier than it says. -/
theorem le_lease_of_heeds {op : SweepOp} {until_ t l : Int} (hheeds : op.Heeds s)
    (ht : t ∈ op.time) (hl : l ∈ op.lease) (huntil : until_ ≤ t + l) :
    until_ ≤ saturatingAddI64 t l := by
  have hfits : t + l < 2 ^ 63 := by
    cases op with
    | claim => cases ht; cases hl; exact hheeds
    | renew => cases ht; cases hl; exact hheeds
    | _ => cases hl
  unfold saturatingAddI64
  omega

/-- Along a run, a leased item stays leased until the lease ends or the item does. -/
theorem leased_run {between : List SweepOp} {later : SweepOp} {rest : List SweepOp}
    {blobId : Nat} {analyzer : Blake3} {start t' : Int}
    (hleased : Leased blobId analyzer (start + leaseSecs) s) (hstart : start ≤ now)
    (hclocked : Clocked leaseSecs now (between ++ later :: rest))
    (hheeded : Heeded s (between ++ later :: rest))
    (hends : ∀ op ∈ between, ¬ op.Ends blobId analyzer) (ht' : t' ∈ later.time)
    (hbefore : t' < start + leaseSecs) :
    Leased blobId analyzer (start + leaseSecs) (run s between) := by
  induction between generalizing s now with
  | nil => exact hleased
  | cons op between ih =>
    obtain ⟨hnow, hlength, hclocked⟩ := hclocked
    obtain ⟨hheeds, hheeded⟩ := hheeded
    obtain ⟨reading, hreading, hlast⟩ := hclocked.drop
    have hle := hlast.1 t' ht'
    refine ih ?_ ?_ hclocked hheeded fun other hother => hends other (List.mem_cons_of_mem _ hother)
    · refine leased_apply hleased (hends op List.mem_cons_self) ?_ ?_
      · intro t ht
        rw [Option.mem_def.mp ht, Option.getD_some] at hreading
        omega
      · intro t ht l hl
        have hlater := hnow t ht
        have hone := hlength l hl
        exact le_lease_of_heeds hheeds ht hl (by omega)
    · cases htime : op.time with
      | none => exact hstart
      | some t =>
        have hlater := hnow t htime
        rw [Option.getD_some]
        omega

/-- What a step does with rows, conclusions and waits. -/
structure StepSafe (s : Sweep) (op : SweepOp) : Prop where
  /-- A row disappears with a conclusion, with a deferral, or with its blob's candidacy. -/
  gone : ∀ blobId analyzer, s.isQueued blobId analyzer = true →
    (op.apply s).isQueued blobId analyzer = false →
      (∃ outcome detail atUnix, op = .complete blobId analyzer outcome detail atUnix ∧
          (op.apply s).isAnalyzed blobId analyzer = true) ∨
        (∃ waitingOn, op = .defer blobId analyzer waitingOn ∧
          (op.apply s).isDeferred blobId analyzer = true) ∨
        ∃ candidacy atUnix, op = .prune analyzer candidacy atUnix ∧
          s.isCandidate candidacy blobId = false
  /-- A concluded item is not handed out. -/
  concluded : ∀ blobId analyzer, s.isAnalyzed blobId analyzer = true →
    (blobId, analyzer) ∉ op.claimed s
  /-- An item that waits for a blob that is not there is not put back. -/
  waits : ∀ blobId analyzer, s.isWaiting blobId analyzer = true →
    s.isQueued blobId analyzer = false → (op.apply s).isQueued blobId analyzer = false

theorem stepSafe_of_heeds {op : SweepOp} (hsettled : Settled s) (hheeds : op.Heeds s) :
    StepSafe s op where
  gone _ _ := gone_of_apply
  concluded blobId analyzer hanalyzed hclaimed := by
    obtain ⟨row, hrow, hid, hanalyzer, _⟩ := row_of_claimed hclaimed
    exact Sweep.isQueued_eq_false.mp (hsettled blobId analyzer hanalyzed) row hrow hid hanalyzer
  waits blobId analyzer hwaiting hfree := by
    by_contra hqueued
    rw [Bool.not_eq_false] at hqueued
    rcases added_of_apply hfree hqueued with
      ⟨_, _, _, _, hnot⟩ | ⟨candidacy, blobIds, _, rfl, hmem, hanalyzed, hcandidate⟩
    · rw [hwaiting] at hnot
      cases hnot
    · rcases hheeds blobId hmem hwaiting with hold | hold | hold
      · rw [hfree] at hold
        cases hold
      · rw [hanalyzed] at hold
        cases hold
      · rw [hcandidate] at hold
        cases hold

/-- In every run with a nondecreasing clock and one lease length whose fresh enqueues heed the
waits: each step is safe, and after a claim at `t` no claim before the lease ends returns the
item again, unless it was completed, deferred or released in between. -/
theorem sweep_protocol (hsettled : Settled s) (hclocked : Clocked leaseSecs now ops)
    (hheeded : Heeded s ops) :
    (∀ done op rest, ops = done ++ op :: rest → StepSafe (run s done) op) ∧
    ∀ done op between later rest blobId analyzer t t',
      ops = done ++ op :: (between ++ later :: rest) → t ∈ op.time →
      (blobId, analyzer) ∈ op.claimed (run s done) →
      (∀ other ∈ between, ¬ other.Ends blobId analyzer) → t' ∈ later.time →
      t' < t + leaseSecs → (blobId, analyzer) ∉ later.claimed (run s (done ++ op :: between)) := by
  constructor
  · rintro done op rest rfl
    exact stepSafe_of_heeds (settled_run hsettled done) hheeded.drop.1
  · rintro done op between later rest blobId analyzer t t' rfl ht hclaimed hends ht' hbefore
    obtain ⟨reading, _, _, hlength, hclocked⟩ := hclocked.drop
    obtain ⟨hheeds, hheeded⟩ := hheeded.drop
    rw [Option.mem_def.mp ht, Option.getD_some] at hclocked
    have hleased : Leased blobId analyzer (t + leaseSecs) (op.apply (run s done)) := by
      refine leased_of_claimed hclaimed fun reading hreading l hl => ?_
      rw [Option.mem_def.mp ht] at hreading
      cases hreading
      rw [hlength l hl]
      exact le_lease_of_heeds hheeds ht (hlength l hl ▸ hl) (le_refl _)
    have hstill := leased_run hleased (le_refl t) hclocked hheeded hends ht' hbefore
    rw [run_append]
    intro hagain
    obtain ⟨row, hrow, hid, hanalyzer, hfree⟩ := row_of_claimed hagain
    have hlate := hstill.2 row hrow hid hanalyzer
    have hearly := hfree t' ht'
    omega

end Protocol

/-- One resident data blob, nothing queued. -/
def oneBlob : Sweep where
  db := (Db.empty.upsertBlob 7 (some 64) .data .resident).1

/-- The blob is scanned and claimed, its analysis has to wait for blob 9, and the blob is
ingested again. -/
def refreshedWait : List SweepOp :=
  [.prune 1 {} 10, .insertUnanalyzed 1 {} 10, .claim 1 [] 1 20 60, .defer 1 1 9,
    .enqueueFresh 1 {} [1] 30]

/-- The fresh path puts the item back although blob 9 is not there. -/
theorem fresh_ignores_wait :
    Settled oneBlob ∧ Clocked 60 0 refreshedWait ∧
      (run oneBlob (refreshedWait.take 4)).isWaiting 1 1 = true ∧
      (run oneBlob (refreshedWait.take 4)).isQueued 1 1 = false ∧
      (run oneBlob refreshedWait).isQueued 1 1 = true := by
  refine ⟨?_, ?_, by decide +kernel, by decide +kernel, by decide +kernel⟩
  · intro blobId analyzer hanalyzed
    cases hanalyzed
  · simp [Clocked, refreshedWait, time, lease]

/-- Two workers claim one after the other. -/
def secondClaim : List SweepOp :=
  [.prune 1 {} 10, .insertUnanalyzed 1 {} 10, .claim 1 [] 1 20 60, .claim 1 [] 1 70 60]

/-- The second claim comes too early. -/
theorem sweep_protocol_second :
    (1, 1) ∈ (SweepOp.claim 1 [] 1 20 60).claimed (run oneBlob (secondClaim.take 2)) ∧
      (1, 1) ∉ (SweepOp.claim 1 [] 1 70 60).claimed (run oneBlob (secondClaim.take 3)) := by
  have hclaimed : (1, 1) ∈ (SweepOp.claim 1 [] 1 20 60).claimed
      (run oneBlob (secondClaim.take 2)) := by decide +kernel
  have hsettled : Settled oneBlob := by
    intro blobId analyzer hanalyzed
    cases hanalyzed
  have hclocked : Clocked 60 0 secondClaim := by simp [Clocked, secondClaim, time, lease]
  have hheeded : Heeded oneBlob secondClaim := by simp [Heeded, secondClaim, Heeds]
  obtain ⟨_, hexclusive⟩ := sweep_protocol hsettled hclocked hheeded
  refine ⟨hclaimed, ?_⟩
  exact hexclusive [.prune 1 {} 10, .insertUnanalyzed 1 {} 10] (.claim 1 [] 1 20 60) []
    (.claim 1 [] 1 70 60) [] 1 1 20 70 rfl rfl hclaimed (by simp) rfl (by decide)

end SweepOp

end Datboi
