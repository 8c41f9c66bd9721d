import Datboi.Index.Db

/-!
# Orphan marks

Resident data blobs that nothing in the index references are marked, listed once
their mark has aged, and deleted after the same question was asked again. Marks are
review state: every sweep clears those whose blob has been rooted since.
-/

namespace Datboi

/-- `i64::saturating_sub`. -/
def saturatingSubI64 (a b : Int) : Int := max (-2 ^ 63) (min (2 ^ 63 - 1) (a - b))

structure OrphanCandidate where
  blobId : Nat
  hash : Blake3
  size : Option Nat
  markedAt : Int
  deriving DecidableEq, Repr

namespace Db

/-- Some recipe names the blob as an input or an output. -/
def isRecipeReferenced (db : Db) (blobId : Nat) : Bool :=
  db.recipes.rows.any fun recipe => blobId ∈ recipe.inputIds ∨ blobId ∈ recipe.outputIds

/-- The candidate predicate without the caller's extra roots. -/
def isUnrooted (db : Db) (row : BlobRow) : Bool :=
  row.ns = .data ∧ row.residency = .resident ∧ row.pinnedReason = none ∧
    db.isRecipeReferenced row.blobId = false ∧ row.blobId ∉ db.datRevisionBlobs ∧
    row.blobId ∉ db.detectorBlobs ∧ row.blobId ∉ db.claimedIdentityBlobs ∧
    row.blobId ∉ db.sweepQueueBlobs

/-- The blobs a sweep marks. -/
def orphanIds (db : Db) (extraRoots : List Nat) : List Nat :=
  (db.blobs.rows.filter fun row => db.isUnrooted row ∧ row.blobId ∉ extraRoots).map BlobRow.blobId

/-- Clear every mark whose blob is rooted now, then mark the unrooted blobs that
have no mark yet. Returns how many were marked and cleared. -/
def sweepOrphanMarks (db : Db) (extraRoots : List Nat) (nowUnix : Int) : Db × Nat × Nat :=
  let orphans := db.orphanIds extraRoots
  let kept := db.orphanCandidates.filter fun mark => mark.1 ∈ orphans
  let fresh := orphans.filter fun blobId => blobId ∉ kept.map Prod.fst
  ({ db with orphanCandidates := kept ++ fresh.map fun blobId => (blobId, nowUnix) },
    fresh.length, db.orphanCandidates.length - kept.length)

/-- Marks that have aged past the grace period, oldest first. -/
def listOrphanCandidates (db : Db) (nowUnix graceSecs : Int) : List OrphanCandidate :=
  let aged := db.orphanCandidates.filterMap fun mark =>
    if mark.2 ≤ saturatingSubI64 nowUnix graceSecs then
      (db.blobById mark.1).map fun row => ⟨mark.1, row.hash, row.size, mark.2⟩
    else none
  aged.insertionSort fun a b =>
    a.markedAt < b.markedAt ∨ (a.markedAt = b.markedAt ∧ a.blobId ≤ b.blobId)

/-- Is the blob still a marked, aged and unrooted candidate right now? -/
def orphanStillDeletable (db : Db) (blobId : Nat) (extraRoots : List Nat)
    (nowUnix graceSecs : Int) : Bool :=
  if blobId ∈ extraRoots then false
  else
    (db.orphanCandidates.any fun mark =>
      mark.1 = blobId ∧ mark.2 ≤ saturatingSubI64 nowUnix graceSecs) ∧
      (db.blobById blobId).any db.isUnrooted

/-- A row outside the tables that an orphan's deletion clears references the blob. -/
def isForeignKeyHeld (db : Db) (blobId : Nat) : Bool :=
  db.isRecipeReferenced blobId ∨ (db.recipes.rows.any fun recipe => recipe.blobId = blobId) ∨
    blobId ∈ db.datRevisionBlobs ∨ blobId ∈ db.detectorBlobs ∨ blobId ∈ db.sweepDeferredBlobs ∨
    blobId ∈ db.sweepAbsentEligibleBlobs

/-- Remove every row of a deleted orphan; a reference that stays makes the
transaction fail as a whole. -/
def deleteOrphanRows (db : Db) (blobId : Nat) : Except IndexError Db :=
  if db.isForeignKeyHeld blobId then .error (.foreignKeyViolation blobId)
  else .ok { db with
    orphanCandidates := db.orphanCandidates.filter fun mark => mark.1 ≠ blobId
    sweepQueueBlobs := db.sweepQueueBlobs.filter (· ≠ blobId)
    claimedIdentityBlobs := db.claimedIdentityBlobs.filter (· ≠ blobId)
    blobs := db.blobs.delete blobId }

/-! ## Marks and the candidate predicate -/

section Marks

variable {db db' : Db} {extraRoots : List Nat} {blobId other : Nat}

theorem mem_orphanIds : blobId ∈ db.orphanIds extraRoots ↔
    ∃ row, db.blobById blobId = some row ∧ db.isUnrooted row = true ∧ blobId ∉ extraRoots := by
  simp only [orphanIds, List.mem_map, List.mem_filter, decide_eq_true_eq]
  constructor
  · rintro ⟨row, ⟨hmem, hunrooted, hroots⟩, rfl⟩
    exact ⟨row, Table.byId_eq_some.mpr ⟨hmem, rfl⟩, hunrooted, hroots⟩
  · rintro ⟨row, hrow, hunrooted, hroots⟩
    obtain ⟨hmem, rfl⟩ := Table.byId_eq_some.mp hrow
    exact ⟨row, ⟨hmem, hunrooted, hroots⟩, rfl⟩

variable {nowUnix graceSecs : Int}

/-- The question asked at delete time is the sweep's own, with the mark's age added. -/
theorem orphanStillDeletable_iff :
    db.orphanStillDeletable blobId extraRoots nowUnix graceSecs = true ↔
      blobId ∈ db.orphanIds extraRoots ∧
        ∃ markedAt, (blobId, markedAt) ∈ db.orphanCandidates ∧
          markedAt ≤ saturatingSubI64 nowUnix graceSecs := by
  have hmarks : (db.orphanCandidates.any fun mark =>
      mark.1 = blobId ∧ mark.2 ≤ saturatingSubI64 nowUnix graceSecs) = true ↔
        ∃ markedAt, (blobId, markedAt) ∈ db.orphanCandidates ∧
          markedAt ≤ saturatingSubI64 nowUnix graceSecs := by
    rw [List.any_eq_true]
    constructor
    · rintro ⟨⟨_, markedAt⟩, hmem, hmark⟩
      obtain ⟨rfl, haged⟩ := of_decide_eq_true hmark
      exact ⟨markedAt, hmem, haged⟩
    · rintro ⟨markedAt, hmem, haged⟩
      exact ⟨_, hmem, decide_eq_true ⟨rfl, haged⟩⟩
  unfold orphanStillDeletable
  rw [mem_orphanIds]
  split
  · rename_i hroot
    constructor
    · intro hfalse
      cases hfalse
    · rintro ⟨⟨_, _, _, hunrooted⟩, _⟩
      exact absurd hroot hunrooted
  · rename_i hroots
    rw [decide_eq_true_eq, hmarks, Option.any_eq_true]
    constructor
    · rintro ⟨haged, row, hrow, hunrooted⟩
      exact ⟨⟨row, hrow, hunrooted, hroots⟩, haged⟩
    · rintro ⟨⟨row, hrow, hunrooted, _⟩, haged⟩
      exact ⟨haged, row, hrow, hunrooted⟩

theorem nodup_orphanIds (db : Db) (extraRoots : List Nat) : (db.orphanIds extraRoots).Nodup := by
  unfold orphanIds
  rw [List.Nodup, List.pairwise_map]
  refine (db.blobs.sorted.imp fun hlt => Nat.ne_of_lt hlt).filter _

/-- A sweep keeps the mark of a blob that is still an orphan, with its time, and gives
a new mark only to an orphan that has none. -/
theorem mem_sweepOrphanMarks {markedAt : Int} :
    (blobId, markedAt) ∈ (db.sweepOrphanMarks extraRoots nowUnix).1.orphanCandidates ↔
      blobId ∈ db.orphanIds extraRoots ∧ ((blobId, markedAt) ∈ db.orphanCandidates ∨
        (blobId ∉ db.orphanCandidates.map Prod.fst ∧ markedAt = nowUnix)) := by
  simp only [sweepOrphanMarks, List.mem_append, List.mem_filter, List.mem_map, decide_eq_true_eq]
  constructor
  · rintro (⟨hmem, horphan⟩ | ⟨fresh, ⟨horphan, hnone⟩, hmark⟩)
    · exact ⟨horphan, Or.inl hmem⟩
    · obtain ⟨rfl, rfl⟩ := Prod.mk.injEq .. ▸ hmark
      refine ⟨horphan, Or.inr ⟨?_, rfl⟩⟩
      rintro ⟨mark, hmem, rfl⟩
      exact hnone ⟨mark, ⟨hmem, horphan⟩, rfl⟩
  · rintro ⟨horphan, hmem | ⟨hnone, rfl⟩⟩
    · exact Or.inl ⟨hmem, horphan⟩
    · refine Or.inr ⟨blobId, ⟨horphan, ?_⟩, rfl⟩
      rintro ⟨mark, ⟨hmem, _⟩, rfl⟩
      exact hnone ⟨mark, hmem, rfl⟩

theorem nodup_sweepOrphanMarks (hnodup : (db.orphanCandidates.map Prod.fst).Nodup) :
    ((db.sweepOrphanMarks extraRoots nowUnix).1.orphanCandidates.map Prod.fst).Nodup := by
  simp only [sweepOrphanMarks, List.map_append, List.map_map]
  rw [List.nodup_append]
  refine ⟨hnodup.sublist (List.filter_sublist.map _), ?_, ?_⟩
  · have hid : Prod.fst ∘ (fun blobId : Nat => (blobId, nowUnix)) = id := rfl
    rw [hid, List.map_id]
    exact (nodup_orphanIds db extraRoots).filter _
  · intro old hold new hnew heq
    subst heq
    obtain ⟨fresh, hfresh, rfl⟩ := List.mem_map.mp hnew
    exact of_decide_eq_true (List.mem_filter.mp hfresh).2 hold

/-- Two marks of one blob are one mark: the blob id is the table's primary key. -/
theorem mark_unique (hnodup : (db.orphanCandidates.map Prod.fst).Nodup) {markedAt markedAt' : Int}
    (hmark : (blobId, markedAt) ∈ db.orphanCandidates)
    (hmark' : (blobId, markedAt') ∈ db.orphanCandidates) : markedAt = markedAt' := by
  have heq := List.inj_on_of_nodup_map hnodup hmark hmark' rfl
  exact congrArg Prod.snd heq

theorem mem_listOrphanCandidates {candidate : OrphanCandidate}
    (hmem : candidate ∈ db.listOrphanCandidates nowUnix graceSecs) :
    ∃ row, db.blobById candidate.blobId = some row ∧ row.hash = candidate.hash := by
  unfold listOrphanCandidates at hmem
  rw [List.mem_insertionSort, List.mem_filterMap] at hmem
  obtain ⟨mark, _, hcandidate⟩ := hmem
  split at hcandidate
  · obtain ⟨row, hrow, rfl⟩ := Option.map_eq_some_iff.mp hcandidate
    exact ⟨row, hrow, rfl⟩
  · cases hcandidate

theorem nodup_listOrphanCandidates (hnodup : (db.orphanCandidates.map Prod.fst).Nodup) :
    ((db.listOrphanCandidates nowUnix graceSecs).map OrphanCandidate.blobId).Nodup := by
  unfold listOrphanCandidates
  refine (((List.perm_insertionSort _ _).map OrphanCandidate.blobId).nodup_iff).mpr ?_
  rw [List.map_filterMap]
  refine List.Nodup.sublist ?_ hnodup
  -- Every listed candidate carries the id of its own mark.
  generalize db.orphanCandidates = marks
  induction marks with
  | nil => exact List.Sublist.refl _
  | cons mark rest ih =>
    rw [List.filterMap_cons, List.map_cons]
    split
    · exact ih.cons _
    · rename_i found hfound
      obtain ⟨candidate, hcandidate, rfl⟩ := Option.map_eq_some_iff.mp hfound
      split at hcandidate
      · obtain ⟨row, _, rfl⟩ := Option.map_eq_some_iff.mp hcandidate
        exact ih.cons_cons _
      · cases hcandidate

/-- What the removal of one orphan's rows leaves behind. -/
structure OrphanRemoved (db : Db) (blobId : Nat) (db' : Db) : Prop where
  marks : db'.orphanCandidates = db.orphanCandidates.filter fun mark => mark.1 ≠ blobId
  blobs : db'.blobs = db.blobs.delete blobId
  tags : db'.tags = db.tags
  recipes : db'.recipes = db.recipes
  datRevisionBlobs : db'.datRevisionBlobs = db.datRevisionBlobs
  detectorBlobs : db'.detectorBlobs = db.detectorBlobs
  claimedIdentityBlobs :
    db'.claimedIdentityBlobs = db.claimedIdentityBlobs.filter (· ≠ blobId)
  sweepQueueBlobs : db'.sweepQueueBlobs = db.sweepQueueBlobs.filter (· ≠ blobId)

theorem deleteOrphanRows_eq_ok (hrun : db.deleteOrphanRows blobId = .ok db') :
    db.OrphanRemoved blobId db' := by
  unfold deleteOrphanRows at hrun
  split at hrun
  · cases hrun
  · cases hrun
    exact ⟨rfl, rfl, rfl, rfl, rfl, rfl, rfl, rfl⟩

section

variable (hremoved : db.OrphanRemoved blobId db')

include hremoved

theorem OrphanRemoved.isUnrooted {row : BlobRow} (hne : row.blobId ≠ blobId) :
    db'.isUnrooted row = db.isUnrooted row := by
  simp [Db.isUnrooted, Db.isRecipeReferenced, hremoved.recipes, hremoved.datRevisionBlobs,
    hremoved.detectorBlobs, hremoved.claimedIdentityBlobs, hremoved.sweepQueueBlobs, hne]

theorem OrphanRemoved.blobById (hne : other ≠ blobId) : db'.blobById other = db.blobById other := by
  rw [Db.blobById, hremoved.blobs]
  exact Table.byId_delete_ne hne

theorem OrphanRemoved.getBlobId {hash : Blake3} (hfound : db'.getBlobId hash = some other) :
    db.getBlobId hash = some other := by
  obtain ⟨row, hrow, rfl⟩ := Option.map_eq_some_iff.mp hfound
  rw [blobByHash, hremoved.blobs] at hrow
  obtain ⟨hmem, hhash⟩ := Table.byKey_eq_some.mp hrow
  rw [Db.getBlobId, blobByHash, Table.byKey_eq_some.mpr ⟨(Table.mem_delete.mp hmem).1, hhash⟩]
  rfl

/-- Deleting one orphan leaves every other candidate deletable. -/
theorem OrphanRemoved.orphanStillDeletable (hne : other ≠ blobId)
    (hdeletable : db.orphanStillDeletable other extraRoots nowUnix graceSecs = true) :
    db'.orphanStillDeletable other extraRoots nowUnix graceSecs = true := by
  rw [orphanStillDeletable_iff, mem_orphanIds] at hdeletable ⊢
  obtain ⟨⟨row, hrow, hunrooted, hroots⟩, markedAt, hmark, haged⟩ := hdeletable
  refine ⟨⟨row, ?_, ?_, hroots⟩, markedAt, ?_, haged⟩
  · rw [hremoved.blobById hne, hrow]
  · have hid : row.blobId = other := (Table.byId_eq_some.mp hrow).2
    rwa [hremoved.isUnrooted (by rwa [hid])]
  · rw [hremoved.marks, List.mem_filter]
    exact ⟨hmark, by simpa using hne⟩

end

end Marks

end Db

end Datboi
