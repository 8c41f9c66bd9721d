import Datboi.Index.Grounding

/-!
# What index writes do to grounding

One lemma for each write says which blobs it makes resident and which recipes it
licenses. Most writes only ever add to both; `setResidency` is the one that takes
away, and an evictable blob can lose its literal without anything else being lost.
-/

namespace Datboi

open Saturation (Rule)

namespace Db

variable {db db' db'' : Db}

/-! ## Residency -/

theorem recipes_upsertBlob (hash : Blake3) (size : Option Nat) (ns : Namespace)
    (residency : Residency) : (db.upsertBlob hash size ns residency).1.recipes = db.recipes := by
  unfold upsertBlob
  split <;> rfl

variable {blobId other recipeId : Nat} {residency : Residency} {state : VerifyState}

theorem isResident_modify_blobs {f : Table.Rewrite BlobRow} :
    ({ db with blobs := db.blobs.modify blobId f } : Db).IsResident other ↔
      (other ≠ blobId ∧ db.IsResident other) ∨
        (other = blobId ∧ ∃ row ∈ db.blobs, row.blobId = blobId ∧
          (f.apply row).residency = .resident) := by
  simp only [IsResident, Table.mem_modify, BlobRow.row_id]
  constructor
  · rintro ⟨row, ⟨hmem, hne⟩ | ⟨old, hmem, rfl, rfl⟩, rfl, hresident⟩
    · exact Or.inl ⟨hne, row, hmem, rfl, hresident⟩
    · exact Or.inr ⟨f.id_eq old, old, hmem, rfl, hresident⟩
  · rintro (⟨hne, row, hmem, rfl, hresident⟩ | ⟨rfl, row, hmem, rfl, hresident⟩)
    · exact ⟨row, Or.inl ⟨hmem, hne⟩, rfl, hresident⟩
    · exact ⟨f.apply row, Or.inr ⟨row, hmem, rfl, rfl⟩, f.id_eq row, hresident⟩

theorem isResident_setResidency :
    (db.setResidency blobId residency).IsResident other ↔
      (other ≠ blobId ∧ db.IsResident other) ∨
        (other = blobId ∧ (∃ row ∈ db.blobs, row.blobId = blobId) ∧ residency = .resident) := by
  rw [setResidency, isResident_modify_blobs]
  simp [writeResidency, ← and_assoc]

theorem isResident_setVerified {atUnix : Int} :
    (db.setVerified blobId atUnix).IsResident other ↔ db.IsResident other := by
  rw [setVerified, isResident_modify_blobs]
  by_cases heq : other = blobId
  · simp [heq, IsResident, writeVerifiedAt]
  · simp [heq]

theorem isResident_upsertBlob {hash : Blake3} {size : Option Nat} {ns : Namespace} :
    (db.upsertBlob hash size ns residency).1.IsResident other ↔
      (other ≠ (db.upsertBlob hash size ns residency).2 ∧ db.IsResident other) ∨
        (other = (db.upsertBlob hash size ns residency).2 ∧ residency = .resident) := by
  unfold upsertBlob
  split
  · rename_i row hfound
    obtain ⟨hmem, _⟩ := Table.byKey_eq_some.mp hfound
    rw [isResident_modify_blobs]
    have hrow : ∃ row' ∈ db.blobs, row'.blobId = row.blobId := ⟨row, hmem, rfl⟩
    simp only [refreshBlob, ← and_assoc, exists_and_right, hrow, true_and]
  · simp only [IsResident, Table.mem_insert]
    constructor
    · rintro ⟨row, hmem | rfl, rfl, hresident⟩
      · exact Or.inl ⟨Nat.ne_of_lt (Table.id_lt_nextId hmem), row, hmem, rfl, hresident⟩
      · exact Or.inr ⟨rfl, hresident⟩
    · rintro (⟨_, row, hmem, rfl, hresident⟩ | ⟨rfl, hresident⟩)
      · exact ⟨row, Or.inl hmem, rfl, hresident⟩
      · exact ⟨_, Or.inr rfl, rfl, hresident⟩

theorem recipeObjectHash_modify_blobs (blobId : Nat) (f : Table.Rewrite BlobRow) (recipeId : Nat) :
    ({ db with blobs := db.blobs.modify blobId f } : Db).recipeObjectHash recipeId =
      db.recipeObjectHash recipeId := by
  unfold recipeObjectHash blobById
  cases db.recipes.byId recipeId with
  | none => rfl
  | some row =>
    simp only [Option.bind_some]
    by_cases heq : row.blobId = blobId
    · rw [heq, Table.byId_modify_self]
      cases db.blobs.byId blobId with
      | none => rfl
      | some blob => exact congrArg Except.ok (f.key_eq blob)
    · rw [Table.byId_modify_ne heq]

theorem recipeObjectHash_upsertBlob {hash object : Blake3} {size : Option Nat} {ns : Namespace}
    (hobject : db.recipeObjectHash recipeId = .ok object) :
    (db.upsertBlob hash size ns residency).1.recipeObjectHash recipeId = .ok object := by
  unfold upsertBlob
  split
  · rwa [recipeObjectHash_modify_blobs]
  · unfold recipeObjectHash blobById at hobject ⊢
    cases hrow : db.recipes.byId recipeId with
    | none =>
      rw [hrow] at hobject
      cases hobject
    | some row =>
      rw [hrow, Option.bind_some] at hobject
      rw [Option.bind_some]
      cases hblob : db.blobs.byId row.blobId with
      | none =>
        rw [hblob] at hobject
        cases hobject
      | some blob =>
        rw [Table.byId_insert_of_eq_some hblob]
        rwa [hblob] at hobject

theorem recipeObjectHash_markVerify (recipeId : Nat) (state : VerifyState) (other : Nat) :
    (db.markVerify recipeId state).recipeObjectHash other = db.recipeObjectHash other := by
  unfold recipeObjectHash markVerify
  by_cases heq : other = recipeId
  · rw [heq, Table.byId_modify_self]
    cases db.recipes.byId recipeId <;> rfl
  · rw [Table.byId_modify_ne heq]
    rfl

/-! ## Licenses -/

/-- A recipe row that licenses drops. -/
def IsLicensed (db : Db) (recipeId : Nat) : Prop :=
  ∃ row ∈ db.recipes, row.recipeId = recipeId ∧ row.verify = .replayedLocal

/-- A poisoned recipe row. -/
def IsFailed (db : Db) (recipeId : Nat) : Prop :=
  ∃ row ∈ db.recipes, row.recipeId = recipeId ∧ row.verify = .failed

instance (db : Db) (recipeId : Nat) : Decidable (db.IsFailed recipeId) :=
  inferInstanceAs (Decidable (∃ row ∈ db.recipes, _))

instance (db : Db) (recipeId : Nat) : Decidable (db.IsLicensed recipeId) :=
  inferInstanceAs (Decidable (∃ row ∈ db.recipes, _))

theorem mem_permittedRules_eviction {rule : Rule Nat} :
    rule ∈ db.permittedRules .eviction ↔
      ∃ row ∈ db.recipes, row.verify = .replayedLocal ∧ row.rule = rule := by
  simp [permittedRules, GroundingMode.recipeCondition]

/-- A marked recipe is in the new state, the others stay where they are. -/
theorem exists_verify_markVerify {wanted : VerifyState} :
    (∃ row ∈ (db.markVerify recipeId state).recipes, row.recipeId = other ∧ row.verify = wanted) ↔
      (other ≠ recipeId ∧ ∃ row ∈ db.recipes, row.recipeId = other ∧ row.verify = wanted) ∨
        (other = recipeId ∧ (∃ row ∈ db.recipes, row.recipeId = recipeId) ∧ state = wanted) := by
  simp only [markVerify, Table.mem_modify, RecipeRow.row_id]
  constructor
  · rintro ⟨row, ⟨hmem, hne⟩ | ⟨old, hmem, rfl, rfl⟩, rfl, hwanted⟩
    · exact Or.inl ⟨hne, row, hmem, rfl, hwanted⟩
    · exact Or.inr ⟨rfl, ⟨old, hmem, rfl⟩, hwanted⟩
  · rintro (⟨hne, row, hmem, rfl, hwanted⟩ | ⟨rfl, ⟨row, hmem, rfl⟩, rfl⟩)
    · exact ⟨row, Or.inl ⟨hmem, hne⟩, rfl, hwanted⟩
    · exact ⟨_, Or.inr ⟨row, hmem, rfl, rfl⟩, rfl, rfl⟩

theorem isLicensed_markVerify :
    (db.markVerify recipeId state).IsLicensed other ↔
      (other ≠ recipeId ∧ db.IsLicensed other) ∨
        (other = recipeId ∧ (∃ row ∈ db.recipes, row.recipeId = recipeId) ∧
          state = .replayedLocal) :=
  exists_verify_markVerify

theorem isFailed_of_markVerify (hfailed : (db.markVerify recipeId state).IsFailed other) :
    db.IsFailed other ∨ (other = recipeId ∧ state = .failed) := by
  rcases exists_verify_markVerify.mp hfailed with ⟨_, hold⟩ | ⟨heq, _, hstate⟩
  · exact Or.inl hold
  · exact Or.inr ⟨heq, hstate⟩

/-! ## Writes that take nothing away -/

/-- Every licensed recipe stays licensed and every resident blob resident. -/
structure GroundingLE (db db' : Db) : Prop where
  rules : db.permittedRules .eviction ⊆ db'.permittedRules .eviction
  resident : ∀ blobId, db.IsResident blobId → db'.IsResident blobId

instance : Trans GroundingLE GroundingLE GroundingLE where
  trans hab hbc := ⟨hab.rules.trans hbc.rules, fun id hid => hbc.resident id (hab.resident id hid)⟩

/-- Nothing that was reconstructible under the drop rule is lost. -/
def KeepsGrounded (db db' : Db) : Prop :=
  db.grounded .eviction none ⊆ db'.grounded .eviction none

instance : Trans KeepsGrounded KeepsGrounded KeepsGrounded where
  trans hab hbc := Finset.Subset.trans hab hbc

theorem KeepsGrounded.refl (db : Db) : db.KeepsGrounded db := Finset.Subset.refl _

theorem GroundingLE.keepsGrounded (hle : db.GroundingLE db') : db.KeepsGrounded db' := by
  apply grounded_subset_grounded hle.rules
  apply Finset.Subset.trans _ (literalIds_subset_grounded db' .eviction none)
  intro blobId hliteral
  rw [mem_literalIds] at hliteral ⊢
  exact ⟨hle.resident blobId hliteral.1, hliteral.2⟩

theorem groundingLE_of_recipes_eq (hrecipes : db'.recipes = db.recipes)
    (hresident : ∀ blobId, db.IsResident blobId → db'.IsResident blobId) :
    db.GroundingLE db' := by
  refine ⟨?_, hresident⟩
  intro rule hrule
  rw [mem_permittedRules_eviction] at hrule ⊢
  rwa [hrecipes]

theorem groundingLE_upsertBlob_resident (hash : Blake3) (size : Option Nat) (ns : Namespace) :
    db.GroundingLE (db.upsertBlob hash size ns .resident).1 := by
  apply groundingLE_of_recipes_eq (recipes_upsertBlob hash size ns .resident)
  intro blobId hresident
  rw [isResident_upsertBlob]
  by_cases heq : blobId = (db.upsertBlob hash size ns .resident).2
  · exact Or.inr ⟨heq, rfl⟩
  · exact Or.inl ⟨heq, hresident⟩

theorem groundingLE_setVerified (blobId : Nat) (atUnix : Int) :
    db.GroundingLE (db.setVerified blobId atUnix) :=
  groundingLE_of_recipes_eq rfl fun _ => isResident_setVerified.mpr

theorem groundingLE_setResidency_resident (blobId : Nat) :
    db.GroundingLE (db.setResidency blobId .resident) := by
  have hrecipes : (db.setResidency blobId .resident).recipes = db.recipes := rfl
  apply groundingLE_of_recipes_eq hrecipes
  intro other hresident
  rw [isResident_setResidency]
  by_cases heq : other = blobId
  · obtain ⟨row, hmem, hid, _⟩ := hresident
    exact Or.inr ⟨heq, ⟨row, hmem, hid.trans heq⟩, rfl⟩
  · exact Or.inl ⟨heq, hresident⟩

/-- A verify write that takes no license away. -/
theorem groundingLE_markVerify (hkeeps : db.IsLicensed recipeId → state = .replayedLocal) :
    db.GroundingLE (db.markVerify recipeId state) := by
  refine ⟨?_, fun _ hresident => hresident⟩
  intro rule hrule
  rw [mem_permittedRules_eviction] at hrule ⊢
  obtain ⟨row, hmem, hlicensed, hrow⟩ := hrule
  by_cases hid : row.recipeId = recipeId
  · refine ⟨_, Table.mem_modify.mpr (Or.inr ⟨row, hmem, hid, rfl⟩), ?_, hrow⟩
    exact hkeeps ⟨row, hmem, hid, hlicensed⟩
  · exact ⟨row, Table.mem_modify.mpr (Or.inl ⟨hmem, hid⟩), hlicensed, hrow⟩

/-! ## Dropping a literal -/

theorem coe_literalIds_setResidency (hdropped : residency ≠ .resident) :
    (↑((db.setResidency blobId residency).literalIds none) : Set Nat) =
      ↑(db.literalIds none) \ {blobId} := by
  ext other
  simp only [Finset.mem_coe, mem_literalIds, isResident_setResidency, Set.mem_sdiff,
    Set.mem_singleton_iff, hdropped, and_false, or_false]
  tauto

theorem coe_literalIds_some (blobId : Nat) :
    (↑(db.literalIds (some blobId)) : Set Nat) = ↑(db.literalIds none) \ {blobId} := by
  ext other
  have hsome : some blobId ≠ some other ↔ other ≠ blobId := by simp [eq_comm]
  simp only [Finset.mem_coe, mem_literalIds, Set.mem_sdiff, Set.mem_singleton_iff, hsome]
  tauto

theorem grounded_setResidency_eq (hdropped : residency ≠ .resident) (mode : GroundingMode) :
    (db.setResidency blobId residency).grounded mode none = db.grounded mode (some blobId) := by
  rw [← Finset.coe_inj, coe_grounded, coe_grounded, coe_literalIds_setResidency hdropped,
    coe_literalIds_some]
  rfl

/-- Dropping the literal of an evictable blob loses nothing: a derivation that
used the literal uses the evictable blob's own derivation instead. -/
theorem keepsGrounded_of_isEvictable (hevictable : db.isEvictable blobId = true)
    (hdropped : residency ≠ .resident) : db.KeepsGrounded (db.setResidency blobId residency) := by
  rw [isEvictable, decide_eq_true_eq, ← Finset.mem_coe, coe_grounded,
    coe_literalIds_some] at hevictable
  rw [KeepsGrounded, grounded_setResidency_eq hdropped, ← Finset.coe_subset, coe_grounded,
    coe_grounded, coe_literalIds_some, Saturation.closure_diff_eq hevictable]

end Db

end Datboi
