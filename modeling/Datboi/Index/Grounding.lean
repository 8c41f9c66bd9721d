import Datboi.Index.Db
import Datboi.Lib.Saturation

/-!
# Grounding

A blob is grounded when it is resident, or when a permitted recipe produces it
from grounded inputs. The index computes the grounded set by rounds over a
temporary table, for three notions of permitted recipe; `isEvictable` asks whether
a blob would stay grounded without its own literal.
-/

namespace Datboi

open Saturation (Rule Derivable ClosedUnder)

/-- Which recipes may carry grounding. -/
inductive GroundingMode where
  /-- Drop safety: recipes replayed on this host. -/
  | eviction
  /-- Replayed here, or verified and minted by local ingest. -/
  | auditVerified
  /-- Any verified-grade claim, whatever its source. -/
  | auditClaimed
  deriving DecidableEq, Repr

def GroundingMode.recipeCondition : GroundingMode → RecipeRow → Bool
  | .eviction, row => row.verify = .replayedLocal
  | .auditVerified, row =>
    row.verify = .replayedLocal ∨ (row.verify = .verified ∧ row.source = .localIngest)
  | .auditClaimed, row => row.verify = .verified ∨ row.verify = .replayedLocal

def RecipeRow.rule (row : RecipeRow) : Rule Nat := ⟨row.inputIds, row.outputIds⟩

namespace Db

/-- The resident rows the temporary table starts from. -/
def literalRows (db : Db) (withoutLiteral : Option Nat) : List BlobRow :=
  db.blobs.rows.filter fun row => row.residency = .resident ∧ withoutLiteral ≠ some row.blobId

def literalIds (db : Db) (withoutLiteral : Option Nat) : Finset Nat :=
  ((db.literalRows withoutLiteral).map BlobRow.blobId).toFinset

def groundingRules (db : Db) (mode : GroundingMode) : List (Rule Nat) :=
  (db.recipes.rows.filter mode.recipeCondition).map RecipeRow.rule

/-- The insertion loop, bounded by a number of rounds: each round adds the outputs
of the permitted recipes all of whose inputs the table already holds, and the loop
breaks after a round that added nothing. -/
def groundedLoop (db : Db) (mode : GroundingMode) (withoutLiteral : Option Nat) (rounds : Nat) :
    Option (Finset Nat) :=
  Saturation.saturateLoop (db.groundingRules mode) rounds (db.literalIds withoutLiteral)

def grounded (db : Db) (mode : GroundingMode) (withoutLiteral : Option Nat) : Finset Nat :=
  Saturation.saturate (db.groundingRules mode) (db.literalIds withoutLiteral)

/-- Would the blob stay grounded if its literal were dropped? -/
def isEvictable (db : Db) (blobId : Nat) : Bool :=
  blobId ∈ db.grounded .eviction (some blobId)

/-- Is the blob rebuilt from other retained bytes by some claimed route? -/
def isCoveredByOthers (db : Db) (blobId : Nat) : Bool :=
  blobId ∈ db.grounded .auditClaimed (some blobId)

/-! ## The set the loop computes -/

/-- A blob id whose row is resident. -/
def IsResident (db : Db) (blobId : Nat) : Prop :=
  ∃ row ∈ db.blobs, row.blobId = blobId ∧ row.residency = .resident

/-- Rules of the recipes that a mode permits. -/
def permittedRules (db : Db) (mode : GroundingMode) : Set (Rule Nat) :=
  {rule | ∃ row ∈ db.recipes, mode.recipeCondition row ∧ row.rule = rule}

variable {db : Db} {withoutLiteral : Option Nat} {mode mode' : GroundingMode}

@[simp] theorem mem_literalIds {blobId : Nat} :
    blobId ∈ db.literalIds withoutLiteral ↔
      db.IsResident blobId ∧ withoutLiteral ≠ some blobId := by
  simp only [literalIds, literalRows, List.mem_toFinset, List.mem_map, List.mem_filter,
    decide_eq_true_eq, IsResident, Table.mem_rows]
  constructor
  · rintro ⟨row, ⟨hmem, hresident, hwithout⟩, rfl⟩
    exact ⟨⟨row, hmem, rfl, hresident⟩, hwithout⟩
  · rintro ⟨⟨row, hmem, rfl, hresident⟩, hwithout⟩
    exact ⟨row, ⟨hmem, hresident, hwithout⟩, rfl⟩

theorem mem_groundingRules {rule : Rule Nat} :
    rule ∈ db.groundingRules mode ↔ rule ∈ db.permittedRules mode := by
  simp [groundingRules, permittedRules, Table.mem_rows, and_assoc]

theorem coe_grounded (db : Db) (mode : GroundingMode) (withoutLiteral : Option Nat) :
    (↑(db.grounded mode withoutLiteral) : Set Nat) =
      Saturation.closure (db.permittedRules mode) ↑(db.literalIds withoutLiteral) := by
  rw [grounded, Saturation.coe_saturate]
  congr 1
  ext rule
  exact mem_groundingRules

theorem closedUnder_permittedRules {s : Set Nat} :
    ClosedUnder (db.permittedRules mode) s ↔
      ∀ row ∈ db.recipes, mode.recipeCondition row →
        (∀ input ∈ row.inputIds, input ∈ s) → ∀ output ∈ row.outputIds, output ∈ s := by
  constructor
  · intro hclosed row hmem hcondition
    exact hclosed row.rule ⟨row, hmem, hcondition, rfl⟩
  · rintro hclosed _ ⟨row, hmem, hcondition, rfl⟩
    exact hclosed row hmem hcondition

/-- The one way grounding is compared between two databases: fewer permitted
recipes, and literals that are at least grounded. -/
theorem grounded_subset_grounded {db' : Db} {withoutLiteral' : Option Nat}
    (hrules : db.permittedRules mode ⊆ db'.permittedRules mode')
    (hliterals : db.literalIds withoutLiteral ⊆ db'.grounded mode' withoutLiteral') :
    db.grounded mode withoutLiteral ⊆ db'.grounded mode' withoutLiteral' := by
  rw [← Finset.coe_subset, coe_grounded, coe_grounded]
  apply Saturation.closure_subset_closure hrules
  rw [← coe_grounded]
  exact Finset.coe_subset.mpr hliterals

theorem literalIds_subset_grounded (db : Db) (mode : GroundingMode)
    (withoutLiteral : Option Nat) :
    db.literalIds withoutLiteral ⊆ db.grounded mode withoutLiteral := by
  rw [← Finset.coe_subset, coe_grounded]
  exact Saturation.subset_closure

theorem permittedRules_mono (himp : ∀ row, mode.recipeCondition row → mode'.recipeCondition row) :
    db.permittedRules mode ⊆ db.permittedRules mode' := by
  rintro rule ⟨row, hmem, hcondition, hrule⟩
  exact ⟨row, hmem, himp row hcondition, hrule⟩

theorem recipeCondition_auditVerified_of_eviction (row : RecipeRow)
    (hcondition : GroundingMode.eviction.recipeCondition row) :
    GroundingMode.auditVerified.recipeCondition row := by
  simp only [GroundingMode.recipeCondition, decide_eq_true_eq] at hcondition ⊢
  exact Or.inl hcondition

theorem recipeCondition_auditClaimed_of_auditVerified (row : RecipeRow)
    (hcondition : GroundingMode.auditVerified.recipeCondition row) :
    GroundingMode.auditClaimed.recipeCondition row := by
  simp only [GroundingMode.recipeCondition, decide_eq_true_eq] at hcondition ⊢
  rcases hcondition with hreplayed | ⟨hverified, _⟩
  · exact Or.inr hreplayed
  · exact Or.inl hverified

/-- A stronger mode grounds no more than a weaker one. -/
theorem grounded_mono_mode (himp : ∀ row, mode.recipeCondition row → mode'.recipeCondition row)
    (withoutLiteral : Option Nat) :
    db.grounded mode withoutLiteral ⊆ db.grounded mode' withoutLiteral :=
  grounded_subset_grounded (permittedRules_mono himp)
    (literalIds_subset_grounded db mode' withoutLiteral)

/-- Same recipes, and every resident blob stays resident. -/
structure ResidencyLE (db db' : Db) : Prop where
  recipes_eq : db.recipes = db'.recipes
  resident : ∀ blobId, db.IsResident blobId → db'.IsResident blobId

theorem grounded_mono_residency {db' : Db} (hle : db.ResidencyLE db') (mode : GroundingMode)
    (withoutLiteral : Option Nat) :
    db.grounded mode withoutLiteral ⊆ db'.grounded mode withoutLiteral := by
  apply grounded_subset_grounded
  · intro rule hrule
    rw [permittedRules, ← hle.recipes_eq]
    exact hrule
  · apply Finset.Subset.trans _ (literalIds_subset_grounded db' mode withoutLiteral)
    intro blobId hliteral
    rw [mem_literalIds] at hliteral ⊢
    exact ⟨hle.resident blobId hliteral.1, hliteral.2⟩

/-- The sets that hold every literal but the excluded one and that the permitted
recipes map into themselves. -/
def GroundingClosed (db : Db) (mode : GroundingMode) (withoutLiteral : Option Nat)
    (s : Set Nat) : Prop :=
  (∀ row ∈ db.blobs, row.residency = .resident → withoutLiteral ≠ some row.blobId →
    row.blobId ∈ s) ∧
  ∀ row ∈ db.recipes, mode.recipeCondition row →
    (∀ input ∈ row.inputIds, input ∈ s) → ∀ output ∈ row.outputIds, output ∈ s

theorem groundingClosed_iff {s : Set Nat} :
    db.GroundingClosed mode withoutLiteral s ↔
      ↑(db.literalIds withoutLiteral) ⊆ s ∧ ClosedUnder (db.permittedRules mode) s := by
  rw [GroundingClosed, closedUnder_permittedRules]
  refine and_congr_left fun _ => ⟨?_, ?_⟩
  · intro hliterals blobId hmem
    obtain ⟨⟨row, hrow, rfl, hresident⟩, hwithout⟩ := mem_literalIds.mp hmem
    exact hliterals row hrow hresident hwithout
  · intro hliterals row hrow hresident hwithout
    exact hliterals (mem_literalIds.mpr ⟨⟨row, hrow, rfl, hresident⟩, hwithout⟩)

/-- The loop ends on every graph, with the least set that holds the retained
literals and is closed under the permitted recipes; the set grows with residency
and along the three modes. -/
theorem grounded_isLeast (db : Db) (mode : GroundingMode) (withoutLiteral : Option Nat) :
    (∃ rounds, db.groundedLoop mode withoutLiteral rounds =
      some (db.grounded mode withoutLiteral)) ∧
    IsLeast {s : Set Nat | db.GroundingClosed mode withoutLiteral s}
      ↑(db.grounded mode withoutLiteral) ∧
    (∀ db' : Db, db.ResidencyLE db' →
      db.grounded mode withoutLiteral ⊆ db'.grounded mode withoutLiteral) ∧
    db.grounded .eviction withoutLiteral ⊆ db.grounded .auditVerified withoutLiteral ∧
    db.grounded .auditVerified withoutLiteral ⊆ db.grounded .auditClaimed withoutLiteral := by
  refine ⟨⟨_, Saturation.saturateLoop_eq_some_saturate _ _⟩, ?_,
    fun db' hle => grounded_mono_residency hle mode withoutLiteral,
    grounded_mono_mode recipeCondition_auditVerified_of_eviction withoutLiteral,
    grounded_mono_mode recipeCondition_auditClaimed_of_auditVerified withoutLiteral⟩
  have hsets : {s : Set Nat | db.GroundingClosed mode withoutLiteral s} =
      {s | ↑(db.literalIds withoutLiteral) ⊆ s ∧ ClosedUnder (db.permittedRules mode) s} := by
    ext s
    exact groundingClosed_iff
  rw [hsets, coe_grounded]
  exact Saturation.isLeast_closure

end Db

end Datboi
