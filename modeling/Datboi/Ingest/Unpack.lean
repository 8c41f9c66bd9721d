import Datboi.Exec.Replay
import Datboi.Index.Writes

/-!
# Unpacking transport containers

Once the members of a container are durable, the container's bytes may go. The gate
asks the index which blobs it still expects out of this container, and the store
whether it has them.
-/

namespace Datboi

namespace Ingest

/-- Destroy a container's bytes once every member the index expects out of it is in
the store. Returns the bytes reclaimed, or `none` when the gate refused. -/
def dropContainer (blobId : Nat) (hash : Blake3) (site : Site) : Option Nat × Site :=
  if (site.db.containerMemberClaims blobId).all fun claim => site.store.has .data claim.2.1 then
    (some ((site.store.len .data hash).getD 0),
      { site with
        store := site.store.removeBlob .data hash
        db := site.db.setResidency blobId .absent })
  else (none, site)

theorem dropContainer_eq_some {blobId bytes : Nat} {hash : Blake3} {site site' : Site}
    (hdrop : dropContainer blobId hash site = (some bytes, site')) :
    (∀ claim ∈ site.db.containerMemberClaims blobId, site.store.has .data claim.2.1 = true) ∧
      site'.db = site.db.setResidency blobId .absent ∧
      site'.store = site.store.removeBlob .data hash := by
  unfold dropContainer at hdrop
  split at hdrop
  · rename_i hgate
    cases hdrop
    exact ⟨List.all_eq_true.mp hgate, rfl, rfl⟩
  · cases hdrop

end Ingest

namespace Db

/-- Every licensed recipe that takes the blob as an input, alone or with others, and
could run now has only outputs that stay grounded without the blob's literal. -/
def ConsumersCovered (db : Db) (blobId : Nat) : Prop :=
  ∀ row ∈ db.recipes, row.verify = .replayedLocal → blobId ∈ row.inputIds →
    (∀ input ∈ row.inputIds, input ∈ db.grounded .eviction none) →
    ∀ output ∈ row.outputIds, output ≠ blobId → output ∈ db.grounded .eviction (some blobId)

instance (db : Db) (blobId : Nat) : Decidable (db.ConsumersCovered blobId) :=
  inferInstanceAs (Decidable (∀ row ∈ db.recipes, row.verify = .replayedLocal →
    blobId ∈ row.inputIds → (∀ input ∈ row.inputIds, input ∈ db.grounded .eviction none) →
    ∀ output ∈ row.outputIds, output ≠ blobId → output ∈ db.grounded .eviction (some blobId)))

/-- Dropping a literal costs other blobs their grounding exactly through the
recipes that take it as a direct input. -/
theorem grounded_without_iff {db : Db} {blobId : Nat} :
    (∀ other ∈ db.grounded .eviction none, other ≠ blobId →
      other ∈ db.grounded .eviction (some blobId)) ↔ db.ConsumersCovered blobId := by
  have hbase : (↑(db.literalIds none) : Set Nat) ⊆ ↑(db.literalIds (some blobId)) ∪ {blobId} := by
    rw [coe_literalIds_some]
    exact Set.subset_sdiff_union _ _
  have hexchange := Saturation.closure_subset_union_iff (db.permittedRules .eviction)
    (db.permittedRules .eviction) hbase
  simp only [← coe_grounded] at hexchange
  constructor
  · intro hkept row hrow hlicensed hconsumes hinputs output houtput hne
    have hsubset : (↑(db.grounded .eviction none) : Set Nat) ⊆
        ↑(db.grounded .eviction (some blobId)) ∪ {blobId} := fun other hother => by
      by_cases heq : other = blobId
      · exact Or.inr heq
      · exact Or.inl (hkept other hother heq)
    have hrule := mem_permittedRules_eviction.mpr ⟨row, hrow, hlicensed, rfl⟩
    exact (hexchange.mp hsubset row.rule hrule hinputs (Or.inr hconsumes) output
      houtput).resolve_right hne
  · intro hcovered other hother hne
    refine (hexchange.mpr ?_ hother).resolve_right hne
    intro rule hrule hpremises haffected output houtput
    obtain ⟨row, hrow, hlicensed, rfl⟩ := mem_permittedRules_eviction.mp hrule
    by_cases heq : output = blobId
    · exact Or.inr heq
    · exact Or.inl (hcovered row hrow hlicensed (haffected.resolve_left (fun hgone => hgone hrule))
        hpremises output houtput heq)

end Db

namespace Ingest

/-- A drop the gate lets through keeps every other blob grounded under the drop rule
if and only if the container's licensed consumers are covered. -/
theorem dropContainer_preserves_grounded_iff {blobId bytes : Nat} {hash : Blake3}
    {site site' : Site} (hdrop : dropContainer blobId hash site = (some bytes, site')) :
    (∀ other ∈ site.db.grounded .eviction none, other ≠ blobId →
      other ∈ site'.db.grounded .eviction none) ↔ site.db.ConsumersCovered blobId := by
  obtain ⟨_, hdb, _⟩ := dropContainer_eq_some hdrop
  rw [hdb, Db.grounded_setResidency_eq (by decide)]
  exact Db.grounded_without_iff

/-- A container, a second resident blob, and a blob that a licensed recipe builds
from the given inputs. -/
def containerSite (inputs : List InputRef) (memberResidency : Residency) : Site where
  db :=
    let blobs : List (Blake3 × Residency) := [(1, .resident), (2, .resident), (3, memberResidency)]
    let db := blobs.foldl (fun db blob => (Db.upsertBlob db blob.1 (some 1) .data blob.2).1) Db.empty
    let (db, recipeBlob) := db.upsertBlob 4 (some 1) .metadata .resident
    match db.indexRecipe recipeBlob ⟨.builtin "assemble" 1, inputs, [⟨3, 1, none⟩], []⟩ .affine
        .localIngest with
    | .ok (db, recipeId) => db.markVerify recipeId .replayedLocal
    | .error _ => db
  store :=
    let store := (Store.empty.setLoose .data 1 (some [1])).setLoose .data 2 (some [2])
    if memberResidency = .resident then store.setLoose .data 3 (some [3]) else store
  caches := .empty

/-- A container whose one member is resident may go. -/
theorem dropContainer_member_resident :
    (dropContainer 1 1 (containerSite [⟨1, none⟩] .resident)).1 = some 1 ∧
      3 ∈ (dropContainer 1 1 (containerSite [⟨1, none⟩] .resident)).2.db.grounded .eviction none := by
  refine ⟨by decide, ?_⟩
  have hdrop : dropContainer 1 1 (containerSite [⟨1, none⟩] .resident) =
      (some 1, (dropContainer 1 1 (containerSite [⟨1, none⟩] .resident)).2) := rfl
  exact (dropContainer_preserves_grounded_iff hdrop).mpr (by decide) 3 (by decide) (by decide)

/-- An evicted blob that a licensed recipe builds from the container together with
another blob: the gate does not see that recipe, and the drop loses the blob. -/
theorem dropContainer_loses_shared_input :
    (dropContainer 1 1 (containerSite [⟨1, none⟩, ⟨2, none⟩] .evictedCovered)).1 = some 1 ∧
      3 ∈ (containerSite [⟨1, none⟩, ⟨2, none⟩] .evictedCovered).db.grounded .eviction none ∧
      3 ∉ (dropContainer 1 1 (containerSite [⟨1, none⟩, ⟨2, none⟩]
        .evictedCovered)).2.db.grounded .eviction none := by
  decide

end Ingest

end Datboi
