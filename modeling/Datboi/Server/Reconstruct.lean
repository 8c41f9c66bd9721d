import Datboi.Index.Writes
import Datboi.Server.Gc

/-!
# Components are dependencies too

What the executor can rebuild: the blobs in the store, and the outputs of licensed
recipes whose inputs it can rebuild and whose component it can load. The index does
not record which component a recipe runs, so neither the drop check nor the orphan
query accounts for it; the results say exactly what a drop costs.
-/

namespace Datboi

open Saturation (Rule Derivable)

/-- The lane that loads a world's components. -/
def World.lane? : World → Option Lane
  | .transform1 => some .transform
  | .extractor1 => some .extractor
  | .other _ => none

namespace Executor

variable (exec : Executor) {site site' : Site} {hash : Blake3}

/-- The executor can get at a component: compiled already, or in the store. -/
def ComponentObtainable (site : Site) (lane : Lane) (component : Blake3) : Prop :=
  (site.caches.compiled lane component).isSome ∨ site.store.has .data component

/-- Builtins always run; a component's operation needs its component. -/
def Runnable (site : Site) : Op → Prop
  | .builtin _ _ => True
  | .wasm component world _ => ∃ lane, world.lane? = some lane ∧ ComponentObtainable site lane component

/-- A licensed recipe with its object. -/
def LicensedRecipe (site : Site) (recipe : Recipe) : Prop :=
  ∃ row ∈ site.db.recipes, row.verify = .replayedLocal ∧
    exec.loadRecipe site.db site.store row.recipeId = .ok recipe

end Executor

def Recipe.inputHashes (recipe : Recipe) : List Blake3 := recipe.inputs.map InputRef.hash

def Recipe.outputHashes (recipe : Recipe) : List Blake3 := recipe.outputs.map OutputRef.hash

def Recipe.rule (recipe : Recipe) : Rule Blake3 := ⟨recipe.inputHashes, recipe.outputHashes⟩

namespace Executor

variable (exec : Executor) {site site' : Site} {hash : Blake3}

def runnableRules (site : Site) : Set (Rule Blake3) :=
  {rule | ∃ recipe, exec.LicensedRecipe site recipe ∧ Runnable site recipe.op ∧ recipe.rule = rule}

def stored (site : Site) : Set Blake3 := {hash | site.store.has .data hash = true}

/-- The blob can be rebuilt from stored literals through licensed recipes whose
inputs and components the executor can obtain. -/
def Reconstructible (site : Site) (hash : Blake3) : Prop :=
  Derivable (exec.runnableRules site) (stored site) hash

end Executor

/-- The state in which only one blob's bytes are missing. -/
def Site.without (site : Site) (hash : Blake3) : Site :=
  { site with store := (site.store.setLoose .data hash none).unmapMembers [hash] }

namespace Executor

variable (exec : Executor)

/-- Every licensed recipe that takes the blob as an input or runs it as its component,
and could run now, has only outputs that can also be rebuilt without the blob. -/
def UsersCovered (site : Site) (hash : Blake3) : Prop :=
  ∀ recipe, exec.LicensedRecipe site recipe → Runnable site recipe.op →
    (∀ input ∈ recipe.inputHashes, exec.Reconstructible site input) →
    hash ∈ recipe.inputHashes ∨ recipe.op.component? = some hash →
    ∀ output ∈ recipe.outputHashes, output ≠ hash → exec.Reconstructible (site.without hash) output

/-! ## One blob's bytes -/

section Without

variable {exec} {site site' : Site} {hash other : Blake3}

theorem has_without :
    (site.without hash).store.has .data other = (decide (other ≠ hash) && site.store.has .data other) := by
  simp only [Site.without, Store.has_data, Store.hasLoose_unmapMembers, Store.hasLoose_setLoose,
    Store.isPacked_unmapMembers, Store.isPacked_setLoose, List.mem_singleton]
  by_cases heq : other = hash <;> simp [heq]

/-- The object behind a recipe row, through any change that keeps the row's blob hash
and the metadata files. -/
theorem loadRecipe_congr {recipeId : Nat}
    (hobject : site'.db.recipeObjectHash recipeId = site.db.recipeObjectHash recipeId)
    (hmetadata : ∀ hash, site'.store.get .metadata hash = site.store.get .metadata hash) :
    exec.loadRecipe site'.db site'.store recipeId = exec.loadRecipe site.db site.store recipeId := by
  simp only [loadRecipe, hobject, hmetadata]

theorem licensedRecipe_without (recipe : Recipe) :
    exec.LicensedRecipe (site.without hash) recipe ↔ exec.LicensedRecipe site recipe := by
  have hmetadata : ∀ h, (site.without hash).store.get .metadata h = site.store.get .metadata h := by
    intro h
    simp [Site.without, Store.get_metadata]
  have hload : ∀ recipeId, exec.loadRecipe (site.without hash).db (site.without hash).store recipeId =
      exec.loadRecipe site.db site.store recipeId := fun _ => loadRecipe_congr rfl hmetadata
  simp only [LicensedRecipe, hload]
  rfl

/-- Only operations that run the missing blob as their component stop running. -/
theorem runnable_without {op : Op} (hrunnable : Runnable site op)
    (hother : op.component? ≠ some hash) : Runnable (site.without hash) op := by
  cases op with
  | builtin name major => exact True.intro
  | wasm component world exportName =>
    obtain ⟨lane, hlane, hcached | hstored⟩ := hrunnable
    · exact ⟨lane, hlane, Or.inl hcached⟩
    · refine ⟨lane, hlane, Or.inr ?_⟩
      have hne : component ≠ hash := fun heq => hother (heq ▸ rfl)
      simp [has_without, hne, hstored]

/-- What the executor can rebuild is a matter of the stored blobs, the caches and the
licensed recipes. -/
theorem reconstructible_congr
    (hstored : ∀ h, site'.store.has .data h = site.store.has .data h)
    (hcaches : site'.caches = site.caches)
    (hlicensed : ∀ recipe, exec.LicensedRecipe site' recipe ↔ exec.LicensedRecipe site recipe)
    (other : Blake3) : exec.Reconstructible site' other ↔ exec.Reconstructible site other := by
  have hrunnable : ∀ op, Runnable site' op ↔ Runnable site op := by
    intro op
    cases op <;> simp [Runnable, ComponentObtainable, hstored, hcaches]
  simp only [Reconstructible, runnableRules, stored, hstored, hlicensed, hrunnable]

/-- Missing bytes cost exactly what the users of the blob cannot get otherwise. -/
theorem reconstructible_without_iff :
    (∀ other, exec.Reconstructible site other → other ≠ hash →
      exec.Reconstructible (site.without hash) other) ↔ exec.UsersCovered site hash := by
  constructor
  · intro hkept recipe hlicensed hrunnable hinputs _ output houtput hne
    exact hkept output (.fire ⟨recipe, hlicensed, hrunnable, rfl⟩ hinputs houtput) hne
  · intro hcovered other hother hne
    have hbase : stored site ⊆ stored (site.without hash) ∪ {hash} := by
      intro literal hliteral
      by_cases heq : literal = hash
      · exact Or.inr heq
      · refine Or.inl ?_
        simpa [stored, has_without, heq] using hliteral
    refine ((Saturation.closure_subset_union_iff (exec.runnableRules site)
      (exec.runnableRules (site.without hash)) hbase).mpr ?_ hother).resolve_right hne
    rintro _ ⟨recipe, hlicensed, hrunnable, rfl⟩ hpremises haffected output houtput
    by_cases heq : output = hash
    · exact Or.inr heq
    refine Or.inl (hcovered recipe hlicensed hrunnable hpremises ?_ output houtput heq)
    rcases haffected with hgone | hinput
    · right
      by_contra hcomponent
      exact hgone ⟨recipe, (licensedRecipe_without recipe).mpr hlicensed,
        runnable_without hrunnable hcomponent, rfl⟩
    · exact Or.inl hinput

theorem licensedRecipe_congr (hrecipes : site'.db.recipes = site.db.recipes)
    (hobject : ∀ row ∈ site.db.recipes, site'.db.recipeObjectHash row.recipeId =
      site.db.recipeObjectHash row.recipeId)
    (hmetadata : ∀ hash, site'.store.loose .metadata hash = site.store.loose .metadata hash)
    (recipe : Recipe) : exec.LicensedRecipe site' recipe ↔ exec.LicensedRecipe site recipe := by
  unfold LicensedRecipe
  rw [hrecipes]
  refine exists_congr fun row => and_congr_right fun hrow => and_congr_right fun _ => ?_
  rw [loadRecipe_congr (hobject row hrow) fun h => by
    rw [Store.get_metadata, Store.get_metadata, hmetadata h]]

end Without

/-! ## Evictions -/

section Evict

variable {exec} {site site' : Site} {hash : Blake3} {protectedIds : List Nat} {bytes : Nat}

theorem licensedRecipe_dropLiteral {row : BlobRow} {store : Store}
    (hsame : site.store.SameBlobs store) (recipe : Recipe) :
    exec.LicensedRecipe (dropLiteral row store site) recipe ↔ exec.LicensedRecipe site recipe := by
  apply licensedRecipe_congr
  · rfl
  · intro row' _
    exact Db.recipeObjectHash_modify_blobs row.blobId _ row'.recipeId
  · intro h
    simp [dropLiteral, Store.evictLiteral, hsame.loose]

/-- An eviction leaves what can be rebuilt without the blob's bytes, or everything if
a pack still holds them. -/
theorem reconstructible_of_evicted
    (hrun : exec.evictWith protectedIds hash site = .ok (.evicted bytes) site') (other : Blake3) :
    exec.Reconstructible site' other ↔
      exec.Reconstructible (if site.store.isPacked hash then site else site.without hash) other := by
  obtain ⟨row, store, hrow, _, _, _, hsame, rfl⟩ := evictWith_eq_evicted hrun
  obtain rfl : row.hash = hash := (Table.byKey_eq_some.mp hrow).2
  have hpacked : store.isPacked = site.store.isPacked := by
    funext h
    simp only [Store.isPacked, hsame.packs]
  have hloose : store.hasLoose = site.store.hasLoose := by
    funext ns h
    simp only [Store.hasLoose, hsame.loose]
  have hstored : ∀ h, (dropLiteral row store site).store.has .data h =
      ((decide (h ≠ row.hash) && site.store.hasLoose .data h) || site.store.isPacked h) := by
    intro h
    simp only [dropLiteral, Store.has_evictLiteral_data, hpacked, hloose]
  split
  · rename_i hstays
    apply reconstructible_congr
    · intro h
      rw [hstored, Store.has_data]
      by_cases heq : h = row.hash <;> simp [heq, hstays]
    · rfl
    · exact licensedRecipe_dropLiteral hsame
  · rename_i hgone
    apply reconstructible_congr
    · intro h
      rw [hstored, has_without, Store.has_data]
      by_cases heq : h = row.hash <;> simp [heq, hgone]
    · rfl
    · intro recipe
      rw [licensedRecipe_without, licensedRecipe_dropLiteral hsame]

end Evict

/-! ## Orphan deletions -/

section Orphan

variable {exec} {site site' : Site} {candidate : OrphanCandidate}

theorem licensedRecipe_deleteOrphanRows {blobId : Nat}
    (hdelete : site.db.deleteOrphanRows blobId = .ok site'.db)
    (hmetadata : ∀ hash, site'.store.loose .metadata hash = site.store.loose .metadata hash)
    (recipe : Recipe) : exec.LicensedRecipe site' recipe ↔ exec.LicensedRecipe site recipe := by
  unfold Db.deleteOrphanRows at hdelete
  split at hdelete
  · cases hdelete
  · rename_i hfree
    have hdb := (Except.ok.inj hdelete).symm
    refine licensedRecipe_congr (by rw [hdb]) (fun row hrow => ?_) hmetadata recipe
    have hne : row.blobId ≠ blobId := by
      rintro rfl
      apply hfree
      simp only [Db.isForeignKeyHeld, decide_eq_true_eq]
      exact Or.inr (Or.inl (List.any_eq_true.mpr ⟨row, hrow, by simp⟩))
    have hfound : site.db.recipes.byId row.recipeId = some row :=
      Table.byId_eq_some.mpr ⟨hrow, rfl⟩
    simp only [hdb, Db.recipeObjectHash, hfound, Option.bind_some, Db.blobById,
      Table.byId_delete_ne hne]

/-- A deleted orphan leaves what can be rebuilt without its bytes. -/
theorem reconstructible_of_orphan {host : Host} {keeps : List Blake3} {roots : List Nat}
    {now grace : Int} {response : GcApplyResponse}
    (hpack : site.store.PackEntryReal candidate.hash)
    (hrun : Gc.apply host keeps roots now grace [candidate] site = .ok response site')
    (hdeleted : response.deleted = 1) (other : Blake3) :
    exec.Reconstructible site' other ↔ exec.Reconstructible (site.without candidate.hash) other := by
  obtain ⟨_, store, db, hdelete, rfl, hstore⟩ := Gc.apply_singleton_eq_ok hrun hdeleted
  have hblobs : store.loose = site.store.loose ∧
      ∀ h, store.isPacked h = (decide (h ≠ candidate.hash) && site.store.isPacked h) := by
    rcases hstore with ⟨hunpacked, rfl⟩ | ⟨pack, hpacked, hrepack⟩
    · refine ⟨rfl, fun h => ?_⟩
      by_cases heq : h = candidate.hash
      · have hnone : site.store.isPacked candidate.hash = false := by
          simpa [Store.packOf, Store.isPacked] using hunpacked
        simp [heq, hnone]
      · simp [heq]
    · exact Store.repack_eq_ok hpacked hpack hrepack
  apply reconstructible_congr
  · intro h
    have hloose : store.hasLoose .data h = site.store.hasLoose .data h := by
      simp only [Store.hasLoose, hblobs.1]
    rw [Store.has_removeBlob_data, has_without, Store.has_data, hblobs.2, hloose]
    by_cases heq : h = candidate.hash <;> simp [heq]
  · rfl
  · intro recipe
    rw [licensedRecipe_without]
    apply licensedRecipe_deleteOrphanRows hdelete
    intro h
    simp [Store.removeBlob, Store.evictLiteral, Store.setObao, Store.setLoose, hblobs.1]

end Orphan

/-- What a permitted drop keeps, with components counted as dependencies. An eviction
keeps every reconstructible blob if and only if a pack still holds the bytes, or the
blob can be rebuilt without them and its users are covered; the deletion of an orphan
keeps every other blob if and only if the orphan's users are covered. -/
theorem drop_preserves_reconstructible_iff (exec : Executor) (site : Site) :
    (∀ protectedIds hash bytes site',
      exec.evictWith protectedIds hash site = .ok (.evicted bytes) site' →
      ((∀ other, exec.Reconstructible site other → exec.Reconstructible site' other) ↔
        (site.store.isPacked hash = true ∨
          (exec.Reconstructible (site.without hash) hash ∧ exec.UsersCovered site hash)))) ∧
    (∀ keeps roots now grace candidate response site',
      Gc.apply exec.host keeps roots now grace [candidate] site = .ok response site' →
      response.deleted = 1 → site.store.PackEntryReal candidate.hash →
      ((∀ other, exec.Reconstructible site other → other ≠ candidate.hash →
          exec.Reconstructible site' other) ↔ exec.UsersCovered site candidate.hash)) := by
  constructor
  · intro protectedIds hash bytes site' hrun
    obtain ⟨_, _, _, _, hpresent, _⟩ := evictWith_eq_evicted hrun
    simp only [reconstructible_of_evicted hrun]
    split
    · rename_i hpacked
      simp [hpacked]
    · rename_i hgone
      rw [← reconstructible_without_iff]
      constructor
      · intro hkept
        exact Or.inr ⟨hkept hash (.base hpresent), fun other hother _ => hkept other hother⟩
      · rintro (hpacked | ⟨hself, hothers⟩) other hother
        · exact absurd hpacked hgone
        · by_cases heq : other = hash
          · exact heq ▸ hself
          · exact hothers other hother heq
  · intro keeps roots now grace candidate response site' hrun hdeleted hpack
    simp only [reconstructible_of_orphan hpack hrun hdeleted]
    exact reconstructible_without_iff

/-! ## A component that nothing else references -/

/-- Blob 3 was evicted; its licensed recipe runs the component 2 over blob 1. -/
def componentRecipe : Recipe :=
  ⟨.wasm 2 .transform1 "unpack", [⟨1, none⟩], [⟨3, 1, none⟩], []⟩

def componentExec : Executor where
  host := { Host.sample with decodeRecipe := fun _ => .ok componentRecipe }

def componentSite : Site where
  db :=
    let db := (Db.empty.upsertBlob 1 (some 1) .data .resident).1
    let db := (db.upsertBlob 2 (some 1) .data .resident).1
    let db := (db.upsertBlob 3 (some 1) .data .evictedCovered).1
    let (db, recipeBlob) := db.upsertBlob 4 (some 1) .metadata .resident
    match db.indexRecipe recipeBlob componentRecipe .opaqueSeek .localIngest with
    | .ok (db, recipeId) => ((db.markVerify recipeId .replayedLocal).sweepOrphanMarks [] 0).1
    | .error _ => db
  store := ((Store.empty.setLoose .data 1 (some [1])).setLoose .data 2 (some [2])).setLoose
    .metadata 4 (some [4])
  caches := .empty

theorem eq_componentRecipe {db : Db} {store : Store} {recipeId : Nat} {recipe : Recipe}
    (hload : componentExec.loadRecipe db store recipeId = .ok recipe) : recipe = componentRecipe := by
  unfold loadRecipe at hload
  split at hload
  · cases hload
  · split at hload
    · cases hload
    · cases hload
      rfl

/-- Without its component the recipe rebuilds nothing. -/
theorem stored_of_reconstructible {site : Site} {hash : Blake3}
    (hcaches : site.caches = .empty) (hcomponent : site.store.has .data 2 = false)
    (hreconstructible : componentExec.Reconstructible site hash) :
    site.store.has .data hash = true := by
  refine Saturation.closure_subset (s := stored site) le_rfl ?_ hreconstructible
  rintro _ ⟨recipe, ⟨row, _, _, hload⟩, hrunnable, rfl⟩
  rw [eq_componentRecipe hload] at hrunnable
  obtain ⟨lane, _, hcached | hstored⟩ := hrunnable
  · simp [hcaches, Caches.empty] at hcached
  · rw [hcomponent] at hstored
    cases hstored

/-- The sweep marks the component, the delete-time check lets it go, and the evicted
blob that only it could rebuild is lost. -/
theorem orphan_deletion_loses_component :
    ∃ site', Gc.apply componentExec.host [] [] 100 60
        (componentSite.db.listOrphanCandidates 100 60) componentSite = .ok ⟨1, 1, 0⟩ site' ∧
      componentExec.Reconstructible componentSite 3 ∧ ¬ componentExec.Reconstructible site' 3 := by
  refine ⟨_, rfl, ?_, ?_⟩
  · have hrule : componentRecipe.rule ∈ componentExec.runnableRules componentSite :=
      ⟨componentRecipe, ⟨⟨1, 4, .opaqueSeek, .replayedLocal, .localIngest, [⟨1, none⟩],
        [⟨3, 1, none⟩]⟩, List.mem_cons_self, rfl, rfl⟩, ⟨.transform, rfl, Or.inr rfl⟩, rfl⟩
    refine .fire hrule ?_ List.mem_cons_self
    · intro input hinput
      rw [List.mem_singleton.mp hinput]
      exact .base (by rfl)
  · intro hlost
    exact absurd (stored_of_reconstructible rfl (by rfl) hlost) (by decide)

end Executor

end Datboi
