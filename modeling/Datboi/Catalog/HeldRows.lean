import Datboi.Catalog.Holdings
import Datboi.Catalog.ViewRows

/-!
# Which blob a view's row describes

The query takes the smallest address and the largest size of an identity's blobs, each on
its own, and asks the rollup only whether some blob of the identity is held. A row
describes one held blob exactly when the blob with the smallest address is itself held,
has a recorded size, and no other blob of the identity is larger.
-/

namespace Datboi.Catalog

namespace CatalogState

variable {state : CatalogState} {identityId revision : Nat} {hash : Blake3} {size : Nat}

/-- The pick's address and size are those of one blob that is linked to the claim's
identity and counts as held. -/
def OneBlob (state : CatalogState) (pick : Picked) : Prop :=
  ∃ link ∈ state.identityBlobs, link.identityId = pick.identityId ∧
    state.linkState link = some 4 ∧ ∃ blob, state.index.blobById link.blobId = some blob ∧
      blob.hash = pick.hash ∧ blob.size = some pick.size

/-- Of an identity's blobs, the one with the smallest address is held, its size is recorded,
and none is larger. -/
def Unmixed (state : CatalogState) (identityId : Nat) : Prop :=
  ∃ blob ∈ state.strongBlobs identityId, state.available blob ∧
    (∀ other ∈ state.strongBlobs identityId, blob.hash.toNat ≤ other.hash.toNat) ∧
    ∃ size, blob.size = some size ∧
      ∀ other ∈ state.strongBlobs identityId, ∀ larger, other.size = some larger → larger ≤ size

/-! ## Resolving an identity -/

theorem mem_strongBlobs {blob : BlobRow} : blob ∈ state.strongBlobs identityId ↔
    ∃ link ∈ state.identityBlobs, link.identityId = identityId ∧ 1 ≤ link.basis ∧
      state.index.blobById link.blobId = some blob := by
  simp only [strongBlobs, List.mem_filterMap, List.mem_filter, decide_eq_true_eq, and_assoc]

/-- Only a strong link to an available blob scores as held. -/
theorem linkState_eq_four {link : IdentityBlob} : state.linkState link = some 4 ↔
    ∃ blob, state.index.blobById link.blobId = some blob ∧ 1 ≤ link.basis ∧
      state.available blob = true := by
  unfold linkState
  rw [Option.map_eq_some_iff]
  refine exists_congr fun blob => and_congr_right fun _ => ?_
  constructor
  · intro hscore
    split at hscore
    · assumption
    · split at hscore
      · cases hscore
      · split at hscore
        · cases hscore
        · split at hscore <;> cases hscore
  · intro hheld
    rw [if_pos hheld]

theorem eq_of_hash {blob other : BlobRow} (hblob : blob ∈ state.strongBlobs identityId)
    (hother : other ∈ state.strongBlobs identityId) (heq : blob.hash = other.hash) :
    blob = other := by
  obtain ⟨_, _, _, _, hblob⟩ := mem_strongBlobs.mp hblob
  obtain ⟨_, _, _, _, hother⟩ := mem_strongBlobs.mp hother
  exact Table.eq_of_key (Table.byId_eq_some.mp hblob).1 (Table.byId_eq_some.mp hother).1 heq

theorem resolve_eq_some (hresolve : state.resolve identityId = some (hash, size)) :
    ∃ least ∈ state.strongBlobs identityId, least.hash = hash ∧
      (∀ other ∈ state.strongBlobs identityId, least.hash.toNat ≤ other.hash.toNat) ∧
      size = ((state.strongBlobs identityId).filterMap BlobRow.size).max?.getD 0 := by
  obtain ⟨_, _, hresolve⟩ := Option.bind_eq_some_iff.mp hresolve
  obtain ⟨least, hleast, hresolve⟩ := Option.bind_eq_some_iff.mp hresolve
  cases hresolve
  refine ⟨least, List.argmin_mem hleast, rfl, ?_, rfl⟩
  intro other hother
  exact List.le_of_mem_argmin (f := fun blob : BlobRow => blob.hash.toNat) hother hleast

/-- A resolved identity names one held blob exactly when its blobs are not mixed up. -/
theorem oneBlob_iff {pick : Picked}
    (hresolve : state.resolve pick.identityId = some (pick.hash, pick.size)) :
    state.OneBlob pick ↔ state.Unmixed pick.identityId := by
  obtain ⟨least, hleast, hhash, hmin, hmax⟩ := resolve_eq_some hresolve
  have hlargest : ∀ known, (∃ other ∈ state.strongBlobs pick.identityId,
      other.size = some known) → known ≤ pick.size := by
    rintro known ⟨other, hother, hknown⟩
    have hmem : known ∈ (state.strongBlobs pick.identityId).filterMap BlobRow.size :=
      List.mem_filterMap.mpr ⟨other, hother, hknown⟩
    cases hsizes : ((state.strongBlobs pick.identityId).filterMap BlobRow.size).max? with
    | none =>
      rw [List.max?_eq_none_iff] at hsizes
      rw [hsizes] at hmem
      cases hmem
    | some top =>
      rw [hmax, hsizes]
      exact (List.max?_eq_some_iff.mp hsizes).2 known hmem
  constructor
  · rintro ⟨link, hlink, hidentity, hscore, blob, hblob, hblobHash, hblobSize⟩
    obtain ⟨blob', hblob', hbasis, havailable⟩ := linkState_eq_four.mp hscore
    rw [hblob] at hblob'
    cases hblob'
    have hstrong : blob ∈ state.strongBlobs pick.identityId :=
      mem_strongBlobs.mpr ⟨link, hlink, hidentity, hbasis, hblob⟩
    have heq := eq_of_hash hstrong hleast (hblobHash.trans hhash.symm)
    refine ⟨blob, hstrong, havailable, heq ▸ hmin, pick.size, hblobSize, ?_⟩
    intro other hother larger hlarger
    exact hlargest larger ⟨other, hother, hlarger⟩
  · rintro ⟨blob, hstrong, havailable, hminBlob, known, hknown, hnone⟩
    have heq : blob = least := by
      apply eq_of_hash hstrong hleast
      exact BitVec.eq_of_toNat_eq (Nat.le_antisymm (hminBlob least hleast) (hmin blob hstrong))
    obtain ⟨link, hlink, hidentity, hbasis, hblob⟩ := mem_strongBlobs.mp hstrong
    refine ⟨link, hlink, hidentity, linkState_eq_four.mpr ⟨blob, hblob, hbasis, havailable⟩,
      blob, hblob, heq ▸ hhash, ?_⟩
    rw [hknown]
    congr 1
    apply Nat.le_antisymm (hlargest known ⟨blob, hstrong, hknown⟩)
    -- The recorded size is a candidate, so the maximum is that of some blob.
    cases hsizes : ((state.strongBlobs pick.identityId).filterMap BlobRow.size).max? with
    | none =>
      rw [hmax, hsizes]
      exact Nat.zero_le _
    | some top =>
      rw [hmax, hsizes]
      obtain ⟨other, hother, htop⟩ :=
        List.mem_filterMap.mp (List.max?_eq_some_iff.mp hsizes).1
      exact hnone other hother top htop

/-! ## Where the picks come from -/

/-- The pick is a claim of the catalog, under its name or with the extension of a disk, with
what the claim's identity resolves to. -/
def Claimed (state : CatalogState) (pick : Picked) : Prop :=
  (∃ claim ∈ state.claims, claim.identityId = some pick.identityId ∧
    (pick.claim = claim.name ∨ pick.claim = claim.name ++ ".chd".toList)) ∧
  state.resolve pick.identityId = some (pick.hash, pick.size)

theorem mem_heldClaims {held : HeldClaim} (hmem : held ∈ state.heldClaims revision) :
    held.claim ∈ state.claims ∧ held.claim.identityId = some held.identityId ∧
      state.resolve held.identityId = some (held.hash, held.size) := by
  rw [heldClaims, List.mem_insertionSort] at hmem
  obtain ⟨claim, hclaim, hheld⟩ := List.mem_filterMap.mp hmem
  obtain ⟨entry, _, hheld⟩ := Option.bind_eq_some_iff.mp hheld
  obtain ⟨_, _, hheld⟩ := Option.bind_eq_some_iff.mp hheld
  obtain ⟨identityId, hidentity, hheld⟩ := Option.bind_eq_some_iff.mp hheld
  obtain ⟨⟨hash, size⟩, hresolve, hheld⟩ := Option.bind_eq_some_iff.mp hheld
  cases hheld
  exact ⟨hclaim, hidentity, hresolve⟩

theorem claimed_of_picks {pick : Picked} (hmem : pick ∈ state.picks revision) :
    state.Claimed pick := by
  obtain ⟨held, hheld, rfl⟩ := List.mem_map.mp hmem
  obtain ⟨hclaim, hidentity, hresolve⟩ := mem_heldClaims hheld
  exact ⟨⟨held.claim, hclaim, hidentity, Or.inl rfl⟩, hresolve⟩

end CatalogState

open CatalogState (HeldClaim)

theorem keepFirst_subset {α κ : Type} [DecidableEq κ] (key : α → κ) (seen : List κ)
    (elems : List α) : keepFirst key seen elems ⊆ elems := by
  induction elems generalizing seen with
  | nil => exact List.Subset.refl _
  | cons a rest ih =>
    rw [keepFirst]
    split
    · exact List.subset_cons_of_subset _ (ih seen)
    · exact List.cons_subset_cons _ (ih _)

/-- Some element with each key stays. -/
theorem exists_mem_keepFirst {α κ : Type} [DecidableEq κ] (key : α → κ) {seen : List κ}
    {list : List α} {a : α} (hmem : a ∈ list) (hfree : key a ∉ seen) :
    ∃ b ∈ keepFirst key seen list, key b = key a := by
  induction list generalizing seen with
  | nil => cases hmem
  | cons head rest ih =>
    unfold keepFirst
    split
    · rename_i hseen
      rcases List.mem_cons.mp hmem with rfl | hrest
      · exact absurd hseen hfree
      · exact ih hrest hfree
    · by_cases heq : key a = key head
      · exact ⟨head, List.mem_cons_self, heq.symm⟩
      · rcases List.mem_cons.mp hmem with rfl | hrest
        · exact absurd rfl heq
        · have hfree' : key a ∉ key head :: seen := by
            rw [List.mem_cons, not_or]
            exact ⟨heq, hfree⟩
          obtain ⟨b, hb, hkey⟩ := ih hrest hfree'
          exact ⟨b, List.mem_cons_of_mem _ hb, hkey⟩

theorem keepFirst_nodup {α κ : Type} [DecidableEq κ] (key : α → κ) (seen : List κ)
    (list : List α) : ((keepFirst key seen list).map key).Nodup ∧
      ∀ a ∈ keepFirst key seen list, key a ∉ seen := by
  induction list generalizing seen with
  | nil => exact ⟨List.nodup_nil, fun a ha => by cases ha⟩
  | cons head rest ih =>
    unfold keepFirst
    split
    · exact ih seen
    · rename_i hfree
      obtain ⟨hnodup, hseen⟩ := ih (key head :: seen)
      refine ⟨?_, ?_⟩
      · rw [List.map_cons, List.nodup_cons]
        refine ⟨?_, hnodup⟩
        intro hmem
        obtain ⟨a, ha, hkey⟩ := List.mem_map.mp hmem
        exact hseen a ha (hkey ▸ List.mem_cons_self)
      · intro a ha
        rcases List.mem_cons.mp ha with rfl | hrest
        · exact hfree
        · exact fun hmem => hseen a hrest (List.mem_cons_of_mem _ hmem)

section Sets

variable {entries : List Entry} {held : Nat → List HeldClaim} {claims : List HeldClaim}

theorem closureLoop_subset {fuel : Nat} {visited : List Nat} {queue : List Text}
    (hheld : ∀ entryId, held entryId ⊆ claims) :
    (closureLoop entries held fuel visited queue).1 ⊆ claims := by
  induction fuel generalizing visited queue with
  | zero => exact List.nil_subset _
  | succ fuel ih =>
    cases queue with
    | nil => exact List.nil_subset _
    | cons name queue =>
      rw [closureLoop]
      split
      · exact ih
      · split
        · exact ih
        · exact List.append_subset.mpr ⟨hheld _, ih⟩

/-- A row of a set is a claim given to it, under its file name. -/
theorem mem_emit {anchor : Nat} {setName : Text} {pick : Picked}
    (hmem : pick ∈ emit anchor setName claims) : ∃ held ∈ claims,
      pick.claim = HeldClaim.fileName held ∧ pick.identityId = held.identityId ∧
      pick.hash = held.hash ∧ pick.size = held.size := by
  obtain ⟨held, hheld, rfl⟩ := List.mem_map.mp hmem
  exact ⟨held, keepFirst_subset _ _ _ hheld, rfl, rfl, rfl, rfl⟩

theorem renderEntry_rows {mode : MameMode} {entry : Entry} {render : MameRender}
    (hheld : ∀ entryId, held entryId ⊆ claims)
    (hrun : renderEntry entries held mode entry = .ok render) :
    ∃ anchor setName, ∃ given ⊆ claims, render.rows ⊆ emit anchor setName given := by
  have hunmerged : (held entry.entryId).filter (fun claim => claim.claim.mergeName.isNone) ⊆
      claims := List.Subset.trans (List.filter_subset_self _) (hheld entry.entryId)
  cases mode with
  | nonMerged =>
    simp only [renderEntry] at hrun
    split at hrun
    · cases hrun
      exact ⟨0, [], [], List.nil_subset _, List.nil_subset _⟩
    · cases hrun
      exact ⟨_, _, _, List.append_subset.mpr ⟨hheld _, closureLoop_subset hheld⟩,
        List.Subset.refl _⟩
  | split =>
    cases hrun
    exact ⟨_, _, _, hunmerged, List.Subset.refl _⟩
  | merged =>
    simp only [renderEntry] at hrun
    split at hrun
    · cases hrun
      exact ⟨_, _, _, hunmerged, List.Subset.refl _⟩
    · split at hrun
      · cases hrun
      · cases hrun
        exact ⟨_, _, _, hunmerged, List.Subset.refl _⟩

theorem renderEntries_rows {mode : MameMode} {ordered : List Entry} {render : MameRender}
    (hheld : ∀ entryId, held entryId ⊆ claims)
    (hrun : renderEntries entries held mode ordered = .ok render) :
    ∀ pick ∈ render.rows, ∃ held ∈ claims, pick.claim = HeldClaim.fileName held ∧
      pick.identityId = held.identityId ∧ pick.hash = held.hash ∧ pick.size = held.size := by
  induction ordered generalizing render with
  | nil =>
    cases hrun
    exact nofun
  | cons entry rest ih =>
    rw [renderEntries] at hrun
    cases hfirst : renderEntry entries held mode entry with
    | error e =>
      rw [hfirst] at hrun
      cases hrun
    | ok first =>
      cases hothers : renderEntries entries held mode rest with
      | error e =>
        rw [hfirst, hothers] at hrun
        cases hrun
      | ok others =>
        rw [hfirst, hothers] at hrun
        cases hrun
        intro pick hpick
        rcases List.mem_append.mp hpick with hpick | hpick
        · obtain ⟨anchor, setName, given, hgiven, hrows⟩ := renderEntry_rows hheld hfirst
          obtain ⟨claim, hclaim, hfields⟩ := mem_emit (hrows hpick)
          exact ⟨claim, hgiven hclaim, hfields⟩
        · exact ih hothers pick hpick

end Sets

namespace CatalogState

variable {state : CatalogState} {revision : Nat} {mode : Option MameMode} {picks : List Picked}

theorem fileName_cases (held : HeldClaim) : HeldClaim.fileName held = held.claim.name ∨
    HeldClaim.fileName held = held.claim.name ++ ".chd".toList := by
  unfold HeldClaim.fileName
  split
  · exact Or.inr rfl
  · exact Or.inl rfl

theorem claimed_of_viewPicks (hpicks : state.viewPicks revision mode = .ok picks) :
    ∀ pick ∈ picks, state.Claimed pick := by
  cases mode with
  | none =>
    cases hpicks
    exact fun pick hpick => claimed_of_picks hpick
  | some mode =>
    simp only [viewPicks] at hpicks
    split at hpicks
    · cases hpicks
    · unfold renderSets at hpicks
      simp only at hpicks
      split at hpicks
      · cases hpicks
      · generalize hrender : renderEntries _ _ mode _ = result at hpicks
        cases result with
        | error e => cases hpicks
        | ok render =>
          cases hpicks
          intro pick hpick
          have hrows := renderEntries_rows (fun _ => List.filter_subset_self _) hrender
          obtain ⟨held, hheld, hname, hidentity, hhash, hsize⟩ :=
            hrows pick (keepFirst_subset _ _ _ hpick)
          obtain ⟨hclaim, hclaimed, hresolve⟩ := mem_heldClaims hheld
          refine ⟨⟨held.claim, hclaim, hidentity ▸ hclaimed, hname ▸ fileName_cases held⟩, ?_⟩
          rw [hidentity, hhash, hsize]
          exact hresolve

theorem mem_picks_of_evaluate {view : ViewDef} {db : Db} {report : EvalReport} {row : Row}
    (heval : view.evaluate db picks = some report) (hrow : row ∈ report.rows) :
    row.pick ∈ picks := by
  obtain ⟨laid, hlaid, rfl⟩ := Option.map_eq_some_iff.mp heval
  obtain ⟨turns, hturns, hrows⟩ := ViewDef.layout_eq_some hlaid
  have hpick : row.pick ∈ laid.rows.map Row.pick := by
    rw [← ViewDef.bucket_picks view laid]
    exact List.mem_map_of_mem hrow
  obtain ⟨first, hfirst, heq⟩ := List.mem_map.mp hpick
  rw [hrows] at hfirst
  rw [← heq]
  exact (ViewDef.laid_path hturns hfirst).1

end CatalogState

/-- Every row of an evaluated view is a claim of the catalog, and it describes one held blob
of the claim's identity exactly when that identity's blobs are not mixed up. -/
theorem row_describes_one_blob {state : CatalogState} {view : ViewDef} {revision : Nat}
    {mode : Option MameMode} {report : EvalReport} {row : Row}
    (heval : state.evaluateView view revision mode = .ok report) (hrow : row ∈ report.rows) :
    (∃ claim ∈ state.claims, claim.identityId = some row.pick.identityId ∧
      (row.pick.claim = claim.name ∨ row.pick.claim = claim.name ++ ".chd".toList)) ∧
    (state.OneBlob row.pick ↔ state.Unmixed row.pick.identityId) := by
  unfold CatalogState.evaluateView at heval
  cases hpicks : state.viewPicks revision mode with
  | error e =>
    rw [hpicks] at heval
    cases heval
  | ok picks =>
    rw [hpicks] at heval
    simp only [Except.bind, Bind.bind] at heval
    split at heval
    · cases heval
    · rename_i report' hevaluate
      cases heval
      have hpick := CatalogState.mem_picks_of_evaluate hevaluate hrow
      obtain ⟨hclaim, hresolve⟩ := CatalogState.claimed_of_viewPicks hpicks row.pick hpick
      exact ⟨hclaim, CatalogState.oneBlob_iff hresolve⟩

/-- Two images of one disc: the one with the smaller address is gone, the larger is here. -/
def discs : Db :=
  ((Db.empty.upsertBlob 1 (some 10) .data .absent).1.upsertBlob 2 (some 20) .data .resident).1

/-- A claim whose identity is linked to the given blobs. -/
def discCatalog (blobIds : List Nat) (hkey : blobIds.Nodup) : CatalogState where
  index := discs
  entries := [{ entryId := 1, revisionId := 1, name := "disc".toList }]
  claims := [{ claimId := 1, entryId := 1, name := "track".toList, identityId := some 1 }]
  identityBlobs := blobIds.map fun blobId => ⟨1, blobId, 2⟩
  entryKey := by decide
  claimKey := by decide
  identityBlobKey := by
    rw [List.map_map]
    exact hkey.map fun a b heq => (Prod.mk.inj heq).2

/-- With only the disc that is here, the row describes it. -/
theorem row_describes_one_blob_single : ∃ report row,
    (discCatalog [2] (by decide)).evaluateView namesView 1 none = .ok report ∧
      row ∈ report.rows ∧ ((discCatalog [2] (by decide)).OneBlob row.pick ↔
        (discCatalog [2] (by decide)).Unmixed row.pick.identityId) := by
  have hrun : ((discCatalog [2] (by decide)).evaluateView namesView 1 none).toOption.any
      (fun report => !report.rows.isEmpty) = true := by decide +kernel
  cases heval : (discCatalog [2] (by decide)).evaluateView namesView 1 none with
  | error e =>
    rw [heval] at hrun
    cases hrun
  | ok report =>
    rw [heval] at hrun
    obtain ⟨row, rest, hrows⟩ : ∃ row rest, report.rows = row :: rest :=
      List.exists_cons_of_ne_nil (by simpa [Except.toOption] using hrun)
    have hrow : row ∈ report.rows := hrows ▸ List.mem_cons_self
    exact ⟨report, row, rfl, hrow, (row_describes_one_blob heval hrow).2⟩

/-- With both linked, the row has the address of the one and the size of the other. -/
theorem row_mixes_two_blobs : ∃ report row,
    (discCatalog [1, 2] (by decide)).evaluateView namesView 1 none = .ok report ∧
      row ∈ report.rows ∧ row.pick.hash = 1 ∧ row.pick.size = 20 ∧
      ¬ (discCatalog [1, 2] (by decide)).OneBlob row.pick := by
  have hrun : ((discCatalog [1, 2] (by decide)).evaluateView namesView 1 none).toOption.map
      (fun report => report.rows.map fun row => (row.pick.hash, row.pick.size)) =
        some [(1, 20)] := by decide +kernel
  cases heval : (discCatalog [1, 2] (by decide)).evaluateView namesView 1 none with
  | error e =>
    rw [heval] at hrun
    cases hrun
  | ok report =>
    rw [heval] at hrun
    have hrows : (report.rows.map fun row => (row.pick.hash, row.pick.size)) = [(1, 20)] :=
      Option.some.inj hrun
    obtain ⟨row, hrow, hpick⟩ := List.mem_map.mp (hrows ▸ List.mem_cons_self)
    obtain ⟨hhash, hsize⟩ := Prod.mk.inj hpick
    refine ⟨report, row, rfl, hrow, hhash, hsize, ?_⟩
    rintro ⟨link, hlink, _, hscore, blob, hblob, hblobHash, _⟩
    have hheld : ∀ link ∈ (discCatalog [1, 2] (by decide)).identityBlobs,
        (discCatalog [1, 2] (by decide)).linkState link = some 4 →
          (discs.blobById link.blobId).map BlobRow.hash = some 2 := by decide +kernel
    have htwo := hheld link hlink hscore
    change discs.blobById link.blobId = some blob at hblob
    rw [hblob, Option.map_some, hblobHash, hhash] at htwo
    exact absurd htwo (by decide)

end Datboi.Catalog
