import Datboi.Index.Grounding

/-!
# The closure walk of a sync

From each root the walk descends through the routes that have not failed and sorts the
leaves into those already held and those to fetch. Decompositions mint routes both ways, a
container from its pieces and each piece from the container, so the routes form cycles. A
route with an input on the current path is not used, and a blob none of whose routes can be
used is fetched whole.
-/

namespace Datboi

open Saturation (Rule Derivable ClosedUnder)

namespace Sync

inductive Outcome where
  /-- Resident, or all inputs of some route were walked. -/
  | supported
  /-- No usable acyclic route: fetch the blob itself. -/
  | fetch
  deriving DecidableEq, Repr

/-- The walk's state. The database it reads is an argument of its operations. -/
structure Walk where
  memo : List (Blake3 × Outcome) := []
  path : List Blake3 := []
  missing : List Blake3 := []
  piecesHeld : Nat := 0
  bytesHeld : Nat := 0
  deriving DecidableEq, Repr

/-- A visit of one blob, as the callers of the recursive walk see it. -/
abbrev Visit := Walk → Blake3 → Option (Walk × Outcome)

/-- Visit the blobs one after another, whatever each outcome is. -/
def walkAll (visit : Visit) : Walk → List Blake3 → Option Walk
  | walk, [] => some walk
  | walk, hash :: rest => do
      let (walk, _) ← visit walk hash
      walkAll visit walk rest

def inputHashes (db : Db) (route : RecipeRow) : List Blake3 :=
  (db.recipeInputs route.recipeId).map BlobRow.hash

/-- The first route without an input on the path decides. -/
def tryRoutes (db : Db) (visit : Visit) : Walk → List RecipeRow → Option (Walk × Bool)
  | walk, [] => some (walk, false)
  | walk, route :: rest =>
    if (inputHashes db route).any (· ∈ walk.path) then tryRoutes db visit walk rest
    else do
      let walk ← walkAll visit walk (inputHashes db route)
      some (walk, true)

def anyRouteResolves (db : Db) (visit : Visit) (walk : Walk) (blobId : Nat) :
    Option (Walk × Bool) :=
  tryRoutes db visit walk ((db.recipesForOutput blobId).filter fun row => row.verify ≠ .failed)

def resolve (db : Db) (visit : Visit) (walk : Walk) (hash : Blake3) : Option (Walk × Outcome) :=
  match db.blobByHash hash with
  | none => some (walk, .fetch)
  | some row =>
    if row.residency = .resident then
      some ({ walk with
        piecesHeld := walk.piecesHeld + 1
        bytesHeld := walk.bytesHeld + row.size.getD 0 }, .supported)
    else do
      let (walk, supported) ←
        anyRouteResolves db visit { walk with path := hash :: walk.path } row.blobId
      some ({ walk with path := walk.path.erase hash },
        if supported then .supported else .fetch)

/-- Commit an outcome to the memo, and a blob to fetch to the missing list. -/
def Walk.record (walk : Walk) (hash : Blake3) (outcome : Outcome) : Walk :=
  { walk with
    memo := (hash, outcome) :: walk.memo
    missing := if outcome = .fetch then walk.missing ++ [hash] else walk.missing }

/-- Walk one blob. The fuel bounds the depth of the descent; `none` means that it ran out. -/
def walk (db : Db) : Nat → Visit
  | 0, _, _ => none
  | fuel + 1, state, hash =>
    match state.memo.lookup hash with
    | some outcome => some (state, outcome)
    | none => do
        let (state, outcome) ← resolve db (walk db fuel) state hash
        some (state.record hash outcome, outcome)

/-- Walk from every root, starting with an empty memo. -/
def closureWalk (db : Db) (fuel : Nat) (roots : List Blake3) : Option Walk :=
  walkAll (walk db fuel) {} roots

end Sync

/-! ## What the walk promises -/

namespace Db

/-- The blob has a row that says its bytes are here. -/
def HoldsHash (db : Db) (hash : Blake3) : Prop :=
  ∃ row ∈ db.blobs, row.hash = hash ∧ row.residency = .resident

/-- The hashes that a recipe's output rows join to. -/
def outputHashes (db : Db) (row : RecipeRow) : List Blake3 :=
  (row.outputIds.filterMap db.blobById).map BlobRow.hash

/-- All inputs of a route that has not failed yield each of its outputs. -/
def routeRules (db : Db) : Set (Rule Blake3) :=
  {rule | ∃ row ∈ db.recipes, row.verify ≠ .failed ∧
    rule = ⟨(db.recipeInputs row.recipeId).map BlobRow.hash, db.outputHashes row⟩}

/-- The least set with the resident blobs and the `fetched` ones that is closed under the
routes. -/
def supportedBy (db : Db) (fetched : List Blake3) : Set Blake3 :=
  Saturation.closure db.routeRules {hash | db.HoldsHash hash ∨ hash ∈ fetched}

theorem supportedBy_mono {db : Db} {fetched fetched' : List Blake3} (hsub : fetched ⊆ fetched') :
    db.supportedBy fetched ⊆ db.supportedBy fetched' := by
  apply Saturation.closure_mono le_rfl
  rintro hash (hheld | hfetched)
  · exact Or.inl hheld
  · exact Or.inr (hsub hfetched)

/-- One usable route of a blob: its inputs support the blob. -/
theorem mem_supportedBy_of_route {db : Db} {fetched : List Blake3} {blob : BlobRow}
    {route : RecipeRow} (hblob : blob ∈ db.blobs)
    (hroute : route ∈ db.recipesForOutput blob.blobId) (hverify : route.verify ≠ .failed)
    (hinputs : ∀ input ∈ Sync.inputHashes db route, input ∈ db.supportedBy fetched) :
    blob.hash ∈ db.supportedBy fetched := by
  have hmem := mem_recipes_of_mem_recipesForOutput hroute
  refine Derivable.fire ⟨route, hmem, hverify, rfl⟩ hinputs ?_
  simp only [recipesForOutput, List.mem_flatMap, List.mem_map, List.mem_filter,
    decide_eq_true_eq] at hroute
  obtain ⟨_, _, output, ⟨houtput, hid⟩, rfl⟩ := hroute
  refine List.mem_map.mpr ⟨blob, List.mem_filterMap.mpr ⟨blob.blobId, ?_, ?_⟩, rfl⟩
  · exact List.mem_map.mpr ⟨output, houtput, hid⟩
  · exact Table.byId_eq_some.mpr ⟨hblob, rfl⟩

end Db

namespace Sync

variable {db : Db} {state state' : Walk}

/-- The invariant of the walk. A blob enters the memo only after everything its route rests
on, so the memo may be relied on although the routes form cycles; the blobs on the path are
not in it yet. -/
structure Sound (db : Db) (state : Walk) : Prop where
  memo_supported : ∀ hash, state.memo.lookup hash ≠ none → hash ∈ db.supportedBy state.missing
  missing_memo : ∀ hash ∈ state.missing, state.memo.lookup hash ≠ none
  missing_nodup : state.missing.Nodup
  missing_absent : ∀ hash ∈ state.missing, ¬ db.HoldsHash hash
  path_open : ∀ hash ∈ state.path, state.memo.lookup hash = none
  path_nodup : state.path.Nodup
  path_rows : ∀ hash ∈ state.path, ∃ row ∈ db.blobs, row.hash = hash

/-- What a visit may change: memo and missing list grow, and the path is as it was. -/
structure Extends (state state' : Walk) : Prop where
  memo : ∀ hash, state.memo.lookup hash ≠ none → state'.memo.lookup hash ≠ none
  path : state'.path = state.path

theorem Extends.refl (state : Walk) : Extends state state := ⟨fun _ h => h, rfl⟩

theorem Extends.trans {first second third : Walk} (hfirst : Extends first second)
    (hsecond : Extends second third) : Extends first third :=
  ⟨fun hash h => hsecond.memo hash (hfirst.memo hash h), hsecond.path.trans hfirst.path⟩

/-- A visit that ends, keeps the invariant and leaves its blob in the memo. -/
def Visits (db : Db) (visit : Visit) (state : Walk) (hash : Blake3) : Prop :=
  ∃ state' outcome, visit state hash = some (state', outcome) ∧ Sound db state' ∧
    Extends state state' ∧ state'.memo.lookup hash ≠ none

variable {visit : Visit} {path : List Blake3} {hash : Blake3}

/-- Visits over a list, none of them of a blob on the path, which every visit restores. -/
theorem walkAll_spec (hashes : List Blake3)
    (hvisit : ∀ state hash, Sound db state → state.path = path → hash ∉ path →
      Visits db visit state hash) (hsound : Sound db state) (hpath : state.path = path)
    (hoff : ∀ hash ∈ hashes, hash ∉ path) :
    ∃ state', walkAll visit state hashes = some state' ∧ Sound db state' ∧
      Extends state state' ∧ ∀ hash ∈ hashes, state'.memo.lookup hash ≠ none := by
  induction hashes generalizing state with
  | nil => exact ⟨state, rfl, hsound, .refl state, by simp⟩
  | cons hash rest ih =>
    obtain ⟨next, outcome, hrun, hnext, hextends, hmemo⟩ :=
      hvisit state hash hsound hpath (hoff hash List.mem_cons_self)
    obtain ⟨last, hrest, hlast, hextends', hall⟩ := ih hnext (hextends.path.trans hpath)
      fun other hother => hoff other (List.mem_cons_of_mem _ hother)
    refine ⟨last, by simp [walkAll, hrun, hrest], hlast, hextends.trans hextends', ?_⟩
    intro other hother
    rcases List.mem_cons.mp hother with rfl | hother
    · exact hextends'.memo _ hmemo
    · exact hall other hother

/-- The first usable route has all its inputs in the memo afterwards; without one the state
is unchanged. -/
theorem tryRoutes_spec (routes : List RecipeRow)
    (hvisit : ∀ state hash, Sound db state → state.path = path → hash ∉ path →
      Visits db visit state hash) (hsound : Sound db state) (hpath : state.path = path) :
    ∃ state' supported, tryRoutes db visit state routes = some (state', supported) ∧
      Sound db state' ∧ Extends state state' ∧
      (supported = true → ∃ route ∈ routes, ∀ input ∈ inputHashes db route,
        state'.memo.lookup input ≠ none) := by
  induction routes with
  | nil => exact ⟨state, false, rfl, hsound, .refl state, by simp⟩
  | cons route rest ih =>
    by_cases hcircular : (inputHashes db route).any (· ∈ state.path)
    · obtain ⟨last, supported, hrest, hlast, hextends, hroute⟩ := ih
      refine ⟨last, supported, by rw [tryRoutes, if_pos hcircular, hrest], hlast, hextends, ?_⟩
      intro hsupported
      obtain ⟨found, hfound, hinputs⟩ := hroute hsupported
      exact ⟨found, List.mem_cons_of_mem _ hfound, hinputs⟩
    · have hoff : ∀ input ∈ inputHashes db route, input ∉ path := by
        simpa [← hpath] using hcircular
      obtain ⟨last, hrun, hlast, hextends, hinputs⟩ := walkAll_spec _ hvisit hsound hpath hoff
      refine ⟨last, true, by rw [tryRoutes, if_neg hcircular, hrun]; rfl, hlast, hextends, ?_⟩
      exact fun _ => ⟨route, List.mem_cons_self, hinputs⟩

theorem sound_push {blob : BlobRow} (hsound : Sound db state) (hblob : blob ∈ db.blobs)
    (hopen : state.memo.lookup blob.hash = none) (hoff : blob.hash ∉ state.path) :
    Sound db { state with path := blob.hash :: state.path } where
  memo_supported := hsound.memo_supported
  missing_memo := hsound.missing_memo
  missing_nodup := hsound.missing_nodup
  missing_absent := hsound.missing_absent
  path_open := by
    intro hash hhash
    rcases List.mem_cons.mp hhash with rfl | hhash
    · exact hopen
    · exact hsound.path_open hash hhash
  path_nodup := List.nodup_cons.mpr ⟨hoff, hsound.path_nodup⟩
  path_rows := by
    intro hash hhash
    rcases List.mem_cons.mp hhash with rfl | hhash
    · exact ⟨blob, hblob, rfl⟩
    · exact hsound.path_rows hash hhash

theorem sound_pop (hsound : Sound db state) (hpath : state.path = hash :: path) :
    Sound db { state with path := path } where
  memo_supported := hsound.memo_supported
  missing_memo := hsound.missing_memo
  missing_nodup := hsound.missing_nodup
  missing_absent := hsound.missing_absent
  path_open other hother := hsound.path_open other (hpath ▸ List.mem_cons_of_mem _ hother)
  path_nodup := (List.nodup_cons.mp (hpath ▸ hsound.path_nodup)).2
  path_rows other hother := hsound.path_rows other (hpath ▸ List.mem_cons_of_mem _ hother)

theorem mem_memo_record {other : Blake3} {outcome : Outcome} :
    (state.record hash outcome).memo.lookup other ≠ none ↔
      other = hash ∨ state.memo.lookup other ≠ none := by
  by_cases heq : other = hash
  · simp [Walk.record, heq]
  · simp only [Walk.record, List.lookup_cons, beq_false_of_ne heq, heq, false_or]

/-- Recording keeps the invariant when a supported blob is supported indeed and a fetched one
is not held. -/
theorem sound_record {outcome : Outcome} (hsound : Sound db state)
    (hopen : state.memo.lookup hash = none) (hoff : hash ∉ state.path)
    (hsupported : outcome = .supported → hash ∈ db.supportedBy state.missing)
    (hfetch : outcome = .fetch → ¬ db.HoldsHash hash) : Sound db (state.record hash outcome) := by
  have hnew : hash ∉ state.missing := fun hmem => hsound.missing_memo hash hmem hopen
  have hmissing : ∀ other ∈ (state.record hash outcome).missing,
      other ∈ state.missing ∨ (outcome = .fetch ∧ other = hash) := by
    intro other hother
    simp only [Walk.record] at hother
    split at hother
    · rename_i houtcome
      rcases List.mem_append.mp hother with hother | hother
      · exact Or.inl hother
      · exact Or.inr ⟨houtcome, List.mem_singleton.mp hother⟩
    · exact Or.inl hother
  have hgrow : state.missing ⊆ (state.record hash outcome).missing := by
    simp only [Walk.record]
    split
    · exact List.subset_append_left _ _
    · exact List.Subset.refl _
  constructor
  · intro other hother
    rcases mem_memo_record.mp hother with rfl | hother
    · cases outcome with
      | supported => exact Db.supportedBy_mono hgrow (hsupported rfl)
      | fetch => exact Saturation.subset_closure (Or.inr (by simp [Walk.record]))
    · exact Db.supportedBy_mono hgrow (hsound.memo_supported other hother)
  · intro other hother
    rcases hmissing other hother with hother | ⟨_, rfl⟩
    · exact mem_memo_record.mpr (Or.inr (hsound.missing_memo other hother))
    · exact mem_memo_record.mpr (Or.inl rfl)
  · simp only [Walk.record]
    split
    · exact List.nodup_append.mpr ⟨hsound.missing_nodup, List.nodup_singleton _,
        fun a ha b hb heq => hnew (by rwa [heq, List.mem_singleton.mp hb] at ha)⟩
    · exact hsound.missing_nodup
  · intro other hother
    rcases hmissing other hother with hother | ⟨houtcome, rfl⟩
    · exact hsound.missing_absent other hother
    · exact hfetch houtcome
  · intro other hother
    by_contra hmemo
    rcases mem_memo_record.mp hmemo with rfl | hmemo
    · exact hoff hother
    · exact hmemo (hsound.path_open other hother)
  · exact hsound.path_nodup
  · exact hsound.path_rows

/-- The path holds distinct row keys, so it is no longer than the table. -/
theorem path_length_le (hsound : Sound db state) :
    state.path.length ≤ db.blobs.rows.length := by
  have hsub : state.path ⊆ db.blobs.rows.map BlobRow.hash := by
    intro hash hhash
    obtain ⟨row, hrow, rfl⟩ := hsound.path_rows hash hhash
    exact List.mem_map.mpr ⟨row, hrow, rfl⟩
  have hlength := (hsound.path_nodup.subperm hsub).length_le
  simpa using hlength

/-- What resolving a blob that is not in the memo yields, given the visits one level down. -/
theorem resolve_spec
    (hvisit : ∀ state' other, Sound db state' → state'.path = hash :: state.path →
      other ∉ hash :: state.path → Visits db visit state' other) (hsound : Sound db state)
    (hopen : state.memo.lookup hash = none) (hoff : hash ∉ state.path) :
    ∃ state' outcome, resolve db visit state hash = some (state', outcome) ∧ Sound db state' ∧
      Extends state state' ∧ state'.memo.lookup hash = none ∧
      (outcome = .supported → hash ∈ db.supportedBy state'.missing) ∧
      (outcome = .fetch → ¬ db.HoldsHash hash) := by
  cases hfound : db.blobByHash hash with
  | none =>
    refine ⟨state, .fetch, by simp [resolve, hfound], hsound, .refl state, hopen, by simp, ?_⟩
    rintro - ⟨row, hrow, hkey, -⟩
    exact Table.byKey_eq_none.mp hfound row hrow hkey
  | some row =>
    obtain ⟨hrow, hkey⟩ := Table.byKey_eq_some.mp hfound
    rw [BlobRow.row_key] at hkey
    subst hkey
    by_cases hresident : row.residency = .resident
    · refine ⟨{ state with
          piecesHeld := state.piecesHeld + 1
          bytesHeld := state.bytesHeld + row.size.getD 0 }, .supported,
        by simp [resolve, hfound, hresident], ?_, ⟨fun _ h => h, rfl⟩, hopen, ?_, by simp⟩
      · exact ⟨hsound.1, hsound.2, hsound.3, hsound.4, hsound.5, hsound.6, hsound.7⟩
      · exact fun _ => Saturation.subset_closure (Or.inl ⟨row, hrow, rfl, hresident⟩)
    · obtain ⟨next, supported, hrun, hnext, hextends, hroute⟩ :=
        tryRoutes_spec ((db.recipesForOutput row.blobId).filter fun route => route.verify ≠ .failed)
          hvisit (sound_push hsound hrow hopen hoff) rfl
      have hpath : next.path = row.hash :: state.path := hextends.path
      have herase : next.path.erase row.hash = state.path := by simp [hpath]
      have hunlisted : next.memo.lookup row.hash = none :=
        hnext.path_open row.hash (hpath ▸ List.mem_cons_self)
      refine ⟨{ next with path := state.path }, if supported then .supported else .fetch, ?_,
        sound_pop hnext hpath, ⟨hextends.memo, rfl⟩, hunlisted, ?_, ?_⟩
      · simp only [resolve, hfound, if_neg hresident, anyRouteResolves, hrun, Option.bind_eq_bind,
          Option.bind_some, herase]
      · intro houtcome
        cases supported with
        | false => simp at houtcome
        | true =>
          obtain ⟨route, hmem, hinputs⟩ := hroute rfl
          obtain ⟨hmem, hverify⟩ := List.mem_filter.mp hmem
          refine Db.mem_supportedBy_of_route hrow hmem (by simpa using hverify) ?_
          exact fun input hinput => hnext.memo_supported input (hinputs input hinput)
      · rintro - ⟨other, hother, hkey, hheld⟩
        exact hresident (Table.eq_of_key hother hrow hkey ▸ hheld)

/-- A walk with fuel for the rows that are not on its path. The descent pushes a row that is
off the path at each level, so the fuel suffices. -/
theorem walk_visits {fuel : Nat} (hsound : Sound db state)
    (hfuel : db.blobs.rows.length < fuel + state.path.length) (hoff : hash ∉ state.path) :
    Visits db (walk db fuel) state hash := by
  induction fuel generalizing state hash with
  | zero =>
    have := path_length_le hsound
    omega
  | succ fuel ih =>
    cases hmemo : state.memo.lookup hash with
    | some outcome =>
      exact ⟨state, outcome, by simp [walk, hmemo], hsound, .refl state, by simp [hmemo]⟩
    | none =>
      have hvisit : ∀ state' other, Sound db state' → state'.path = hash :: state.path →
          other ∉ hash :: state.path → Visits db (walk db fuel) state' other := by
        intro state' other hsound' hpath hother
        refine ih hsound' ?_ (hpath ▸ hother)
        rw [hpath, List.length_cons]
        omega
      obtain ⟨next, outcome, hrun, hnext, hextends, hopen, hsupported, hfetch⟩ :=
        resolve_spec hvisit hsound hmemo hoff
      refine ⟨next.record hash outcome, outcome, by simp [walk, hmemo, hrun], ?_, ?_, ?_⟩
      · exact sound_record hnext hopen (hextends.path ▸ hoff) hsupported hfetch
      · exact ⟨fun other h => mem_memo_record.mpr (Or.inr (hextends.memo other h)),
          hextends.path⟩
      · exact mem_memo_record.mpr (Or.inl rfl)

/-- The walk grounds every root. With fuel for the blob table it ends; the blobs it lists to
fetch are distinct and none is held; and every root lies in the least set that holds the
resident and the fetched blobs and is closed under the routes that have not failed. -/
theorem closureWalk_grounds_roots (db : Db) (roots : List Blake3) (fuel : Nat)
    (hfuel : db.blobs.rows.length < fuel) :
    ∃ result, closureWalk db fuel roots = some result ∧
      result.missing.Nodup ∧ (∀ hash ∈ result.missing, ¬ db.HoldsHash hash) ∧
      ∃ grounded : Set Blake3,
        IsLeast {s | {hash | db.HoldsHash hash ∨ hash ∈ result.missing} ⊆ s ∧
          ClosedUnder db.routeRules s} grounded ∧
        ∀ root ∈ roots, root ∈ grounded := by
  have hstart : Sound db {} := by
    constructor <;> simp
  have hvisit : ∀ state hash, Sound db state → state.path = [] → hash ∉ ([] : List Blake3) →
      Visits db (walk db fuel) state hash := by
    intro state hash hsound hpath _
    exact walk_visits hsound (by simpa [hpath] using hfuel) (by simp [hpath])
  obtain ⟨result, hrun, hsound, _, hroots⟩ :=
    walkAll_spec roots hvisit hstart rfl (by simp)
  refine ⟨result, hrun, hsound.missing_nodup, hsound.missing_absent,
    db.supportedBy result.missing, Saturation.isLeast_closure, ?_⟩
  exact fun root hroot => hsound.memo_supported root (hroots root hroot)

/-- A container and its one piece, neither of them here, with the peer's plans in both
directions. -/
def inversePair : Db :=
  let plans : List (Blake3 × Recipe) :=
    [(11, ⟨.builtin "assemble" 1, [⟨2, none⟩], [⟨1, 8, none⟩], []⟩),
      (12, ⟨.builtin "assemble" 1, [⟨1, none⟩], [⟨2, 8, none⟩], []⟩)]
  plans.foldl (fun db plan =>
    let (db, recipeBlob) := db.upsertBlob plan.1 (some 1) .metadata .resident
    match db.indexRecipe recipeBlob plan.2 .affine .peer with
    | .ok (db, _) => db
    | .error _ => db) Db.empty

/-- Rooted at the container and the piece, the walk fetches the piece alone, and the
container rests on it. -/
theorem closureWalk_inversePair :
    (closureWalk inversePair 5 [1, 2]).map Walk.missing = some [2] ∧
      ¬ inversePair.HoldsHash 2 ∧
      ∀ s, (2 ∈ s ∧ {hash | inversePair.HoldsHash hash} ⊆ s) →
        ClosedUnder inversePair.routeRules s → 1 ∈ s := by
  obtain ⟨result, hrun, _, habsent, grounded, hleast, hroots⟩ :=
    closureWalk_grounds_roots inversePair [1, 2] 5 (by decide)
  have hmissing : (closureWalk inversePair 5 [1, 2]).map Walk.missing = some [2] := by decide
  have hresult : result.missing = [2] := by
    rw [hrun] at hmissing
    exact Option.some.inj hmissing
  rw [hresult] at habsent hleast
  refine ⟨hmissing, habsent 2 List.mem_cons_self, ?_⟩
  rintro s ⟨hfetched, hheld⟩ hclosed
  refine hleast.2 ⟨?_, hclosed⟩ (hroots 1 List.mem_cons_self)
  rintro hash (hhash | hhash)
  · exact hheld hhash
  · rwa [List.mem_singleton.mp hhash]

end Sync

end Datboi
