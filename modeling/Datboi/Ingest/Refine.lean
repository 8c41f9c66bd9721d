import Datboi.Exec.Poison

/-!
# The analyzers' byte source

A sweep reads its items through the logical store: resident literals directly, absent
blobs by spilling their route and hashing what comes out. A route that disproves itself
on the way is poisoned.
-/

namespace Datboi

open Moves (Moves final)

namespace Ingest

/-- Whether asking again could help. -/
inductive FailureKind where
  | environmental
  | unobtainable
  | trapped
  deriving DecidableEq, Repr

/-- Why an item's bytes could not be opened. -/
inductive AnalyzeCause where
  | demoted
  | noBlobRow
  | opening (error : ExecError)
  | reading (error : IoError)
  | wrongBytes
  deriving DecidableEq, Repr

structure AnalyzeError where
  cause : AnalyzeCause
  kind : FailureKind
  deriving DecidableEq, Repr

abbrev AnalyzeM := EStateM AnalyzeError Site

namespace Logical

variable (exec : Executor)

/-- Poison the route and report the bytes unobtainable, also when the poison cannot be
written. -/
def disprove {α : Type} (route : Option Nat) (cause : AnalyzeCause) : AnalyzeM α := fun site =>
  match route with
  | some recipeId => .error ⟨cause, .unobtainable⟩ (final (Executor.poisonRoute recipeId site))
  | none => .error ⟨cause, .unobtainable⟩ site

/-- Classify a failed read in the middle of the stream. -/
def spillFailure {α : Type} (route : Option Nat) (e : IoError) : AnalyzeM α :=
  if e.deterministic then disprove route (.reading e) else throw ⟨.reading e, .environmental⟩

/-- Open one item's bytes. A resident row without bytes heals to absent. -/
def openItem (hash : Blake3) : AnalyzeM Bytes := fun site =>
  match site.store.get .data hash with
  | some bytes => .ok bytes site
  | none =>
    match site.db.blobByHash hash with
    | none => .error ⟨.noBlobRow, .environmental⟩ site
    | some row =>
      if row.residency = .resident then
        .error ⟨.demoted, .environmental⟩
          { site with db := site.db.setResidency row.blobId .absent }
      else
        match exec.openStreamRoute hash site with
        | .error e site =>
          .error ⟨.opening e, if e.isClaimFailure then .unobtainable else .environmental⟩ site
        | .ok (reader, route) site =>
          match reader.failure with
          | some e => spillFailure route e site
          | none =>
            if exec.host.blake3 reader.items ≠ hash then disprove route .wrongBytes site
            else .ok reader.items site

end Logical

end Ingest

namespace Executor

open Site (FailsOnly)

variable {exec : Executor} {site : Site} {hash : Blake3}

/-- The blob has a route whose top recipe is the given one, with a fault in it. -/
def RouteFault (exec : Executor) (site : Site) (hash : Blake3) (recipeId : Nat) : Prop :=
  ∃ plan caches, exec.plan site.db site.store hash 0 [] site.caches = .ok plan caches ∧
    plan.recipeId? = some recipeId ∧ exec.FaultIn site.store plan

/-- What opening a route came to: nothing was planned, or the planned route was opened,
poisoned, or failed for an environmental reason. -/
theorem openStreamRoute_cases (exec : Executor) (hash : Blake3) (site : Site) :
    (∃ e caches, exec.openStreamRoute hash site = .error e { site with caches := caches }) ∨
    ∃ plan caches, exec.plan site.db site.store hash 0 [] site.caches = .ok plan caches ∧
      ((∃ reader, (exec.openPlan site.store plan).sequential = .ok reader ∧
        exec.openStreamRoute hash site =
          .ok (reader, plan.recipeId?) { site with caches := caches }) ∨
      ∃ e recipeId e', (exec.openPlan site.store plan).sequential = .error e ∧
        plan.recipeId? = some recipeId ∧ exec.openStreamRoute hash site =
          .error e' (final (poisonRoute recipeId { site with caches := caches }))) := by
  unfold openStreamRoute
  cases hplan : exec.plan site.db site.store hash 0 [] site.caches with
  | error e caches =>
    left
    exact ⟨e, caches, by simp only [ExecM.onCaches, hplan]⟩
  | ok plan caches =>
    simp only [ExecM.onCaches, hplan]
    cases hopen : (exec.openPlan site.store plan).sequential with
    | ok reader => exact Or.inr ⟨plan, caches, rfl, Or.inl ⟨reader, hopen, rfl⟩⟩
    | error e =>
      simp only
      cases hroute : plan.recipeId? with
      | none => exact Or.inl ⟨e, caches, rfl⟩
      | some recipeId =>
        simp only
        cases hclaim : e.isClaimFailure with
        | false => exact Or.inl ⟨e, caches, rfl⟩
        | true =>
          rw [if_pos rfl, Moves.bind_apply]
          cases hpoison : poisonRoute recipeId { site with caches := caches } with
          | ok _ site₁ =>
            exact Or.inr ⟨plan, caches, rfl, Or.inr ⟨e, recipeId, e, hopen, hroute,
              by rw [hpoison]; rfl⟩⟩
          | error e' site₁ =>
            exact Or.inr ⟨plan, caches, rfl, Or.inr ⟨e, recipeId, e', hopen, hroute,
              by rw [hpoison]; rfl⟩⟩

/-- A route without a fault opens, ends cleanly and hashes to its blob. -/
theorem sequential_of_not_faultIn {plan : Plan} {caches : Caches}
    (hplan : exec.plan site.db site.store hash 0 [] site.caches = .ok plan caches)
    (hsound : ¬ exec.FaultIn site.store plan) :
    ∃ bytes, (exec.openPlan site.store plan).sequential = .ok ⟨bytes, none⟩ ∧
      exec.host.blake3 bytes = hash := by
  obtain ⟨htarget, hindexed⟩ := plan_indexed hplan
  obtain ⟨bytes, hopen, _, _, hhash⟩ := delivers_of_not_faultIn htarget hindexed hsound
  exact ⟨bytes, hopen, hhash⟩

theorem isFailed_of_poisonRoute {recipeId other : Nat}
    (hfailed : (final (poisonRoute recipeId site)).db.IsFailed other) :
    site.db.IsFailed other ∨ other = recipeId := by
  have hmoves : Moves (FailsOnly recipeId True) (poisonRoute recipeId) site :=
    poisonRoute_failsOnly trivial
  exact (hmoves other hfailed).imp_right And.left

/-- A logical open poisons at most the top recipe of the route it took. -/
theorem routeFault_of_openItem {other : Nat}
    (hfailed : (final (Ingest.Logical.openItem exec hash site)).db.IsFailed other) :
    site.db.IsFailed other ∨ exec.RouteFault site hash other := by
  unfold Ingest.Logical.openItem at hfailed
  split at hfailed
  · exact Or.inl hfailed
  split at hfailed
  · exact Or.inl hfailed
  split at hfailed
  · exact Or.inl hfailed
  rcases openStreamRoute_cases exec hash site with ⟨e, caches, hroute⟩ |
    ⟨plan, caches, hplan, ⟨reader, hopen, hroute⟩ | ⟨e, recipeId, e', hopen, hrecipe, hroute⟩⟩
  · rw [hroute] at hfailed
    exact Or.inl hfailed
  · rw [hroute] at hfailed
    simp only at hfailed
    -- The stream fails or hashes wrong only on a route with a fault.
    have hfault : ∀ {cause : Ingest.AnalyzeCause},
        (reader.failure ≠ none ∨ exec.host.blake3 reader.items ≠ hash) →
        (final (Ingest.Logical.disprove plan.recipeId? cause { site with caches := caches } :
          EStateM.Result Ingest.AnalyzeError Site Bytes)).db.IsFailed other →
        site.db.IsFailed other ∨ exec.RouteFault site hash other := by
      intro cause hbad hmarked
      unfold Ingest.Logical.disprove at hmarked
      split at hmarked
      · rename_i recipeId hrecipe
        refine (isFailed_of_poisonRoute hmarked).imp_right ?_
        rintro rfl
        refine ⟨plan, caches, hplan, hrecipe, ?_⟩
        by_contra hsound
        obtain ⟨bytes, hclean, hhash⟩ := sequential_of_not_faultIn hplan hsound
        obtain rfl := Except.ok.inj (hopen.symm.trans hclean)
        simp [hhash] at hbad
      · exact Or.inl hmarked
    split at hfailed
    · rename_i e hfailure
      unfold Ingest.Logical.spillFailure at hfailed
      split at hfailed
      · exact hfault (Or.inl (by simp [hfailure])) hfailed
      · exact Or.inl hfailed
    · split at hfailed
      · rename_i hwrong
        exact hfault (Or.inr hwrong) hfailed
      · exact Or.inl hfailed
  · rw [hroute] at hfailed
    refine (isFailed_of_poisonRoute hfailed).imp_right ?_
    rintro rfl
    refine ⟨plan, caches, hplan, hrecipe, ?_⟩
    by_contra hsound
    obtain ⟨bytes, hclean, _⟩ := sequential_of_not_faultIn hplan hsound
    rw [hopen] at hclean
    cases hclean

/-- A recipe is poisoned only as the top of an executed tree, and only when the tree has
a fault: a stored literal that is not its blob, a recipe that cannot be resolved, or an
operation that breaks its claims on inputs that are the claimed ones. A sequential input
that ends short under the top operation poisons nothing. -/
theorem failed_only_for_a_fault (exec : Executor) :
    (∀ around recipeId site other, (final (exec.replay around recipeId site)).db.IsFailed other →
      site.db.IsFailed other ∨ (other = recipeId ∧ exec.FaultFound site recipeId)) ∧
    (∀ race recipeId site other, (final (exec.license race recipeId site)).db.IsFailed other →
      site.db.IsFailed other ∨ (other = recipeId ∧ exec.FaultFound site recipeId)) ∧
    (∀ materialize includeAffine hash len triaged job triaged' store now site other,
      exec.blessTriage materialize includeAffine hash len triaged = .ok (some job) triaged' →
      (blessRetire now materialize job (exec.blessWork materialize job store).1
        site).db.IsFailed other →
      site.db.IsFailed other ∨
        (job.plan.recipeId? = some other ∧ exec.FaultIn store job.plan)) ∧
    (∀ hash site other, (final (Ingest.Logical.openItem exec hash site)).db.IsFailed other →
      site.db.IsFailed other ∨ exec.RouteFault site hash other) ∧
    ∀ around recipeId recipe op children site site',
      exec.loadRecipe site.db site.store recipeId = .ok recipe →
      exec.prepare recipe site = .ok (op, children) site' →
      exec.RanDry exec.storeConsumer around.race op recipe.claims
        (exec.openPlans site'.store children) →
      (final (exec.replay around recipeId site)).db = site.db := by
  refine ⟨?_, ?_, ?_, ?_, ?_⟩
  · intro around recipeId site other hfailed
    exact replay_failsOnly around other hfailed
  · intro race recipeId site other hfailed
    exact license_failsOnly race other hfailed
  · intro materialize includeAffine hash len triaged job triaged' store now site other htriage
      hfailed
    exact blessRetire_failsOnly now store htriage hfailed
  · intro hash site other hfailed
    exact routeFault_of_openItem hfailed
  · intro around recipeId recipe op children site site' hload hprepare hdry
    exact replay_of_ranDry hload hprepare hdry

/-! ## A child's failure poisons its parent -/

/-- The component refuses; the recipe over it is sound. -/
def refusedRecipe : Recipe := ⟨.wasm 9 .transform1 "unpack", [⟨1, none⟩], [⟨8, 1, none⟩], []⟩

def soundRecipe : Recipe := ⟨.builtin "assemble" 1, [⟨8, none⟩], [⟨2065, 2, none⟩], []⟩

def refusingExec : Executor where
  host := { Host.sample with
    decodeRecipe := fun bytes => .ok (if bytes = [1] then refusedRecipe else soundRecipe)
    decodeAssembleParams := fun _ => .ok ⟨[.blobRange 0 0 1, .literal [8]]⟩
    runTransform := fun _ _ _ _ => .ok (.refuse "not a container") }

def refusingSite : Site where
  db :=
    let db := (Db.empty.upsertBlob 9 (some 1) .data .resident).1
    let db := (db.upsertBlob 1 (some 1) .data .resident).1
    let recipes : List (Blake3 × Recipe) := [(101, refusedRecipe), (102, soundRecipe)]
    recipes.foldl (fun db recipe =>
      let (db, recipeBlob) := Db.upsertBlob db recipe.1 (some 1) .metadata .resident
      match db.indexRecipe recipeBlob recipe.2 .opaqueSeek .localIngest with
      | .ok (db, recipeId) => db.markVerify recipeId .verified
      | .error _ => db) db
  store := (((Store.empty.setLoose .data 9 (some [9])).setLoose .data 1 (some [3])).setLoose
    .metadata 101 (some [1])).setLoose .metadata 102 (some [2])
  caches := .empty

/-- The one input that matches the claim is the one the recipe was made for. -/
theorem soundRecipe_meets {bytes : Bytes} (hlen : bytes.length = 1)
    (hhash : refusingExec.host.blake3 bytes = 8) :
    refusingExec.Meets (.assemble ⟨[.blobRange 0 0 1, .literal [8]]⟩) soundRecipe.claims
      [bytes] := by
  obtain ⟨byte, rfl⟩ := List.length_eq_one_iff.mp hlen
  have hseven : byte = 7 := by
    have hdigest := congrArg BitVec.toNat hhash
    simp only [refusingExec, Host.sample, List.foldl_cons, List.foldl_nil,
      BitVec.toNat_ofNat] at hdigest
    have hbound := byte.toNat_lt
    have hseven : (7 : UInt8).toNat = 7 := rfl
    have height : (8 : Blake3).toNat = 8 := rfl
    apply UInt8.toNat_inj.mp
    omega
  subst hseven
  exact ⟨[⟨[7, 8], none⟩], by decide +kernel, by decide +kernel⟩

/-- The replay of the sound recipe poisons it for what its child did. -/
theorem replay_poisons_sound_parent :
    ¬ refusingSite.db.IsFailed 2 ∧
      (final (refusingExec.replay ⟨0, fun _ => none⟩ 2 refusingSite)).db.IsFailed 2 ∧
      ¬ (final (refusingExec.replay ⟨0, fun _ => none⟩ 2 refusingSite)).db.IsFailed 1 ∧
      refusingExec.loadRecipe refusingSite.db refusingSite.store 2 = .ok soundRecipe ∧
      ¬ refusingExec.OwnFault refusingSite soundRecipe := by
  refine ⟨by decide +kernel, by decide +kernel, by decide +kernel, by decide +kernel, ?_⟩
  rintro (⟨e, _, hresolve⟩ | ⟨op, children, site', hprepare, inputs, hmatches, hbroken⟩)
  · cases hresolve
  · have hplanned : refusingExec.prepare soundRecipe refusingSite =
        .ok (.assemble ⟨[.blobRange 0 0 1, .literal [8]]⟩,
          [.op (.transform 9 [9] "unpack" [] .opaqueSeek []) 0 [(8, 1)] [.literal 1 1] (some 1)])
          { refusingSite with caches := Caches.empty.remember .transform 9 [9] } := rfl
    rw [hplanned] at hprepare
    cases hprepare
    obtain ⟨bytes, rest, ⟨htarget, hlen⟩, hrest, rfl⟩ := List.forall₂_cons_left_iff.mp hmatches
    cases hrest
    exact hbroken (soundRecipe_meets hlen (Option.some.inj htarget).symm)

end Executor

end Datboi
