import Datboi.Catalog.UnifyRuns

/-!
# Evidence over time

A link is raised when better evidence comes, and a merge hands links over. A merge keeps the
link of whichever identity it finds first, so the evidence that another one had for the same
blob counts only if it was no better.
-/

namespace Datboi.Catalog

namespace Identities

variable {state : Identities} {order : RowOrder} {tuple : Tuple} {kept : Identity}
  {losers : List Identity}

/-- Each blob that an identity of a claim was linked to is linked to the claim's identity
still, and the grade is no weaker. Claims are told apart by their place in the table. -/
def Keeps (before after : Identities) : Prop :=
  ∀ (nth : Nat) (claim : HashClaim) (identityId blobId : Nat) (grade : Int),
    before.claims[nth]? = some claim → claim.identityId = some identityId →
      before.links.basis identityId blobId = some grade →
        ∃ claim' identityId' grade', after.claims[nth]? = some claim' ∧
          claim'.identityId = some identityId' ∧
            after.links.basis identityId' blobId = some grade' ∧ grade ≤ grade'

theorem Keeps.refl (state : Identities) : Keeps state state :=
  fun _ _ _ _ grade hclaim hid hlink => ⟨_, _, _, hclaim, hid, hlink, le_refl grade⟩

theorem Keeps.trans {a b c : Identities} (hab : Keeps a b) (hbc : Keeps b c) : Keeps a c := by
  intro nth claim identityId blobId grade hclaim hid hlink
  obtain ⟨claim', identityId', grade', hclaim', hid', hlink', hle⟩ :=
    hab nth claim identityId blobId grade hclaim hid hlink
  obtain ⟨claim'', identityId'', grade'', hclaim'', hid'', hlink'', hle'⟩ :=
    hbc nth claim' identityId' blobId grade' hclaim' hid' hlink'
  exact ⟨claim'', identityId'', grade'', hclaim'', hid'', hlink'', hle.trans hle'⟩

/-- No identity that is merged has a better link to a blob than the first one that has any,
the survivor coming first. -/
def FirstIsBest (state : Identities) : Call → Prop
  | .unify order tuple => ∀ row ∈ state.joined order tuple, ∀ blobId grade first,
      state.links.basis row.identityId blobId = some grade →
        firstBasis state.links ((state.joined order tuple).map Identity.identityId) blobId =
          some first → grade ≤ first
  | .linkIdentities _ _ | .linkVerified _ _ => True

/-! ## Linking -/

theorem basis_linkAll_raised {grade old : Int} {pairs : List (Nat × Nat)}
    {identityId blobId : Nat} (hlink : state.links.basis identityId blobId = some old) :
    ∃ new, (state.linkAll grade pairs).links.basis identityId blobId = some new ∧ old ≤ new := by
  induction pairs generalizing state old with
  | nil => exact ⟨old, hlink, le_refl old⟩
  | cons pair pairs ih =>
    by_cases hpair : identityId = pair.1 ∧ blobId = pair.2
    · have hraised : (state.links.link pair.1 pair.2 grade).basis identityId blobId =
          some (max old grade) := by
        rw [Links.basis_link, if_pos hpair, ← hpair.1, ← hpair.2, hlink]
        rfl
      rw [linkAll_cons]
      obtain ⟨new, hnew, hle⟩ :=
        @ih { state with links := state.links.link pair.1 pair.2 grade } _ hraised
      exact ⟨new, hnew, (le_max_left old grade).trans hle⟩
    · have hkept : (state.links.link pair.1 pair.2 grade).basis identityId blobId = some old := by
        rw [Links.basis_link, if_neg hpair, hlink]
      rw [linkAll_cons]
      exact @ih { state with links := state.links.link pair.1 pair.2 grade } _ hkept

theorem keeps_linkAll (state : Identities) (grade : Int) (pairs : List (Nat × Nat)) :
    Keeps state (state.linkAll grade pairs) := by
  intro nth claim identityId blobId old hclaim hid hlink
  obtain ⟨new, hnew, hle⟩ := @basis_linkAll_raised _ grade _ pairs _ _ hlink
  exact ⟨claim, identityId, new, hclaim, hid, hnew, hle⟩

theorem keeps_linkIdentity (state : Identities) (aliases : Aliases) (identityId : Nat) :
    Keeps state (state.linkIdentity aliases identityId) := by
  unfold linkIdentity
  split
  · exact Keeps.refl state
  · split
    · exact Keeps.refl state
    · split
      · exact (keeps_linkAll state _ _).trans ((keeps_linkAll _ _ _).trans (keeps_linkAll _ _ _))
      · exact keeps_linkAll state _ _

theorem keeps_linkIdentitiesToBlobs (state : Identities) (aliases : Aliases)
    (identityIds : List Nat) : Keeps state (state.linkIdentitiesToBlobs aliases identityIds) := by
  induction identityIds generalizing state with
  | nil => exact Keeps.refl state
  | cons identityId identityIds ih =>
    exact (keeps_linkIdentity state aliases identityId).trans (ih _)

/-! ## Merging -/

theorem getElem?_claims_append {claims : List HashClaim} {new claim : HashClaim} {nth : Nat}
    (hclaim : claims[nth]? = some claim) : (claims ++ [new])[nth]? = some claim := by
  obtain ⟨hlt, _⟩ := List.getElem?_eq_some_iff.mp hclaim
  rw [List.getElem?_append_left hlt, hclaim]

section

variable (hjoined : state.joined order tuple = kept :: losers)

include hjoined

theorem getElem?_claims_merge {nth : Nat} {claim : HashClaim}
    (hclaim : state.claims[nth]? = some claim) :
    (state.unifyRow order tuple).claims[nth]? = some (moved kept.identityId losers claim) := by
  rw [claims_merge hjoined]
  apply getElem?_claims_append
  rw [List.getElem?_map, hclaim, Option.map_some]

/-- What the survivor is linked to after a merge. -/
theorem basis_survivor (blobId : Nat) :
    (state.unifyRow order tuple).links.basis kept.identityId blobId =
      firstBasis state.links ((state.joined order tuple).map Identity.identityId) blobId := by
  have hnot : kept.identityId ∉ losers.map Identity.identityId :=
    (List.nodup_cons.mp (joined_qualify hjoined).2).1
  rw [basis_merge hjoined, if_neg hnot, if_pos rfl, hjoined, List.map_cons]

theorem keeps_merge (hbest : state.FirstIsBest (.unify order tuple)) :
    Keeps state (state.unifyRow order tuple) := by
  intro nth claim identityId blobId grade hclaim hid hlink
  by_cases hjoins : ∃ row ∈ kept :: losers, row.identityId = identityId
  · -- The claim ends at the survivor, whose link is the first that there was.
    obtain ⟨row, hrow, rfl⟩ := hjoins
    have hmoved : (moved kept.identityId losers claim).identityId = some kept.identityId := by
      rw [moved_identityId (losers_ne_kept hjoined)]
      rcases List.mem_cons.mp hrow with rfl | hloser
      · exact Or.inl ⟨rfl, Or.inl hid⟩
      · exact Or.inl ⟨rfl, Or.inr ⟨row, hloser, hid⟩⟩
    have hsome : firstBasis state.links ((state.joined order tuple).map Identity.identityId)
        blobId ≠ none := by
      rw [hjoined]
      exact firstBasis_ne_none (List.mem_map_of_mem hrow) (by rw [hlink]; exact nofun)
    obtain ⟨first, hfirst⟩ := Option.ne_none_iff_exists'.mp hsome
    have hle := hbest row (hjoined ▸ hrow) blobId grade first hlink hfirst
    exact ⟨_, _, first, getElem?_claims_merge hjoined hclaim, hmoved,
      (basis_survivor hjoined blobId).trans hfirst, hle⟩
  · have hids : ∀ row ∈ kept :: losers, identityId ≠ row.identityId :=
      fun row hrow heq => hjoins ⟨row, hrow, heq.symm⟩
    obtain ⟨hkept, hlosers⟩ := List.forall_mem_cons.mp hids
    have hstays : (moved kept.identityId losers claim).identityId = some identityId := by
      rw [moved_identityId (losers_ne_kept hjoined)]
      exact Or.inr ⟨hkept, hid, hlosers⟩
    have hnot : identityId ∉ losers.map Identity.identityId := by
      intro hmem
      obtain ⟨row, hrow, heq⟩ := List.mem_map.mp hmem
      exact hlosers row hrow heq.symm
    refine ⟨_, _, grade, getElem?_claims_merge hjoined hclaim, hstays, ?_, le_refl grade⟩
    rw [basis_merge hjoined, if_neg hnot, if_neg hkept, hlink]

end

theorem keeps_unifyRow (hbest : state.FirstIsBest (.unify order tuple)) :
    Keeps state (state.unifyRow order tuple) := by
  rcases joined_cases state order tuple with ⟨hnone, _⟩ | ⟨_, hstrength, hnil⟩ |
    ⟨_, _, hjoined⟩
  · rw [unifyRow_none hnone]
    intro nth claim identityId blobId grade hclaim hid hlink
    exact ⟨claim, identityId, grade, getElem?_claims_append hclaim, hid, hlink, le_refl grade⟩
  · rw [unifyRow_mint hstrength hnil]
    intro nth claim identityId blobId grade hclaim hid hlink
    exact ⟨claim, identityId, grade, getElem?_claims_append hclaim, hid, hlink, le_refl grade⟩
  · exact keeps_merge hjoined hbest

/-- An identity that qualifies has claims. -/
theorem Unified.exists_claim (hunified : state.Unified) {row : Identity}
    (hrow : row ∈ state.qualifying order tuple) :
    ∃ (nth : Nat) (claim : HashClaim), state.claims[nth]? = some claim ∧
      claim.identityId = some row.identityId := by
  obtain ⟨hmem, _, hgrade⟩ := mem_qualifying.mp hrow
  obtain ⟨col, x, hx⟩ : ∃ (col : Column) (x : col.Value), row.tuple.get col = some x := by
    rcases hgrade with ⟨col, _, x, _, hx⟩ | ⟨⟨digest, _, hdigest⟩, _⟩
    · exact ⟨col, x, hx⟩
    · exact ⟨.crc32, digest, hdigest⟩
  obtain ⟨_, ⟨claim, hclaim, hid, _⟩, _⟩ := (hunified.union row hmem col x).mp hx
  obtain ⟨nth, hnth⟩ := List.getElem?_of_mem hclaim
  exact ⟨nth, claim, hnth, hid⟩

/-- A merge that takes the weaker of two links demotes a claim's evidence. -/
theorem firstIsBest_of_keeps (hunified : state.Unified) {call : Call}
    (hkeeps : Keeps state (state.apply call)) : state.FirstIsBest call := by
  cases call with
  | linkIdentities aliases identityIds => trivial
  | linkVerified blobId sha1 => trivial
  | unify order tuple =>
    intro row hrow blobId grade first hlink hfirst
    cases hjoined : state.joined order tuple with
    | nil =>
      rw [hjoined] at hrow
      cases hrow
    | cons kept losers =>
      rw [hjoined] at hrow
      obtain ⟨nth, claim, hclaim, hid⟩ :=
        hunified.exists_claim ((joined_qualify hjoined).1 row hrow)
      obtain ⟨claim', identityId', grade', hclaim', hid', hlink', hle⟩ :=
        hkeeps nth claim row.identityId blobId grade hclaim hid hlink
      have hmoved : (moved kept.identityId losers claim).identityId =
          some kept.identityId := by
        rw [moved_identityId (losers_ne_kept hjoined)]
        rcases List.mem_cons.mp hrow with rfl | hloser
        · exact Or.inl ⟨rfl, Or.inl hid⟩
        · exact Or.inl ⟨rfl, Or.inr ⟨row, hloser, hid⟩⟩
      have hsame := (getElem?_claims_merge hjoined hclaim).symm.trans hclaim'
      rw [← Option.some.inj hsame, hmoved] at hid'
      rw [← Option.some.inj hid'] at hlink'
      have heq := (basis_survivor hjoined blobId).symm.trans hlink'
      rw [hfirst] at heq
      rw [Option.some.inj heq]
      exact hle

theorem keeps_apply {call : Call} (hbest : state.FirstIsBest call) :
    Keeps state (state.apply call) := by
  cases call with
  | unify order tuple => exact keeps_unifyRow hbest
  | linkIdentities aliases identityIds =>
    exact keeps_linkIdentitiesToBlobs state aliases identityIds
  | linkVerified blobId sha1 => exact keeps_linkAll state _ _

/-! ## Runs -/

/-- From every state of the run on, evidence is only raised. -/
def NeverDemotes (state : Identities) (calls : List Call) : Prop :=
  ∀ first rest last, calls = first ++ rest ++ last →
    Keeps (state.run first) ((state.run first).run rest)

theorem keeps_run {calls : List Call} (hbest : state.Along FirstIsBest calls) :
    Keeps state (state.run calls) := by
  induction calls generalizing state with
  | nil => exact Keeps.refl state
  | cons call calls ih => exact (keeps_apply hbest.1).trans (ih hbest.2)

theorem along_append {condition : Identities → Call → Prop} {first rest : List Call} :
    state.Along condition (first ++ rest) ↔
      state.Along condition first ∧ (state.run first).Along condition rest := by
  induction first generalizing state with
  | nil => simp [Along, run]
  | cons call first ih =>
    change _ ∧ (state.apply call).Along condition (first ++ rest) ↔ _
    rw [ih, ← and_assoc]
    rfl

theorem neverDemotes_iff_along (hunified : state.Unified) (calls : List Call) :
    state.NeverDemotes calls ↔ state.Along FirstIsBest calls := by
  constructor
  · intro hnever
    induction calls generalizing state with
    | nil => trivial
    | cons call calls ih =>
      refine ⟨firstIsBest_of_keeps hunified (hnever [] [call] calls rfl), ?_⟩
      apply ih (hunified.apply call)
      intro first rest last hcalls
      exact hnever (call :: first) rest last (by rw [hcalls]; rfl)
  · intro hbest first rest last hcalls
    rw [hcalls, along_append, along_append] at hbest
    exact keeps_run hbest.1.2

/-- Evidence is never demoted exactly as long as every merge finds the best link of each blob
first. -/
theorem evidence_kept_iff (calls : List Call) :
    empty.NeverDemotes calls ↔ empty.Along FirstIsBest calls :=
  neverDemotes_iff_along unified_empty calls

/-- A blob with the md5, the sha1 and a sha256. -/
def aliasesOfBlob (sha256 : Bytes) : Aliases where
  rows := [⟨.md5, List.replicate 16 5, 9⟩, ⟨.sha1, List.replicate 20 7, 9⟩, ⟨.sha256, sha256, 9⟩]
  blobSize _ := some 4

/-- Two identities are linked to one blob, by md5 and by sha1. A claim with the md5 and a
sha256 makes the first the stronger one, and one with both digests merges the second into
it: the blob keeps the md5 grade. -/
def demotingCalls : List Call :=
  [.unify .asStored byMd5,
    .linkIdentities (aliasesOfBlob (List.replicate 32 3)) [1],
    .unify .asStored bySha1,
    .linkIdentities (aliasesOfBlob (List.replicate 32 3)) [2],
    .unify .asStored { byMd5 with sha256 := some (List.replicate 32 4) },
    .unify .asStored byBoth]

theorem merge_demotes_evidence : ¬ ∀ calls : List Call, empty.NeverDemotes calls := by
  intro hall
  obtain ⟨claim, identityId, grade, hclaim, hid, hlink, hle⟩ :=
    hall demotingCalls (demotingCalls.take 5) (demotingCalls.drop 5) [] (by simp) 1
      ⟨bySha1, some 2⟩ 2 9 2 (by decide +kernel) rfl (by decide +kernel)
  have hnow : ((empty.run (demotingCalls.take 5)).run (demotingCalls.drop 5)).claims[1]? =
      some ⟨bySha1, some 1⟩ := by
    decide +kernel
  have hgrade : ((empty.run (demotingCalls.take 5)).run (demotingCalls.drop 5)).links.basis 1 9 =
      some 1 := by
    decide +kernel
  rw [hnow] at hclaim
  cases hclaim
  cases hid
  rw [hgrade] at hlink
  cases hlink
  omega

end Identities

end Datboi.Catalog
