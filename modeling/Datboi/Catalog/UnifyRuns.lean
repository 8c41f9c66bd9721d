import Datboi.Catalog.Unify
import Datboi.Catalog.HeldRows

/-!
# What unification keeps

After any calls an identity says exactly what its claims say, and identities that could
speak of one content have been merged: two that share a strong digest contradict each other.
What a merge deletes has handed its claims and links to the survivor.
-/

namespace Datboi.Catalog

open Assignment (Agree Shares Within IsUnion Separate)

/-! ## Tuples as assignments -/

namespace Tuple

variable {tuple other : Tuple}

theorem fieldOk_iff {α : Type} [DecidableEq α] {a b : Option α} :
    fieldOk a b = true ↔ ∀ x y, a = some x → b = some y → x = y := by
  cases a <;> cases b <;> simp [fieldOk]

theorem fieldEq_iff {α : Type} [DecidableEq α] {a b : Option α} :
    fieldEq a b = true ↔ ∃ x, a = some x ∧ b = some x := by
  cases a <;> cases b <;> simp [fieldEq, eq_comm]

theorem compatible_iff : tuple.compatible other = true ↔ Agree tuple.get other.get := by
  simp only [compatible, Bool.and_eq_true, fieldOk_iff]
  constructor
  · rintro ⟨⟨⟨⟨hsize, hcrc⟩, hmd5⟩, hsha1⟩, hsha256⟩ col
    cases col
    · exact hsize
    · exact hcrc
    · exact hmd5
    · exact hsha1
    · exact hsha256
  · intro hagree
    exact ⟨⟨⟨⟨hagree .size, hagree .crc32⟩, hagree .md5⟩, hagree .sha1⟩, hagree .sha256⟩

/-- The tuples share an md5, a sha1 or a sha256. -/
def SharesStrong (tuple other : Tuple) : Prop := Shares Column.Strong tuple.get other.get

/-- The tuples share crc32 and size. -/
def SharesWeak (tuple other : Tuple) : Prop :=
  (∃ digest, tuple.crc32 = some digest ∧ other.crc32 = some digest) ∧
    ∃ size, tuple.size = some size ∧ other.size = some size

theorem sharesStrong_iff : tuple.SharesStrong other ↔
    (fieldEq tuple.sha256 other.sha256 = true ∨ fieldEq tuple.sha1 other.sha1 = true ∨
      fieldEq tuple.md5 other.md5 = true) := by
  simp only [fieldEq_iff]
  constructor
  · rintro ⟨col, rfl | rfl | rfl, hshared⟩
    · exact Or.inr (Or.inr hshared)
    · exact Or.inr (Or.inl hshared)
    · exact Or.inl hshared
  · rintro (hshared | hshared | hshared)
    · exact ⟨.sha256, Or.inr (Or.inr rfl), hshared⟩
    · exact ⟨.sha1, Or.inr (Or.inl rfl), hshared⟩
    · exact ⟨.md5, Or.inl rfl, hshared⟩

theorem matchGrade_isSome_iff :
    (tuple.matchGrade other).isSome = true ↔ tuple.SharesStrong other ∨ tuple.SharesWeak other := by
  rw [sharesStrong_iff, SharesWeak, ← fieldEq_iff, ← fieldEq_iff, ← Bool.and_eq_true]
  unfold matchGrade
  split
  · simp_all
  · split
    · simp_all
    · split
      · simp_all
      · split <;> simp_all

theorem get_absorb (tuple other : Tuple) :
    (tuple.absorb other).get = Assignment.join tuple.get other.get := by
  funext col
  cases col <;> rfl

/-- A tuple with a strong digest, a crc32 with a size, or neither. -/
theorem strength_eq_none_iff : tuple.strength = none ↔
    tuple.sha256 = none ∧ tuple.sha1 = none ∧ tuple.md5 = none ∧
      (tuple.crc32 = none ∨ tuple.size = none) := by
  obtain ⟨size, crc32, md5, sha1, sha256⟩ := tuple
  cases size <;> cases crc32 <;> cases md5 <;> cases sha1 <;> cases sha256 <;>
    simp [strength]

end Tuple

/-! ## Candidates -/

namespace Identities

variable {state : Identities} {order : RowOrder} {tuple : Tuple}

theorem eq_of_identityId {a b : Identity} (ha : a ∈ state.identities) (hb : b ∈ state.identities)
    (hid : a.identityId = b.identityId) : a = b :=
  Table.eq_of_id ha hb hid

variable {row : Identity} {rows : List Identity} {identityId : Nat}

theorem mem_lookup {α : Type} [DecidableEq α] {column : Tuple → Option α} {value : Option α} :
    row ∈ state.lookup order column value ↔
      row ∈ state.identities ∧ ∃ digest, value = some digest ∧ column row.tuple = some digest := by
  cases value with
  | none => simp [lookup]
  | some digest =>
    rw [lookup, (order.perm _).mem_iff, List.mem_filter]
    simp [Table.mem_rows]

theorem mem_candidates : row ∈ state.candidates order tuple ↔
    row ∈ state.identities ∧ (tuple.SharesStrong row.tuple ∨
      ∃ digest, tuple.crc32 = some digest ∧ row.tuple.crc32 = some digest) := by
  have hlookup : ∀ row, row ∈ state.lookup order Tuple.sha256 tuple.sha256 ++
      state.lookup order Tuple.sha1 tuple.sha1 ++ state.lookup order Tuple.md5 tuple.md5 ++
      state.lookup order Tuple.crc32 tuple.crc32 ↔ row ∈ state.identities ∧
        (tuple.SharesStrong row.tuple ∨
          ∃ digest, tuple.crc32 = some digest ∧ row.tuple.crc32 = some digest) := by
    intro row
    simp only [List.mem_append, mem_lookup, Tuple.sharesStrong_iff, Tuple.fieldEq_iff,
      ← and_or_left, or_assoc]
  rw [candidates]
  constructor
  · intro hmem
    exact (hlookup row).mp (keepFirst_subset _ _ _ hmem)
  · intro hrow
    obtain ⟨found, hfound, hkey⟩ := exists_mem_keepFirst Identity.identityId
      ((hlookup row).mpr hrow) List.not_mem_nil
    have hmem := ((hlookup found).mp (keepFirst_subset _ _ _ hfound)).1
    rwa [eq_of_identityId hmem hrow.1 hkey] at hfound

/-- An identity qualifies if nothing conflicts and a strong digest, or crc32 and size, is
the same. -/
theorem mem_qualifying : row ∈ state.qualifying order tuple ↔
    row ∈ state.identities ∧ Agree tuple.get row.tuple.get ∧
      (tuple.SharesStrong row.tuple ∨ tuple.SharesWeak row.tuple) := by
  rw [qualifying, List.mem_filter, mem_candidates, Bool.and_eq_true, Tuple.compatible_iff,
    Tuple.matchGrade_isSome_iff]
  constructor
  · rintro ⟨⟨hrow, _⟩, hagree, hgrade⟩
    exact ⟨hrow, hagree, hgrade⟩
  · rintro ⟨hrow, hagree, hgrade⟩
    exact ⟨⟨hrow, hgrade.imp_right And.left⟩, hagree, hgrade⟩

theorem qualifying_nodup (state : Identities) (order : RowOrder) (tuple : Tuple) :
    ((state.qualifying order tuple).map Identity.identityId).Nodup :=
  (keepFirst_nodup _ _ _).1.sublist (List.filter_sublist.map _)

/-! ## Merging -/

/-- The losers that the loop merges: those that do not conflict with what was merged before
them. -/
def absorbed : Tuple → List Identity → List Identity
  | _, [] => []
  | tuple, loser :: losers =>
    if tuple.compatible loser.tuple then
      loser :: absorbed (tuple.absorb loser.tuple) losers
    else absorbed tuple losers

def absorbAll (tuple : Tuple) (losers : List Identity) : Tuple :=
  losers.foldl (fun tuple loser => tuple.absorb loser.tuple) tuple

def mergeAll (survivorId : Nat) (state : Identities) (losers : List Identity) : Identities :=
  losers.foldl (fun state loser => state.mergeAway loser.identityId survivorId) state

theorem mergeLosers_eq (survivorId : Nat) (state : Identities) (tuple : Tuple)
    (losers : List Identity) : mergeLosers survivorId state tuple losers =
      (mergeAll survivorId state (absorbed tuple losers),
        absorbAll tuple (absorbed tuple losers)) := by
  induction losers generalizing state tuple with
  | nil => rfl
  | cons loser losers ih =>
    unfold mergeLosers absorbed
    split
    · exact ih _ _
    · exact ih _ _

theorem absorbed_sublist (tuple : Tuple) (losers : List Identity) :
    (absorbed tuple losers).Sublist losers := by
  induction losers generalizing tuple with
  | nil => exact List.Sublist.slnil
  | cons loser losers ih =>
    unfold absorbed
    split
    · exact (ih _).cons_cons loser
    · exact (ih _).cons loser

section

variable {survivorId : Nat} {losers : List Identity}

theorem mem_mergeAll {row : Identity} :
    row ∈ (mergeAll survivorId state losers).identities ↔
      row ∈ state.identities ∧ ∀ loser ∈ losers, row.identityId ≠ loser.identityId := by
  induction losers generalizing state with
  | nil => simp [mergeAll]
  | cons loser losers ih =>
    have hstep : row ∈ (state.mergeAway loser.identityId survivorId).identities ↔
        row ∈ state.identities ∧ row.identityId ≠ loser.identityId := Table.mem_delete
    rw [List.forall_mem_cons, ← and_assoc, ← hstep]
    exact ih

/-- A claim whose identity was merged away belongs to the survivor. -/
def moved (survivorId : Nat) (losers : List Identity) (claim : HashClaim) : HashClaim :=
  if ∃ loser ∈ losers, claim.identityId = some loser.identityId then
    { claim with identityId := some survivorId }
  else claim

theorem claims_mergeAll (hsurvivor : ∀ loser ∈ losers, loser.identityId ≠ survivorId) :
    (mergeAll survivorId state losers).claims = state.claims.map (moved survivorId losers) := by
  induction losers generalizing state with
  | nil =>
    have hmoved : moved survivorId [] = id := by
      funext claim
      simp [moved]
    rw [hmoved, List.map_id]
    rfl
  | cons loser losers ih =>
    have hrest := @ih (state.mergeAway loser.identityId survivorId)
      (List.forall_mem_cons.mp hsurvivor).2
    change (mergeAll survivorId (state.mergeAway loser.identityId survivorId) losers).claims = _
    rw [hrest]
    change (state.claims.map _).map _ = _
    rw [List.map_map]
    apply List.map_congr_left
    intro claim _
    simp only [Function.comp_apply, moved, List.exists_mem_cons_iff]
    by_cases hhead : claim.identityId = some loser.identityId
    · simp [hhead]
    · simp [hhead]

/-- The grade of the first link to a blob among some identities. -/
def firstBasis (links : Links) (identityIds : List Nat) (blobId : Nat) : Option Int :=
  identityIds.findSome? fun identityId => links.basis identityId blobId

theorem firstBasis_cons (links : Links) (identityId : Nat) (identityIds : List Nat)
    (blobId : Nat) : firstBasis links (identityId :: identityIds) blobId =
      (links.basis identityId blobId).or (firstBasis links identityIds blobId) := by
  unfold firstBasis
  rw [List.findSome?_cons]
  cases links.basis identityId blobId <;> rfl

theorem firstBasis_congr {links links' : Links} {identityIds : List Nat} {blobId : Nat}
    (hsame : ∀ identityId ∈ identityIds,
      links.basis identityId blobId = links'.basis identityId blobId) :
    firstBasis links identityIds blobId = firstBasis links' identityIds blobId := by
  induction identityIds with
  | nil => rfl
  | cons identityId identityIds ih =>
    obtain ⟨hhead, hrest⟩ := List.forall_mem_cons.mp hsame
    rw [firstBasis_cons, firstBasis_cons, hhead, ih hrest]

theorem basis_mergeAll {identityId blobId : Nat}
    (hnodup : (survivorId :: losers.map Identity.identityId).Nodup) :
    (mergeAll survivorId state losers).links.basis identityId blobId =
      if identityId ∈ losers.map Identity.identityId then none
      else if identityId = survivorId then
        firstBasis state.links (survivorId :: losers.map Identity.identityId) blobId
      else state.links.basis identityId blobId := by
  induction losers generalizing state with
  | nil =>
    change state.links.basis identityId blobId = _
    rw [List.map_nil, if_neg List.not_mem_nil]
    split
    · rename_i heq
      rw [heq, firstBasis_cons]
      exact Option.or_none.symm
    · rfl
  | cons loser losers ih =>
    obtain ⟨hsurvivor, hrest⟩ := List.nodup_cons.mp hnodup
    rw [List.map_cons, List.mem_cons, not_or] at hsurvivor
    obtain ⟨hloser, hrest⟩ := List.nodup_cons.mp hrest
    have hstep : ∀ other, (state.mergeAway loser.identityId survivorId).links.basis other blobId =
        if other = loser.identityId then none
        else if other = survivorId then
          (state.links.basis survivorId blobId).or (state.links.basis loser.identityId blobId)
        else state.links.basis other blobId :=
      fun other => Links.basis_repoint (Ne.symm hsurvivor.1)
    have hkept : firstBasis (state.mergeAway loser.identityId survivorId).links
        (losers.map Identity.identityId) blobId =
          firstBasis state.links (losers.map Identity.identityId) blobId := by
      apply firstBasis_congr
      intro other hother
      rw [hstep, if_neg (ne_of_mem_of_not_mem hother hloser),
        if_neg (ne_of_mem_of_not_mem hother hsurvivor.2)]
    change (mergeAll survivorId (state.mergeAway loser.identityId survivorId) losers).links.basis
      identityId blobId = _
    rw [ih (List.nodup_cons.mpr ⟨hsurvivor.2, hrest⟩), firstBasis_cons, hkept, hstep survivorId,
      if_neg hsurvivor.1, if_pos rfl, hstep identityId]
    simp only [List.map_cons, List.mem_cons, firstBasis_cons, Option.or_assoc]
    by_cases hhead : identityId = loser.identityId
    · have hne : identityId ≠ survivorId := fun heq => hsurvivor.1 (heq.symm.trans hhead)
      rw [if_neg hne, if_neg hne]
      simp [hhead, hloser]
    · simp only [hhead, false_or, if_false]
      by_cases heq : identityId = survivorId
      · simp only [heq, if_true]
      · simp only [heq, if_false]

end

/-! ## What one call does -/

/-- The identities that a tuple is put together with, the survivor first. -/
def joined (state : Identities) (order : RowOrder) (tuple : Tuple) : List Identity :=
  match survivor (state.qualifying order tuple) with
  | none => []
  | some kept =>
    kept :: absorbed (kept.tuple.absorb tuple)
      ((state.qualifying order tuple).filter fun row => row.identityId ≠ kept.identityId)

variable {kept : Identity} {losers : List Identity}

theorem survivor_mem (hkept : survivor rows = some kept) : kept ∈ rows := by
  induction rows with
  | nil => cases hkept
  | cons row rows ih =>
    unfold survivor at hkept
    split at hkept
    · cases hkept
      exact List.mem_cons_self
    · rename_i other hother
      split at hkept
      · cases hkept
        exact List.mem_cons_of_mem row (ih hother)
      · cases hkept
        exact List.mem_cons_self

theorem survivor_eq_none (hnone : survivor rows = none) : rows = [] := by
  cases rows with
  | nil => rfl
  | cons row rows =>
    unfold survivor at hnone
    split at hnone
    · cases hnone
    · split at hnone <;> cases hnone

theorem joined_eq_nil : state.joined order tuple = [] ↔ state.qualifying order tuple = [] := by
  unfold joined
  split
  · rename_i hnone
    exact ⟨fun _ => survivor_eq_none hnone, fun _ => rfl⟩
  · rename_i kept hkept
    constructor
    · intro hnil
      cases hnil
    · intro hnil
      rw [hnil] at hkept
      cases hkept

theorem joined_eq_cons (hjoined : state.joined order tuple = kept :: losers) :
    survivor (state.qualifying order tuple) = some kept ∧
      losers = absorbed (kept.tuple.absorb tuple)
        ((state.qualifying order tuple).filter fun row => row.identityId ≠ kept.identityId) := by
  unfold joined at hjoined
  split at hjoined
  · cases hjoined
  · rename_i row hrow
    obtain ⟨rfl, rfl⟩ := List.cons.inj hjoined
    exact ⟨hrow, rfl⟩

/-- What is joined qualifies, and is distinct. -/
theorem joined_qualify (hjoined : state.joined order tuple = kept :: losers) :
    (∀ row ∈ kept :: losers, row ∈ state.qualifying order tuple) ∧
      (kept.identityId :: losers.map Identity.identityId).Nodup := by
  obtain ⟨hkept, rfl⟩ := joined_eq_cons hjoined
  have hsub := absorbed_sublist (kept.tuple.absorb tuple)
    ((state.qualifying order tuple).filter fun row => row.identityId ≠ kept.identityId)
  refine ⟨List.forall_mem_cons.mpr ⟨survivor_mem hkept, ?_⟩, List.nodup_cons.mpr ⟨?_, ?_⟩⟩
  · intro row hrow
    exact List.mem_of_mem_filter (hsub.subset hrow)
  · intro hmem
    obtain ⟨row, hrow, heq⟩ := List.mem_map.mp hmem
    exact of_decide_eq_true (List.mem_filter.mp (hsub.subset hrow)).2 heq
  · exact (qualifying_nodup state order tuple).sublist ((hsub.trans List.filter_sublist).map _)

/-- A tuple that qualifies for something identifies something. -/
theorem strength_of_qualifying (hrow : row ∈ state.qualifying order tuple) :
    tuple.strength ≠ none := by
  intro hnone
  obtain ⟨hsha256, hsha1, hmd5, hweak⟩ := Tuple.strength_eq_none_iff.mp hnone
  rcases (mem_qualifying.mp hrow).2.2 with ⟨col, rfl | rfl | rfl, x, hx, _⟩ | ⟨hcrc, hsize⟩
  · exact absurd (hmd5.symm.trans hx) (by simp)
  · exact absurd (hsha1.symm.trans hx) (by simp)
  · exact absurd (hsha256.symm.trans hx) (by simp)
  · obtain ⟨digest, hdigest, _⟩ := hcrc
    obtain ⟨size, hsize, _⟩ := hsize
    rw [hdigest, hsize] at hweak
    simp at hweak

theorem unifyClaim_none (hnone : tuple.strength = none) :
    state.unifyClaim order tuple = (state, none) := by
  unfold unifyClaim
  rw [hnone]

theorem unifyClaim_mint {strength : Int} (hstrength : tuple.strength = some strength)
    (hjoined : state.joined order tuple = []) :
    state.unifyClaim order tuple =
      ((state.mint tuple strength).1, some (state.mint tuple strength).2) := by
  have hnil : survivor (state.qualifying order tuple) = none := by
    rw [joined_eq_nil.mp hjoined]
    rfl
  unfold unifyClaim
  simp only [hstrength, hnil]

theorem unifyClaim_merge (hjoined : state.joined order tuple = kept :: losers) :
    state.unifyClaim order tuple =
      ({ mergeAll kept.identityId state losers with
          identities := (mergeAll kept.identityId state losers).identities.modify kept.identityId
            (writeTuple (absorbAll (kept.tuple.absorb tuple) losers)) },
        some kept.identityId) := by
  obtain ⟨hkept, hlosers⟩ := joined_eq_cons hjoined
  cases hstrength : tuple.strength with
  | none => exact absurd hstrength (strength_of_qualifying (survivor_mem hkept))
  | some strength =>
    unfold unifyClaim
    simp only [hstrength, hkept, mergeLosers_eq, ← hlosers]

/-- The three outcomes for a claim: it identifies nothing, it gets an identity of its own,
or it joins some. -/
theorem joined_cases (state : Identities) (order : RowOrder) (tuple : Tuple) :
    (tuple.strength = none ∧ state.joined order tuple = []) ∨
      (∃ strength, tuple.strength = some strength ∧ state.joined order tuple = []) ∨
        ∃ kept losers, state.joined order tuple = kept :: losers := by
  cases hjoined : state.joined order tuple with
  | nil =>
    cases hstrength : tuple.strength with
    | none => exact Or.inl ⟨rfl, rfl⟩
    | some strength => exact Or.inr (Or.inl ⟨strength, rfl, rfl⟩)
  | cons kept losers => exact Or.inr (Or.inr ⟨kept, losers, rfl⟩)

section

variable (hnone : tuple.strength = none)

include hnone

theorem unifyRow_none : state.unifyRow order tuple =
    { state with claims := state.claims ++ [⟨tuple, none⟩] } := by
  unfold unifyRow
  rw [unifyClaim_none hnone]

end

section

variable {strength : Int} (hstrength : tuple.strength = some strength)
  (hjoined : state.joined order tuple = [])

include hstrength hjoined

theorem unifyRow_mint : state.unifyRow order tuple =
    { (state.mint tuple strength).1 with
      claims := state.claims ++ [⟨tuple, some state.identities.nextId⟩] } := by
  unfold unifyRow
  rw [unifyClaim_mint hstrength hjoined]
  rfl

theorem mem_identities_mint {row : Identity} :
    row ∈ (state.unifyRow order tuple).identities ↔
      row ∈ state.identities ∨ row = ⟨state.identities.nextId, tuple, strength⟩ := by
  rw [unifyRow_mint hstrength hjoined]
  change row ∈ (state.mint tuple strength).1.identities ↔ _
  simp only [mint, Table.mem_insert]

end

section

variable (hjoined : state.joined order tuple = kept :: losers)

include hjoined

theorem losers_ne_kept : ∀ loser ∈ losers, loser.identityId ≠ kept.identityId := by
  intro loser hloser heq
  have hnodup := (joined_qualify hjoined).2
  exact (List.nodup_cons.mp hnodup).1 (heq ▸ List.mem_map_of_mem hloser)

theorem joined_mem {row : Identity} (hrow : row ∈ kept :: losers) : row ∈ state.identities :=
  (mem_qualifying.mp ((joined_qualify hjoined).1 row hrow)).1

theorem mem_identities_merge {row : Identity} :
    row ∈ (state.unifyRow order tuple).identities ↔
      (row ∈ state.identities ∧ row ∉ kept :: losers) ∨
        row = ⟨kept.identityId, absorbAll (kept.tuple.absorb tuple) losers,
          (absorbAll (kept.tuple.absorb tuple) losers).strength.getD (-1)⟩ := by
  have hnot : ∀ row ∈ state.identities, ((∀ loser ∈ losers,
      row.identityId ≠ loser.identityId) ∧ row.identityId ≠ kept.identityId) ↔
        row ∉ kept :: losers := by
    intro row hrow
    rw [List.mem_cons, not_or, and_comm]
    apply and_congr
    · rw [not_iff_not]
      exact ⟨eq_of_identityId hrow (joined_mem hjoined List.mem_cons_self),
        congrArg Identity.identityId⟩
    · constructor
      · intro hids hmem
        exact hids row hmem rfl
      · intro hmem loser hloser heq
        have hold := joined_mem hjoined (List.mem_cons_of_mem kept hloser)
        rw [eq_of_identityId hrow hold heq] at hmem
        exact hmem hloser
  unfold unifyRow
  rw [unifyClaim_merge hjoined]
  change row ∈ Table.modify _ _ _ ↔ _
  rw [Table.mem_modify]
  apply or_congr
  · rw [mem_mergeAll, and_assoc]
    exact and_congr_right fun hrow => hnot row hrow
  · constructor
    · rintro ⟨old, _, hid, rfl⟩
      rw [← show old.identityId = kept.identityId from hid]
      rfl
    · rintro rfl
      refine ⟨kept, ?_, rfl, rfl⟩
      rw [mem_mergeAll]
      exact ⟨joined_mem hjoined List.mem_cons_self,
        fun loser hloser => (losers_ne_kept hjoined loser hloser).symm⟩

theorem claims_merge : (state.unifyRow order tuple).claims =
    state.claims.map (moved kept.identityId losers) ++ [⟨tuple, some kept.identityId⟩] := by
  unfold unifyRow
  rw [unifyClaim_merge hjoined]
  change (mergeAll kept.identityId state losers).claims ++ _ = _
  rw [claims_mergeAll (losers_ne_kept hjoined)]

theorem basis_merge {identityId blobId : Nat} :
    (state.unifyRow order tuple).links.basis identityId blobId =
      if identityId ∈ losers.map Identity.identityId then none
      else if identityId = kept.identityId then
        firstBasis state.links (kept.identityId :: losers.map Identity.identityId) blobId
      else state.links.basis identityId blobId := by
  unfold unifyRow
  rw [unifyClaim_merge hjoined]
  exact basis_mergeAll (joined_qualify hjoined).2

end

/-! ## The invariant -/

/-- What the claims of an identity say. -/
def said (state : Identities) (identityId : Nat) : Set (∀ col : Column, Option col.Value) :=
  {part | ∃ claim ∈ state.claims, claim.identityId = some identityId ∧ claim.tuple.get = part}

/-- Claims and links belong to identities that exist, an identity says what its claims say,
and no two that share a strong digest could be one. -/
structure Unified (state : Identities) : Prop where
  attached : ∀ claim ∈ state.claims, claim.tuple.strength ≠ none →
    ∃ row ∈ state.identities, claim.identityId = some row.identityId
  loose : ∀ claim ∈ state.claims, claim.tuple.strength = none → claim.identityId = none
  linked : ∀ identityId blobId, state.links.basis identityId blobId ≠ none →
    ∃ row ∈ state.identities, row.identityId = identityId
  union : ∀ row ∈ state.identities, IsUnion row.tuple.get (state.said row.identityId)
  separate : ∀ row ∈ state.identities, ∀ other ∈ state.identities, row ≠ other →
    Separate Column.Strong row.tuple.get other.tuple.get

/-! ### Merged tuples -/

theorem union_absorbAll {parts : Set (∀ col : Column, Option col.Value)}
    (said : Identity → Set (∀ col : Column, Option col.Value)) (htuple : IsUnion tuple.get parts)
    (hrows : ∀ row ∈ rows, IsUnion row.tuple.get (said row)) :
    IsUnion (absorbAll tuple (absorbed tuple rows)).get
      {part | part ∈ parts ∨ ∃ row ∈ absorbed tuple rows, part ∈ said row} := by
  induction rows generalizing tuple parts with
  | nil => simpa [absorbed, absorbAll] using htuple
  | cons row rows ih =>
    obtain ⟨hrow, hrest⟩ := List.forall_mem_cons.mp hrows
    unfold absorbed
    split
    · rename_i hcompatible
      have hjoin : IsUnion (tuple.absorb row.tuple).get (parts ∪ said row) := by
        rw [Tuple.get_absorb]
        exact htuple.join hrow (Tuple.compatible_iff.mp hcompatible)
      have hset : {part | part ∈ parts ∨
            ∃ other ∈ row :: absorbed (tuple.absorb row.tuple) rows, part ∈ said other} =
          {part | part ∈ parts ∪ said row ∨
            ∃ other ∈ absorbed (tuple.absorb row.tuple) rows, part ∈ said other} := by
        ext part
        simp [or_assoc]
      rw [hset]
      exact ih hjoin hrest
    · exact ih htuple hrest

theorem within_absorbAll (tuple : Tuple) (rows : List Identity) :
    Within tuple.get (absorbAll tuple rows).get := by
  induction rows generalizing tuple with
  | nil => exact fun col x hx => hx
  | cons row rows ih =>
    intro col x hx
    apply ih (tuple.absorb row.tuple) col x
    rw [Tuple.get_absorb]
    exact Assignment.within_join_left _ _ col x hx

theorem separate_absorbAll {other : Tuple} (htuple : Separate Column.Strong other.get tuple.get)
    (hrows : ∀ row ∈ absorbed tuple rows, Separate Column.Strong other.get row.tuple.get) :
    Separate Column.Strong other.get (absorbAll tuple (absorbed tuple rows)).get := by
  induction rows generalizing tuple with
  | nil => exact htuple
  | cons row rows ih =>
    unfold absorbed at hrows ⊢
    split at hrows
    · rename_i hcompatible
      obtain ⟨hrow, hrest⟩ := List.forall_mem_cons.mp hrows
      rw [if_pos hcompatible]
      apply ih _ hrest
      rw [Tuple.get_absorb]
      exact htuple.join hrow (Tuple.compatible_iff.mp hcompatible)
    · rename_i hconflict
      rw [if_neg hconflict]
      exact ih htuple hrows

/-- What the loop leaves out contradicts what it has merged. -/
theorem conflict_of_not_absorbed (hrow : row ∈ rows) (hnot : row ∉ absorbed tuple rows) :
    ¬ Agree row.tuple.get (absorbAll tuple (absorbed tuple rows)).get := by
  induction rows generalizing tuple with
  | nil => cases hrow
  | cons head rows ih =>
    unfold absorbed at hnot ⊢
    split at hnot
    · rename_i hcompatible
      rw [List.mem_cons, not_or] at hnot
      rw [if_pos hcompatible]
      exact ih ((List.mem_cons.mp hrow).resolve_left hnot.1) hnot.2
    · rename_i hconflict
      rw [if_neg hconflict]
      rcases List.mem_cons.mp hrow with rfl | hrest
      · intro hagree
        apply hconflict
        rw [Tuple.compatible_iff]
        exact hagree.symm.mono_left (within_absorbAll _ _)
      · exact ih hrest hnot

/-! ### Preservation -/

theorem moved_identityId {survivorId : Nat} {claim : HashClaim}
    (hsurvivor : ∀ row ∈ rows, row.identityId ≠ survivorId) :
    (moved survivorId rows claim).identityId = some identityId ↔
      (identityId = survivorId ∧ (claim.identityId = some survivorId ∨
        ∃ row ∈ rows, claim.identityId = some row.identityId)) ∨
      (identityId ≠ survivorId ∧ claim.identityId = some identityId ∧
        ∀ row ∈ rows, identityId ≠ row.identityId) := by
  unfold moved
  split
  · rename_i hmoved
    constructor
    · intro heq
      exact Or.inl ⟨(Option.some.inj heq).symm, Or.inr hmoved⟩
    · rintro (⟨rfl, _⟩ | ⟨_, hclaim, hkept⟩)
      · rfl
      · obtain ⟨row, hrow, heq⟩ := hmoved
        exact absurd (Option.some.inj (hclaim.symm.trans heq)) (hkept row hrow)
  · rename_i hkept
    constructor
    · intro hclaim
      by_cases heq : identityId = survivorId
      · exact Or.inl ⟨heq, Or.inl (heq ▸ hclaim)⟩
      · exact Or.inr ⟨heq, hclaim, fun row hrow hid => hkept ⟨row, hrow, hid ▸ hclaim⟩⟩
    · rintro (⟨rfl, hclaim | hmoved⟩ | ⟨_, hclaim, _⟩)
      · exact hclaim
      · exact absurd hmoved hkept
      · exact hclaim

theorem moved_or_same (survivorId : Nat) (rows : List Identity) (claim : HashClaim) :
    (moved survivorId rows claim).identityId = some survivorId ∨
      (moved survivorId rows claim).identityId = claim.identityId := by
  unfold moved
  split
  · exact Or.inl rfl
  · exact Or.inr rfl

theorem moved_tuple (survivorId : Nat) (rows : List Identity) (claim : HashClaim) :
    (moved survivorId rows claim).tuple = claim.tuple := by
  unfold moved
  split <;> rfl

section

variable (hjoined : state.joined order tuple = kept :: losers)

include hjoined

theorem said_merge {identityId : Nat} {part : ∀ col : Column, Option col.Value} :
    part ∈ (state.unifyRow order tuple).said identityId ↔
      (identityId = kept.identityId ∧ (part ∈ state.said kept.identityId ∪ {tuple.get} ∨
        ∃ row ∈ losers, part ∈ state.said row.identityId)) ∨
      (identityId ≠ kept.identityId ∧ (∀ row ∈ losers, identityId ≠ row.identityId) ∧
        part ∈ state.said identityId) := by
  have hmem : part ∈ (state.unifyRow order tuple).said identityId ↔
      (∃ claim ∈ state.claims, (moved kept.identityId losers claim).identityId = some identityId ∧
        claim.tuple.get = part) ∨ (kept.identityId = identityId ∧ tuple.get = part) := by
    simp only [said, claims_merge hjoined, Set.mem_ofPred_eq, List.mem_append, List.mem_map,
      List.mem_singleton, or_and_right, exists_or, exists_eq_left, Option.some.injEq,
      exists_exists_and_eq_and, moved_tuple]
  rw [hmem]
  simp only [moved_identityId (losers_ne_kept hjoined)]
  constructor
  · rintro (⟨claim, hclaim, ⟨rfl, hkept | ⟨row, hrow, hloser⟩⟩ | ⟨hne, hold, hother⟩, rfl⟩ |
      ⟨rfl, rfl⟩)
    · exact Or.inl ⟨rfl, Or.inl (Or.inl ⟨claim, hclaim, hkept, rfl⟩)⟩
    · exact Or.inl ⟨rfl, Or.inr ⟨row, hrow, claim, hclaim, hloser, rfl⟩⟩
    · exact Or.inr ⟨hne, hother, claim, hclaim, hold, rfl⟩
    · exact Or.inl ⟨rfl, Or.inl (Or.inr rfl)⟩
  · rintro (⟨rfl, (⟨claim, hclaim, hkept, rfl⟩ | rfl) | ⟨row, hrow, claim, hclaim, hloser, rfl⟩⟩ |
      ⟨hne, hother, claim, hclaim, hold, rfl⟩)
    · exact Or.inl ⟨claim, hclaim, Or.inl ⟨rfl, Or.inl hkept⟩, rfl⟩
    · exact Or.inr ⟨rfl, rfl⟩
    · exact Or.inl ⟨claim, hclaim, Or.inl ⟨rfl, Or.inr ⟨row, hrow, hloser⟩⟩, rfl⟩
    · exact Or.inl ⟨claim, hclaim, Or.inr ⟨hne, hold, hother⟩, rfl⟩

/-- The merged tuple says what the claim and the claims of the joined identities say. -/
theorem union_merge (hunified : state.Unified) :
    IsUnion (absorbAll (kept.tuple.absorb tuple) losers).get
      {part | part ∈ state.said kept.identityId ∪ {tuple.get} ∨
        ∃ row ∈ losers, part ∈ state.said row.identityId} := by
  have hkept := joined_mem hjoined List.mem_cons_self
  have hagree := (mem_qualifying.mp ((joined_qualify hjoined).1 kept List.mem_cons_self)).2.1
  have hstart : IsUnion (kept.tuple.absorb tuple).get
      (state.said kept.identityId ∪ {tuple.get}) := by
    rw [Tuple.get_absorb]
    exact (hunified.union kept hkept).join (Assignment.isUnion_singleton _) hagree.symm
  rw [(joined_eq_cons hjoined).2]
  apply union_absorbAll (fun row => state.said row.identityId) hstart
  intro row hrow
  exact hunified.union row (mem_qualifying.mp (List.mem_of_mem_filter hrow)).1

/-- An identity that is not merged shares no strong digest with the merged tuple, unless it
contradicts it. -/
theorem separate_merge (hunified : state.Unified) {row : Identity} (hrow : row ∈ state.identities)
    (hnot : row ∉ kept :: losers) :
    Separate Column.Strong row.tuple.get (absorbAll (kept.tuple.absorb tuple) losers).get := by
  obtain ⟨hne, hskipped⟩ := not_or.mp (List.mem_cons.not.mp hnot)
  have hkept := joined_mem hjoined List.mem_cons_self
  have hagree := (mem_qualifying.mp ((joined_qualify hjoined).1 kept List.mem_cons_self)).2.1
  have hlosers := (joined_eq_cons hjoined).2
  by_cases hqualifies : row ∈ state.qualifying order tuple
  · -- It came up in the loop, which left it out for a conflict.
    rw [hlosers] at hskipped ⊢
    have hrest : row ∈ (state.qualifying order tuple).filter fun row =>
        row.identityId ≠ kept.identityId :=
      List.mem_filter.mpr ⟨hqualifies,
        decide_eq_true fun hid => hne (eq_of_identityId hrow hkept hid)⟩
    exact fun hjoin => absurd hjoin (conflict_of_not_absorbed hrest hskipped)
  · have hclaim : Separate Column.Strong row.tuple.get tuple.get := by
      intro hclaimAgree hshares
      exact hqualifies (mem_qualifying.mpr ⟨hrow, hclaimAgree.symm, Or.inl hshares.symm⟩)
    rw [hlosers]
    apply separate_absorbAll
    · rw [Tuple.get_absorb]
      exact (hunified.separate row hrow kept hkept hne).join hclaim hagree.symm
    · intro other hother
      rw [← hlosers] at hother
      exact hunified.separate row hrow other
        (joined_mem hjoined (List.mem_cons_of_mem kept hother))
        fun heq => hskipped (heq ▸ hother)

end

theorem unified_empty : empty.Unified where
  attached := List.forall_mem_nil _
  loose := List.forall_mem_nil _
  linked := fun _ _ hlink => absurd rfl hlink
  union := fun row hrow => absurd hrow (Table.not_mem_empty row)
  separate := fun row hrow => absurd hrow (Table.not_mem_empty row)

theorem Unified.unify_none (hunified : state.Unified) (hnone : tuple.strength = none) :
    (state.unifyRow order tuple).Unified := by
  rw [unifyRow_none hnone]
  have hsaid : ∀ identityId, said { state with claims := state.claims ++ [⟨tuple, none⟩] }
      identityId = state.said identityId := by
    intro identityId
    ext part
    simp [said]
  refine ⟨?_, ?_, hunified.linked, ?_, hunified.separate⟩
  · intro claim hclaim hsome
    rcases List.mem_append.mp hclaim with hold | hnew
    · exact hunified.attached claim hold hsome
    · rw [List.mem_singleton.mp hnew] at hsome
      exact absurd hnone hsome
  · intro claim hclaim hloose
    rcases List.mem_append.mp hclaim with hold | hnew
    · exact hunified.loose claim hold hloose
    · rw [List.mem_singleton.mp hnew]
  · intro row hrow
    rw [hsaid]
    exact hunified.union row hrow

/-- The identities in use come before the next id. -/
theorem identityId_ne_nextId (hrow : row ∈ state.identities) :
    row.identityId ≠ state.identities.nextId :=
  Nat.ne_of_lt (Table.id_lt_nextId hrow)

theorem Unified.unify_mint {strength : Int} (hunified : state.Unified)
    (hstrength : tuple.strength = some strength) (hjoined : state.joined order tuple = []) :
    (state.unifyRow order tuple).Unified := by
  have hmem : ∀ row, row ∈ (state.unifyRow order tuple).identities ↔
      row ∈ state.identities ∨ row = ⟨state.identities.nextId, tuple, strength⟩ :=
    fun row => mem_identities_mint hstrength hjoined
  have hclaims : (state.unifyRow order tuple).claims =
      state.claims ++ [⟨tuple, some state.identities.nextId⟩] := by
    rw [unifyRow_mint hstrength hjoined]
  have hlinks : (state.unifyRow order tuple).links = state.links := by
    rw [unifyRow_mint hstrength hjoined]
    rfl
  -- No claim points at the new id yet.
  have hfresh : ∀ claim ∈ state.claims, claim.identityId ≠ some state.identities.nextId := by
    intro claim hclaim hid
    by_cases hloose : claim.tuple.strength = none
    · rw [hunified.loose claim hclaim hloose] at hid
      cases hid
    · obtain ⟨row, hrow, heq⟩ := hunified.attached claim hclaim hloose
      exact identityId_ne_nextId hrow (Option.some.inj (heq.symm.trans hid))
  have hseparate : ∀ row ∈ state.identities, Separate Column.Strong row.tuple.get tuple.get := by
    intro row hrow hagree hshares
    have hqualifies : row ∈ state.qualifying order tuple :=
      mem_qualifying.mpr ⟨hrow, hagree.symm, Or.inl hshares.symm⟩
    rw [joined_eq_nil.mp hjoined] at hqualifies
    cases hqualifies
  refine ⟨?_, ?_, ?_, ?_, ?_⟩
  · intro claim hclaim hsome
    rw [hclaims] at hclaim
    rcases List.mem_append.mp hclaim with hold | hnew
    · obtain ⟨row, hrow, hid⟩ := hunified.attached claim hold hsome
      exact ⟨row, (hmem row).mpr (Or.inl hrow), hid⟩
    · rw [List.mem_singleton.mp hnew]
      exact ⟨_, (hmem _).mpr (Or.inr rfl), rfl⟩
  · intro claim hclaim hloose
    rw [hclaims] at hclaim
    rcases List.mem_append.mp hclaim with hold | hnew
    · exact hunified.loose claim hold hloose
    · rw [List.mem_singleton.mp hnew, hstrength] at hloose
      cases hloose
  · intro identityId blobId hlink
    rw [hlinks] at hlink
    obtain ⟨row, hrow, hid⟩ := hunified.linked identityId blobId hlink
    exact ⟨row, (hmem row).mpr (Or.inl hrow), hid⟩
  · intro row hrow
    rcases (hmem row).mp hrow with hold | rfl
    · have hsaid : (state.unifyRow order tuple).said row.identityId =
          state.said row.identityId := by
        ext part
        simp [said, hclaims, (identityId_ne_nextId hold).symm]
      rw [hsaid]
      exact hunified.union row hold
    · have hsaid : (state.unifyRow order tuple).said state.identities.nextId = {tuple.get} := by
        ext part
        simp only [said, hclaims, Set.mem_ofPred_eq, Set.mem_singleton_iff]
        constructor
        · rintro ⟨claim, hclaim, hid, rfl⟩
          rcases List.mem_append.mp hclaim with hold | hnew
          · exact absurd hid (hfresh claim hold)
          · rw [List.mem_singleton.mp hnew]
        · rintro rfl
          exact ⟨_, List.mem_append_right _ List.mem_cons_self, rfl, rfl⟩
      rw [hsaid]
      exact Assignment.isUnion_singleton _
  · intro row hrow other hother hne
    rcases (hmem row).mp hrow with hold | rfl
    · rcases (hmem other).mp hother with hold' | rfl
      · exact hunified.separate row hold other hold' hne
      · exact hseparate row hold
    · rcases (hmem other).mp hother with hold' | rfl
      · exact (hseparate other hold').symm
      · exact absurd rfl hne

theorem Unified.unify_merge (hunified : state.Unified)
    (hjoined : state.joined order tuple = kept :: losers) :
    (state.unifyRow order tuple).Unified := by
  have hkept := joined_mem hjoined List.mem_cons_self
  -- The identity an old one lives on in.
  have hlives : ∀ row ∈ state.identities, ∃ new ∈ (state.unifyRow order tuple).identities,
      new.identityId =
        if row.identityId ∈ losers.map Identity.identityId then kept.identityId
        else row.identityId := by
    intro row hrow
    split
    · exact ⟨_, (mem_identities_merge hjoined).mpr (Or.inr rfl), rfl⟩
    · rename_i hnot
      by_cases hid : row = kept
      · rw [hid]
        exact ⟨_, (mem_identities_merge hjoined).mpr (Or.inr rfl), rfl⟩
      · refine ⟨row, (mem_identities_merge hjoined).mpr (Or.inl ⟨hrow, ?_⟩), rfl⟩
        rw [List.mem_cons, not_or]
        exact ⟨hid, fun hmem => hnot (List.mem_map_of_mem hmem)⟩
  refine ⟨?_, ?_, ?_, ?_, ?_⟩
  · intro claim hclaim hsome
    rw [claims_merge hjoined] at hclaim
    rcases List.mem_append.mp hclaim with hold | hnew
    · obtain ⟨old, hmem, rfl⟩ := List.mem_map.mp hold
      rw [moved_tuple] at hsome
      obtain ⟨row, hrow, hid⟩ := hunified.attached old hmem hsome
      obtain ⟨new, hnew, hnewId⟩ := hlives row hrow
      refine ⟨new, hnew, ?_⟩
      rw [hnewId]
      simp only [moved, hid, Option.some.injEq, List.mem_map, eq_comm]
      split <;> simp_all
    · rw [List.mem_singleton.mp hnew]
      exact ⟨_, (mem_identities_merge hjoined).mpr (Or.inr rfl), rfl⟩
  · intro claim hclaim hloose
    rw [claims_merge hjoined] at hclaim
    rcases List.mem_append.mp hclaim with hold | hnew
    · obtain ⟨old, hmem, rfl⟩ := List.mem_map.mp hold
      rw [moved_tuple] at hloose
      have hnone := hunified.loose old hmem hloose
      simp [moved, hnone]
    · rw [List.mem_singleton.mp hnew] at hloose
      exact absurd hloose
        (strength_of_qualifying ((joined_qualify hjoined).1 kept List.mem_cons_self))
  · intro identityId blobId hlink
    rw [basis_merge hjoined] at hlink
    split at hlink
    · exact absurd rfl hlink
    · rename_i hloser
      split at hlink
      · rename_i heq
        exact ⟨_, (mem_identities_merge hjoined).mpr (Or.inr rfl), heq.symm⟩
      · obtain ⟨row, hrow, rfl⟩ := hunified.linked identityId blobId hlink
        obtain ⟨new, hnew, hnewId⟩ := hlives row hrow
        rw [if_neg hloser] at hnewId
        exact ⟨new, hnew, hnewId⟩
  · intro row hrow
    rcases (mem_identities_merge hjoined).mp hrow with ⟨hold, hnot⟩ | rfl
    · obtain ⟨hne, hskipped⟩ := not_or.mp (List.mem_cons.not.mp hnot)
      have hid : row.identityId ≠ kept.identityId :=
        fun heq => hne (eq_of_identityId hold hkept heq)
      have hids : ∀ loser ∈ losers, row.identityId ≠ loser.identityId := by
        intro loser hloser heq
        have hmem := joined_mem hjoined (List.mem_cons_of_mem kept hloser)
        exact hskipped (eq_of_identityId hold hmem heq ▸ hloser)
      have hsaid : (state.unifyRow order tuple).said row.identityId =
          state.said row.identityId := by
        ext part
        rw [said_merge hjoined, or_iff_right fun hkept => hid hkept.1, and_iff_right hid,
          and_iff_right hids]
      rw [hsaid]
      exact hunified.union row hold
    · have hsaid : (state.unifyRow order tuple).said kept.identityId =
          {part | part ∈ state.said kept.identityId ∪ {tuple.get} ∨
            ∃ row ∈ losers, part ∈ state.said row.identityId} := by
        ext part
        rw [said_merge hjoined]
        simp
      rw [hsaid]
      exact union_merge hjoined hunified
  · intro row hrow other hother hne
    rcases (mem_identities_merge hjoined).mp hrow with ⟨hold, hnot⟩ | rfl
    · rcases (mem_identities_merge hjoined).mp hother with ⟨hold', _⟩ | rfl
      · exact hunified.separate row hold other hold' hne
      · exact separate_merge hjoined hunified hold hnot
    · rcases (mem_identities_merge hjoined).mp hother with ⟨hold', hnot'⟩ | rfl
      · exact (separate_merge hjoined hunified hold' hnot').symm
      · exact absurd rfl hne

theorem Unified.unifyRow (hunified : state.Unified) (order : RowOrder) (tuple : Tuple) :
    (state.unifyRow order tuple).Unified := by
  rcases joined_cases state order tuple with ⟨hnone, _⟩ | ⟨_, hstrength, hnil⟩ |
    ⟨_, _, hjoined⟩
  · exact hunified.unify_none hnone
  · exact hunified.unify_mint hstrength hnil
  · exact hunified.unify_merge hjoined

/-! ### Linking -/

theorem linkAll_cons (state : Identities) (grade : Int) (pair : Nat × Nat)
    (pairs : List (Nat × Nat)) : state.linkAll grade (pair :: pairs) =
      { state with links := state.links.link pair.1 pair.2 grade }.linkAll grade pairs := rfl

theorem basis_linkAll_ne_none {grade : Int} {pairs : List (Nat × Nat)} {blobId : Nat}
    (hlink : (state.linkAll grade pairs).links.basis identityId blobId ≠ none) :
    state.links.basis identityId blobId ≠ none ∨ (identityId, blobId) ∈ pairs := by
  induction pairs generalizing state with
  | nil => exact Or.inl hlink
  | cons pair pairs ih =>
    rw [linkAll_cons] at hlink
    rcases ih hlink with hlink | hmem
    · by_cases hpair : identityId = pair.1 ∧ blobId = pair.2
      · exact Or.inr (List.mem_cons.mpr (Or.inl (Prod.ext hpair.1 hpair.2)))
      · left
        rwa [Links.basis_link, if_neg hpair] at hlink
    · exact Or.inr (List.mem_cons_of_mem pair hmem)

theorem Unified.linkAll (hunified : state.Unified) {grade : Int} {pairs : List (Nat × Nat)}
    (hpairs : ∀ pair ∈ pairs, ∃ row ∈ state.identities, row.identityId = pair.1) :
    (state.linkAll grade pairs).Unified where
  attached := hunified.attached
  loose := hunified.loose
  linked := by
    intro identityId blobId hlink
    rcases basis_linkAll_ne_none hlink with hold | hnew
    · exact hunified.linked identityId blobId hold
    · exact hpairs _ hnew
  union := hunified.union
  separate := hunified.separate

section

variable (hunified : state.Unified)

include hunified

theorem Unified.linkIdentity (aliases : Aliases) (identityId : Nat) :
    (state.linkIdentity aliases identityId).Unified := by
  unfold Identities.linkIdentity
  split
  · exact hunified
  · rename_i row hrow
    have hexists : ∀ blobIds : List Nat, ∀ pair ∈ blobIds.map fun blobId => (identityId, blobId),
        ∃ row ∈ state.identities, row.identityId = pair.1 := by
      intro blobIds pair hpair
      obtain ⟨blobId, _, rfl⟩ := List.mem_map.mp hpair
      exact ⟨row, Table.byId_eq_some.mp hrow⟩
    split
    · exact hunified
    · rename_i algo digest _
      have hfirst := @Unified.linkAll _ hunified (row.tuple.strength.getD basisCrcSize) _
        (hexists ((aliases.lookup algo digest).filter fun blobId =>
          aliases.blobMatches blobId row.tuple))
      split
      · exact (hfirst.linkAll (hexists _)).linkAll (hexists _)
      · exact hfirst

theorem Unified.linkIdentitiesToBlobs (aliases : Aliases) (identityIds : List Nat) :
    (state.linkIdentitiesToBlobs aliases identityIds).Unified := by
  induction identityIds generalizing state with
  | nil => exact hunified
  | cons identityId identityIds ih => exact ih (hunified.linkIdentity aliases identityId)

theorem Unified.linkVerifiedChdSha1 (blobId : Nat) (sha1 : Bytes) :
    (state.linkVerifiedChdSha1 blobId sha1).Unified := by
  apply hunified.linkAll
  intro pair hpair
  obtain ⟨row, hrow, rfl⟩ := List.mem_map.mp hpair
  exact ⟨row, List.mem_of_mem_filter hrow, rfl⟩

theorem Unified.apply (call : Call) : (state.apply call).Unified := by
  cases call with
  | unify order tuple => exact hunified.unifyRow order tuple
  | linkIdentities aliases identityIds => exact hunified.linkIdentitiesToBlobs aliases identityIds
  | linkVerified blobId sha1 => exact hunified.linkVerifiedChdSha1 blobId sha1

theorem Unified.run (calls : List Call) : (state.run calls).Unified := by
  induction calls generalizing state with
  | nil => exact hunified
  | cons call calls ih => exact ih (hunified.apply call)

end

/-! ## Unification as a whole -/

/-- What the call deletes, it has handed to the survivor: the claims, each at its place in
the table, and the links. -/
def HandsOver (state : Identities) (order : RowOrder) (tuple : Tuple) : Prop :=
  ∀ row ∈ state.identities,
    (∀ new ∈ (state.unifyRow order tuple).identities, new.identityId ≠ row.identityId) →
    ∃ survivor ∈ (state.unifyRow order tuple).identities,
      (state.unifyClaim order tuple).2 = some survivor.identityId ∧
      (∀ (nth : Nat) (claim : HashClaim), state.claims[nth]? = some claim →
        claim.identityId = some row.identityId →
          (state.unifyRow order tuple).claims[nth]? =
            some { claim with identityId := some survivor.identityId }) ∧
      ∀ blobId, state.links.basis row.identityId blobId ≠ none →
        (state.unifyRow order tuple).links.basis survivor.identityId blobId ≠ none

theorem firstBasis_ne_none {links : Links} {identityIds : List Nat} {blobId : Nat}
    (hmem : identityId ∈ identityIds) (hlink : links.basis identityId blobId ≠ none) :
    firstBasis links identityIds blobId ≠ none := by
  unfold firstBasis
  rw [Ne, List.findSome?_eq_none_iff]
  exact fun hnone => hlink (hnone identityId hmem)

/-- Only a merge deletes an identity, and then one of those it merged. -/
theorem deleted_is_loser (hrow : row ∈ state.identities)
    (hgone : ∀ new ∈ (state.unifyRow order tuple).identities,
      new.identityId ≠ row.identityId) :
    ∃ kept losers, state.joined order tuple = kept :: losers ∧ row ∈ losers := by
  rcases joined_cases state order tuple with ⟨hnone, _⟩ | ⟨_, hstrength, hnil⟩ |
    ⟨kept, losers, hjoined⟩
  · rw [unifyRow_none hnone] at hgone
    exact absurd rfl (hgone row hrow)
  · exact absurd rfl (hgone row ((mem_identities_mint hstrength hnil).mpr (Or.inl hrow)))
  · refine ⟨kept, losers, hjoined, ?_⟩
    by_contra hnot
    by_cases hkept : row = kept
    · rw [hkept] at hgone
      exact hgone _ ((mem_identities_merge hjoined).mpr (Or.inr rfl)) rfl
    · have hstays : row ∉ kept :: losers := by
        rw [List.mem_cons, not_or]
        exact ⟨hkept, hnot⟩
      exact hgone row ((mem_identities_merge hjoined).mpr (Or.inl ⟨hrow, hstays⟩)) rfl

theorem unifyRow_handsOver (state : Identities) (order : RowOrder) (tuple : Tuple) :
    state.HandsOver order tuple := by
  intro row hrow hgone
  obtain ⟨kept, losers, hjoined, hloser⟩ := deleted_is_loser hrow hgone
  refine ⟨_, (mem_identities_merge hjoined).mpr (Or.inr rfl), ?_, ?_, ?_⟩
  · rw [unifyClaim_merge hjoined]
  · intro nth claim hclaim hid
    obtain ⟨hlt, _⟩ := List.getElem?_eq_some_iff.mp hclaim
    have hmap : nth < (state.claims.map (moved kept.identityId losers)).length := by
      rw [List.length_map]
      exact hlt
    rw [claims_merge hjoined, List.getElem?_append_left hmap, List.getElem?_map, hclaim,
      Option.map_some, moved, if_pos ⟨row, hloser, hid⟩]
  · intro blobId hlink
    have hnot : kept.identityId ∉ losers.map Identity.identityId :=
      (List.nodup_cons.mp (joined_qualify hjoined).2).1
    rw [basis_merge hjoined, if_neg hnot, if_pos rfl]
    exact firstBasis_ne_none (List.mem_cons_of_mem _ (List.mem_map_of_mem hloser)) hlink

/-- Whatever was unified and linked before: claims that identify something belong to an
identity, identities say what their claims say and have been merged where they could be
one, and the next call hands over what it deletes. -/
theorem unification_invariants (calls : List Call) :
    (empty.run calls).Unified ∧
      ∀ order tuple, (empty.run calls).HandsOver order tuple :=
  ⟨unified_empty.run calls, fun order tuple => unifyRow_handsOver _ order tuple⟩

/-- A claim without any digest stays without an identity. -/
theorem bare_claim_has_no_identity : ¬ ∀ calls : List Call,
    ∀ claim ∈ (empty.run calls).claims,
      ∃ row ∈ (empty.run calls).identities, claim.identityId = some row.identityId := by
  intro hall
  obtain ⟨row, _, hid⟩ := hall [.unify .asStored {}] ⟨{}, none⟩ (by decide)
  cases hid

/-! ## Weak evidence -/

/-- Each call of a run meets the condition in the state it finds. -/
def Along (condition : Identities → Call → Prop) : Identities → List Call → Prop
  | _, [] => True
  | state, call :: calls => condition state call ∧ Along condition (state.apply call) calls

instance {condition : Identities → Call → Prop} [∀ state call, Decidable (condition state call)]
    (state : Identities) (calls : List Call) : Decidable (Along condition state calls) := by
  induction calls generalizing state with
  | nil => exact isTrue trivial
  | cons call calls ih =>
    have := ih (state.apply call)
    exact instDecidableAnd

/-- The tuples of the claims so far. -/
def tuples (state : Identities) : List Tuple := state.claims.map HashClaim.tuple

/-- Two claims with a strong digest in common. -/
def Linked (state : Identities) (tuple other : Tuple) : Prop :=
  tuple ∈ state.tuples ∧ other ∈ state.tuples ∧ tuple.SharesStrong other

def Chained (state : Identities) : Tuple → Tuple → Prop := Relation.ReflTransGen state.Linked

end Identities

namespace Tuple

variable {tuple other : Tuple}

instance : Decidable (tuple.SharesStrong other) := decidable_of_iff _ sharesStrong_iff.symm

def hasStrong (tuple : Tuple) : Bool :=
  tuple.sha256.isSome || tuple.sha1.isSome || tuple.md5.isSome

theorem hasStrong_iff : tuple.hasStrong = true ↔
    ∃ col : Column, col.Strong ∧ ∃ x, tuple.get col = some x := by
  simp only [hasStrong, Bool.or_eq_true, Option.isSome_iff_exists]
  constructor
  · rintro ((hsome | hsome) | hsome)
    · exact ⟨.sha256, Or.inr (Or.inr rfl), hsome⟩
    · exact ⟨.sha1, Or.inr (Or.inl rfl), hsome⟩
    · exact ⟨.md5, Or.inl rfl, hsome⟩
  · rintro ⟨col, rfl | rfl | rfl, hsome⟩
    · exact Or.inr hsome
    · exact Or.inl (Or.inr hsome)
    · exact Or.inl (Or.inl hsome)

theorem hasStrong_of_shares (hshares : tuple.SharesStrong other) : other.hasStrong = true := by
  obtain ⟨col, hstrong, x, _, hx⟩ := hshares
  exact hasStrong_iff.mpr ⟨col, hstrong, x, hx⟩

theorem strength_of_hasStrong (hstrong : tuple.hasStrong = true) : tuple.strength ≠ none := by
  intro hnone
  obtain ⟨hsha256, hsha1, hmd5, _⟩ := strength_eq_none_iff.mp hnone
  simp [hasStrong, hsha256, hsha1, hmd5] at hstrong

end Tuple

namespace Identities

variable {state : Identities} {order : RowOrder} {tuple : Tuple} {kept : Identity}
  {losers : List Identity}

/-- A claim with a strong digest joins identities that have one through a digest they share;
a claim without one brings at most one such identity along. -/
def JoinsOnStrong (state : Identities) : Call → Prop
  | .unify order tuple => ∀ row ∈ state.joined order tuple, row.tuple.hasStrong = true →
      if tuple.hasStrong then tuple.SharesStrong row.tuple
      else ∀ other ∈ state.joined order tuple, other.tuple.hasStrong = true → other = row
  | .linkIdentities _ _ | .linkVerified _ _ => True

instance (state : Identities) (call : Call) : Decidable (state.JoinsOnStrong call) := by
  cases call <;> unfold JoinsOnStrong <;> infer_instance

/-- Claims with strong digests are in one identity only if a chain of shared ones connects
them. -/
def StronglyJoined (state : Identities) : Prop :=
  ∀ claim ∈ state.claims, ∀ other ∈ state.claims, claim.tuple.hasStrong = true →
    other.tuple.hasStrong = true → claim.identityId = other.identityId →
      state.Chained claim.tuple other.tuple

theorem tuples_unifyRow (state : Identities) (order : RowOrder) (tuple : Tuple) :
    (state.unifyRow order tuple).tuples = state.tuples ++ [tuple] := by
  rcases joined_cases state order tuple with ⟨hnone, _⟩ | ⟨_, hstrength, hnil⟩ |
    ⟨kept, losers, hjoined⟩
  · rw [unifyRow_none hnone]
    simp [tuples]
  · rw [unifyRow_mint hstrength hnil]
    simp [tuples]
  · rw [tuples, claims_merge hjoined]
    simp [tuples, Function.comp_def, moved_tuple]

theorem Chained.unifyRow {a b : Tuple} (hchain : state.Chained a b) (order : RowOrder)
    (tuple : Tuple) : (state.unifyRow order tuple).Chained a b := by
  have hlinked : ∀ c d, state.Linked c d → (state.unifyRow order tuple).Linked c d := by
    intro c d hlink
    rw [Linked, tuples_unifyRow]
    exact ⟨List.mem_append_left _ hlink.1, List.mem_append_left _ hlink.2.1, hlink.2.2⟩
  exact Relation.ReflTransGen.mono hlinked _ _ hchain

theorem Chained.symm {a b : Tuple} (hchain : state.Chained a b) : state.Chained b a := by
  induction hchain with
  | refl => exact Relation.ReflTransGen.refl
  | tail _ hlink ih => exact ih.head ⟨hlink.2.1, hlink.1, hlink.2.2.symm⟩

theorem mem_tuples_unifyRow (state : Identities) (order : RowOrder) (tuple : Tuple) :
    tuple ∈ (state.unifyRow order tuple).tuples := by
  rw [tuples_unifyRow]
  exact List.mem_append_right _ List.mem_cons_self

section

variable (hunified : state.Unified)

include hunified

/-- The identity of a claim with a strong digest has it too. -/
theorem Unified.hasStrong_of_claim {claim : HashClaim} (hclaim : claim ∈ state.claims)
    (hstrong : claim.tuple.hasStrong = true) :
    ∃ row ∈ state.identities, claim.identityId = some row.identityId ∧
      row.tuple.hasStrong = true := by
  obtain ⟨row, hrow, hid⟩ :=
    hunified.attached claim hclaim (Tuple.strength_of_hasStrong hstrong)
  obtain ⟨col, hcol, x, hx⟩ := Tuple.hasStrong_iff.mp hstrong
  exact ⟨row, hrow, hid, Tuple.hasStrong_iff.mpr ⟨col, hcol, x,
    (hunified.union row hrow col x).mpr ⟨_, ⟨claim, hclaim, hid, rfl⟩, hx⟩⟩⟩

/-- The digest a tuple shares with an identity is that of one of its claims, which leads to
the others. -/
theorem chained_of_shares (hold : state.StronglyJoined) {row : Identity}
    (hrow : row ∈ state.identities) (hshares : tuple.SharesStrong row.tuple) {claim : HashClaim}
    (hclaim : claim ∈ state.claims) (hid : claim.identityId = some row.identityId)
    (hstrong : claim.tuple.hasStrong = true) :
    (state.unifyRow order tuple).Chained tuple claim.tuple := by
  obtain ⟨_, ⟨found, hfound, hfoundId, rfl⟩, hpart⟩ :=
    (hunified.union row hrow).shares_part hshares
  have hchain : state.Chained found.tuple claim.tuple :=
    hold found hfound claim hclaim (Tuple.hasStrong_of_shares hpart) hstrong
      (hfoundId.trans hid.symm)
  refine (hchain.unifyRow order tuple).head ⟨mem_tuples_unifyRow state order tuple, ?_, hpart⟩
  rw [tuples_unifyRow]
  exact List.mem_append_left _ (List.mem_map_of_mem hfound)

/-- A claim that a merge leaves at the survivor belonged to what was joined. -/
theorem joined_of_moved (hjoined : state.joined order tuple = kept :: losers) {claim : HashClaim}
    (hclaim : claim ∈ state.claims) (hstrong : claim.tuple.hasStrong = true)
    (hid : (moved kept.identityId losers claim).identityId = some kept.identityId) :
    ∃ row ∈ kept :: losers, claim.identityId = some row.identityId ∧
      row.tuple.hasStrong = true := by
  obtain ⟨row, hrow, hrowId, hrowStrong⟩ := hunified.hasStrong_of_claim hclaim hstrong
  rcases (moved_identityId (losers_ne_kept hjoined)).mp hid with ⟨_, hkept | ⟨loser, hloser, heq⟩⟩ |
    ⟨hne, _⟩
  · have hsame := eq_of_identityId hrow (joined_mem hjoined List.mem_cons_self)
      (Option.some.inj (hrowId.symm.trans hkept))
    exact ⟨kept, List.mem_cons_self, hkept, hsame ▸ hrowStrong⟩
  · have hmem := List.mem_cons_of_mem kept hloser
    have hsame := eq_of_identityId hrow (joined_mem hjoined hmem)
      (Option.some.inj (hrowId.symm.trans heq))
    exact ⟨loser, hmem, heq, hsame ▸ hrowStrong⟩
  · exact absurd rfl hne

theorem stronglyJoined_merge (hold : state.StronglyJoined)
    (hjoins : state.JoinsOnStrong (.unify order tuple))
    (hjoined : state.joined order tuple = kept :: losers) :
    (state.unifyRow order tuple).StronglyJoined := by
  have hjoins : ∀ row ∈ kept :: losers, row.tuple.hasStrong = true →
      if tuple.hasStrong then tuple.SharesStrong row.tuple
      else ∀ other ∈ kept :: losers, other.tuple.hasStrong = true → other = row := by
    rw [← hjoined]
    exact hjoins
  -- With a strong digest of its own, the new claim leads to every claim it now sits with.
  have hnew : tuple.hasStrong = true → ∀ claim ∈ state.claims, claim.tuple.hasStrong = true →
      (moved kept.identityId losers claim).identityId = some kept.identityId →
        (state.unifyRow order tuple).Chained tuple claim.tuple := by
    intro htuple claim hclaim hstrong hid
    obtain ⟨row, hrow, hrowId, hrowStrong⟩ := joined_of_moved hunified hjoined hclaim hstrong hid
    have hshares := hjoins row hrow hrowStrong
    rw [if_pos htuple] at hshares
    exact chained_of_shares hunified hold (joined_mem hjoined hrow) hshares hclaim hrowId hstrong
  have holds : ∀ claim ∈ state.claims, ∀ other ∈ state.claims, claim.tuple.hasStrong = true →
      other.tuple.hasStrong = true → (moved kept.identityId losers claim).identityId =
        (moved kept.identityId losers other).identityId →
          (state.unifyRow order tuple).Chained claim.tuple other.tuple := by
    intro claim hclaim other hother hstrong hotherStrong hid
    by_cases hsame : claim.identityId = other.identityId
    · exact (hold claim hclaim other hother hstrong hotherStrong hsame).unifyRow order tuple
    · -- They were apart, so both have come to the survivor.
      have hkept : (moved kept.identityId losers claim).identityId = some kept.identityId := by
        rcases moved_or_same kept.identityId losers claim with hmoved | hstays
        · exact hmoved
        · rcases moved_or_same kept.identityId losers other with hmoved' | hstays'
          · exact hid.trans hmoved'
          · rw [hstays, hstays'] at hid
            exact absurd hid hsame
      have hotherKept := hid.symm.trans hkept
      by_cases htuple : tuple.hasStrong = true
      · exact (hnew htuple claim hclaim hstrong hkept).symm.trans
          (hnew htuple other hother hotherStrong hotherKept)
      · obtain ⟨row, hrow, hrowId, hrowStrong⟩ :=
          joined_of_moved hunified hjoined hclaim hstrong hkept
        obtain ⟨row', hrow', hrowId', hrowStrong'⟩ :=
          joined_of_moved hunified hjoined hother hotherStrong hotherKept
        have hone := hjoins row hrow hrowStrong
        rw [if_neg htuple] at hone
        rw [hrowId, hrowId', hone row' hrow' hrowStrong'] at hsame
        exact absurd rfl hsame
  intro claim hclaim other hother hstrong hotherStrong hid
  rw [claims_merge hjoined] at hclaim hother
  rcases List.mem_append.mp hclaim with hmem | hmem
  · obtain ⟨old, hold, rfl⟩ := List.mem_map.mp hmem
    rw [moved_tuple] at hstrong ⊢
    rcases List.mem_append.mp hother with hmem' | hmem'
    · obtain ⟨old', hold', rfl⟩ := List.mem_map.mp hmem'
      rw [moved_tuple] at hotherStrong ⊢
      exact holds old hold old' hold' hstrong hotherStrong hid
    · rw [List.mem_singleton.mp hmem'] at hid hotherStrong ⊢
      exact (hnew hotherStrong old hold hstrong hid).symm
  · rw [List.mem_singleton.mp hmem] at hid hstrong ⊢
    rcases List.mem_append.mp hother with hmem' | hmem'
    · obtain ⟨old', hold', rfl⟩ := List.mem_map.mp hmem'
      rw [moved_tuple] at hotherStrong ⊢
      exact hnew hstrong old' hold' hotherStrong hid.symm
    · rw [List.mem_singleton.mp hmem']
      exact Relation.ReflTransGen.refl

/-- A claim that joins nothing adds no pair. -/
theorem stronglyJoined_alone (hold : state.StronglyJoined) {identityId : Option Nat}
    (hclaims : (state.unifyRow order tuple).claims = state.claims ++ [⟨tuple, identityId⟩])
    (hfresh : ∀ row ∈ state.identities, identityId ≠ some row.identityId) :
    (state.unifyRow order tuple).StronglyJoined := by
  have hapart : ∀ claim ∈ state.claims, claim.tuple.hasStrong = true →
      claim.identityId ≠ identityId := by
    intro claim hclaim hstrong hid
    obtain ⟨row, hrow, hrowId, _⟩ := hunified.hasStrong_of_claim hclaim hstrong
    exact hfresh row hrow (hid.symm.trans hrowId)
  intro claim hclaim other hother hstrong hotherStrong hid
  rw [hclaims] at hclaim hother
  rcases List.mem_append.mp hclaim with hmem | hmem
  · rcases List.mem_append.mp hother with hmem' | hmem'
    · exact (hold claim hmem other hmem' hstrong hotherStrong hid).unifyRow order tuple
    · rw [List.mem_singleton.mp hmem'] at hid
      exact absurd hid (hapart claim hmem hstrong)
  · rcases List.mem_append.mp hother with hmem' | hmem'
    · rw [List.mem_singleton.mp hmem] at hid
      exact absurd hid.symm (hapart other hmem' hotherStrong)
    · rw [List.mem_singleton.mp hmem, List.mem_singleton.mp hmem']
      exact Relation.ReflTransGen.refl

theorem StronglyJoined.unifyRow (hold : state.StronglyJoined)
    (hjoins : state.JoinsOnStrong (.unify order tuple)) :
    (state.unifyRow order tuple).StronglyJoined := by
  rcases joined_cases state order tuple with ⟨hnone, _⟩ | ⟨_, hstrength, hnil⟩ |
    ⟨_, _, hjoined⟩
  · apply stronglyJoined_alone hunified hold
    · rw [unifyRow_none hnone]
    · intro row _ heq
      cases heq
  · apply stronglyJoined_alone hunified hold
    · rw [unifyRow_mint hstrength hnil]
    · intro row hrow heq
      exact identityId_ne_nextId hrow (Option.some.inj heq).symm
  · exact stronglyJoined_merge hunified hold hjoins hjoined

end

/-- Linking leaves the claims alone. -/
theorem claims_linkIdentity (state : Identities) (aliases : Aliases) (identityId : Nat) :
    (state.linkIdentity aliases identityId).claims = state.claims := by
  unfold linkIdentity
  split
  · rfl
  · split
    · rfl
    · split <;> rfl

theorem claims_linkIdentitiesToBlobs (state : Identities) (aliases : Aliases)
    (identityIds : List Nat) :
    (state.linkIdentitiesToBlobs aliases identityIds).claims = state.claims := by
  induction identityIds generalizing state with
  | nil => rfl
  | cons identityId identityIds ih =>
    exact (ih (state.linkIdentity aliases identityId)).trans
      (claims_linkIdentity state aliases identityId)

theorem StronglyJoined.of_claims {state' : Identities} (hold : state.StronglyJoined)
    (hclaims : state'.claims = state.claims) : state'.StronglyJoined := by
  unfold StronglyJoined Chained Linked tuples at hold ⊢
  rw [hclaims]
  exact hold

theorem StronglyJoined.apply (hunified : state.Unified) (hold : state.StronglyJoined)
    {call : Call} (hjoins : state.JoinsOnStrong call) : (state.apply call).StronglyJoined := by
  cases call with
  | unify order tuple => exact StronglyJoined.unifyRow hunified hold hjoins
  | linkIdentities aliases identityIds =>
    exact hold.of_claims (claims_linkIdentitiesToBlobs state aliases identityIds)
  | linkVerified blobId sha1 => exact hold.of_claims rfl

theorem StronglyJoined.run (hunified : state.Unified) (hold : state.StronglyJoined)
    {calls : List Call} (hjoins : state.Along JoinsOnStrong calls) :
    (state.run calls).StronglyJoined := by
  induction calls generalizing state with
  | nil => exact hold
  | cons call calls ih =>
    exact ih (hunified.apply call) (StronglyJoined.apply hunified hold hjoins.1) hjoins.2

/-- As long as crc32 and size never bring two identities with strong digests together, claims
with such digests share an identity only through a chain of shared digests. -/
theorem strong_claims_chained (calls : List Call)
    (hjoins : empty.Along JoinsOnStrong calls) : (empty.run calls).StronglyJoined :=
  StronglyJoined.run unified_empty (List.forall_mem_nil _) hjoins

def byMd5 : Tuple := { md5 := some (List.replicate 16 5) }

def bySha1 : Tuple := { sha1 := some (List.replicate 20 7) }

def byBoth : Tuple := byMd5.absorb bySha1

theorem strong_claims_chained_bridge :
    (empty.run [.unify .asStored byMd5, .unify .asStored bySha1,
      .unify .asStored byBoth]).StronglyJoined :=
  strong_claims_chained _ (by decide +kernel)

def dumpByMd5 : Tuple := { byMd5 with size := some 4, crc32 := some [1, 2, 3, 4] }

def dumpBySha1 : Tuple := { bySha1 with size := some 4, crc32 := some [1, 2, 3, 4] }

/-- A dump known by its md5 and another known by its sha1 become one content for having the
same crc32 and size. -/
theorem weak_evidence_joins : ¬ ∀ calls : List Call, (empty.run calls).StronglyJoined := by
  intro hall
  have hchain := hall [.unify .asStored dumpByMd5, .unify .asStored dumpBySha1]
    ⟨dumpByMd5, some 1⟩ (by decide +kernel) ⟨dumpBySha1, some 1⟩ (by decide +kernel) rfl rfl rfl
  have htuples : (empty.run [.unify .asStored dumpByMd5, .unify .asStored dumpBySha1]).tuples =
      [dumpByMd5, dumpBySha1] := by
    decide +kernel
  have hstuck : ∀ tuple, (empty.run [.unify .asStored dumpByMd5,
      .unify .asStored dumpBySha1]).Chained dumpByMd5 tuple → tuple = dumpByMd5 := by
    intro tuple hreached
    induction hreached with
    | refl => rfl
    | tail _ hlink ih =>
      rw [Linked, htuples, ih] at hlink
      obtain ⟨_, hmem, hshares⟩ := hlink
      rcases List.mem_cons.mp hmem with heq | hmem
      · exact heq
      · rw [List.mem_singleton.mp hmem] at hshares
        exact absurd hshares (by decide)
  exact absurd (hstuck _ hchain) (by decide)

end Identities

end Datboi.Catalog
