import Mathlib.Data.List.Perm.Basic
import Mathlib.Order.Basic
import Mathlib.Order.Defs.LinearOrder
import Mathlib.Order.Lattice

/-!
# Binary min-heaps in place

A list in level order is a heap when no entry is below its parent. `siftDown` and
`siftUp` swap one entry along its path until the order is restored; they permute the
list, and a heap's head has the least key.
-/

namespace Heap

variable {α K : Type*} [Inhabited α] [LinearOrder K] (key : α → K)

/-- The entry at a position. -/
def look (q : List α) (i : Nat) : α := q[i]?.getD default

/-- The parent's position; the root is its own. -/
def parent (i : Nat) : Nat := (i - 1) / 2

/-- The child with the lesser key, the left one when they are level. -/
def lesserChild (q : List α) (curr : Nat) : Nat :=
  let left := curr * 2 + 1
  if left + 1 < q.length ∧ key (look q (left + 1)) < key (look q left) then left + 1 else left

/-- Sink the entry at `curr` below every smaller entry on its way. -/
def siftDown : Nat → List α → Nat → List α
  | 0, q, _ => q
  | fuel + 1, q, curr =>
    if q.length ≤ curr * 2 + 1 then q
    else if key (look q curr) ≤ key (look q (lesserChild key q curr)) then q
    else siftDown fuel (q.swap curr (lesserChild key q curr)) (lesserChild key q curr)

/-- Raise the entry at `curr` above every larger entry on its way. -/
def siftUp : Nat → List α → Nat → List α
  | 0, q, _ => q
  | fuel + 1, q, curr =>
    if curr = 0 then q
    else if key (look q (parent curr)) ≤ key (look q curr) then q
    else siftUp fuel (q.swap (parent curr) curr) (parent curr)

/-! ## Swapping -/

omit [Inhabited α] in
@[simp] theorem length_swap (q : List α) (i j : Nat) : (q.swap i j).length = q.length :=
  (List.swap_perm q i j).length_eq

variable {q : List α} {i hole : Nat}

theorem look_swap {j : Nat} (hi : i < q.length) (hj : j < q.length) (k : Nat) :
    look (q.swap i j) k = if k = j then look q i else if k = i then look q j else look q k := by
  rw [List.swap_eq_of_lt hi hj]
  unfold look
  by_cases hkj : k = j
  · subst hkj
    simp [hj, hi]
  · by_cases hki : k = i
    · subst hki
      simp [List.getElem?_set_ne (Ne.symm hkj), List.getElem?_set_self hi, hkj, hj]
    · simp [List.getElem?_set_ne (Ne.symm hkj), List.getElem?_set_ne (Ne.symm hki), hkj, hki]

theorem siftDown_perm (fuel : Nat) (q : List α) (curr : Nat) : (siftDown key fuel q curr).Perm q := by
  induction fuel generalizing q curr with
  | zero => exact List.Perm.refl q
  | succ fuel ih =>
    unfold siftDown
    split
    · exact List.Perm.refl q
    · split
      · exact List.Perm.refl q
      · exact (ih _ _).trans (List.swap_perm q _ _)

theorem siftUp_perm (fuel : Nat) (q : List α) (curr : Nat) : (siftUp key fuel q curr).Perm q := by
  induction fuel generalizing q curr with
  | zero => exact List.Perm.refl q
  | succ fuel ih =>
    unfold siftUp
    split
    · exact List.Perm.refl q
    · split
      · exact List.Perm.refl q
      · exact (ih _ _).trans (List.swap_perm q _ _)

/-! ## Order -/

/-- No entry is below its parent. -/
def Ordered (q : List α) : Prop :=
  ∀ i, 0 < i → i < q.length → key (look q (parent i)) ≤ key (look q i)

/-- Ordered except between `hole` and its children, which are all above the hole's
parent. -/
structure DownOrdered (q : List α) (hole : Nat) : Prop where
  others : ∀ i, 0 < i → i < q.length → parent i ≠ hole → key (look q (parent i)) ≤ key (look q i)
  across : 0 < hole → ∀ i, 0 < i → i < q.length → parent i = hole →
    key (look q (parent hole)) ≤ key (look q i)

/-- Ordered except between `hole` and its parent, which is below all of the hole's
children. -/
structure UpOrdered (q : List α) (hole : Nat) : Prop where
  others : ∀ i, 0 < i → i < q.length → i ≠ hole → key (look q (parent i)) ≤ key (look q i)
  across : 0 < hole → ∀ i, 0 < i → i < q.length → parent i = hole →
    key (look q (parent hole)) ≤ key (look q i)

variable {key}

theorem Ordered.head_le (hordered : Ordered key q) (hi : i < q.length) :
    key (look q 0) ≤ key (look q i) := by
  induction i using Nat.strongRecOn with
  | ind i ih =>
    rcases Nat.eq_zero_or_pos i with rfl | hpos
    · exact le_rfl
    · have hparent : parent i < i := by
        unfold parent
        omega
      exact (ih (parent i) hparent (by omega)).trans (hordered i hpos hi)

/-- One swap of a sinking entry. -/
theorem DownOrdered.swap {child : Nat} (hdown : DownOrdered key q hole)
    (hchild : child < q.length) (hparent : parent child = hole) (hpos : 0 < child)
    (hleast : ∀ i, 0 < i → i < q.length → parent i = hole → key (look q child) ≤ key (look q i))
    (hbelow : key (look q child) < key (look q hole)) :
    DownOrdered key (q.swap hole child) child := by
  have hlt : hole < child := by
    unfold parent at hparent
    omega
  have hhole : hole < q.length := by omega
  constructor
  · intro i hi hilen hiparent
    rw [length_swap] at hilen
    rw [look_swap hhole hchild, look_swap hhole hchild, if_neg hiparent]
    by_cases hic : i = child
    · subst hic
      rw [if_pos rfl, if_pos hparent]
      exact hbelow.le
    · rw [if_neg hic]
      by_cases hih : i = hole
      · subst hih
        have hne : parent i ≠ i := by
          unfold parent
          omega
        rw [if_pos rfl, if_neg hne]
        exact hdown.across hi child hpos hchild hparent
      · rw [if_neg hih]
        by_cases hsibling : parent i = hole
        · rw [if_pos hsibling]
          exact hleast i hi hilen hsibling
        · rw [if_neg hsibling]
          exact hdown.others i hi hilen hsibling
  · intro _ i hi hilen hiparent
    rw [length_swap] at hilen
    have hgrand : child < i := by
      unfold parent at hiparent
      omega
    rw [look_swap hhole hchild, look_swap hhole hchild, hparent, if_neg (by omega), if_pos rfl,
      if_neg (by omega), if_neg (by omega)]
    have hstep := hdown.others i hi hilen (by omega)
    rwa [hiparent] at hstep

variable (key) in
theorem lesserChild_spec (hinner : hole * 2 + 1 < q.length) :
    lesserChild key q hole < q.length ∧ parent (lesserChild key q hole) = hole ∧
      hole < lesserChild key q hole ∧
      ∀ i, 0 < i → i < q.length → parent i = hole →
        key (look q (lesserChild key q hole)) ≤ key (look q i) := by
  unfold lesserChild parent
  simp only
  split
  · rename_i hright
    refine ⟨hright.1, by omega, by omega, fun i hi hilen hiparent => ?_⟩
    rcases (by omega : i = hole * 2 + 1 ∨ i = hole * 2 + 1 + 1) with rfl | rfl
    · exact hright.2.le
    · exact le_rfl
  · rename_i hright
    refine ⟨hinner, by omega, by omega, fun i hi hilen hiparent => ?_⟩
    rcases (by omega : i = hole * 2 + 1 ∨ i = hole * 2 + 1 + 1) with rfl | rfl
    · exact le_rfl
    · exact not_lt.mp fun hlt => hright ⟨hilen, hlt⟩

theorem siftDown_ordered (fuel : Nat) (hdown : DownOrdered key q hole)
    (hfuel : q.length ≤ fuel + hole) : Ordered key (siftDown key fuel q hole) := by
  have hleaf : q.length ≤ hole * 2 + 1 → Ordered key q := by
    intro hleaf i hi hilen
    refine hdown.others i hi hilen ?_
    unfold parent
    omega
  induction fuel generalizing q hole with
  | zero => exact hleaf (by omega)
  | succ fuel ih =>
    unfold siftDown
    split
    · rename_i hend
      exact hleaf hend
    · rename_i hinner
      obtain ⟨hchild, hparent, hgrow, hleast⟩ := lesserChild_spec key (Nat.lt_of_not_le hinner)
      split
      · rename_i hstop
        intro i hi hilen
        by_cases hiparent : parent i = hole
        · rw [hiparent]
          exact hstop.trans (hleast i hi hilen hiparent)
        · exact hdown.others i hi hilen hiparent
      · rename_i hgo
        have hswap := hdown.swap hchild hparent (by omega) hleast (not_le.mp hgo)
        refine ih hswap (by rw [length_swap]; omega) ?_
        intro hend i hi hilen
        refine hswap.others i hi hilen ?_
        unfold parent
        rw [length_swap] at hend hilen
        omega

/-- One swap of a rising entry. -/
theorem UpOrdered.swap (hup : UpOrdered key q hole) (hpos : 0 < hole) (hhole : hole < q.length)
    (habove : key (look q hole) < key (look q (parent hole))) :
    UpOrdered key (q.swap (parent hole) hole) (parent hole) := by
  have hlt : parent hole < hole := by
    unfold parent
    omega
  have hplen : parent hole < q.length := by omega
  constructor
  · intro i hi hilen hine
    rw [length_swap] at hilen
    rw [look_swap hplen hhole, look_swap hplen hhole]
    by_cases hih : i = hole
    · subst hih
      rw [if_neg (by omega), if_pos rfl, if_pos rfl]
      exact habove.le
    · rw [if_neg hih, if_neg hine]
      by_cases hchild : parent i = hole
      · rw [if_pos hchild]
        exact hup.across hpos i hi hilen hchild
      · rw [if_neg hchild]
        have hstep := hup.others i hi hilen hih
        by_cases hsibling : parent i = parent hole
        · rw [if_pos hsibling]
          rw [hsibling] at hstep
          exact habove.le.trans hstep
        · rwa [if_neg hsibling]
  · intro hgrand i hi hilen hiparent
    rw [length_swap] at hilen
    have hgp : parent (parent hole) < parent hole := by
      unfold parent at hgrand ⊢
      omega
    rw [look_swap hplen hhole, look_swap hplen hhole, if_neg (by omega), if_neg (by omega)]
    have hchain := hup.others (parent hole) hgrand hplen (by omega)
    by_cases hih : i = hole
    · rw [if_pos hih]
      exact hchain
    · have hne : i ≠ parent hole := by
        unfold parent at hiparent ⊢
        omega
      rw [if_neg hih, if_neg hne]
      have hstep := hup.others i hi hilen hih
      rw [hiparent] at hstep
      exact hchain.trans hstep

theorem siftUp_ordered (fuel : Nat) (hup : UpOrdered key q hole) (hhole : hole < q.length)
    (hfuel : hole ≤ fuel) : Ordered key (siftUp key fuel q hole) := by
  induction fuel generalizing q hole with
  | zero =>
    intro i hi hilen
    exact hup.others i hi hilen (by omega)
  | succ fuel ih =>
    unfold siftUp
    split
    · rename_i hroot
      intro i hi hilen
      exact hup.others i hi hilen (by omega)
    · rename_i hinner
      have hlt : parent hole < hole := by
        unfold parent
        omega
      split
      · rename_i hstop
        intro i hi hilen
        by_cases hih : i = hole
        · rw [hih]
          exact hstop
        · exact hup.others i hi hilen hih
      · rename_i hgo
        exact ih (hup.swap (by omega) hhole (not_le.mp hgo)) (by rw [length_swap]; omega)
          (by omega)

/-! ## Pushing an entry and replacing the head -/

theorem look_append_left (hi : i < q.length) (r : List α) : look (q ++ r) i = look q i := by
  unfold look
  rw [List.getElem?_append_left hi]

@[simp] theorem look_append_length (q : List α) (x : α) : look (q ++ [x]) q.length = x := by
  simp [look]

theorem look_set_self (hi : i < q.length) (x : α) : look (q.set i x) i = x := by
  simp [look, hi]

theorem look_set_ne {j : Nat} (hij : i ≠ j) (x : α) : look (q.set i x) j = look q j := by
  simp [look, List.getElem?_set_ne hij]

theorem look_mem (hi : i < q.length) : look q i ∈ q := by
  simp [look, hi]

theorem exists_look_of_mem {x : α} (hx : x ∈ q) : ∃ i < q.length, look q i = x := by
  obtain ⟨i, hi, rfl⟩ := List.mem_iff_getElem.mp hx
  exact ⟨i, hi, by simp [look, hi]⟩

theorem map_look_range (q : List α) : (List.range q.length).map (look q) = q := by
  refine List.ext_getElem (by simp) fun i hi _ => ?_
  rw [List.length_map, List.length_range] at hi
  simp [look, hi]

/-- Raising an entry pushed at the end gives a heap again. -/
theorem Ordered.push (hordered : Ordered key q) (x : α) :
    Ordered key (siftUp key q.length (q ++ [x]) q.length) := by
  refine siftUp_ordered q.length ⟨?_, ?_⟩ (by simp) (Nat.le_refl _)
  · intro i hi hilen hine
    have hlt : i < q.length := by
      rw [List.length_append, List.length_singleton] at hilen
      omega
    have hparent : parent i < q.length := by
      unfold parent
      omega
    rw [look_append_left hlt, look_append_left hparent]
    exact hordered i hi hlt
  · intro _ i hi hilen hiparent
    rw [List.length_append, List.length_singleton] at hilen
    unfold parent at hiparent
    omega

/-- Sinking a replaced head gives a heap again. -/
theorem Ordered.replaceHead (hordered : Ordered key q) (x : α) :
    Ordered key (siftDown key q.length (q.set 0 x) 0) := by
  refine siftDown_ordered q.length ⟨?_, ?_⟩ (by simp)
  · intro i hi hilen hiparent
    rw [List.length_set] at hilen
    rw [look_set_ne (Ne.symm hiparent), look_set_ne (by omega)]
    exact hordered i hi hilen
  · intro hpos
    exact absurd hpos (Nat.lt_irrefl 0)

end Heap
