import Mathlib.Data.List.Basic
import Mathlib.Data.List.Count
import Mathlib.Algebra.Order.Group.Nat

/-!
# Sorting into buckets by counting

One pass counts the items of each bucket, a pass over the counts turns them into the
ends of the buckets' ranges, and a second pass over the items puts each at the end of
what is left of its range. Afterwards a bucket's range starts at its count and ends
where the next one starts. An index out of range, or a count below zero, is `none`.
-/

namespace BucketSort

variable {ι σ : Type} {n m : Nat}

/-- `counts[j] += 1` -/
def bump (counts : Vector Nat n) (j : Nat) : Option (Vector Nat n) := do
  let c ← counts[j]?
  return counts.setIfInBounds j (c + 1)

/-- `counts[j] += counts[j - 1]` -/
def accumulate (counts : Vector Nat n) (j : Nat) : Option (Vector Nat n) := do
  let c ← counts[j]?
  let before ← counts[j - 1]?
  return counts.setIfInBounds j (c + before)

/-- `counts[j] -= 1`, and the value goes to that slot. The number of slots is a power of
two, so that the index can be masked. -/
def place (tables : Vector Nat n × Vector σ m) (j : Nat) (value : σ) :
    Option (Vector Nat n × Vector σ m) := do
  let c ← tables.1[j]?
  if c = 0 then none
  else
    let slot := (c - 1) % m
    if slot < m then
      return (tables.1.setIfInBounds j (c - 1), tables.2.setIfInBounds slot value)
    else none

/-- How many items lie in the buckets below `j`. -/
def start (bucket : ι → Nat) (items : List ι) (j : Nat) : Nat :=
  items.countP fun x => bucket x < j

theorem start_succ (bucket : ι → Nat) (items : List ι) (j : Nat) :
    start bucket items (j + 1) = start bucket items j + items.countP fun x => bucket x = j := by
  induction items with
  | nil => rfl
  | cons x items ih =>
    have hsplit : (if bucket x < j + 1 then 1 else 0) =
        (if bucket x < j then 1 else 0) + if bucket x = j then 1 else 0 := by
      split_ifs <;> omega
    simp only [start, List.countP_cons, decide_eq_true_eq] at ih ⊢
    rw [ih, hsplit]
    omega

theorem start_mono (bucket : ι → Nat) (items : List ι) {i j : Nat} (hij : i ≤ j) :
    start bucket items i ≤ start bucket items j :=
  List.countP_mono_left fun x _ hx => by
    simp only [decide_eq_true_eq] at hx ⊢
    omega

theorem start_le_length (bucket : ι → Nat) (items : List ι) (j : Nat) :
    start bucket items j ≤ items.length := List.countP_le_length

variable {bucket : ι → Nat} {items : List ι}

/-- Every bucket lies below the number of buckets. -/
theorem start_eq_length {k : Nat} (hbucket : ∀ x ∈ items, bucket x < k) :
    start bucket items k = items.length :=
  List.countP_eq_length.mpr fun x hx => decide_eq_true (hbucket x hx)

@[simp] theorem start_zero (bucket : ι → Nat) (items : List ι) : start bucket items 0 = 0 := by
  simp [start]

/-! ## The passes over the items and over the counts -/

/-- Counting adds to each bucket how many items it has. -/
theorem bump_foldlM (counts : Vector Nat n) (hbucket : ∀ x ∈ items, bucket x < n) :
    ∃ after, items.foldlM (fun counts x => bump counts (bucket x)) counts = some after ∧
      ∀ j (hj : j < n), after[j] = counts[j] + items.countP fun x => bucket x = j := by
  induction items generalizing counts with
  | nil => exact ⟨counts, rfl, fun j hj => rfl⟩
  | cons x items ih =>
    have hx : bucket x < n := hbucket x (List.mem_cons_self ..)
    obtain ⟨after, hafter, hcounts⟩ := ih
      (counts.setIfInBounds (bucket x) (counts[bucket x] + 1))
      fun y hy => hbucket y (List.mem_cons_of_mem x hy)
    refine ⟨after, ?_, fun j hj => ?_⟩
    · rw [List.foldlM_cons, bump, Vector.getElem?_eq_getElem hx]
      exact hafter
    · rw [hcounts j hj, Vector.getElem_setIfInBounds hj, List.countP_cons]
      by_cases heq : bucket x = j
      · subst heq
        simp
        omega
      · simp [heq]

/-- Accumulating turns the counts into the buckets' ends. -/
theorem accumulate_foldlM {k : Nat} (counts : Vector Nat n) (hk : k < n)
    (hcounts : ∀ j (hj : j < n), j ≤ k →
      counts[j] = items.countP fun x => bucket x = j) :
    ∃ after, (List.range' 1 k).foldlM accumulate counts = some after ∧
      ∀ j (hj : j < n), j ≤ k → after[j] = start bucket items (j + 1) := by
  -- The first `done` counts are ends, the others are still counts.
  have hprefix : ∀ done ≤ k, ∃ after, (List.range' 1 done).foldlM accumulate counts = some after ∧
      (∀ j (hj : j < n), j ≤ done → after[j] = start bucket items (j + 1)) ∧
      ∀ j (hj : j < n), done < j → after[j] = counts[j] := by
    intro done hdone
    induction done with
    | zero =>
      refine ⟨counts, rfl, fun j hj hle => ?_, fun j hj _ => rfl⟩
      obtain rfl : j = 0 := by omega
      rw [hcounts 0 hj (by omega), start_succ, start_zero, Nat.zero_add]
    | succ done ih =>
      obtain ⟨middle, hmiddle, hends, hrest⟩ := ih (by omega)
      have hlt : done + 1 < n := by omega
      refine ⟨middle.setIfInBounds (done + 1) (middle[done + 1] + middle[done]), ?_, ?_, ?_⟩
      · rw [List.range'_1_concat, List.foldlM_append, hmiddle]
        have hone : 1 + done = done + 1 := Nat.add_comm 1 done
        simp only [Option.bind_eq_bind, Option.bind_some, List.foldlM_cons, List.foldlM_nil, hone,
          accumulate, Vector.getElem?_eq_getElem hlt, Nat.add_sub_cancel,
          Vector.getElem?_eq_getElem (Nat.lt_of_succ_lt hlt)]
        rfl
      · intro j hj hle
        rw [Vector.getElem_setIfInBounds hj]
        by_cases heq : done + 1 = j
        · subst heq
          rw [if_pos rfl, hends done (by omega) (Nat.le_refl _), hrest (done + 1) hj (by omega),
            hcounts (done + 1) hj (by omega), start_succ _ _ (done + 1), Nat.add_comm]
        · rw [if_neg heq]
          exact hends j hj (by omega)
      · intro j hj hlt'
        rw [Vector.getElem_setIfInBounds hj, if_neg (by omega)]
        exact hrest j hj (by omega)
  obtain ⟨after, hafter, hends, -⟩ := hprefix k (Nat.le_refl _)
  exact ⟨after, hafter, hends⟩

/-- Each bucket has taken the items done so far into the end of its range. -/
structure Placed (bucket : ι → Nat) (value : ι → σ) (items done todo : List ι) (k : Nat)
    (tables : Vector Nat n × Vector σ m) : Prop where
  lt : k < n
  counts : ∀ j (hj : j < n), j < k →
    tables.1[j] = start bucket items j + todo.countP fun x => bucket x = j
  last : tables.1[k] = items.length
  slots : ∀ x ∈ done, ∃ s, ∃ hs : s < m,
    start bucket items (bucket x) + (todo.countP fun y => bucket y = bucket x) ≤ s ∧
      s < start bucket items (bucket x + 1) ∧ tables.2[s] = value x

theorem Placed.step {bucket : ι → Nat} {value : ι → σ} {items done todo : List ι} {x : ι} {k : Nat}
    {tables : Vector Nat n × Vector σ m}
    (hplaced : Placed bucket value items done (x :: todo) k tables)
    (hall : items = done ++ x :: todo) (hbucket : ∀ y ∈ items, bucket y < k)
    (hroom : items.length ≤ m) :
    ∃ after, place tables (bucket x) (value x) = some after ∧
      Placed bucket value items (done ++ [x]) todo k after := by
  have hx : bucket x < k := hbucket x (by simp [hall])
  have hlt := hplaced.lt
  have hxn : bucket x < n := by omega
  have hcount := hplaced.counts (bucket x) hxn hx
  rw [List.countP_cons] at hcount
  simp only [decide_true, if_true] at hcount
  -- The slot lies inside the bucket's range.
  have htodo : (todo.countP fun y => bucket y = bucket x) + 1 ≤
      items.countP fun y => bucket y = bucket x := by
    rw [hall, List.countP_append, List.countP_cons]
    simp
  have hsucc := start_succ bucket items (bucket x)
  have hend := start_le_length bucket items (bucket x + 1)
  have hmod : (tables.1[bucket x] - 1) % m = tables.1[bucket x] - 1 :=
    Nat.mod_eq_of_lt (by omega)
  have hslot : tables.1[bucket x] - 1 < m := by omega
  refine ⟨(tables.1.setIfInBounds (bucket x) (tables.1[bucket x] - 1),
    tables.2.setIfInBounds (tables.1[bucket x] - 1) (value x)), ?_, ?_⟩
  · rw [place, Vector.getElem?_eq_getElem hxn]
    simp only [Option.bind_eq_bind, Option.bind_some]
    rw [if_neg (by omega), hmod, if_pos hslot]
    rfl
  · refine ⟨hlt, fun j hj hjk => ?_, ?_, fun y hy => ?_⟩
    · rw [Vector.getElem_setIfInBounds hj]
      by_cases heq : bucket x = j
      · subst heq
        rw [if_pos rfl]
        omega
      · rw [if_neg heq, hplaced.counts j hj hjk, List.countP_cons]
        simp [heq]
    · rw [Vector.getElem_setIfInBounds hlt, if_neg (by omega)]
      exact hplaced.last
    · rcases List.mem_append.mp hy with hdone | hlast
      · obtain ⟨s, hs, hlow, hhigh, hvalue⟩ := hplaced.slots y hdone
        rw [List.countP_cons] at hlow
        have hne : tables.1[bucket x] - 1 ≠ s := by
          intro heq
          rcases Nat.lt_trichotomy (bucket y) (bucket x) with hbefore | hsame | hafter
          · have hmono := @start_mono _ bucket items (bucket y + 1) (bucket x) hbefore
            omega
          · simp only [hsame, decide_true, if_true] at hlow
            omega
          · have hmono := @start_mono _ bucket items (bucket x + 1) (bucket y) hafter
            omega
        refine ⟨s, hs, by omega, hhigh, ?_⟩
        rw [Vector.getElem_setIfInBounds hs, if_neg hne]
        exact hvalue
      · obtain rfl := List.mem_singleton.mp hlast
        refine ⟨tables.1[bucket y] - 1, hslot, by omega, by omega, ?_⟩
        rw [Vector.getElem_setIfInBounds hslot, if_pos rfl]

/-- Placing every item: each one's slot is inside its bucket's range. -/
theorem place_foldlM {bucket : ι → Nat} {value : ι → σ} {items : List ι} {k : Nat}
    (tables : Vector Nat n × Vector σ m) (hk : k < n)
    (hcounts : ∀ j (hj : j < n), j < k → tables.1[j] = start bucket items (j + 1))
    (hlast : tables.1[k] = items.length) (hbucket : ∀ x ∈ items, bucket x < k)
    (hroom : items.length ≤ m) :
    ∃ after, items.foldlM (fun tables x => place tables (bucket x) (value x)) tables = some after ∧
      (∀ j (hj : j < n), j ≤ k → after.1[j] = start bucket items j) ∧
      ∀ x ∈ items, ∃ s, ∃ hs : s < m, start bucket items (bucket x) ≤ s ∧
        s < start bucket items (bucket x + 1) ∧ after.2[s] = value x := by
  have hrun : ∀ done todo, items = done ++ todo → ∀ tables : Vector Nat n × Vector σ m,
      Placed bucket value items done todo k tables →
      ∃ after, todo.foldlM (fun tables x => place tables (bucket x) (value x)) tables =
        some after ∧ Placed bucket value items items [] k after := by
    intro done todo
    induction todo generalizing done with
    | nil =>
      intro hall tables hplaced
      rw [List.append_nil] at hall
      exact ⟨tables, rfl, hall ▸ hplaced⟩
    | cons x todo ih =>
      intro hall tables hplaced
      obtain ⟨middle, hmiddle, hplacedMiddle⟩ := hplaced.step hall hbucket hroom
      obtain ⟨after, hafter, hplacedAfter⟩ := ih (done ++ [x]) (by simp [hall]) middle
        hplacedMiddle
      refine ⟨after, ?_, hplacedAfter⟩
      rw [List.foldlM_cons, hmiddle]
      exact hafter
  have hstart : Placed bucket value items [] items k tables := by
    refine ⟨hk, fun j hj hjk => ?_, hlast, fun x hx => absurd hx List.not_mem_nil⟩
    rw [hcounts j hj hjk, start_succ]
  obtain ⟨after, hafter, hplaced⟩ := hrun [] items rfl tables hstart
  refine ⟨after, hafter, fun j hj hjk => ?_, fun x hx => ?_⟩
  · rcases Nat.lt_or_eq_of_le hjk with hlt | rfl
    · simpa using hplaced.counts j hj hlt
    · rw [hplaced.last, start_eq_length hbucket]
  · simpa using hplaced.slots x hx

end BucketSort
