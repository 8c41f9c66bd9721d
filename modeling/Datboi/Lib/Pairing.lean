import Mathlib.Data.List.Nodup
import Mathlib.Data.List.Range

/-!
# Pairing two sequences by keys

Positions of two sequences carry keys, or none. Each position of the second sequence is paired
with the last position of the first that has its key, as a map collected from the first
answers. The result is a matching only where no two positions of the second sequence ask for
one key.
-/

namespace Pairing

variable {κ : Type*} [DecidableEq κ] {f g : Nat → Option κ} {n m i j : Nat} {k : κ}

/-- The last of the first `n` positions with this key. -/
def lastIndex (f : Nat → Option κ) : Nat → κ → Option Nat
  | 0, _ => none
  | n + 1, k => if f n = some k then some n else lastIndex f n k

theorem lastIndex_eq_none : lastIndex f n k = none ↔ ∀ i < n, f i ≠ some k := by
  induction n with
  | zero => simp [lastIndex]
  | succ n ih =>
    unfold lastIndex
    split
    · rename_i hlast
      constructor
      · intro hnone
        cases hnone
      · intro hall
        exact absurd hlast (hall n (Nat.lt_succ_self n))
    · rename_i hlast
      rw [ih]
      constructor
      · intro hall i hi
        rcases Nat.lt_succ_iff_lt_or_eq.mp hi with hlt | rfl
        · exact hall i hlt
        · exact hlast
      · exact fun hall i hi => hall i (Nat.lt_succ_of_lt hi)

theorem lastIndex_eq_some : lastIndex f n k = some i ↔
    i < n ∧ f i = some k ∧ ∀ later, i < later → later < n → f later ≠ some k := by
  induction n with
  | zero => simp [lastIndex]
  | succ n ih =>
    unfold lastIndex
    split
    · rename_i hlast
      constructor
      · intro heq
        cases heq
        exact ⟨Nat.lt_succ_self _, hlast, fun later hlt hle => by omega⟩
      · rintro ⟨hi, hkey, hlater⟩
        by_contra hne
        have hlt : i < n := Nat.lt_of_le_of_ne (Nat.le_of_lt_succ hi) fun heq => hne (by rw [heq])
        exact hlater n hlt (Nat.lt_succ_self n) hlast
    · rename_i hlast
      rw [ih]
      constructor
      · rintro ⟨hi, hkey, hlater⟩
        refine ⟨Nat.lt_succ_of_lt hi, hkey, fun later hlt hle => ?_⟩
        rcases Nat.lt_succ_iff_lt_or_eq.mp hle with hle | rfl
        · exact hlater later hlt hle
        · exact hlast
      · rintro ⟨hi, hkey, hlater⟩
        have hne : i ≠ n := fun heq => hlast (heq ▸ hkey)
        exact ⟨by omega, hkey, fun later hlt hle => hlater later hlt (Nat.lt_succ_of_lt hle)⟩

theorem exists_lastIndex (hi : i < n) (hkey : f i = some k) :
    ∃ last, lastIndex f n k = some last := by
  rw [← Option.ne_none_iff_exists', Ne, lastIndex_eq_none]
  exact fun hall => hall i hi hkey

/-- The pairs, in the order of the second sequence. -/
def pairUp (f : Nat → Option κ) (n : Nat) (g : Nat → Option κ) (m : Nat) : List (Nat × Nat) :=
  (List.range m).filterMap fun j => (g j).bind fun k => (lastIndex f n k).map fun i => (i, j)

theorem mem_pairUp {pair : Nat × Nat} : pair ∈ pairUp f n g m ↔
    pair.2 < m ∧ ∃ k, g pair.2 = some k ∧ lastIndex f n k = some pair.1 := by
  simp only [pairUp, List.mem_filterMap, List.mem_range, Option.bind_eq_some_iff,
    Option.map_eq_some_iff]
  constructor
  · rintro ⟨j, hj, k, hkey, i, hi, rfl⟩
    exact ⟨hj, k, hkey, hi⟩
  · rintro ⟨hj, k, hkey, hi⟩
    exact ⟨pair.2, hj, k, hkey, pair.1, hi, rfl⟩

/-- No position of the second sequence is paired twice. -/
theorem pairUp_snd_nodup (f : Nat → Option κ) (n : Nat) (g : Nat → Option κ) (m : Nat) :
    ((pairUp f n g m).map Prod.snd).Nodup := by
  have hsub : ((pairUp f n g m).map Prod.snd).Sublist (List.range m) := by
    unfold pairUp
    rw [List.map_filterMap]
    generalize List.range m = list
    induction list with
    | nil => exact List.Sublist.slnil
    | cons j list ih =>
      rw [List.filterMap_cons]
      split
      · exact ih.cons j
      · rename_i value hvalue
        have hj : value = j := by
          simp only [Option.map_bind, Option.bind_eq_some_iff, Function.comp_apply,
            Option.map_map, Option.map_eq_some_iff] at hvalue
          obtain ⟨_, _, _, _, heq⟩ := hvalue
          exact heq.symm
        rw [hj]
        exact ih.cons_cons j
  exact List.nodup_range.sublist hsub

theorem pairUp_nodup (f : Nat → Option κ) (n : Nat) (g : Nat → Option κ) (m : Nat) :
    (pairUp f n g m).Nodup :=
  (pairUp_snd_nodup f n g m).of_map _

/-- Two positions of the second sequence ask for a key that the first has. -/
def Clash (f : Nat → Option κ) (n : Nat) (g : Nat → Option κ) (m : Nat) : Prop :=
  ∃ j < m, ∃ j' < m, j ≠ j' ∧ ∃ k, g j = some k ∧ g j' = some k ∧ ∃ i < n, f i = some k

/-- Positions of the first sequence are paired once exactly when nothing clashes. -/
theorem pairUp_fst_nodup_iff : ((pairUp f n g m).map Prod.fst).Nodup ↔ ¬ Clash f n g m := by
  rw [List.nodup_map_iff_inj_on (pairUp_nodup f n g m)]
  constructor
  · rintro hinj ⟨j, hj, j', hj', hne, k, hk, hk', i, hi, hfi⟩
    obtain ⟨last, hlast⟩ := exists_lastIndex hi hfi
    have heq := hinj (last, j) (mem_pairUp.mpr ⟨hj, k, hk, hlast⟩) (last, j')
      (mem_pairUp.mpr ⟨hj', k, hk', hlast⟩) rfl
    exact hne (congrArg Prod.snd heq)
  · intro hclash p hp q hq heq
    obtain ⟨hp, k, hk, hlast⟩ := mem_pairUp.mp hp
    obtain ⟨hq, k', hk', hlast'⟩ := mem_pairUp.mp hq
    obtain ⟨hi, hfi, _⟩ := lastIndex_eq_some.mp hlast
    have hkeys : k' = k := by
      have hfi' := (lastIndex_eq_some.mp hlast').2.1
      rw [← heq, hfi] at hfi'
      exact (Option.some.inj hfi').symm
    apply Prod.ext heq
    by_contra hne
    exact hclash ⟨p.2, hp, q.2, hq, hne, k, hk, hkeys ▸ hk', p.1, hi, hfi⟩

end Pairing
