import Mathlib.Data.List.TakeWhile
import Mathlib.Order.Bounds.Basic

/-!
# Common prefixes

How far two lists agree, computed pair by pair. It is the greatest length at which their fronts
are the same, and can be computed piece by piece.
-/

namespace CommonPrefix

variable {α : Type*} [DecidableEq α]

/-- The number of leading pairs that agree. -/
def commonPrefix (xs ys : List α) : Nat :=
  ((xs.zip ys).takeWhile fun pair => pair.1 == pair.2).length

@[simp] theorem commonPrefix_nil_left (ys : List α) : commonPrefix [] ys = 0 := by
  rw [commonPrefix, List.zip_nil_left, List.takeWhile_nil, List.length_nil]

@[simp] theorem commonPrefix_nil_right (xs : List α) : commonPrefix xs [] = 0 := by
  rw [commonPrefix, List.zip_nil_right, List.takeWhile_nil, List.length_nil]

theorem commonPrefix_cons (x y : α) (xs ys : List α) :
    commonPrefix (x :: xs) (y :: ys) = if x = y then commonPrefix xs ys + 1 else 0 := by
  rw [commonPrefix, List.zip_cons_cons, List.takeWhile_cons]
  by_cases heq : x = y
  · simp [heq, commonPrefix]
  · simp [heq]

/-- Two fronts of one length are compared first, and what follows only if they agree. -/
theorem commonPrefix_append {xs ys : List α} (hlen : xs.length = ys.length) (xs' ys' : List α) :
    commonPrefix (xs ++ xs') (ys ++ ys') =
      if commonPrefix xs ys = xs.length then xs.length + commonPrefix xs' ys'
      else commonPrefix xs ys := by
  have hzip : (xs.zip ys).length = xs.length := by
    rw [List.length_zip, ← hlen, Nat.min_self]
  by_cases hall : commonPrefix xs ys = xs.length
  · rw [if_pos hall]
    rw [commonPrefix] at hall
    rw [commonPrefix, List.zip_append hlen, List.takeWhile_append, hzip, if_pos hall,
      List.length_append, hzip]
    rfl
  · rw [if_neg hall]
    rw [commonPrefix] at hall
    rw [commonPrefix, List.zip_append hlen, List.takeWhile_append, hzip, if_neg hall]
    rfl

/-- No longer fronts agree. -/
theorem commonPrefix_isGreatest (xs ys : List α) :
    IsGreatest {m | m ≤ xs.length ∧ m ≤ ys.length ∧ xs.take m = ys.take m}
      (commonPrefix xs ys) := by
  induction xs generalizing ys with
  | nil =>
    rw [commonPrefix_nil_left]
    exact ⟨⟨Nat.le_refl 0, Nat.zero_le _, rfl⟩, fun m hm => hm.1⟩
  | cons x xs ih =>
    cases ys with
    | nil =>
      rw [commonPrefix_nil_right]
      exact ⟨⟨Nat.zero_le _, Nat.le_refl 0, rfl⟩, fun m hm => hm.2.1⟩
    | cons y ys =>
      obtain ⟨⟨hleft, hright, hfront⟩, hgreatest⟩ := ih ys
      rw [commonPrefix_cons]
      split_ifs with heq
      · refine ⟨⟨Nat.succ_le_succ hleft, Nat.succ_le_succ hright, ?_⟩, ?_⟩
        · rw [List.take_succ_cons, List.take_succ_cons, heq, hfront]
        · rintro (_ | m) ⟨hm, hm', hsame⟩
          · exact Nat.zero_le _
          · rw [List.take_succ_cons, List.take_succ_cons, List.cons.injEq] at hsame
            exact Nat.succ_le_succ
              (hgreatest ⟨Nat.le_of_succ_le_succ hm, Nat.le_of_succ_le_succ hm', hsame.2⟩)
      · refine ⟨⟨Nat.zero_le _, Nat.zero_le _, rfl⟩, ?_⟩
        rintro (_ | m) ⟨-, -, hsame⟩
        · exact Nat.le_refl 0
        · rw [List.take_succ_cons, List.take_succ_cons, List.cons.injEq] at hsame
          exact absurd hsame.1 heq

end CommonPrefix
