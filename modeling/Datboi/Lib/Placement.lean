import Datboi.Lib.Reader
import Mathlib.Algebra.Order.Group.Nat

/-!
# Pieces placed at aligned offsets

Pieces follow a front part one after another, each at the first multiple of an alignment
that is free, with filler in the gaps. A piece is read back where it begins, and with the
gap after it when another piece follows.
-/

namespace Placement

open Reader (slice)

/-- The first multiple of `a` from `n` on. -/
def alignUp (a n : Nat) : Nat := (n + a - 1) / a * a

theorem dvd_alignUp (a n : Nat) : a ∣ alignUp a n := Nat.dvd_mul_left a _

theorem le_alignUp {a : Nat} (ha : 0 < a) (n : Nat) : n ≤ alignUp a n := by
  have hsplit := Nat.div_add_mod (n + a - 1) a
  have hrest := Nat.mod_lt (n + a - 1) ha
  rw [alignUp, Nat.mul_comm]
  omega

theorem alignUp_lt {a : Nat} (ha : 0 < a) (n : Nat) : alignUp a n < n + a := by
  have hle := Nat.div_mul_le_self (n + a - 1) a
  rw [alignUp]
  omega

theorem alignUp_eq_self_iff {a : Nat} (ha : 0 < a) (n : Nat) : alignUp a n = n ↔ a ∣ n := by
  constructor
  · intro heq
    rw [← heq]
    exact dvd_alignUp a n
  · rintro ⟨k, rfl⟩
    have hquot : (a * k + a - 1) / a = k := by
      rw [Nat.add_sub_assoc ha, Nat.mul_add_div ha, Nat.div_eq_of_lt (by omega), Nat.add_zero]
    rw [alignUp, hquot, Nat.mul_comm]

/-! ## Offsets -/

section Offsets

variable (a front : Nat) (len : Nat → Nat)

/-- Where the first so many pieces end. -/
def finish : Nat → Nat
  | 0 => front
  | i + 1 => alignUp a (finish i) + len i

/-- Where a piece begins. -/
def start (i : Nat) : Nat := alignUp a (finish a front len i)

variable {a front len}

theorem finish_succ (i : Nat) : finish a front len (i + 1) = start a front len i + len i := rfl

theorem finish_le_start (ha : 0 < a) (i : Nat) : finish a front len i ≤ start a front len i :=
  le_alignUp ha _

theorem start_lt (ha : 0 < a) (i : Nat) : start a front len i < finish a front len i + a :=
  alignUp_lt ha _

theorem dvd_start (i : Nat) : a ∣ start a front len i := dvd_alignUp a _

theorem start_le_finish_succ (i : Nat) : start a front len i ≤ finish a front len (i + 1) := by
  rw [finish_succ]
  exact Nat.le_add_right _ _

theorem finish_mono (ha : 0 < a) {i j : Nat} (hij : i ≤ j) :
    finish a front len i ≤ finish a front len j := by
  induction j, hij using Nat.le_induction with
  | base => exact Nat.le_refl _
  | succ j _ ih =>
    exact Nat.le_trans ih (Nat.le_trans (finish_le_start ha j) (start_le_finish_succ j))

theorem start_le_start_succ (ha : 0 < a) (i : Nat) :
    start a front len i ≤ start a front len (i + 1) :=
  Nat.le_trans (start_le_finish_succ i) (finish_le_start ha (i + 1))

/-- The end is aligned when the last piece fills its units. -/
theorem dvd_finish_succ_iff (i : Nat) : a ∣ finish a front len (i + 1) ↔ a ∣ len i :=
  Nat.dvd_add_right (dvd_start i)

end Offsets

/-! ## Contents -/

section Contents

variable {α : Type*} (a : Nat) (front : List α) (fill : α) (piece : Nat → List α)

/-- The first so many pieces in their places. -/
def contents : Nat → List α
  | 0 => front
  | i + 1 =>
    contents i ++
      List.replicate (alignUp a (contents i).length - (contents i).length) fill ++ piece i

variable {a front fill piece}

theorem length_contents (ha : 0 < a) (i : Nat) :
    (contents a front fill piece i).length =
      finish a front.length (fun j => (piece j).length) i := by
  induction i with
  | zero => rfl
  | succ i ih =>
    have hle := le_alignUp ha (contents a front fill piece i).length
    rw [contents, List.length_append, List.length_append, List.length_replicate, finish, ← ih]
    omega

/-- A piece comes right after what fills the place up to it. -/
theorem exists_contents_succ (ha : 0 < a) (i : Nat) :
    ∃ before, before.length = start a front.length (fun j => (piece j).length) i ∧
      contents a front fill piece (i + 1) = before ++ piece i := by
  refine ⟨_, ?_, rfl⟩
  have hle := le_alignUp ha (contents a front fill piece i).length
  rw [List.length_append, List.length_replicate, start, ← length_contents ha]
  exact Nat.add_sub_cancel' hle

/-- Later pieces leave the earlier ones where they are. -/
theorem exists_contents_eq_append {i j : Nat} (hij : i ≤ j) :
    ∃ rest, contents a front fill piece j = contents a front fill piece i ++ rest := by
  induction j, hij using Nat.le_induction with
  | base => exact ⟨[], (List.append_nil _).symm⟩
  | succ j _ ih =>
    obtain ⟨rest, hrest⟩ := ih
    simp only [contents, hrest, List.append_assoc]
    exact ⟨_, rfl⟩

theorem slice_contents {n : Nat} (ha : 0 < a) {i : Nat} (hi : i < n) :
    slice (contents a front fill piece n)
      (start a front.length (fun j => (piece j).length) i) (piece i).length = piece i := by
  obtain ⟨rest, hrest⟩ := @exists_contents_eq_append _ a front fill piece _ _ (Nat.succ_le_of_lt hi)
  obtain ⟨before, hbefore, hsucc⟩ := @exists_contents_succ _ a front fill piece ha i
  rw [hrest, hsucc, List.append_assoc, ← hbefore, Reader.slice_middle]

/-- A piece that is followed by another one, with the gap between the two. -/
theorem slice_contents_gap {n : Nat} (ha : 0 < a) {i : Nat} (hi : i + 1 < n) :
    slice (contents a front fill piece n)
        (start a front.length (fun j => (piece j).length) i)
        (start a front.length (fun j => (piece j).length) (i + 1) -
          start a front.length (fun j => (piece j).length) i) =
      piece i ++ List.replicate
        (start a front.length (fun j => (piece j).length) (i + 1) -
          finish a front.length (fun j => (piece j).length) (i + 1)) fill := by
  obtain ⟨rest, hrest⟩ := @exists_contents_eq_append _ a front fill piece _ _ (Nat.succ_le_of_lt hi)
  obtain ⟨before, hbefore, hsucc⟩ := @exists_contents_succ _ a front fill piece ha i
  have hlen := @length_contents _ a front fill piece ha (i + 1)
  have hextent : (piece i ++ List.replicate
      (start a front.length (fun j => (piece j).length) (i + 1) -
        finish a front.length (fun j => (piece j).length) (i + 1)) fill).length =
      start a front.length (fun j => (piece j).length) (i + 1) -
        start a front.length (fun j => (piece j).length) i := by
    have hle := @finish_le_start a front.length (fun j => (piece j).length) ha (i + 1)
    have hend := @finish_succ a front.length (fun j => (piece j).length) i
    rw [List.length_append, List.length_replicate]
    omega
  rw [hrest, contents, hlen, hsucc, ← hextent, ← hbefore, ← start]
  simp only [List.append_assoc]
  rw [← List.append_assoc (piece i), Reader.slice_middle]

end Contents

end Placement
