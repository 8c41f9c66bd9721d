import Datboi.Lib.Reader
import Mathlib.Data.Vector.Basic

/-!
# Lists cut into equal pieces

A list of `n * k` items is the concatenation of its `n` pieces of length `k`, and a
concatenation of such pieces is read back piece by piece. Fixed-length blocks are
vectors, so that a block of the wrong length cannot be built.
-/

namespace Chunks

open Reader (slice length_slice)

variable {α : Type*}

variable {count n k : Nat} {piece : Nat → List α}

/-- What lies inside the front of a list. -/
theorem slice_append_left {front back : List α} {offset : Nat}
    (hin : offset + count ≤ front.length) :
    slice (front ++ back) offset count = slice front offset count := by
  have hnone : count - (front.length - offset) = 0 := by omega
  rw [Reader.slice_append, hnone, Reader.slice_zero_right, List.append_nil]

/-- What lies behind the front of a list. -/
theorem slice_append_right (front back : List α) (offset count : Nat) :
    slice (front ++ back) (front.length + offset) count = slice back offset count := by
  rw [slice, slice, List.drop_append, List.drop_eq_nil_of_le (Nat.le_add_right _ _),
    List.nil_append, Nat.add_sub_cancel_left]

theorem length_flatMap_range (hpiece : ∀ i < n, (piece i).length = k) :
    ((List.range n).flatMap piece).length = n * k := by
  induction n with
  | zero => simp
  | succ n ih =>
    rw [List.range_succ, List.flatMap_append, List.length_append,
      ih fun i hi => hpiece i (Nat.lt_succ_of_lt hi), List.flatMap_singleton,
      hpiece n (Nat.lt_succ_self n), Nat.succ_mul]

/-- A run of pieces is the first so many, and then the others. -/
theorem flatMap_range_add (m n : Nat) (piece : Nat → List α) :
    (List.range (m + n)).flatMap piece =
      (List.range m).flatMap piece ++ (List.range n).flatMap fun j => piece (m + j) := by
  rw [List.range_add, List.flatMap_append, List.flatMap_map]

/-- Whole pieces are read back where they were put. -/
theorem slice_flatMap_range {n k : Nat} {piece : Nat → List α}
    (hpiece : ∀ i < n, (piece i).length = k) {start count : Nat} (hin : start + count ≤ n) :
    slice ((List.range n).flatMap piece) (start * k) (count * k) =
      (List.range count).flatMap fun j => piece (start + j) := by
  obtain ⟨rest, rfl⟩ := Nat.exists_eq_add_of_le hin
  have hfront := length_flatMap_range (n := start) fun i hi => hpiece i (by omega)
  have hmiddle : ((List.range count).flatMap fun j => piece (start + j)).length = count * k :=
    length_flatMap_range fun i hi => hpiece (start + i) (by omega)
  rw [Nat.add_assoc, flatMap_range_add, flatMap_range_add, ← hfront, ← hmiddle,
    Reader.slice_middle]

theorem slice_flatMap_range_one (hpiece : ∀ i < n, (piece i).length = k) {i : Nat} (hi : i < n) :
    slice ((List.range n).flatMap piece) (i * k) k = piece i := by
  have hone := @slice_flatMap_range _ n k piece hpiece i 1 hi
  simpa using hone

/-- Cutting a list into pieces and joining them gives the list back. -/
theorem flatMap_slice (items : List α) (hlen : items.length = n * k) :
    ((List.range n).flatMap fun i => slice items (i * k) k) = items := by
  have hfront : ∀ m ≤ n, ((List.range m).flatMap fun i => slice items (i * k) k) =
      slice items 0 (m * k) := by
    intro m hm
    induction m with
    | zero => simp
    | succ m ih =>
      rw [List.range_succ, List.flatMap_append, ih (by omega), List.flatMap_singleton,
        Nat.succ_mul, ← Reader.slice_append_slice, Nat.zero_add]
  rw [hfront n (Nat.le_refl n), ← hlen, Reader.slice_zero_length]

/-- Two concatenations of pieces of equal length agree only piece by piece. -/
theorem flatMap_range_inj {left right : Nat → List α} (hleft : ∀ i < n, (left i).length = k)
    (hright : ∀ i < n, (right i).length = k) :
    (List.range n).flatMap left = (List.range n).flatMap right ↔ ∀ i < n, left i = right i := by
  constructor
  · intro heq i hi
    rw [← slice_flatMap_range_one hleft hi, heq, slice_flatMap_range_one hright hi]
  · intro hpieces
    exact List.flatMap_congr fun i hi => hpieces i (List.mem_range.mp hi)

/-- Going over `n` pieces in groups of `k`, the last one partial, is going over them in
order. -/
theorem flatMap_range_groups (piece : Nat → List α) (n k m : Nat) :
    ((List.range m).flatMap fun g =>
      (List.range (min (n - g * k) k)).flatMap fun j => piece (g * k + j)) =
      (List.range (min (m * k) n)).flatMap piece := by
  induction m with
  | zero => simp
  | succ m ih =>
    rw [List.range_succ, List.flatMap_append, ih, List.flatMap_singleton, Nat.succ_mul]
    by_cases hin : m * k ≤ n
    · have hcount : min (m * k + k) n = m * k + min (n - m * k) k := by omega
      rw [Nat.min_eq_left hin, hcount, flatMap_range_add]
    · have hnone : min (n - m * k) k = 0 := by omega
      have hcount : min (m * k + k) n = n := by omega
      rw [hnone, hcount, Nat.min_eq_right (by omega)]
      simp

/-! ## Windows -/

/-- What lies between two offsets, of a piece that starts at `base`. -/
def part (items : List α) (base start stop : Nat) : List α :=
  slice items (start - base) (stop - base - (start - base))

/-- A part of a slice is a part of the list, cut off at the slice's end. -/
theorem part_slice (items : List α) (base count start stop : Nat) :
    part (slice items base count) base start stop =
      slice items (max start base) (min stop (base + count) - max start base) := by
  have hoffset : base + (start - base) = max start base := by omega
  have hcount : min (stop - base - (start - base)) (count - (start - base)) =
      min stop (base + count) - max start base := by omega
  rw [part, slice, slice, slice, List.drop_take, List.drop_drop, List.take_take, hoffset, hcount]

/-- What a run of pieces has of a window, where `take` takes so many items from an offset on:
the pieces' shares of it adjoin. -/
theorem flatMap_shares {take : Nat → Nat → List α} (hzero : ∀ a, take a 0 = [])
    (hadd : ∀ a m n, take a m ++ take (a + m) n = take a (m + n)) (start stop k b m : Nat) :
    ((List.range m).flatMap fun j =>
      take (max start ((b + j) * k)) (min stop ((b + j + 1) * k) - max start ((b + j) * k))) =
      take (max start (b * k)) (min stop ((b + m) * k) - max start (b * k)) := by
  induction m with
  | zero =>
    have hnone : min stop (b * k) - max start (b * k) = 0 := by omega
    rw [List.range_zero, List.flatMap_nil, Nat.add_zero, hnone, hzero]
  | succ m ih =>
    have hmono : b * k ≤ (b + m) * k := Nat.mul_le_mul_right k (Nat.le_add_right b m)
    have hsucc : (b + m + 1) * k = (b + m) * k + k := Nat.succ_mul _ _
    rw [List.range_succ, List.flatMap_append, ih, List.flatMap_singleton, ← Nat.add_assoc]
    by_cases hone : stop ≤ (b + m) * k ∨ (b + m) * k ≤ start
    · -- One of the two sides has nothing of the window.
      rcases hone with hstop | hstart
      · have hnone : min stop ((b + m + 1) * k) - max start ((b + m) * k) = 0 := by omega
        have hcount : min stop ((b + m + 1) * k) = min stop ((b + m) * k) := by omega
        rw [hnone, hzero, List.append_nil, hcount]
      · have hnone : min stop ((b + m) * k) - max start (b * k) = 0 := by omega
        have hbase : max start ((b + m) * k) = max start (b * k) := by omega
        rw [hnone, hzero, List.nil_append, hbase]
    · have hseam : max start ((b + m) * k) =
          max start (b * k) + (min stop ((b + m) * k) - max start (b * k)) := by omega
      have hcount : min stop ((b + m) * k) - max start (b * k) +
          (min stop ((b + m + 1) * k) - max start ((b + m) * k)) =
          min stop ((b + m + 1) * k) - max start (b * k) := by omega
      rw [← hcount, ← hadd, ← hseam]

theorem flatMap_part (hpiece : ∀ i < n, (piece i).length = k) {start stop m b : Nat}
    (hin : b + m ≤ n) :
    ((List.range m).flatMap fun j => part (piece (b + j)) ((b + j) * k) start stop) =
      slice ((List.range n).flatMap piece) (max start (b * k))
        (min stop ((b + m) * k) - max start (b * k)) := by
  rw [← flatMap_shares (Reader.slice_zero_right _) (Reader.slice_append_slice _)]
  refine List.flatMap_congr fun j hj => ?_
  rw [List.mem_range] at hj
  rw [← slice_flatMap_range_one hpiece (show b + j < n by omega), part_slice, Nat.succ_mul]

/-- The groups of `k` numbers that an interval touches have, one after another, the numbers of
the interval. -/
theorem range'_groups {first last : Nat} (hk : 0 < k) (hle : first ≤ last) :
    ((List.range (last / k - first / k + 1)).flatMap fun j =>
      List.range' (max first ((first / k + j) * k))
        (min (last + 1) ((first / k + j + 1) * k) - max first ((first / k + j) * k))) =
      List.range' first (last + 1 - first) := by
  have hfirst : first / k * k ≤ first := Nat.div_mul_le_self first k
  have hdiv : first / k ≤ last / k := Nat.div_le_div_right hle
  have hedge : first / k + (last / k - first / k + 1) = last / k + 1 := by omega
  have hend : last + 1 ≤ (last / k + 1) * k := by
    have hlt := Nat.lt_mul_div_succ last hk
    rwa [Nat.mul_comm] at hlt
  have hshares := @flatMap_shares Nat (fun a n => List.range' a n) (fun _ => rfl)
    (fun a m n => List.range'_append_1) first (last + 1) k (first / k) (last / k - first / k + 1)
  rw [hedge, Nat.min_eq_left hend, Nat.max_eq_left hfirst] at hshares
  exact hshares

/-- The pieces that a window touches, from the one its first item lies in to the one its last
item lies in, have all of it. -/
theorem flatMap_part_touched (hpiece : ∀ i < n, (piece i).length = k) {start stop : Nat}
    (hwindow : start < stop) (hstop : stop ≤ n * k) :
    ((List.range ((stop - 1) / k - start / k + 1)).flatMap fun j =>
      part (piece (start / k + j)) ((start / k + j) * k) start stop) =
      slice ((List.range n).flatMap piece) start (stop - start) := by
  have hk : 0 < k := by
    rcases Nat.eq_zero_or_pos k with rfl | hk
    · omega
    · exact hk
  have hlast : (stop - 1) / k < n := by
    rw [Nat.div_lt_iff_lt_mul hk]
    omega
  have hle : start / k ≤ (stop - 1) / k := Nat.div_le_div_right (by omega)
  have hfirst : start / k * k ≤ start := Nat.div_mul_le_self start k
  have hend : stop ≤ ((stop - 1) / k + 1) * k := by
    have hlt := Nat.lt_mul_div_succ (stop - 1) hk
    rw [Nat.mul_comm] at hlt
    omega
  have hedge : start / k + ((stop - 1) / k - start / k + 1) = (stop - 1) / k + 1 := by omega
  rw [flatMap_part hpiece (by omega), hedge, Nat.min_eq_left hend, Nat.max_eq_left hfirst]

/-! ## Fixed-length blocks -/

/-- The first `n` items of a list that has as many. -/
def head (n : Nat) (data : List α) (hfull : n ≤ data.length) : List.Vector α n :=
  ⟨data.take n, List.length_take_of_le hfull⟩

@[simp] theorem toList_head (n : Nat) (data : List α) (hfull : n ≤ data.length) :
    (head n data hfull).toList = data.take n := rfl

/-- The first `count` blocks of a list. -/
def blocks (n : Nat) : Nat → List α → List (List.Vector α n)
  | 0, _ => []
  | count + 1, data =>
    if hfull : n ≤ data.length then head n data hfull :: blocks n count (data.drop n) else []

/-- The items of a list of blocks, in order. -/
def flattened {n : Nat} (pieces : List (List.Vector α n)) : List α :=
  pieces.flatMap List.Vector.toList

@[simp] theorem length_flattened (pieces : List (List.Vector α n)) :
    (flattened pieces).length = pieces.length * n := by
  induction pieces with
  | nil => simp [flattened]
  | cons piece pieces ih =>
    rw [flattened, List.flatMap_cons, List.length_append, List.Vector.toList_length,
      ← flattened, ih, List.length_cons, Nat.succ_mul, Nat.add_comm]

theorem flattened_blocks {data : List α} (hlen : data.length = count * n) :
    flattened (blocks n count data) = data := by
  induction count generalizing data with
  | zero =>
    rw [Nat.zero_mul] at hlen
    rw [List.eq_nil_of_length_eq_zero hlen]
    rfl
  | succ count ih =>
    rw [Nat.succ_mul] at hlen
    have hfull : n ≤ data.length := by omega
    have hrest : (data.drop n).length = count * n := by
      rw [List.length_drop]
      omega
    rw [blocks, dif_pos hfull, flattened, List.flatMap_cons, ← flattened, ih hrest, toList_head,
      List.take_append_drop]

theorem blocks_flattened (pieces : List (List.Vector α n)) :
    blocks n pieces.length (flattened pieces) = pieces := by
  induction pieces with
  | nil => rfl
  | cons piece pieces ih =>
    have hflat : flattened (piece :: pieces) = piece.toList ++ flattened pieces := rfl
    have hhead := piece.toList_length
    have hfull : n ≤ (flattened (piece :: pieces)).length := by
      rw [hflat, List.length_append]
      omega
    rw [List.length_cons, blocks, dif_pos hfull]
    congr 1
    · apply List.Vector.eq
      rw [toList_head, hflat, List.take_left' hhead]
    · rw [hflat, List.drop_left' hhead, ih]

theorem length_blocks {data : List α} (hlen : data.length = count * n) :
    (blocks n count data).length = count := by
  induction count generalizing data with
  | zero => rfl
  | succ count ih =>
    rw [Nat.succ_mul] at hlen
    have hfull : n ≤ data.length := by omega
    rw [blocks, dif_pos hfull, List.length_cons, ih]
    rw [List.length_drop]
    omega

end Chunks
