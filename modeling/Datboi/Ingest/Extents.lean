import Datboi.Ingest.Coverage
import Datboi.Lib.Wire
import Mathlib.Data.List.Sort

/-!
# Declared extents

What the disc readers share: numbers in the tables of an image, and the extents that a
tree declares, which are put in order, freed of exact aliases, and refused when two of
them overlap.
-/

namespace Datboi

open Reader (slice)

/-- A byte string whose length is a 64-bit number. -/
structure Image where
  bytes : Bytes
  fits : bytes.length < u64Limit

/-- Subtraction of 64-bit numbers: a build that checks its arithmetic stops, any other
wraps around. -/
def subU64 {ρ : Type} (checks : Bool) (a b : Nat) : Except (Failure ρ) Nat :=
  if b ≤ a then .ok (a - b) else if checks then .error .overflow else .ok (u64Limit + a - b)

theorem subU64_of_le {ρ : Type} {checks : Bool} {a b : Nat} (hle : b ≤ a) :
    subU64 (ρ := ρ) checks a b = .ok (a - b) := if_pos hle

/-- An underflow stops the build, or wraps. -/
theorem subU64_eq_ok_of_lt {ρ : Type} {checks : Bool} {a b out : Nat} (hlt : a < b)
    (hsub : subU64 (ρ := ρ) checks a b = .ok out) : checks = false ∧ out = u64Limit + a - b := by
  rw [subU64, if_neg (by omega)] at hsub
  split at hsub
  · cases hsub
  · rename_i hchecks
    cases hsub
    exact ⟨by simpa using hchecks, rfl⟩

/-- A little-endian number in a table. -/
def leAt (width : Nat) (table : Bytes) (offset : Nat) : Nat := Wire.ofLe (slice table offset width)

def u16At (table : Bytes) (offset : Nat) : Nat := leAt 2 table offset

def u32At (table : Bytes) (offset : Nat) : Nat := leAt 4 table offset

theorem leAt_lt (width : Nat) (table : Bytes) (offset : Nat) :
    leAt width table offset < 256 ^ width := by
  have hlt := Wire.ofBe_lt (slice table offset width).reverse
  rw [List.length_reverse, Reader.length_slice] at hlt
  exact hlt.trans_le (Nat.pow_le_pow_right (by decide) (Nat.min_le_left _ _))

theorem u32At_lt (table : Bytes) (offset : Nat) : u32At table offset < 2 ^ 32 :=
  leAt_lt 4 table offset

namespace Extents

variable {α : Type} (span : α → Nat × Nat)

/-- The order of extents: by start, then by length. -/
def Precedes (a b : α) : Prop :=
  (span a).1 < (span b).1 ∨ ((span a).1 = (span b).1 ∧ (span a).2 ≤ (span b).2)

instance : DecidableRel (Precedes span) := fun _ _ => inferInstanceAs (Decidable (_ ∨ _ ∧ _))

/-- `sort_by_key` on the start and the length. -/
def sort (items : List α) : List α := items.insertionSort (Precedes span)

/-- `dedup_by` against the last item that was kept. -/
def dedupFrom (last : α) : List α → List α
  | [] => [last]
  | item :: rest =>
    if span item = span last then dedupFrom last rest else last :: dedupFrom item rest

/-- Two names over one extent are one extent. -/
def dedup : List α → List α
  | [] => []
  | first :: rest => dedupFrom span first rest

/-- Where an extent ends. -/
def stop (item : α) : Nat := (span item).1 + (span item).2

/-- The first neighbours that overlap. -/
def overlap? : List α → Option (α × α)
  | [] => none
  | [_] => none
  | a :: b :: rest => if (span b).1 < stop span a then some (a, b) else overlap? (b :: rest)

variable {span}

theorem mem_dedupFrom {last item : α} {items : List α} (hmem : item ∈ dedupFrom span last items) :
    item = last ∨ item ∈ items := by
  induction items generalizing last with
  | nil => exact Or.inl (List.mem_singleton.mp hmem)
  | cons first rest ih =>
    rw [dedupFrom] at hmem
    split at hmem
    · rcases ih hmem with hlast | hrest
      · exact Or.inl hlast
      · exact Or.inr (List.mem_cons_of_mem _ hrest)
    · rcases List.mem_cons.mp hmem with hlast | htail
      · exact Or.inl hlast
      · rcases ih htail with hfirst | hrest
        · exact Or.inr (hfirst ▸ List.mem_cons_self)
        · exact Or.inr (List.mem_cons_of_mem _ hrest)

theorem mem_of_mem_dedup_sort {item : α} {items : List α}
    (hmem : item ∈ dedup span (sort span items)) : item ∈ items := by
  have hsorted : item ∈ sort span items := by
    cases hitems : sort span items with
    | nil =>
      rw [hitems] at hmem
      cases hmem
    | cons first rest =>
      rw [hitems] at hmem
      rcases mem_dedupFrom hmem with rfl | hrest
      · exact List.mem_cons_self
      · exact List.mem_cons_of_mem _ hrest
  exact (List.perm_insertionSort _ _).mem_iff.mp hsorted

variable (span) in
/-- The items come one behind the other, the first not before the cursor. -/
def Follows (cursor : Nat) : List α → Prop
  | [] => True
  | item :: rest => cursor ≤ (span item).1 ∧ Follows (stop span item) rest

/-- Extents without overlapping neighbours come one behind the other. -/
theorem follows_of_overlap?_eq_none {items : List α} (hnone : overlap? span items = none) :
    Follows span 0 items := by
  have htail : ∀ first (rest : List α), overlap? span (first :: rest) = none →
      Follows span (stop span first) rest := by
    intro first rest
    induction rest generalizing first with
    | nil => exact fun _ => trivial
    | cons second rest ih =>
      intro hnone
      rw [overlap?] at hnone
      split at hnone
      · cases hnone
      · rename_i hapart
        exact ⟨Nat.le_of_not_lt hapart, ih second hnone⟩
  cases items with
  | nil => trivial
  | cons first rest => exact ⟨Nat.zero_le _, htail first rest hnone⟩

end Extents

end Datboi
