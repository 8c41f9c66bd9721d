import Mathlib.Data.List.Lex
import Mathlib.Data.List.TakeWhile
import Mathlib.Order.Lattice

/-!
# The range of a prefix

In lexicographic order the lists that start alike lie next to each other. So a scan of
sorted rows that begins at a prefix and ends at the first row without it meets every row that
has the prefix.
-/

namespace PrefixRange

variable {α β : Type} [LinearOrder α] {start x y z : List α} {rows : List (List α × β)}

/-- Rows in ascending order of their keys. -/
def Sorted (rows : List (List α × β)) : Prop := rows.Pairwise fun a b => a.1 < b.1

theorem not_lt_of_isPrefix (hstart : start <+: x) : ¬ x < start := by
  obtain ⟨rest, rfl⟩ := hstart
  induction start with
  | nil => exact List.not_lt_nil _
  | cons c start ih =>
    rw [List.cons_append, List.cons_lt_cons_iff]
    rintro (hlt | ⟨-, hlt⟩)
    · exact lt_irrefl c hlt
    · exact ih hlt

/-- Whatever lies between a prefix and a list that has it, has it too. -/
theorem isPrefix_of_not_lt_of_lt (hle : ¬ x < start) (hlt : x < y) (hy : start <+: y) :
    start <+: x := by
  obtain ⟨rest, rfl⟩ := hy
  induction start generalizing x with
  | nil => exact List.nil_prefix
  | cons c start ih =>
    cases x with
    | nil => exact absurd (List.nil_lt_cons c start) hle
    | cons d x =>
      rw [List.cons_lt_cons_iff] at hle
      rw [List.cons_append, List.cons_lt_cons_iff] at hlt
      rcases hlt with hlt | ⟨rfl, hlt⟩
      · exact absurd (.inl hlt) hle
      · exact List.cons_prefix_cons.mpr ⟨rfl, ih (fun hless => hle (.inr ⟨rfl, hless⟩)) hlt⟩

theorem isPrefix_of_lt_of_lt (hx : start <+: x) (hxy : x < y) (hyz : y < z) (hz : start <+: z) :
    start <+: y :=
  isPrefix_of_not_lt_of_lt (fun hless => not_lt_of_isPrefix hx (hxy.trans hless)) hyz hz

theorem append_lt_append_iff : start ++ x < start ++ y ↔ x < y := by
  induction start with
  | nil => rfl
  | cons c start ih => simp [ih]

theorem Sorted.tail {row : List α × β} (hsorted : Sorted (row :: rows)) : Sorted rows :=
  (List.pairwise_cons.mp hsorted).2

theorem Sorted.lt {row other : List α × β} (hsorted : Sorted (row :: rows))
    (hother : other ∈ rows) : row.1 < other.1 :=
  (List.pairwise_cons.mp hsorted).1 other hother

section

variable [BEq α] [LawfulBEq α] [DecidableLT (List α)]

omit [DecidableLT (List α)] in
/-- Rows from a prefix on: those that have it come first. -/
theorem takeWhile_eq_filter (hsorted : Sorted rows)
    (hfrom : ∀ row ∈ rows, ¬ row.1 < start) :
    (rows.takeWhile fun row => start.isPrefixOf row.1) =
      rows.filter fun row => start.isPrefixOf row.1 := by
  induction rows with
  | nil => rfl
  | cons row rows ih =>
    by_cases hrow : start.isPrefixOf row.1
    · rw [List.takeWhile_cons_of_pos (by exact hrow), List.filter_cons_of_pos (by exact hrow),
        ih hsorted.tail fun other hother => hfrom other (List.mem_cons_of_mem _ hother)]
    · rw [List.takeWhile_cons_of_neg (by exact hrow), eq_comm, List.filter_eq_nil_iff]
      intro other hother hhas
      rcases List.mem_cons.mp hother with rfl | hlater
      · exact hrow hhas
      · refine hrow (List.isPrefixOf_iff_prefix.mpr ?_)
        exact isPrefix_of_not_lt_of_lt (hfrom row List.mem_cons_self) (hsorted.lt hlater)
          (List.isPrefixOf_iff_prefix.mp hhas)

omit [BEq α] [LawfulBEq α] in
theorem mem_dropWhile_lt {row : List α × β} (hsorted : Sorted rows)
    (hrow : row ∈ rows.dropWhile fun row => row.1 < start) : ¬ row.1 < start := by
  induction rows with
  | nil => cases hrow
  | cons first rows ih =>
    by_cases hfirst : first.1 < start
    · rw [List.dropWhile_cons_of_pos (by simpa using hfirst)] at hrow
      exact ih hsorted.tail hrow
    · rw [List.dropWhile_cons_of_neg (by simpa using hfirst)] at hrow
      rcases List.mem_cons.mp hrow with rfl | hlater
      · exact hfirst
      · exact fun hless => hfirst ((hsorted.lt hlater).trans hless)

/-- The scan from a prefix to the first row without it. -/
theorem scan_eq_filter (hsorted : Sorted rows) :
    ((rows.dropWhile fun row => row.1 < start).takeWhile fun row => start.isPrefixOf row.1) =
      rows.filter fun row => start.isPrefixOf row.1 := by
  rw [takeWhile_eq_filter (hsorted.sublist (List.dropWhile_sublist _))
    fun row hrow => mem_dropWhile_lt hsorted hrow]
  conv_rhs => rw [← List.takeWhile_append_dropWhile (p := fun row => row.1 < start) (l := rows)]
  rw [List.filter_append, List.self_eq_append_left, List.filter_eq_nil_iff]
  intro row hrow hhas
  refine not_lt_of_isPrefix (List.isPrefixOf_iff_prefix.mp hhas) ?_
  simpa using List.mem_takeWhile_imp hrow

/-- One look at the first row from a prefix on tells whether any row has it. -/
theorem head?_any_eq_true (hsorted : Sorted rows) :
    ((rows.dropWhile fun row => row.1 < start).head?.any fun row => start.isPrefixOf row.1) = true ↔
      ∃ row ∈ rows, start <+: row.1 := by
  have hscan := @scan_eq_filter _ _ _ start _ _ _ _ hsorted
  have hfirst : ((rows.dropWhile fun row => row.1 < start).head?.any
      fun row => start.isPrefixOf row.1) = true ↔
        ((rows.dropWhile fun row => row.1 < start).takeWhile
          fun row => start.isPrefixOf row.1) ≠ [] := by
    cases rows.dropWhile fun row => row.1 < start with
    | nil => simp
    | cons row rest =>
      by_cases hrow : start.isPrefixOf row.1
      · simp [hrow]
      · simp [hrow]
  rw [hfirst, hscan, ne_eq, List.filter_eq_nil_iff]
  simp

end

/-- Distinct keys: a row is what looking its key up finds. -/
theorem find?_eq_some [DecidableEq (List α)] (hsorted : Sorted rows) {row : List α × β}
    (hrow : row ∈ rows) : rows.find? (fun other => other.1 = row.1) = some row := by
  induction rows with
  | nil => cases hrow
  | cons first rows ih =>
    rcases List.mem_cons.mp hrow with rfl | hlater
    · simp
    · have hne : first.1 ≠ row.1 := (hsorted.lt hlater).ne
      rw [List.find?_cons_of_neg (by simpa using hne), ih hsorted.tail hlater]

end PrefixRange
