import Mathlib.Data.List.Sort

/-!
# Rows sorted by a key

A canonical table lists its rows in strictly ascending key order. `sortBy` is the stable sort
an encoder applies first, and `windowsAny` the scan over neighbouring rows that both sides use
to reject duplicates and disorder.
-/

namespace Rows

variable {α β κ : Type} [LinearOrder κ] {key : α → κ} {rows : List α}

/-- The rows in key order, equal keys in the order they had. -/
def sortBy (key : α → κ) (rows : List α) : List α :=
  rows.insertionSort fun a b => key a ≤ key b

/-- Does some row and its successor satisfy the test? -/
def windowsAny (test : α → α → Bool) : List α → Bool
  | first :: second :: rest => test first second || windowsAny test (second :: rest)
  | _ => false

/-- Strictly ascending keys. -/
def Ascending (key : α → κ) (rows : List α) : Prop := rows.Pairwise fun a b => key a < key b

theorem Ascending.tail {row : α} (hrows : Ascending key (row :: rows)) : Ascending key rows :=
  (List.pairwise_cons.mp hrows).2

theorem Ascending.lt_of_mem {row other : α} (hrows : Ascending key (row :: rows))
    (hother : other ∈ rows) : key row < key other :=
  (List.pairwise_cons.mp hrows).1 other hother

theorem Ascending.nodup (hrows : Ascending key rows) : (rows.map key).Nodup := by
  rw [List.Nodup, List.pairwise_map]
  exact hrows.imp fun hlt => hlt.ne

theorem perm_sortBy (key : α → κ) (rows : List α) : (sortBy key rows).Perm rows :=
  List.perm_insertionSort _ _

@[simp] theorem mem_sortBy {row : α} : row ∈ sortBy key rows ↔ row ∈ rows :=
  (perm_sortBy key rows).mem_iff

@[simp] theorem length_sortBy : (sortBy key rows).length = rows.length :=
  (perm_sortBy key rows).length_eq

theorem pairwise_sortBy (key : α → κ) (rows : List α) :
    (sortBy key rows).Pairwise fun a b => key a ≤ key b := by
  have : Std.Total fun a b : α => key a ≤ key b := ⟨fun a b => le_total (key a) (key b)⟩
  have : IsTrans α fun a b => key a ≤ key b := ⟨fun _ _ _ => le_trans⟩
  exact List.pairwise_insertionSort _ _

theorem sortBy_eq_self (hrows : Ascending key rows) : sortBy key rows = rows :=
  List.Pairwise.insertionSort_eq (hrows.imp le_of_lt)

/-- A row map that keeps the keys may be applied before or after sorting. -/
theorem map_sortBy (f : α → β) {key' : β → κ} (hkey : ∀ row, key' (f row) = key row) :
    (sortBy key rows).map f = sortBy key' (rows.map f) :=
  List.map_insertionSort _ _ f rows fun a _ b _ => by rw [hkey, hkey]

/-- Sorted rows are strictly ascending when their keys are distinct, and only then. -/
theorem ascending_sortBy : Ascending key (sortBy key rows) ↔ (rows.map key).Nodup := by
  constructor
  · intro hrows
    exact ((perm_sortBy key rows).map key).nodup_iff.mp hrows.nodup
  · intro hnodup
    have hsorted : ((sortBy key rows).map key).Nodup :=
      ((perm_sortBy key rows).map key).nodup_iff.mpr hnodup
    rw [List.Nodup, List.pairwise_map] at hsorted
    exact (pairwise_sortBy key rows).imp₂ (fun _ _ hle hne => lt_of_le_of_ne hle hne) hsorted

theorem windowsAny_eq_false {test : α → α → Bool} :
    windowsAny test rows = false ↔ rows.IsChain fun a b => test a b = false := by
  induction rows with
  | nil => simp [windowsAny]
  | cons first rest ih =>
    cases rest with
    | nil => simp [windowsAny]
    | cons second rest =>
      rw [windowsAny, Bool.or_eq_false_iff, ih, List.isChain_cons_cons]

/-- No two neighbours out of order: the rows are strictly ascending. -/
theorem windowsAny_le_eq_false :
    windowsAny (fun a b => key b ≤ key a) rows = false ↔ Ascending key rows := by
  have : Trans (fun a b : α => key a < key b) (fun a b => key a < key b)
      fun a b => key a < key b := ⟨lt_trans⟩
  rw [windowsAny_eq_false, Ascending, ← List.isChain_iff_pairwise]
  simp only [decide_eq_false_iff_not, not_le]

/-- In sorted rows, neighbours are out of order only when they share a key. -/
theorem windowsAny_eq_of_pairwise (hrows : rows.Pairwise fun a b => key a ≤ key b) :
    windowsAny (fun a b => key a = key b) rows = windowsAny (fun a b => key b ≤ key a) rows := by
  induction rows with
  | nil => rfl
  | cons first rest ih =>
    cases rest with
    | nil => rfl
    | cons second rest =>
      obtain ⟨hfirst, hrest⟩ := List.pairwise_cons.mp hrows
      have hle := hfirst second List.mem_cons_self
      rw [windowsAny, windowsAny, ih hrest]
      congr 1
      exact decide_eq_decide.mpr ⟨fun heq => heq.ge, fun hge => le_antisymm hle hge⟩

theorem windowsAny_sortBy_eq_false :
    windowsAny (fun a b => key a = key b) (sortBy key rows) = false ↔
      (rows.map key).Nodup := by
  rw [windowsAny_eq_of_pairwise (pairwise_sortBy key rows), windowsAny_le_eq_false,
    ascending_sortBy]

end Rows
