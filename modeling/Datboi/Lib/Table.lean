import Mathlib.Data.List.Nodup

/-!
# Tables with a row id and a unique key

A table is a list of rows in ascending row-id order whose secondary keys are
pairwise distinct, as a database keeps a table with an integer primary key and a
unique index. Rows are appended under the next free id, rewritten in place
without touching id or key, or deleted.
-/

/-- A row with an integer id and a second, unique key. -/
class Row (ρ : Type*) (κ : outParam Type*) where
  id : ρ → Nat
  key : ρ → κ

/-- Rows in id order, no two with the same key. -/
structure Table (ρ : Type*) {κ : Type*} [Row ρ κ] where
  rows : List ρ
  sorted : rows.Pairwise fun a b => Row.id a < Row.id b
  keys_nodup : (rows.map Row.key).Nodup

namespace Table

variable {ρ κ : Type*} [Row ρ κ]

variable {t : Table ρ} {row : ρ} {id : Nat}

@[ext] theorem ext {t' : Table ρ} (hrows : t.rows = t'.rows) : t = t' := by
  cases t
  cases t'
  simpa using hrows

instance [DecidableEq ρ] : DecidableEq (Table ρ) := fun t t' =>
  decidable_of_iff (t.rows = t'.rows) ⟨Table.ext, fun heq => heq ▸ rfl⟩

instance : Membership ρ (Table ρ) where
  mem t row := row ∈ t.rows

theorem mem_rows : row ∈ t.rows ↔ row ∈ t := Iff.rfl

instance {t : Table ρ} {p : ρ → Prop} [DecidablePred p] : Decidable (∀ row ∈ t, p row) :=
  inferInstanceAs (Decidable (∀ row ∈ t.rows, p row))

instance {t : Table ρ} {p : ρ → Prop} [DecidablePred p] : Decidable (∃ row ∈ t, p row) :=
  inferInstanceAs (Decidable (∃ row ∈ t.rows, p row))

instance : EmptyCollection (Table ρ) where
  emptyCollection := ⟨[], List.Pairwise.nil, List.nodup_nil⟩

@[simp] theorem not_mem_empty (row : ρ) : row ∉ (∅ : Table ρ) := List.not_mem_nil

theorem eq_of_id {a b : ρ} (ha : a ∈ t) (hb : b ∈ t) (hid : Row.id a = Row.id b) : a = b := by
  have hids : (t.rows.map Row.id).Nodup := by
    rw [List.Nodup, List.pairwise_map]
    exact t.sorted.imp fun hlt => Nat.ne_of_lt hlt
  exact List.inj_on_of_nodup_map hids ha hb hid

theorem eq_of_key {a b : ρ} (ha : a ∈ t) (hb : b ∈ t) (hkey : Row.key a = Row.key b) : a = b :=
  List.inj_on_of_nodup_map t.keys_nodup ha hb hkey

/-! ## Lookup -/

/-- The row with this id. -/
def byId (t : Table ρ) (id : Nat) : Option ρ := t.rows.find? fun row => Row.id row = id

theorem byId_eq_some : t.byId id = some row ↔ row ∈ t ∧ Row.id row = id := by
  constructor
  · intro hfind
    exact ⟨List.mem_of_find?_eq_some hfind, by simpa using List.find?_some hfind⟩
  · rintro ⟨hmem, rfl⟩
    obtain ⟨found, hfound⟩ : ∃ found, t.byId (Row.id row) = some found := by
      rw [← Option.isSome_iff_exists, byId, List.find?_isSome]
      exact ⟨row, hmem, by simp⟩
    have hid := List.find?_some hfound
    rw [hfound, eq_of_id (List.mem_of_find?_eq_some hfound) hmem (by simpa using hid)]

theorem byId_eq_none : t.byId id = none ↔ ∀ row ∈ t, Row.id row ≠ id := by
  simp [byId, mem_rows]

section ByKey

variable [DecidableEq κ]

/-- The row with this key. -/
def byKey (t : Table ρ) (key : κ) : Option ρ := t.rows.find? fun row => Row.key row = key

theorem byKey_eq_some {t : Table ρ} {key : κ} {row : ρ} :
    t.byKey key = some row ↔ row ∈ t ∧ Row.key row = key := by
  constructor
  · intro hfind
    exact ⟨List.mem_of_find?_eq_some hfind, by simpa using List.find?_some hfind⟩
  · rintro ⟨hmem, rfl⟩
    obtain ⟨found, hfound⟩ : ∃ found, t.byKey (Row.key row) = some found := by
      rw [← Option.isSome_iff_exists, byKey, List.find?_isSome]
      exact ⟨row, hmem, by simp⟩
    have hkey := List.find?_some hfound
    rw [hfound, eq_of_key (List.mem_of_find?_eq_some hfound) hmem (by simpa using hkey)]

theorem byKey_eq_none {t : Table ρ} {key : κ} :
    t.byKey key = none ↔ ∀ row ∈ t, Row.key row ≠ key := by
  simp [byKey, mem_rows]

end ByKey

/-! ## Writing -/

/-- One more than the largest id in use. -/
def nextId (t : Table ρ) : Nat := t.rows.foldr (fun row next => max (Row.id row + 1) next) 1

theorem id_lt_nextId (hmem : row ∈ t) : Row.id row < t.nextId := by
  have hrows : ∀ rows : List ρ, row ∈ rows →
      Row.id row < rows.foldr (fun row next => max (Row.id row + 1) next) 1 := by
    intro rows hrow
    induction rows with
    | nil => simp at hrow
    | cons head rest ih =>
      rw [List.foldr_cons]
      rcases List.mem_cons.mp hrow with heq | hrest
      · subst heq
        omega
      · have := ih hrest
        omega
  exact hrows t.rows hmem

/-- Append a row under the next id, with a key that is not yet in the table. -/
def insert (t : Table ρ) (row : ρ) (hid : Row.id row = t.nextId)
    (hkey : ∀ old ∈ t, Row.key old ≠ Row.key row) : Table ρ where
  rows := t.rows ++ [row]
  sorted := by
    rw [List.pairwise_append]
    refine ⟨t.sorted, List.pairwise_singleton _ _, ?_⟩
    intro old hold new hnew
    rw [List.mem_singleton.mp hnew, hid]
    exact id_lt_nextId hold
  keys_nodup := by
    rw [List.map_append, List.nodup_append]
    refine ⟨t.keys_nodup, List.nodup_singleton _, ?_⟩
    intro key hold new hnew
    obtain ⟨old, hmem, rfl⟩ := List.mem_map.mp hold
    rw [List.mem_singleton.mp hnew]
    exact hkey old hmem

@[simp] theorem mem_insert {other : ρ} {hid : Row.id row = t.nextId}
    {hkey : ∀ old ∈ t, Row.key old ≠ Row.key row} :
    other ∈ t.insert row hid hkey ↔ other ∈ t ∨ other = row := by
  simp [← mem_rows, insert]

theorem byId_insert_of_eq_some {old : ρ} {hid : Row.id row = t.nextId}
    {hkey : ∀ old ∈ t, Row.key old ≠ Row.key row} (hfound : t.byId id = some old) :
    (t.insert row hid hkey).byId id = some old := by
  obtain ⟨hmem, heq⟩ := byId_eq_some.mp hfound
  exact byId_eq_some.mpr ⟨mem_insert.mpr (Or.inl hmem), heq⟩

/-- Rewrites that leave a row's id and key alone. -/
structure Rewrite (ρ : Type*) {κ : Type*} [Row ρ κ] where
  apply : ρ → ρ
  id_eq : ∀ row, Row.id (apply row) = Row.id row
  key_eq : ∀ row, Row.key (apply row) = Row.key row

/-- Rewrite the row with this id; a missing id is no error. -/
def modify (t : Table ρ) (id : Nat) (f : Rewrite ρ) : Table ρ where
  rows := t.rows.map fun row => if Row.id row = id then f.apply row else row
  sorted := by
    rw [List.pairwise_map]
    refine t.sorted.imp fun {a b} hlt => ?_
    split <;> split <;> simpa [f.id_eq] using hlt
  keys_nodup := by
    have hkeys : Row.key ∘ (fun row => if Row.id row = id then f.apply row else row) =
        (Row.key : ρ → κ) := by
      funext row
      simp only [Function.comp_apply]
      split
      · exact f.key_eq row
      · rfl
    rw [List.map_map, hkeys]
    exact t.keys_nodup

variable {f : Rewrite ρ}

theorem mem_modify :
    row ∈ t.modify id f ↔
      (row ∈ t ∧ Row.id row ≠ id) ∨ ∃ old ∈ t, Row.id old = id ∧ row = f.apply old := by
  simp only [← mem_rows, modify, List.mem_map]
  constructor
  · rintro ⟨old, hold, rfl⟩
    by_cases hid : Row.id old = id
    · exact Or.inr ⟨old, hold, hid, by simp [hid]⟩
    · exact Or.inl ⟨by simpa [hid] using hold, by simp [hid]⟩
  · rintro (⟨hmem, hid⟩ | ⟨old, hold, hid, rfl⟩)
    · exact ⟨row, hmem, by simp [hid]⟩
    · exact ⟨old, hold, by simp [hid]⟩

/-- Every row keeps a successor with its id and key. -/
theorem exists_mem_modify (id : Nat) (f : Rewrite ρ) (hmem : row ∈ t) :
    ∃ new ∈ t.modify id f, Row.id new = Row.id row ∧ Row.key new = Row.key row := by
  by_cases hid : Row.id row = id
  · exact ⟨f.apply row, mem_modify.mpr (Or.inr ⟨row, hmem, hid, rfl⟩), f.id_eq row, f.key_eq row⟩
  · exact ⟨row, mem_modify.mpr (Or.inl ⟨hmem, hid⟩), rfl, rfl⟩

theorem byId_modify_self : (t.modify id f).byId id = (t.byId id).map f.apply := by
  cases hfound : t.byId id with
  | none =>
    rw [byId_eq_none] at hfound
    rw [Option.map_none, byId_eq_none]
    intro row hrow
    rcases mem_modify.mp hrow with ⟨hold, _⟩ | ⟨old, hold, hid, _⟩
    · exact hfound row hold
    · exact absurd hid (hfound old hold)
  | some row =>
    obtain ⟨hmem, hid⟩ := byId_eq_some.mp hfound
    rw [Option.map_some, byId_eq_some]
    exact ⟨mem_modify.mpr (Or.inr ⟨row, hmem, hid, rfl⟩), (f.id_eq row).trans hid⟩

theorem byId_modify_ne {other : Nat} (hne : other ≠ id) :
    (t.modify id f).byId other = t.byId other := by
  cases hfound : t.byId other with
  | none =>
    rw [byId_eq_none] at hfound ⊢
    intro row hrow
    rcases mem_modify.mp hrow with ⟨hold, _⟩ | ⟨old, _, hid, rfl⟩
    · exact hfound row hold
    · rw [f.id_eq, hid]
      exact hne.symm
  | some row =>
    obtain ⟨hmem, hid⟩ := byId_eq_some.mp hfound
    exact byId_eq_some.mpr ⟨mem_modify.mpr (Or.inl ⟨hmem, by rwa [hid]⟩), hid⟩

/-- Drop the row with this id. -/
def delete (t : Table ρ) (id : Nat) : Table ρ where
  rows := t.rows.filter fun row => Row.id row ≠ id
  sorted := t.sorted.filter _
  keys_nodup := t.keys_nodup.sublist (List.filter_sublist.map _)

@[simp] theorem mem_delete : row ∈ t.delete id ↔ row ∈ t ∧ Row.id row ≠ id := by
  simp [← mem_rows, delete]

theorem byId_delete_ne {other : Nat} (hne : other ≠ id) :
    (t.delete id).byId other = t.byId other := by
  cases hfound : t.byId other with
  | none =>
    rw [byId_eq_none] at hfound ⊢
    exact fun row hrow => hfound row (mem_delete.mp hrow).1
  | some row =>
    obtain ⟨hmem, hid⟩ := byId_eq_some.mp hfound
    exact byId_eq_some.mpr ⟨mem_delete.mpr ⟨hmem, by rwa [hid]⟩, hid⟩

end Table
