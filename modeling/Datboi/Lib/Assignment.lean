import Mathlib.Data.Set.Insert

/-!
# Partial assignments

A partial assignment gives a value to some of a family of columns. Two of them agree when
no column has two different values, and then their join holds what either of them says.
Assignments that agree but have a value in common in one of the key columns ought to be
one; `Separate` says that two are not like that, and joining keeps them so.
-/

namespace Assignment

variable {κ : Type*} {β : κ → Type*}

/-- No column has two values. -/
def Agree (a b : ∀ col, Option (β col)) : Prop :=
  ∀ col x y, a col = some x → b col = some y → x = y

/-- The first assignment's values, and the second's where the first has none. -/
def join (a b : ∀ col, Option (β col)) : ∀ col, Option (β col) := fun col => (a col).or (b col)

/-- Whatever the first assignment says the second says as well. -/
def Within (a b : ∀ col, Option (β col)) : Prop := ∀ col x, a col = some x → b col = some x

/-- One of the columns holds the same value in both. -/
def Shares (keys : κ → Prop) (a b : ∀ col, Option (β col)) : Prop :=
  ∃ col, keys col ∧ ∃ x, a col = some x ∧ b col = some x

/-- The assignment says what some part says, and nothing else. -/
def IsUnion (a : ∀ col, Option (β col)) (parts : Set (∀ col, Option (β col))) : Prop :=
  ∀ col x, a col = some x ↔ ∃ part ∈ parts, part col = some x

/-- The two do not agree, or have no key in common. -/
def Separate (keys : κ → Prop) (a b : ∀ col, Option (β col)) : Prop :=
  Agree a b → ¬ Shares keys a b

variable {keys : κ → Prop} {a b c : ∀ col, Option (β col)}

theorem Agree.symm (hagree : Agree a b) : Agree b a :=
  fun col x y hb ha => (hagree col y x ha hb).symm

theorem Agree.mono_left (hagree : Agree b c) (hwithin : Within a b) : Agree a c :=
  fun col x y ha hc => hagree col x y (hwithin col x ha) hc

theorem Agree.mono_right (hagree : Agree a c) (hwithin : Within b c) : Agree a b :=
  (hagree.symm.mono_left hwithin).symm

theorem Shares.symm (hshares : Shares keys a b) : Shares keys b a := by
  obtain ⟨col, hkey, x, ha, hb⟩ := hshares
  exact ⟨col, hkey, x, hb, ha⟩

theorem Separate.symm (hsep : Separate keys a b) : Separate keys b a :=
  fun hagree hshares => hsep hagree.symm hshares.symm

theorem join_eq_some {col : κ} {x : β col} (hjoin : join a b col = some x) :
    a col = some x ∨ b col = some x := by
  unfold join at hjoin
  cases ha : a col with
  | none =>
    rw [ha] at hjoin
    exact Or.inr hjoin
  | some y =>
    rw [ha] at hjoin
    exact Or.inl hjoin

theorem within_join_left (a b : ∀ col, Option (β col)) : Within a (join a b) := by
  intro col x ha
  unfold join
  rw [ha]
  rfl

theorem Agree.within_join_right (hagree : Agree a b) : Within b (join a b) := by
  intro col x hb
  unfold join
  cases ha : a col with
  | none => exact hb
  | some y =>
    rw [← hagree col y x ha hb]
    rfl

/-- Joining what agrees is joining the parts. -/
theorem IsUnion.join {parts parts' : Set (∀ col, Option (β col))} (ha : IsUnion a parts)
    (hb : IsUnion b parts') (hagree : Agree a b) :
    IsUnion (Assignment.join a b) (parts ∪ parts') := by
  intro col x
  constructor
  · intro hjoin
    rcases join_eq_some hjoin with hleft | hright
    · obtain ⟨part, hpart, hx⟩ := (ha col x).mp hleft
      exact ⟨part, Or.inl hpart, hx⟩
    · obtain ⟨part, hpart, hx⟩ := (hb col x).mp hright
      exact ⟨part, Or.inr hpart, hx⟩
  · rintro ⟨part, hpart | hpart, hx⟩
    · exact within_join_left a b col x ((ha col x).mpr ⟨part, hpart, hx⟩)
    · exact hagree.within_join_right col x ((hb col x).mpr ⟨part, hpart, hx⟩)

theorem isUnion_singleton (a : ∀ col, Option (β col)) : IsUnion a {a} := by
  intro col x
  constructor
  · intro ha
    exact ⟨a, rfl, ha⟩
  · rintro ⟨part, rfl, ha⟩
    exact ha

/-- A part of a union agrees with whatever the union agrees with. -/
theorem IsUnion.within {parts : Set (∀ col, Option (β col))} (ha : IsUnion a parts)
    (hb : b ∈ parts) : Within b a :=
  fun col x hx => (ha col x).mpr ⟨b, hb, hx⟩

/-- What is separate from both sides of a join is separate from the join: it shares nothing
new, and a conflict with one side stays. -/
theorem Separate.join (ha : Separate keys c a) (hb : Separate keys c b) (hagree : Agree a b) :
    Separate keys c (Assignment.join a b) := by
  intro hjoin hshares
  have hca : Agree c a := hjoin.mono_right (within_join_left a b)
  have hcb : Agree c b := hjoin.mono_right hagree.within_join_right
  obtain ⟨col, hkey, x, hc, hx⟩ := hshares
  rcases join_eq_some hx with hleft | hright
  · exact ha hca ⟨col, hkey, x, hc, hleft⟩
  · exact hb hcb ⟨col, hkey, x, hc, hright⟩

/-- A key of a union is a key of one of its parts. -/
theorem IsUnion.shares_part {parts : Set (∀ col, Option (β col))} (hb : IsUnion b parts)
    (hshares : Shares keys a b) : ∃ part ∈ parts, Shares keys a part := by
  obtain ⟨col, hkey, x, hx, hbx⟩ := hshares
  obtain ⟨part, hpart, hpartx⟩ := (hb col x).mp hbx
  exact ⟨part, hpart, col, hkey, x, hx, hpartx⟩

end Assignment
