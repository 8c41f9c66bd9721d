import Mathlib.Data.List.Basic

/-!
# Runs whose moves meet a condition

A system is a state type and a total function for each kind of move. A condition speaks of a
move and the state it is made in. An invariant that every move under the condition keeps
holds after every run along which the condition is met, and between any two of its moves.
-/

namespace Runs

variable {σ μ : Type*} (next : σ → μ → σ)

def run (s : σ) (moves : List μ) : σ := moves.foldl next s

/-- Every move meets the condition in the state it is made in. -/
def Along (meets : σ → μ → Prop) : σ → List μ → Prop
  | _, [] => True
  | s, move :: rest => meets s move ∧ Along meets (next s move) rest

variable {next} {meets : σ → μ → Prop} {s : σ} {move : μ} {first rest : List μ}

@[simp] theorem run_nil : run next s [] = s := rfl

@[simp] theorem run_cons : run next s (move :: rest) = run next (next s move) rest := rfl

theorem run_append : run next s (first ++ rest) = run next (run next s first) rest :=
  List.foldl_append

@[simp] theorem along_cons :
    Along next meets s (move :: rest) ↔ meets s move ∧ Along next meets (next s move) rest :=
  Iff.rfl

theorem along_append :
    Along next meets s (first ++ rest) ↔
      Along next meets s first ∧ Along next meets (run next s first) rest := by
  induction first generalizing s with
  | nil => simp [Along]
  | cons move first ih => rw [List.cons_append, along_cons, along_cons, ih, run_cons, and_assoc]

instance decidableAlong [∀ s move, Decidable (meets s move)] (s : σ) (moves : List μ) :
    Decidable (Along next meets s moves) := by
  induction moves generalizing s with
  | nil => exact isTrue trivial
  | cons move moves ih =>
    have := ih (next s move)
    exact inferInstanceAs (Decidable (_ ∧ _))

/-- What every move under the condition keeps holds after a run under the condition. -/
theorem Along.invariant {inv : σ → Prop}
    (hstep : ∀ s move, inv s → meets s move → inv (next s move))
    (halong : Along next meets s rest) (hinit : inv s) : inv (run next s rest) := by
  induction rest generalizing s with
  | nil => exact hinit
  | cons move rest ih => exact ih halong.2 (hstep s move hinit halong.1)

/-- A relation that holds over every move, and composes, holds over the whole run. -/
theorem Along.relation {inv : σ → Prop} {rel : σ → σ → Prop} (hrefl : ∀ s, rel s s)
    (htrans : ∀ {a b c}, rel a b → rel b c → rel a c)
    (hstep : ∀ s move, inv s → meets s move → inv (next s move) ∧ rel s (next s move))
    (halong : Along next meets s rest) (hinit : inv s) : rel s (run next s rest) := by
  induction rest generalizing s with
  | nil => exact hrefl s
  | cons move rest ih =>
    obtain ⟨hinv, hrel⟩ := hstep s move hinit halong.1
    exact htrans hrel (ih halong.2 hinv)

end Runs
