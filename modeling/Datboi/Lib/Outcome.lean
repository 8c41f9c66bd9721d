import Mathlib.Algebra.GroupWithZero.Nat
import Mathlib.Data.List.Basic

/-!
# Results of code that can panic

A computation ends with a value or an error, or it panics: an index is out of bounds, or checked
arithmetic overflows. That a computation returns means that it does not panic.
-/

inductive Outcome (ε α : Type) where
  | ok (a : α)
  | error (e : ε)
  | panic
  deriving DecidableEq, Repr

namespace Outcome

variable {ε α β : Type}

def bind (x : Outcome ε α) (f : α → Outcome ε β) : Outcome ε β :=
  match x with
  | ok a => f a
  | error e => error e
  | panic => panic

instance : Monad (Outcome ε) where
  pure := ok
  bind := bind

instance : LawfulMonad (Outcome ε) :=
  LawfulMonad.mk' (Outcome ε) (fun x => by cases x <;> rfl) (fun _ _ => rfl)
    (fun x _ _ => by cases x <;> rfl)

/-- The result, or a panic if there is none. -/
def ofOption : Option α → Outcome ε α
  | some a => ok a
  | none => panic

/-- A check that fails with an error. -/
def ensure (p : Prop) [Decidable p] (e : ε) : Outcome ε Unit := if p then ok () else error e

/-- A check that panics. -/
def demand (p : Prop) [Decidable p] : Outcome ε Unit := if p then ok () else panic

/-- Arithmetic on words of a width, with overflow checks. -/
def mulIn (width a b : Nat) : Outcome ε Nat := if a * b < 2 ^ width then ok (a * b) else panic

def addIn (width a b : Nat) : Outcome ε Nat := if a + b < 2 ^ width then ok (a + b) else panic

@[simp] theorem pure_eq (a : α) : (pure a : Outcome ε α) = ok a := rfl

@[simp] theorem ok_bind (a : α) (f : α → Outcome ε β) : ok a >>= f = f a := rfl

@[simp] theorem error_bind (e : ε) (f : α → Outcome ε β) : error e >>= f = error e := rfl

@[simp] theorem panic_bind (f : α → Outcome ε β) : panic >>= f = panic := rfl

variable {x : Outcome ε α} {p : Prop} {e : ε} {width : Nat} {post : α → Prop}

theorem bind_eq_ok {f : α → Outcome ε β} {b : β} : x >>= f = ok b ↔ ∃ a, x = ok a ∧ f a = ok b := by
  cases x with
  | ok a => simp
  | error e => simp
  | panic => simp

theorem bind_ne_panic {f : α → Outcome ε β} :
    x >>= f ≠ panic ↔ x ≠ panic ∧ ∀ a, x = ok a → f a ≠ panic := by
  cases x with
  | ok a => simp
  | error e => simp
  | panic => simp

theorem ensure_eq_ok [Decidable p] {u : Unit} : ensure p e = ok u ↔ p := by
  unfold ensure
  split <;> simp [*]

theorem demand_eq_ok [Decidable p] {u : Unit} : (demand p : Outcome ε Unit) = ok u ↔ p := by
  unfold demand
  split <;> simp [*]

theorem ensure_ne_panic [Decidable p] : ensure p e ≠ panic := by
  unfold ensure
  split <;> simp

theorem mulIn_eq_ok {a b c : Nat} :
    (mulIn width a b : Outcome ε Nat) = ok c ↔ a * b < 2 ^ width ∧ a * b = c := by
  unfold mulIn
  split <;> simp [*]

theorem mulIn_ne_panic {a b : Nat} :
    (mulIn width a b : Outcome ε Nat) ≠ panic ↔ a * b < 2 ^ width := by
  unfold mulIn
  split <;> simp [*]

theorem addIn_eq_ok {a b c : Nat} :
    (addIn width a b : Outcome ε Nat) = ok c ↔ a + b < 2 ^ width ∧ a + b = c := by
  unfold addIn
  split <;> simp [*]

/-- The computation does not panic, and its result, if any, has a property. -/
def Gives (x : Outcome ε α) (post : α → Prop) : Prop :=
  x ≠ panic ∧ ∀ a, x = ok a → post a

theorem gives_ok {a : α} (ha : post a) : (ok a : Outcome ε α).Gives post := by
  simpa [Gives] using ha

theorem gives_error : (error e).Gives post := by
  simp [Gives]

theorem Gives.bind {f : α → Outcome ε β} {goal : β → Prop} (hx : x.Gives post)
    (hf : ∀ a, post a → (f a).Gives goal) : (x >>= f).Gives goal := by
  cases x with
  | ok a => exact hf a (hx.2 a rfl)
  | error e => exact gives_error
  | panic => exact absurd rfl hx.1

theorem Gives.mono {post' : α → Prop} (hx : x.Gives post) (hpost : ∀ a, post a → post' a) :
    x.Gives post' :=
  ⟨hx.1, fun a ha => hpost a (hx.2 a ha)⟩

theorem gives_ensure [Decidable p] : (ensure p e).Gives fun _ => p :=
  ⟨ensure_ne_panic, fun _ hok => ensure_eq_ok.mp hok⟩

/-- The rule for a loop: what every step keeps holds at the end, and if no step panics where it
holds, the loop does not. -/
theorem foldlM_spec {σ : Type} {f : σ → α → Outcome ε σ} {xs : List α} {s : σ}
    (inv : σ → List α → Prop) (hs : inv s xs)
    (hstep : ∀ t x rest, inv t (x :: rest) →
      f t x ≠ panic ∧ ∀ t', f t x = ok t' → inv t' rest) :
    xs.foldlM f s ≠ panic ∧ ∀ t, xs.foldlM f s = ok t → inv t [] := by
  induction xs generalizing s with
  | nil =>
    refine ⟨by simp, fun t ht => ?_⟩
    cases ht
    exact hs
  | cons x xs ih =>
    obtain ⟨hsafe, hkept⟩ := hstep s x xs hs
    rw [List.foldlM_cons]
    refine ⟨bind_ne_panic.mpr ⟨hsafe, fun t ht => (ih (hkept t ht)).1⟩, fun t ht => ?_⟩
    obtain ⟨t', ht', hrest⟩ := bind_eq_ok.mp ht
    exact (ih (hkept t' ht')).2 t hrest

theorem foldlM_ne_panic {σ : Type} {f : σ → α → Outcome ε σ} {xs : List α} (s : σ)
    (hstep : ∀ t, ∀ x ∈ xs, f t x ≠ panic) : xs.foldlM f s ≠ panic := by
  have hinv := foldlM_spec (f := f) (s := s) (fun _ rest => ∀ x ∈ rest, x ∈ xs) (fun _ h => h)
    fun t x rest hrest => ⟨hstep t x (hrest x List.mem_cons_self),
      fun _ _ y hy => hrest y (List.mem_cons_of_mem x hy)⟩
  exact hinv.1

end Outcome
