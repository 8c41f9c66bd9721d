/-!
# How a fallible computation moves its state

A computation that fails keeps the writes it made before. `final` is the state it
ends in either way, and `Moves R m s` says that this state is related to the one it
started from; the rules below derive it for a compound computation from its parts.
-/

namespace Moves

variable {ε σ α β : Type} {R : σ → σ → Prop}

/-- The state a run ends in, whether it succeeded or not. -/
def final : EStateM.Result ε σ α → σ
  | .ok _ s => s
  | .error _ s => s

@[simp] theorem final_ok (a : α) (s : σ) : final (.ok a s : EStateM.Result ε σ α) = s := rfl

@[simp] theorem final_error (e : ε) (s : σ) :
    final (.error e s : EStateM.Result ε σ α) = s := rfl

/-- Did the run fail? -/
def failed : EStateM.Result ε σ α → Bool
  | .ok _ _ => false
  | .error _ _ => true

theorem eq_error_of_failed {result : EStateM.Result ε σ α} (hfailed : failed result = true) :
    ∃ e, result = .error e (final result) := by
  cases result with
  | ok a s => cases hfailed
  | error e s => exact ⟨e, rfl⟩

theorem eq_ok_of_not_failed {result : EStateM.Result ε σ α} (hfailed : failed result = false) :
    ∃ a s, result = .ok a s := by
  cases result with
  | ok a s => exact ⟨a, s, rfl⟩
  | error e s => cases hfailed

/-- The run of `m` from `s` ends in a state that `R` relates to `s`. -/
def Moves (R : σ → σ → Prop) (m : EStateM ε σ α) (s : σ) : Prop := R s (final (m s))

theorem bind_apply (m : EStateM ε σ α) (f : α → EStateM ε σ β) (s : σ) :
    (m >>= f) s = match m s with
      | .ok a s' => f a s'
      | .error e s' => .error e s' := rfl

variable {m : EStateM ε σ α} {s : σ}

/-- A run of a sequence either stops in its first part or continues in its second. -/
theorem bind_eq_ok {f : α → EStateM ε σ β} {s' : σ} {b : β} (hrun : (m >>= f) s = .ok b s') :
    ∃ a mid, m s = .ok a mid ∧ f a mid = .ok b s' := by
  rw [bind_apply] at hrun
  cases hm : m s with
  | ok a mid =>
    rw [hm] at hrun
    exact ⟨a, mid, rfl, hrun⟩
  | error e mid =>
    rw [hm] at hrun
    cases hrun

theorem bind_eq_error {f : α → EStateM ε σ β} {s' : σ} {e : ε} (hrun : (m >>= f) s = .error e s') :
    m s = .error e s' ∨ ∃ a mid, m s = .ok a mid ∧ f a mid = .error e s' := by
  rw [bind_apply] at hrun
  cases hm : m s with
  | ok a mid =>
    rw [hm] at hrun
    exact Or.inr ⟨a, mid, rfl, hrun⟩
  | error e' mid =>
    rw [hm] at hrun
    cases hrun
    exact Or.inl rfl

/-- What holds of the final state of a sequence: of its first part where that fails, of its
second part otherwise. -/
theorem final_bind {P : σ → Prop} {f : α → EStateM ε σ β}
    (herror : ∀ e s', m s = .error e s' → P s')
    (hok : ∀ a s', m s = .ok a s' → P (final (f a s'))) : P (final ((m >>= f) s)) := by
  rw [bind_apply]
  cases hrun : m s with
  | ok a mid => exact hok a mid hrun
  | error e mid => exact herror e mid hrun

/-- A result that is only repackaged. -/
theorem final_bind_pure (m : EStateM ε σ α) (g : α → β) (s : σ) :
    final ((m >>= fun a => pure (g a)) s) = final (m s) := by
  rw [bind_apply]
  cases m s <;> rfl

/-- The same inversion where there is no state. -/
theorem except_bind_eq_ok {x : Except ε α} {f : α → Except ε β} {b : β} :
    (x >>= f) = .ok b ↔ ∃ a, x = .ok a ∧ f a = .ok b := by
  cases x with
  | ok a =>
    constructor
    · intro hrun
      exact ⟨a, rfl, hrun⟩
    · rintro ⟨_, ha, hrun⟩
      cases ha
      exact hrun
  | error e =>
    constructor
    · intro hrun
      cases hrun
    · rintro ⟨_, ha, _⟩
      cases ha

theorem except_bind_eq_error {x : Except ε α} {f : α → Except ε β} {e : ε} :
    (x >>= f) = .error e ↔ x = .error e ∨ ∃ a, x = .ok a ∧ f a = .error e := by
  cases x with
  | ok a =>
    constructor
    · intro hrun
      exact Or.inr ⟨a, rfl, hrun⟩
    · rintro (ha | ⟨_, ha, hrun⟩)
      · cases ha
      · cases ha
        exact hrun
  | error e' =>
    constructor
    · intro hrun
      cases hrun
      exact Or.inl rfl
    · rintro (ha | ⟨_, ha, _⟩)
      · cases ha
        rfl
      · cases ha

theorem moves_bind [Trans R R R] {f : α → EStateM ε σ β} (hm : Moves R m s)
    (hf : ∀ a s', m s = .ok a s' → Moves R (f a) s') : Moves R (m >>= f) s := by
  rw [Moves, bind_apply]
  rw [Moves] at hm
  cases hrun : m s with
  | ok a mid =>
    rw [hrun] at hm
    exact Trans.trans hm (hf a mid hrun)
  | error e mid =>
    rw [hrun] at hm
    exact hm

/-- The rule for a second part that needs to know how far the first one moved. -/
theorem moves_bind_reached [Trans R R R] {f : α → EStateM ε σ β} (hm : Moves R m s)
    (hf : ∀ a s', m s = .ok a s' → R s s' → Moves R (f a) s') : Moves R (m >>= f) s := by
  refine moves_bind hm fun a s' hrun => hf a s' hrun ?_
  rwa [Moves, hrun] at hm

end Moves
