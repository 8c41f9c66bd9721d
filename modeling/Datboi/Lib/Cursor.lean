import Datboi.Lib.Outcome

/-!
# Programs that move a cursor

A program works on a state that has a position, and it may panic. It is safe if from every state
that satisfies an invariant it does not panic, keeps the invariant and does not move back.
-/

namespace Outcome

variable {σ ε α β : Type} {inv : σ → Prop} {pos : σ → Nat}

/-- A safe program, and what holds of its result. -/
def Safe (inv : σ → Prop) (pos : σ → Nat) (m : StateT σ (Outcome ε) α) (post : α → Prop) : Prop :=
  ∀ s, inv s → (m s).Gives fun next => inv next.2 ∧ pos s ≤ pos next.2 ∧ post next.1

/-- One program, a number of times. -/
def times (m : StateT σ (Outcome ε) α) : Nat → StateT σ (Outcome ε) (List α)
  | 0 => pure []
  | n + 1 => do
      let a ← m
      let rest ← times m n
      pure (a :: rest)

variable {m : StateT σ (Outcome ε) α} {f : α → StateT σ (Outcome ε) β} {post post' : α → Prop}
  {goal : β → Prop}

theorem run_bind (m : StateT σ (Outcome ε) α) (f : α → StateT σ (Outcome ε) β) (s : σ) :
    (m >>= f) s = m s >>= fun next => f next.1 next.2 := rfl

theorem run_lift (x : Outcome ε α) (s : σ) :
    (liftM x : StateT σ (Outcome ε) α) s = x >>= fun a => .ok (a, s) := rfl

theorem Safe.pure {a : α} (ha : post a) :
    Safe inv pos (Pure.pure a : StateT σ (Outcome ε) α) post :=
  fun s hs => gives_ok ⟨hs, Nat.le_refl (pos s), ha⟩

theorem Safe.bind (hm : Safe inv pos m post) (hf : ∀ a, post a → Safe inv pos (f a) goal) :
    Safe inv pos (m >>= f) goal := by
  intro s hs
  refine (hm s hs).bind fun next hnext => ?_
  obtain ⟨hinv, hle, hpost⟩ := hnext
  refine (hf next.1 hpost next.2 hinv).mono fun last hlast => ?_
  exact ⟨hlast.1, Nat.le_trans hle hlast.2.1, hlast.2.2⟩

theorem Safe.mono (hm : Safe inv pos m post) (hpost : ∀ a, post a → post' a) :
    Safe inv pos m post' :=
  fun s hs => (hm s hs).mono fun next hnext => ⟨hnext.1, hnext.2.1, hpost next.1 hnext.2.2⟩

/-- A computation that does not touch the state. -/
theorem Safe.lift {x : Outcome ε α} (hx : x.Gives post) :
    Safe inv pos (liftM x : StateT σ (Outcome ε) α) post :=
  fun s hs => hx.bind fun _ ha => gives_ok ⟨hs, Nat.le_refl (pos s), ha⟩

theorem Safe.lift_ok {x : Outcome ε α} {a : α} (hx : x = .ok a) :
    Safe inv pos (liftM x : StateT σ (Outcome ε) α) fun b => b = a := by
  subst hx
  exact Safe.lift (gives_ok rfl)

theorem Safe.ensure {p : Prop} [Decidable p] {e : ε} :
    Safe inv pos (liftM (Outcome.ensure p e) : StateT σ (Outcome ε) Unit) fun _ => p :=
  Safe.lift gives_ensure

theorem Safe.get : Safe inv pos (get : StateT σ (Outcome ε) σ) inv :=
  fun s hs => gives_ok ⟨hs, Nat.le_refl (pos s), hs⟩

theorem Safe.modify {f : σ → σ} (hf : ∀ s, inv s → inv (f s) ∧ pos s ≤ pos (f s)) :
    Safe inv pos (modify f : StateT σ (Outcome ε) PUnit) fun _ => True :=
  fun s hs => gives_ok ⟨(hf s hs).1, (hf s hs).2, trivial⟩

/-- A position that is behind stays behind. -/
theorem Safe.above (hm : Safe inv pos m post) (start : Nat) :
    Safe (fun s => inv s ∧ start ≤ pos s) pos m post :=
  fun s hs => (hm s hs.1).mono fun _ hnext =>
    ⟨⟨hnext.1, Nat.le_trans hs.2 hnext.2.1⟩, hnext.2⟩

theorem Safe.times (hm : Safe inv pos m post) (n : Nat) :
    Safe inv pos (times m n) fun as => as.length = n ∧ ∀ a ∈ as, post a := by
  induction n with
  | zero => exact Safe.pure ⟨rfl, fun a ha => by cases ha⟩
  | succ n ih =>
    refine Safe.bind hm fun a ha => Safe.bind ih fun rest hrest => Safe.pure ⟨?_, ?_⟩
    · rw [List.length_cons, hrest.1]
    · exact List.forall_mem_cons.mpr ⟨ha, hrest.2⟩

end Outcome
