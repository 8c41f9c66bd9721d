/-!
# Computations that only warm a cache

A computation over a cache is determined by what the cache and its backing store
answer together. `Computes R m r s` says that `m`, started at `s`, returns `r` and
ends in a state that `R` relates to `s`; when `R` is "gives the same answers", the
cache can be forgotten and `m` read as the pure result `r`.
-/

namespace Memo

variable {ε σ α β : Type} {R : σ → σ → Prop}

/-- `m` returns `r` at `s` and stays within `R`. -/
def Computes (R : σ → σ → Prop) (m : EStateM ε σ α) (r : Except ε α) (s : σ) : Prop :=
  ∃ s', R s s' ∧
    m s = match r with
      | .ok a => .ok a s'
      | .error e => .error e s'

theorem computes_pure {s : σ} (hrefl : R s s) (a : α) :
    Computes R (pure a : EStateM ε σ α) (.ok a) s := ⟨s, hrefl, rfl⟩

theorem computes_throw {s : σ} (hrefl : R s s) (e : ε) :
    Computes R (throw e : EStateM ε σ α) (.error e) s := ⟨s, hrefl, rfl⟩

theorem Computes.of_ok {m : EStateM ε σ α} {r : Except ε α} {s s' : σ} {a : α}
    (hm : Computes R m r s) (hrun : m s = .ok a s') : r = .ok a ∧ R s s' := by
  obtain ⟨s'', hs'', heq⟩ := hm
  cases r with
  | ok b =>
    rw [hrun] at heq
    cases heq
    exact ⟨rfl, hs''⟩
  | error e =>
    rw [hrun] at heq
    cases heq

theorem Computes.of_error {m : EStateM ε σ α} {r : Except ε α} {s s' : σ} {e : ε}
    (hm : Computes R m r s) (hrun : m s = .error e s') : r = .error e := by
  obtain ⟨s'', _, heq⟩ := hm
  cases r with
  | ok b =>
    rw [hrun] at heq
    cases heq
  | error e' =>
    rw [hrun] at heq
    cases heq
    rfl

section Compose

variable [Trans R R R]

theorem Computes.bind {m : EStateM ε σ α} {f : α → EStateM ε σ β} {r : Except ε α}
    {g : α → Except ε β} {s : σ} (hm : Computes R m r s)
    (hf : ∀ a s', R s s' → Computes R (f a) (g a) s') :
    Computes R (m >>= f) (r >>= g) s := by
  obtain ⟨s', hs', hrun⟩ := hm
  cases r with
  | error e =>
    refine ⟨s', hs', ?_⟩
    change EStateM.bind m f s = _
    rw [EStateM.bind, hrun]
    rfl
  | ok a =>
    obtain ⟨s'', hs'', hnext⟩ := hf a s' hs'
    refine ⟨s'', Trans.trans hs' hs'', ?_⟩
    change EStateM.bind m f s = _
    rw [EStateM.bind, hrun]
    exact hnext

theorem Computes.tryCatch {m : EStateM ε σ α} {handle : ε → EStateM ε σ α} {r : Except ε α}
    {g : ε → Except ε α} {s : σ} (hm : Computes R m r s)
    (hhandle : ∀ e s', R s s' → Computes R (handle e) (g e) s') :
    Computes R (tryCatch m handle) (tryCatch r g) s := by
  obtain ⟨s', hs', hrun⟩ := hm
  cases r with
  | ok a =>
    refine ⟨s', hs', ?_⟩
    change EStateM.tryCatch m handle s = _
    delta EStateM.tryCatch
    rw [hrun]
    rfl
  | error e =>
    obtain ⟨s'', hs'', hnext⟩ := hhandle e s' hs'
    refine ⟨s'', Trans.trans hs' hs'', ?_⟩
    change EStateM.tryCatch m handle s = _
    delta EStateM.tryCatch
    rw [hrun]
    exact hnext

end Compose

end Memo
