import Mathlib.Data.List.Basic

/-!
# Histories

What is written into a log stays there. An event holds since it was written if nothing that was
written after it ended it; a log is justified if every event in it was allowed by those before.
-/

namespace History

variable {ε : Type*} {log more : List ε} {event : ε} {P Q : ε → Prop}

/-- The event is in the log, and all that follows it has the property. -/
def Since (log : List ε) (event : ε) (P : ε → Prop) : Prop :=
  ∃ earlier later, log = earlier ++ event :: later ∧ ∀ e ∈ later, P e

theorem Since.mem (hsince : Since log event P) : event ∈ log := by
  obtain ⟨earlier, later, rfl, -⟩ := hsince
  exact List.mem_append_right _ List.mem_cons_self

theorem Since.mono (hsince : Since log event P) (himp : ∀ e, P e → Q e) : Since log event Q := by
  obtain ⟨earlier, later, hlog, hlater⟩ := hsince
  exact ⟨earlier, later, hlog, fun e he => himp e (hlater e he)⟩

theorem Since.append (hsince : Since log event P) (hmore : ∀ e ∈ more, P e) :
    Since (log ++ more) event P := by
  obtain ⟨earlier, later, rfl, hlater⟩ := hsince
  refine ⟨earlier, later ++ more, by rw [List.append_assoc, List.cons_append], fun e he => ?_⟩
  exact (List.mem_append.mp he).elim (hlater e) (hmore e)

theorem since_append_singleton (log : List ε) (event : ε) (P : ε → Prop) :
    Since (log ++ [event]) event P :=
  ⟨log, [], rfl, fun _ he => absurd he List.not_mem_nil⟩

/-- Each event of the log is allowed by what was written before it. -/
def Justified (allows : List ε → ε → Prop) (log : List ε) : Prop :=
  ∀ earlier event later, log = earlier ++ event :: later → allows earlier event

variable {allows : List ε → ε → Prop}

@[simp] theorem justified_nil : Justified allows [] := by
  intro earlier event later hlog
  simp at hlog

theorem Justified.append_singleton (hjust : Justified allows log) (hallows : allows log event) :
    Justified allows (log ++ [event]) := by
  intro earlier e later hlog
  rcases List.eq_nil_or_concat later with rfl | ⟨init, last, rfl⟩
  · obtain ⟨rfl, hlast⟩ := List.append_inj' hlog rfl
    cases hlast
    exact hallows
  · rw [List.concat_eq_append, ← List.cons_append, ← List.append_assoc] at hlog
    exact hjust earlier e init (List.append_inj' hlog rfl).1

end History
