import Mathlib.Data.Finset.Card
import Mathlib.Data.Finset.Union
import Mathlib.Order.Bounds.Basic

/-!
# Saturation of a finite rule table

A rule has a list of premises and a list of conclusions, and several rules may
share conclusions or feed one another in cycles. `Derivable` is the least set
that holds a base and is closed under the rules; `saturate` computes it by
rounds, each of which reads only the set its predecessor left. The exchange
lemma says what removing one base element and some of the rules can lose.
-/

namespace Saturation

variable {α : Type*}

/-- All premises together yield every conclusion. -/
structure Rule (α : Type*) where
  premises : List α
  conclusions : List α
  deriving DecidableEq

/-- A set that every rule maps into itself. -/
def ClosedUnder (rules : Set (Rule α)) (s : Set α) : Prop :=
  ∀ rule ∈ rules, (∀ a ∈ rule.premises, a ∈ s) → ∀ a ∈ rule.conclusions, a ∈ s

/-- Finite derivations from a base. -/
inductive Derivable (rules : Set (Rule α)) (base : Set α) : α → Prop
  | base {a : α} (ha : a ∈ base) : Derivable rules base a
  | fire {rule : Rule α} {a : α} (hrule : rule ∈ rules)
      (hpremises : ∀ b ∈ rule.premises, Derivable rules base b)
      (ha : a ∈ rule.conclusions) : Derivable rules base a

/-- The set of derivable elements. -/
def closure (rules : Set (Rule α)) (base : Set α) : Set α :=
  {a | Derivable rules base a}

section Closure

variable {rules rules' : Set (Rule α)} {base base' : Set α}

theorem subset_closure : base ⊆ closure rules base := fun _ ha => .base ha

theorem closedUnder_closure : ClosedUnder rules (closure rules base) :=
  fun _ hrule hpremises _ ha => .fire hrule hpremises ha

/-- Leastness, as the induction rule used below. -/
theorem closure_subset {s : Set α} (hbase : base ⊆ s) (hclosed : ClosedUnder rules s) :
    closure rules base ⊆ s := by
  intro a ha
  induction ha with
  | base ha => exact hbase ha
  | fire hrule _ ha ih => exact hclosed _ hrule ih _ ha

theorem isLeast_closure :
    IsLeast {s : Set α | base ⊆ s ∧ ClosedUnder rules s} (closure rules base) :=
  ⟨⟨subset_closure, closedUnder_closure⟩, fun _ hs => closure_subset hs.1 hs.2⟩

theorem ClosedUnder.mono {s : Set α} (hrules : rules ⊆ rules')
    (hclosed : ClosedUnder rules' s) : ClosedUnder rules s :=
  fun rule hrule => hclosed rule (hrules hrule)

/-- A base that is itself derivable adds nothing. -/
theorem closure_subset_closure (hrules : rules ⊆ rules')
    (hbase : base ⊆ closure rules' base') :
    closure rules base ⊆ closure rules' base' :=
  closure_subset hbase (closedUnder_closure.mono hrules)

theorem closure_mono (hrules : rules ⊆ rules') (hbase : base ⊆ base') :
    closure rules base ⊆ closure rules' base' :=
  closure_subset_closure hrules (hbase.trans subset_closure)

/-- The cut: an element derivable without its own copy in the base may leave the
base, and nothing else is lost. Cycles through the element do not matter, since
the hypothesis is a finite derivation that avoids it. -/
theorem closure_diff_eq {a : α} (ha : a ∈ closure rules (base \ {a})) :
    closure rules (base \ {a}) = closure rules base := by
  apply Set.Subset.antisymm (closure_mono le_rfl Set.sdiff_subset)
  apply closure_subset_closure le_rfl
  intro b hb
  by_cases heq : b = a
  · exact heq ▸ ha
  · exact subset_closure ⟨hb, heq⟩

variable (rules rules') in
/-- Exchange: losing one base element and some of the rules costs nothing else if
and only if the rules that use the element, or that went away, conclude nothing
that is not derivable otherwise. -/
theorem closure_subset_union_iff {a : α} (hbase : base ⊆ base' ∪ {a}) :
    closure rules base ⊆ closure rules' base' ∪ {a} ↔
      ∀ rule ∈ rules, (∀ b ∈ rule.premises, b ∈ closure rules base) →
        (rule ∉ rules' ∨ a ∈ rule.premises) →
        ∀ b ∈ rule.conclusions, b ∈ closure rules' base' ∪ {a} := by
  constructor
  · intro hsubset rule hrule hpremises _ b hb
    exact hsubset (.fire hrule hpremises hb)
  · intro hlost b hb
    induction hb with
    | base hb =>
      rcases hbase hb with hkept | heq
      · exact Or.inl (.base hkept)
      · exact Or.inr heq
    | @fire rule b hrule hpremises hb ih =>
      by_cases haffected : rule ∉ rules' ∨ a ∈ rule.premises
      · exact hlost rule hrule hpremises haffected b hb
      · push Not at haffected
        refine Or.inl (.fire haffected.1 (fun c hc => ?_) hb)
        rcases ih c hc with hkept | heq
        · exact hkept
        · exact absurd (heq ▸ hc) haffected.2

end Closure

/-! ## Computing the closure in rounds -/

section Rounds

variable [DecidableEq α]

/-- Conclusions of the rules whose premises are all known. -/
def fired (rules : List (Rule α)) (known : Finset α) : Finset α :=
  ((rules.filter fun rule => rule.premises.all (· ∈ known)).flatMap Rule.conclusions).toFinset

/-- One round: everything that fires on the known set joins it. -/
def round (rules : List (Rule α)) (known : Finset α) : Finset α :=
  known ∪ fired rules known

/-- Repeat the round until it adds nothing. The fuel bounds the number of
rounds; `none` means that it ran out. -/
def saturateLoop (rules : List (Rule α)) : Nat → Finset α → Option (Finset α)
  | 0, _ => none
  | fuel + 1, known =>
    let next := round rules known
    if next = known then some known else saturateLoop rules fuel next

variable {known : Finset α}

@[simp] theorem mem_fired {rules : List (Rule α)} {a : α} :
    a ∈ fired rules known ↔
      ∃ rule ∈ rules, (∀ b ∈ rule.premises, b ∈ known) ∧ a ∈ rule.conclusions := by
  simp [fired, and_assoc]

theorem subset_round (rules : List (Rule α)) (known : Finset α) :
    known ⊆ round rules known := Finset.subset_union_left

/-- Every round stays inside any closed set that already holds what is known. -/
theorem round_subset {rules : List (Rule α)} {s : Set α} (hknown : ↑known ⊆ s)
    (hclosed : ClosedUnder {rule | rule ∈ rules} s) : ↑(round rules known) ⊆ s := by
  intro a ha
  rcases Finset.mem_union.mp (Finset.mem_coe.mp ha) with hold | hfired
  · exact hknown hold
  · obtain ⟨rule, hrule, hpremises, hconclusion⟩ := mem_fired.mp hfired
    exact hclosed rule hrule (fun b hb => hknown (hpremises b hb)) a hconclusion

theorem closedUnder_of_round_eq {rules : List (Rule α)} (hstable : round rules known = known) :
    ClosedUnder {rule | rule ∈ rules} (↑known : Set α) := by
  intro rule hrule hpremises a ha
  have hmem : a ∈ round rules known :=
    Finset.mem_union_right _ (mem_fired.mpr ⟨rule, hrule, hpremises, ha⟩)
  exact hstable ▸ hmem

/-- All conclusions of the table: the only elements a round can add. -/
def heads (rules : List (Rule α)) : Finset α :=
  (rules.flatMap Rule.conclusions).toFinset

theorem fired_subset_heads (rules : List (Rule α)) (known : Finset α) :
    fired rules known ⊆ heads rules := by
  intro a ha
  obtain ⟨rule, hrule, _, hconclusion⟩ := mem_fired.mp ha
  exact List.mem_toFinset.mpr (List.mem_flatMap.mpr ⟨rule, hrule, hconclusion⟩)

/-- A round that changes something brings in a head that was missing. -/
theorem card_heads_sdiff_round_lt {rules : List (Rule α)} (hgrows : round rules known ≠ known) :
    (heads rules \ round rules known).card < (heads rules \ known).card := by
  apply Finset.card_lt_card
  refine ⟨Finset.sdiff_subset_sdiff le_rfl (subset_round rules known), ?_⟩
  intro hsubset
  apply hgrows
  apply Finset.Subset.antisymm _ (subset_round rules known)
  intro a ha
  rcases Finset.mem_union.mp ha with hold | hfired
  · exact hold
  · by_contra hnew
    have hmissing := hsubset (Finset.mem_sdiff.mpr ⟨fired_subset_heads rules known hfired, hnew⟩)
    exact (Finset.mem_sdiff.mp hmissing).2 ha

/-- The loop ends on every table: one round for each missing head, and one that
adds nothing. -/
theorem exists_saturateLoop_eq_some (rules : List (Rule α)) (fuel : Nat) (known : Finset α)
    (hfuel : (heads rules \ known).card < fuel) :
    ∃ result, saturateLoop rules fuel known = some result := by
  induction fuel generalizing known with
  | zero => exact absurd hfuel (Nat.not_lt_zero _)
  | succ fuel ih =>
    by_cases hstable : round rules known = known
    · exact ⟨known, by simp [saturateLoop, hstable]⟩
    · have hless := card_heads_sdiff_round_lt hstable
      obtain ⟨result, hresult⟩ := ih (round rules known) (by omega)
      exact ⟨result, by simp [saturateLoop, hstable, hresult]⟩

/-- Whatever the loop returns is the closure of the set it started from. -/
theorem coe_eq_closure_of_saturateLoop {rules : List (Rule α)} {fuel : Nat} {result : Finset α}
    (hresult : saturateLoop rules fuel known = some result) :
    (↑result : Set α) = closure {rule | rule ∈ rules} ↑known := by
  induction fuel generalizing known with
  | zero => simp [saturateLoop] at hresult
  | succ fuel ih =>
    by_cases hstable : round rules known = known
    · simp only [saturateLoop, hstable, ↓reduceIte, Option.some.injEq] at hresult
      subst result
      exact Set.Subset.antisymm subset_closure
        (closure_subset le_rfl (closedUnder_of_round_eq hstable))
    · simp only [saturateLoop, hstable, ↓reduceIte] at hresult
      rw [ih hresult]
      apply Set.Subset.antisymm
      · exact closure_subset_closure le_rfl
          (round_subset subset_closure closedUnder_closure)
      · exact closure_mono le_rfl (Finset.coe_subset.mpr (subset_round rules known))

/-- Rounds from `base` until nothing is added, with fuel for the worst case. -/
def saturate (rules : List (Rule α)) (base : Finset α) : Finset α :=
  (saturateLoop rules ((heads rules).card + 1) base).getD base

theorem saturateLoop_eq_some_saturate (rules : List (Rule α)) (base : Finset α) :
    saturateLoop rules ((heads rules).card + 1) base = some (saturate rules base) := by
  have hcard : (heads rules \ base).card ≤ (heads rules).card :=
    Finset.card_le_card Finset.sdiff_subset
  obtain ⟨result, hresult⟩ := exists_saturateLoop_eq_some rules ((heads rules).card + 1) base
    (by omega)
  simp [saturate, hresult]

/-- `saturate` computes the closure exactly. -/
theorem coe_saturate (rules : List (Rule α)) (base : Finset α) :
    (↑(saturate rules base) : Set α) = closure {rule | rule ∈ rules} ↑base :=
  coe_eq_closure_of_saturateLoop (saturateLoop_eq_some_saturate rules base)

end Rounds

end Saturation
