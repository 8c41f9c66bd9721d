import Datboi.Catalog.Selection
import Mathlib.Data.Char
import Mathlib.Data.List.Lex
import Mathlib.Logic.Relation

/-!
# One pick per family

Scores are ordered by their fields in turn, so a family has a first candidate, and only one
unless two of them score alike. The pick is that candidate; who else is listed, in which order,
and under a strict policy what is held, does not change it.
-/

namespace Datboi.Catalog

namespace Selection

/-! ## The order of scores -/

theorem thenBy_trans {a b c : Nat} {p q r : Prop} (hab : thenBy a b p) (hbc : thenBy b c q)
    (hrest : p → q → r) : thenBy a c r := by
  rcases hab with hlt | ⟨rfl, hp⟩
  · rcases hbc with hlt' | ⟨rfl, _⟩
    · exact Or.inl (Nat.lt_trans hlt hlt')
    · exact Or.inl hlt
  · rcases hbc with hlt' | ⟨rfl, hq⟩
    · exact Or.inl hlt'
    · exact Or.inr ⟨rfl, hrest hp hq⟩

theorem thenBy_irrefl {a : Nat} {p : Prop} (hp : ¬ p) : ¬ thenBy a a p := by
  rintro (hlt | ⟨_, hrest⟩)
  · exact Nat.lt_irrefl a hlt
  · exact hp hrest

theorem thenBy_total {a b : Nat} {p q r : Prop} (hrest : a = b → p ∨ q ∨ r) :
    thenBy a b p ∨ thenBy b a q ∨ (a = b ∧ r) := by
  rcases Nat.lt_trichotomy a b with hlt | heq | hlt
  · exact Or.inl (Or.inl hlt)
  · rcases hrest heq with hp | hq | hr
    · exact Or.inl (Or.inr ⟨heq, hp⟩)
    · exact Or.inr (Or.inl (Or.inr ⟨heq.symm, hq⟩))
    · exact Or.inr (Or.inr ⟨heq, hr⟩)
  · exact Or.inr (Or.inl (Or.inl hlt))

namespace Score

variable {a b c : Score}

theorem before_trans (hab : a.before b) (hbc : b.before c) : a.before c := by
  apply thenBy_trans hab hbc
  intro hab hbc
  apply thenBy_trans hab hbc
  intro hab hbc
  apply thenBy_trans hab hbc
  intro hab hbc
  apply thenBy_trans hab hbc
  intro hab hbc
  -- The later revision comes first, so this field runs the other way.
  rcases hab with hlt | ⟨heq, hab⟩
  · rcases hbc with hlt' | ⟨heq', _⟩
    · exact Or.inl (Nat.lt_trans hlt' hlt)
    · exact Or.inl (heq' ▸ hlt)
  · rcases hbc with hlt' | ⟨heq', hbc⟩
    · exact Or.inl (heq ▸ hlt')
    · exact Or.inr ⟨heq'.trans heq, lt_trans hab hbc⟩

theorem before_irrefl : ¬ a.before a :=
  thenBy_irrefl (thenBy_irrefl (thenBy_irrefl (thenBy_irrefl (thenBy_irrefl (lt_irrefl a.name)))))

theorem before_total (a b : Score) : a.before b ∨ b.before a ∨ a = b := by
  have hname := lt_trichotomy a.name b.name
  have hrevision : thenBy b.revision a.revision (a.name < b.name) ∨
      thenBy a.revision b.revision (b.name < a.name) ∨
        (b.revision = a.revision ∧ a.name = b.name) :=
    thenBy_total fun _ => by
      rcases hname with hlt | heq | hlt
      · exact Or.inl hlt
      · exact Or.inr (Or.inr heq)
      · exact Or.inr (Or.inl hlt)
  have hfields := thenBy_total (a := a.heldRank) (b := b.heldRank) fun _ =>
    thenBy_total (a := a.devFlag) (b := b.devFlag) fun _ =>
      thenBy_total (a := a.region) (b := b.region) fun _ =>
        thenBy_total (a := a.lang) (b := b.lang) fun _ => hrevision
  refine hfields.imp_right (Or.imp_right ?_)
  rintro ⟨hheld, hdev, hregion, hlang, hrevision, hname⟩
  cases a
  cases b
  simp only [mk.injEq]
  exact ⟨hheld, hdev, hregion, hlang, hrevision.symm, hname⟩

/-- What is not after something that is not after a third is not after the third. -/
theorem not_before_trans (hab : ¬ a.before b) (hbc : ¬ b.before c) : ¬ a.before c := by
  intro hac
  rcases before_total b c with hlt | hlt | rfl
  · exact hbc hlt
  · exact hab (before_trans hac hlt)
  · exact hab hac

end Score

/-! ## The best of a family -/

variable {policy : SelectionPolicy} {family : List Candidate} {c d : Candidate}

theorem best_eq_none : best policy family = none ↔ family = [] := by
  cases family with
  | nil => simp [best]
  | cons c family =>
    constructor
    · intro hnone
      unfold best at hnone
      split at hnone
      · cases hnone
      · split at hnone <;> cases hnone
    · intro hnil
      cases hnil

/-- The best candidate is one of the family, and none comes before it. -/
theorem best_spec (hbest : best policy family = some c) :
    c ∈ family ∧ ∀ d ∈ family, ¬ (score policy d).before (score policy c) := by
  induction family generalizing c with
  | nil => cases hbest
  | cons head family ih =>
    unfold best at hbest
    split at hbest
    · rename_i hnone
      cases hbest
      rw [best_eq_none.mp hnone]
      refine ⟨List.mem_cons_self, fun d hd => ?_⟩
      rw [List.mem_singleton.mp hd]
      exact Score.before_irrefl
    · rename_i other hother
      obtain ⟨hmem, hleast⟩ := ih hother
      split at hbest
      · rename_i hbefore
        cases hbest
        refine ⟨List.mem_cons_of_mem head hmem, List.forall_mem_cons.mpr ⟨?_, hleast⟩⟩
        exact fun hback => Score.before_irrefl (Score.before_trans hback hbefore)
      · rename_i hafter
        cases hbest
        refine ⟨List.mem_cons_self, List.forall_mem_cons.mpr ⟨Score.before_irrefl, ?_⟩⟩
        exact fun d hd => Score.not_before_trans (hleast d hd) hafter

theorem best_perm {family' : List Candidate} (hperm : family.Perm family')
    (hties : ∀ c ∈ family, ∀ d ∈ family, score policy c = score policy d → c = d) :
    best policy family = best policy family' := by
  cases hbest : best policy family with
  | none =>
    rw [best_eq_none.mp hbest, List.nil_perm] at hperm
    rw [hperm]
    rfl
  | some c =>
    cases hbest' : best policy family' with
    | none =>
      rw [best_eq_none.mp hbest', List.perm_nil] at hperm
      rw [hperm] at hbest
      cases hbest
    | some d =>
      obtain ⟨hc, hleast⟩ := best_spec hbest
      obtain ⟨hd, hleast'⟩ := best_spec hbest'
      have hd := hperm.mem_iff.mpr hd
      have heq : score policy c = score policy d := by
        rcases Score.before_total (score policy c) (score policy d) with hlt | hlt | heq
        · exact absurd hlt (hleast' c (hperm.mem_iff.mp hc))
        · exact absurd hlt (hleast d hd)
        · exact heq
      rw [hties c hc d hd heq]

theorem best_map {f : Candidate → Candidate} (hscore : ∀ c, score policy (f c) = score policy c)
    (family : List Candidate) : best policy (family.map f) = (best policy family).map f := by
  induction family with
  | nil => rfl
  | cons c family ih =>
    rw [List.map_cons, best, ih, best]
    cases best policy family with
    | none => rfl
    | some other =>
      simp only [Option.map_some, hscore]
      split <;> rfl

/-! ## Families -/

variable {lowercase : Text → Text} {candidates : List Candidate} {clonelist : Option Clonelist}

/-- The candidates of a candidate's family. -/
def familyOf (lowercase : Text → Text) (candidates : List Candidate)
    (clonelist : Option Clonelist) (c : Candidate) : List Candidate :=
  candidates.filter fun d =>
    familyKey lowercase candidates clonelist d = familyKey lowercase candidates clonelist c

theorem mem_familyOf : d ∈ familyOf lowercase candidates clonelist c ↔ d ∈ candidates ∧
    familyKey lowercase candidates clonelist d = familyKey lowercase candidates clonelist c := by
  rw [familyOf, List.mem_filter, decide_eq_true_iff]

theorem familyOf_congr
    (hkey : familyKey lowercase candidates clonelist c =
      familyKey lowercase candidates clonelist d) :
    familyOf lowercase candidates clonelist c = familyOf lowercase candidates clonelist d := by
  unfold familyOf
  rw [hkey]

/-- What is picked is the best of its own family. -/
theorem mem_select1g1r {entryId : Nat} :
    entryId ∈ select1g1r lowercase candidates policy clonelist ↔
      ∃ c ∈ candidates, best policy (familyOf lowercase candidates clonelist c) = some c ∧
        c.entryId = entryId := by
  simp only [select1g1r, families, List.mem_toFinset, List.mem_filterMap, List.mem_map,
    List.mem_dedup, Option.map_eq_some_iff]
  constructor
  · rintro ⟨_, ⟨_, ⟨d, hd, rfl⟩, rfl⟩, c, hbest, rfl⟩
    obtain ⟨hc, hkey⟩ := mem_familyOf.mp (best_spec hbest).1
    refine ⟨c, hc, ?_, rfl⟩
    rw [familyOf_congr hkey]
    exact hbest
  · rintro ⟨c, hc, hbest, rfl⟩
    exact ⟨_, ⟨_, ⟨c, hc, rfl⟩, rfl⟩, c, hbest, rfl⟩

theorem familyKey_perm {candidates' : List Candidate} (hperm : candidates.Perm candidates')
    (c : Candidate) : familyKey lowercase candidates clonelist c =
      familyKey lowercase candidates' clonelist c := by
  have hany : (candidates.any fun c => c.cloneofId.isSome) =
      candidates'.any fun c => c.cloneofId.isSome := by
    rw [Bool.eq_iff_iff, List.any_eq_true, List.any_eq_true]
    simp only [hperm.mem_iff]
  unfold familyKey
  rw [hany]

/-- A candidate list as the index delivers it: entry ids are a primary key. -/
structure Candidates where
  list : List Candidate
  idKey : (list.map Candidate.entryId).Nodup

/-- The same entries with other holdings. -/
def Candidates.withHeld (candidates : Candidates) (held : Candidate → Nat) : Candidates where
  list := candidates.list.map fun c => { c with held := held c }
  idKey := by
    have hids : Candidate.entryId ∘ (fun c : Candidate => { c with held := held c }) =
        Candidate.entryId := by
      funext c
      rfl
    rw [List.map_map, hids]
    exact candidates.idKey

theorem Candidates.eq_of_entryId {candidates : Candidates} (hc : c ∈ candidates.list)
    (hd : d ∈ candidates.list) (hid : c.entryId = d.entryId) : c = d :=
  List.inj_on_of_nodup_map candidates.idKey hc hd hid

/-- Who is the clone of whom, among the candidates. -/
def CloneOf (candidates : List Candidate) (c d : Candidate) : Prop :=
  c ∈ candidates ∧ d ∈ candidates ∧ c.cloneofId = some d.entryId

/-- Connected by clone links, in either direction, whose parents satisfy a condition. -/
def ClonesVia (parent : Candidate → Prop) (candidates : List Candidate) :
    Candidate → Candidate → Prop :=
  Relation.TransGen fun c d => (CloneOf candidates c d ∧ parent d) ∨ (CloneOf candidates d c ∧ parent c)

def Picked (lowercase : Text → Text) (candidates : Candidates) (policy : SelectionPolicy)
    (clonelist : Option Clonelist) (c : Candidate) : Prop :=
  c ∈ candidates.list ∧ c.entryId ∈ select1g1r lowercase candidates.list policy clonelist

/-- The clonelist puts an entry into a group. -/
def Grouped (lowercase : Text → Text) (clonelist : Option Clonelist) (c : Candidate) : Prop :=
  (clonelist.bind fun clonelist => lookupGroup lowercase clonelist c.name) ≠ none

theorem picked_iff {candidates : Candidates} :
    Picked lowercase candidates policy clonelist c ↔ c ∈ candidates.list ∧
      best policy (familyOf lowercase candidates.list clonelist c) = some c := by
  rw [Picked, mem_select1g1r]
  constructor
  · rintro ⟨hc, d, hd, hbest, hid⟩
    rw [candidates.eq_of_entryId hd hc hid] at hbest
    exact ⟨hc, hbest⟩
  · rintro ⟨hc, hbest⟩
    exact ⟨hc, c, hc, hbest, rfl⟩

/-- Two picks of one family are one. -/
theorem picked_unique {candidates : Candidates}
    (hc : Picked lowercase candidates policy clonelist c)
    (hd : Picked lowercase candidates policy clonelist d)
    (hkey : familyKey lowercase candidates.list clonelist c =
      familyKey lowercase candidates.list clonelist d) : c = d := by
  have hbest := (picked_iff.mp hc).2
  rw [familyOf_congr hkey, (picked_iff.mp hd).2] at hbest
  exact (Option.some.inj hbest).symm

theorem exists_picked {candidates : Candidates} (hc : c ∈ candidates.list) :
    ∃ d, Picked lowercase candidates policy clonelist d ∧
      familyKey lowercase candidates.list clonelist d =
        familyKey lowercase candidates.list clonelist c := by
  cases hbest : best policy (familyOf lowercase candidates.list clonelist c) with
  | none =>
    have hmem : c ∈ familyOf lowercase candidates.list clonelist c := mem_familyOf.mpr ⟨hc, rfl⟩
    rw [best_eq_none.mp hbest] at hmem
    cases hmem
  | some d =>
    obtain ⟨hd, hkey⟩ := mem_familyOf.mp (best_spec hbest).1
    refine ⟨d, picked_iff.mpr ⟨hd, ?_⟩, hkey⟩
    rw [familyOf_congr hkey]
    exact hbest

/-- A link to an entry that is no clone itself leads to the same root. -/
theorem root_of_link {candidates : List Candidate} (hlink : CloneOf candidates c d)
    (hparent : d.cloneofId = none) : c.cloneofId.getD c.entryId = d.cloneofId.getD d.entryId := by
  rw [hlink.2.2, hparent]
  rfl

theorem root_of_clones {candidates : List Candidate}
    (hchain : ClonesVia (fun parent => parent.cloneofId = none) candidates c d) :
    c.cloneofId.getD c.entryId = d.cloneofId.getD d.entryId := by
  have hstep : ∀ {c d : Candidate}, (CloneOf candidates c d ∧ d.cloneofId = none) ∨
      (CloneOf candidates d c ∧ c.cloneofId = none) →
        c.cloneofId.getD c.entryId = d.cloneofId.getD d.entryId := by
    rintro c d (⟨hlink, hparent⟩ | ⟨hlink, hparent⟩)
    · exact root_of_link hlink hparent
    · exact (root_of_link hlink hparent).symm
  induction hchain with
  | single hlink => exact hstep hlink
  | tail _ hlink ih => exact ih.trans (hstep hlink)

/-- A chain of links shows that the dat has clones. -/
theorem any_clone_of_clones {parent : Candidate → Prop} {candidates : List Candidate}
    (hchain : ClonesVia parent candidates c d) :
    (candidates.any fun c => c.cloneofId.isSome) = true := by
  have hany : ∀ {c d : Candidate}, CloneOf candidates c d →
      (candidates.any fun c => c.cloneofId.isSome) = true := by
    intro c d hlink
    rw [List.any_eq_true]
    exact ⟨c, hlink.1, by rw [hlink.2.2]; rfl⟩
  induction hchain with
  | single hlink => exact hlink.elim (fun hlink => hany hlink.1) fun hlink => hany hlink.1
  | tail _ _ ih => exact ih

theorem familyKey_of_clones {candidates : List Candidate}
    (hchain : ClonesVia (fun parent => parent.cloneofId = none) candidates c d)
    (hc : ¬ Grouped lowercase clonelist c) (hd : ¬ Grouped lowercase clonelist d) :
    familyKey lowercase candidates clonelist c = familyKey lowercase candidates clonelist d := by
  rw [Grouped, not_not] at hc hd
  unfold familyKey
  rw [hc, hd]
  simp only [any_clone_of_clones hchain, if_true, root_of_clones hchain]

/-! ## The selection as a whole -/

/-- What one pick per family means for one input. Order is promised to families whose members
have different scores, and clones to links whose parents are no clones and entries that the
clonelist leaves alone. -/
structure OnePerFamily (lowercase : Text → Text) (candidates : Candidates)
    (policy : SelectionPolicy) (clonelist : Option Clonelist) : Prop where
  one : ∀ c ∈ candidates.list, ∃! d, Picked lowercase candidates policy clonelist d ∧
    familyKey lowercase candidates.list clonelist d = familyKey lowercase candidates.list clonelist c
  noneElse : ∀ entryId ∈ select1g1r lowercase candidates.list policy clonelist,
    ∃ c, Picked lowercase candidates policy clonelist c ∧ c.entryId = entryId
  anyOrder : (∀ c ∈ candidates.list, ∀ d ∈ candidates.list,
      familyKey lowercase candidates.list clonelist c =
        familyKey lowercase candidates.list clonelist d →
          c.name = d.name → heldRank policy c = heldRank policy d → c = d) →
    ∀ list, candidates.list.Perm list → select1g1r lowercase list policy clonelist =
      select1g1r lowercase candidates.list policy clonelist
  strict : policy.strict = true → ∀ held,
    select1g1r lowercase (candidates.withHeld held).list policy clonelist =
      select1g1r lowercase candidates.list policy clonelist
  clones : ∀ c d, ClonesVia (fun parent => parent.cloneofId = none) candidates.list c d →
    ¬ Grouped lowercase clonelist c → ¬ Grouped lowercase clonelist d →
      Picked lowercase candidates policy clonelist c →
        Picked lowercase candidates policy clonelist d → c = d

theorem select_anyOrder {list : List Candidate} (hperm : candidates.Perm list)
    (hties : ∀ c ∈ candidates, ∀ d ∈ candidates, familyKey lowercase candidates clonelist c =
      familyKey lowercase candidates clonelist d → c.name = d.name →
        heldRank policy c = heldRank policy d → c = d) :
    select1g1r lowercase list policy clonelist =
      select1g1r lowercase candidates policy clonelist := by
  have hfamily : ∀ c, best policy (familyOf lowercase candidates clonelist c) =
      best policy (familyOf lowercase list clonelist c) := by
    intro c
    have hsame : familyOf lowercase list clonelist c =
        list.filter fun d => familyKey lowercase candidates clonelist d =
          familyKey lowercase candidates clonelist c := by
      unfold familyOf
      simp only [familyKey_perm hperm]
    rw [hsame]
    apply best_perm (hperm.filter _)
    intro a ha b hb hscore
    obtain ⟨ha, hakey⟩ := mem_familyOf.mp ha
    obtain ⟨hb, hbkey⟩ := mem_familyOf.mp hb
    exact hties a ha b hb (hakey.trans hbkey.symm) (congrArg Score.name hscore)
      (congrArg Score.heldRank hscore)
  ext entryId
  simp only [mem_select1g1r, ← hfamily, hperm.mem_iff]

theorem select_strict (hstrict : policy.strict = true) (candidates : Candidates)
    (held : Candidate → Nat) :
    select1g1r lowercase (candidates.withHeld held).list policy clonelist =
      select1g1r lowercase candidates.list policy clonelist := by
  -- Only the held counts change, which a strict score does not read.
  let f : Candidate → Candidate := fun c => { c with held := held c }
  have hscore : ∀ c, score policy (f c) = score policy c := by
    intro c
    simp [score, heldRank, hstrict, f]
  have hkey : ∀ c, familyKey lowercase (candidates.list.map f) clonelist (f c) =
      familyKey lowercase candidates.list clonelist c := by
    intro c
    simp only [familyKey, List.any_map, Function.comp_def, f]
  have hfamily : ∀ c, familyOf lowercase (candidates.list.map f) clonelist (f c) =
      (familyOf lowercase candidates.list clonelist c).map f := by
    intro c
    unfold familyOf
    rw [List.filter_map]
    simp only [Function.comp_def, hkey]
  ext entryId
  change entryId ∈ select1g1r lowercase (candidates.list.map f) policy clonelist ↔ _
  rw [mem_select1g1r, mem_select1g1r]
  constructor
  · rintro ⟨_, hmem, hbest, rfl⟩
    obtain ⟨c, hc, rfl⟩ := List.mem_map.mp hmem
    rw [hfamily, best_map hscore, Option.map_eq_some_iff] at hbest
    obtain ⟨d, hbest, heq⟩ := hbest
    have hid : (f d).entryId = (f c).entryId := congrArg Candidate.entryId heq
    have hd := (mem_familyOf.mp (best_spec hbest).1).1
    rw [candidates.eq_of_entryId hd hc hid] at hbest
    exact ⟨c, hc, hbest, rfl⟩
  · rintro ⟨c, hc, hbest, rfl⟩
    refine ⟨f c, List.mem_map_of_mem hc, ?_, rfl⟩
    rw [hfamily, best_map hscore, hbest, Option.map_some]

/-- Each family has one pick, which depends neither on the order of the list nor, under a
strict policy, on what is held. -/
theorem select_one_per_family (lowercase : Text → Text) (candidates : Candidates)
    (policy : SelectionPolicy) (clonelist : Option Clonelist) :
    OnePerFamily lowercase candidates policy clonelist where
  one := by
    intro c hc
    obtain ⟨d, hd, hkey⟩ := @exists_picked policy _ lowercase clonelist candidates hc
    refine ⟨d, ⟨hd, hkey⟩, ?_⟩
    rintro e ⟨he, hkey'⟩
    exact picked_unique he hd (hkey'.trans hkey.symm)
  noneElse := by
    intro entryId hmem
    obtain ⟨c, hc, hbest, rfl⟩ := mem_select1g1r.mp hmem
    exact ⟨c, picked_iff.mpr ⟨hc, hbest⟩, rfl⟩
  anyOrder := fun hties list hperm => select_anyOrder hperm hties
  strict := fun hstrict held => select_strict hstrict candidates held
  clones := fun c d hchain hc hd hcPicked hdPicked =>
    picked_unique hcPicked hdPicked (familyKey_of_clones hchain hc hd)

/-- A release and its clone, of which the clonelist names the clone only. -/
def releaseAndClone : Candidates where
  list := [⟨1, "Game (USA)".toList, none, 1, 1⟩, ⟨2, "Game (Europe)".toList, some 1, 1, 1⟩]
  idKey := by decide

/-- A clonelist's group takes an entry out of the family of its clones. -/
theorem grouped_clone_picked_too : ¬ ∀ (lowercase : Text → Text) (candidates : Candidates)
    (policy : SelectionPolicy) (clonelist : Option Clonelist) (c d : Candidate),
    ClonesVia (fun _ => True) candidates.list c d →
      Picked lowercase candidates policy clonelist c →
        Picked lowercase candidates policy clonelist d → c = d := by
  intro hall
  have heq := hall toAsciiLowercase releaseAndClone {}
    (some fun term => if term = "game (europe)".toList then some "Game PAL".toList else none)
    ⟨2, "Game (Europe)".toList, some 1, 1, 1⟩ ⟨1, "Game (USA)".toList, none, 1, 1⟩
    (Relation.TransGen.single (Or.inl ⟨⟨by decide, by decide, rfl⟩, trivial⟩))
    ⟨by decide, by decide +kernel⟩ ⟨by decide, by decide +kernel⟩
  cases heq

end Selection

end Datboi.Catalog
