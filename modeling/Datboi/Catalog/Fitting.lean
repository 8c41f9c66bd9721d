import Datboi.Catalog.Names

/-!
# What fitting a name keeps

No rewrite rule and no cut empties a component, and none brings in a character beyond
the few that region codes and placeholders are spelled with.
-/

namespace Datboi.Catalog

/-- The characters that fitting can add: the placeholder, and what a compressed region
group is spelled with. -/
def addedChars : Text := "_(),UEJWFGSIAKCNB".toList

section Chars

variable {P : Char → Prop} {text before after : Text}

theorem Text.sliceAt_eq_some {n : Nat} (hrun : Text.sliceAt text n = some (before, after)) :
    text = before ++ after := by
  induction text generalizing n before with
  | nil =>
    cases n with
    | zero =>
      cases hrun
      rfl
    | succ n => cases hrun
  | cons c rest ih =>
    cases n with
    | zero =>
      cases hrun
      rfl
    | succ n =>
      rw [Text.sliceAt] at hrun
      split at hrun
      · obtain ⟨⟨taken, left⟩, hrest, heq⟩ := Option.map_eq_some_iff.mp hrun
        cases heq
        rw [ih hrest]
        rfl
      · cases hrun

theorem takeLiteral_suffix {literal rest left : Text} {found : Bool}
    (hrun : takeLiteral literal rest = some (found, left)) : left <:+ rest := by
  unfold takeLiteral at hrun
  split at hrun
  · cases hrun
    exact List.suffix_refl _
  · obtain ⟨⟨taken, tail⟩, hslice, heq⟩ := Option.bind_eq_some_iff.mp hrun
    have hrest := Text.sliceAt_eq_some hslice
    simp only at heq
    split at heq
    · cases heq
      exact ⟨taken, hrest.symm⟩
    · cases heq
      exact List.suffix_refl _

/-- Stripping a prefix leaves a part of the name that is not empty. -/
theorem stripNoisePrefix_suffix {name out : Text} (hname : name ≠ [])
    (hrun : stripNoisePrefix name = some out) : out <:+ name ∧ out ≠ [] := by
  unfold stripNoisePrefix at hrun
  simp only at hrun
  split at hrun
  · cases hrun
    exact ⟨List.suffix_refl _, hname⟩
  · obtain ⟨⟨_, rest₁⟩, h₁, hrun⟩ := Option.bind_eq_some_iff.mp hrun
    obtain ⟨⟨isIn, rest₂⟩, h₂, hrun⟩ := Option.bind_eq_some_iff.mp hrun
    simp only at hrun
    split at hrun
    · cases hrun
      exact ⟨List.suffix_refl _, hname⟩
    · split at hrun
      · cases hrun
        exact ⟨List.suffix_refl _, hname⟩
      · obtain ⟨⟨_, rest₃⟩, h₃, hrun⟩ := Option.bind_eq_some_iff.mp hrun
        obtain ⟨⟨dash, rest₄⟩, h₄, hrun⟩ := Option.bind_eq_some_iff.mp hrun
        simp only at hrun
        split at hrun
        · cases hrun
          exact ⟨List.suffix_refl _, hname⟩
        · rename_i hdash
          cases hrun
          refine ⟨?_, ?_⟩
          · have hlast := (takeLiteral_suffix h₄).trans (takeLiteral_suffix h₃)
            have hmid := hlast.trans (List.dropWhile_suffix _)
            exact (hmid.trans (takeLiteral_suffix h₂)).trans
              ((takeLiteral_suffix h₁).trans (List.dropWhile_suffix _))
          · intro hnil
            simp [hnil] at hdash

theorem regionCodes_added : ∀ entry ∈ regionCodes, ∀ c ∈ entry.2, c ∈ addedChars := by
  have hall : (regionCodes.all fun entry => entry.2.all fun c => c ∈ addedChars) = true := by
    decide
  intro entry hentry
  exact Text.forall_of_all (List.all_eq_true.mp hall entry hentry)

theorem regionGroup_added {inner : Text} {codes : List Text}
    (hrun : regionGroup inner = some codes) : ∀ code ∈ codes, ∀ c ∈ code, c ∈ addedChars := by
  unfold regionGroup at hrun
  generalize inner.splitOn ',' = tokens at hrun
  induction tokens generalizing codes with
  | nil =>
    cases hrun
    simp
  | cons token rest ih =>
    rw [List.mapM_cons] at hrun
    obtain ⟨code, hcode, hrun⟩ := Option.bind_eq_some_iff.mp hrun
    obtain ⟨others, hothers, hrun⟩ := Option.bind_eq_some_iff.mp hrun
    cases hrun
    intro found hfound
    rcases List.mem_cons.mp hfound with heq | hrest
    · rw [heq]
      obtain ⟨entry, hentry, rfl⟩ := Option.map_eq_some_iff.mp hcode
      exact regionCodes_added entry (List.mem_of_find?_eq_some hentry)
    · exact ih hothers found hrest

theorem mem_intercalate {sep c : Char} {parts : List Text}
    (hmem : c ∈ List.intercalate [sep] parts) : c = sep ∨ ∃ part ∈ parts, c ∈ part := by
  induction parts with
  | nil => simp at hmem
  | cons part rest ih =>
    cases rest with
    | nil =>
      rw [List.intercalate_singleton] at hmem
      exact Or.inr ⟨part, List.mem_cons_self, hmem⟩
    | cons next more =>
      rw [List.intercalate_cons_cons, List.mem_append, List.mem_append] at hmem
      rcases hmem with (hpart | hsep) | hrest
      · exact Or.inr ⟨part, List.mem_cons_self, hpart⟩
      · exact Or.inl (List.mem_singleton.mp hsep)
      · rcases ih hrest with hsep | ⟨found, hfound, hc⟩
        · exact Or.inl hsep
        · exact Or.inr ⟨found, List.mem_cons_of_mem _ hfound, hc⟩

variable (hadded : ∀ c ∈ addedChars, P c)

include hadded

theorem compressRegionTags_chars {reading : Option Text} {name : Text}
    (hreading : ∀ inner, reading = some inner → ∀ c ∈ inner, P c) (hname : ∀ c ∈ name, P c) :
    ∀ c ∈ compressRegionTags reading name, P c := by
  have hparen := hadded '(' (by decide)
  have hclose := hadded ')' (by decide)
  have hcomma := hadded ',' (by decide)
  have hclosed : ∀ inner, (none : Option Text) = some inner → ∀ c ∈ inner, P c := by
    intro inner heq
    cases heq
  induction name generalizing reading with
  | nil =>
    cases reading with
    | none => simp [compressRegionTags]
    | some inner =>
      intro c hc
      rcases List.mem_cons.mp hc with rfl | hc
      · exact hparen
      · exact hreading inner rfl c hc
  | cons first rest ih =>
    have hrest : ∀ c ∈ rest, P c := fun c hc => hname c (List.mem_cons_of_mem _ hc)
    have hfirst : P first := hname first List.mem_cons_self
    cases reading with
    | none =>
      rw [compressRegionTags]
      split
      · refine ih ?_ hrest
        intro inner heq
        cases heq
        simp
      · intro c hc
        rcases List.mem_cons.mp hc with rfl | hc
        · exact hfirst
        · exact ih hclosed hrest c hc
    | some inner =>
      have hinner := hreading inner rfl
      rw [compressRegionTags]
      split
      · split
        · rename_i codes hcodes
          intro c hc
          rcases List.mem_append.mp hc with hgroup | hc
          · rcases List.mem_cons.mp hgroup with rfl | hgroup
            · exact hparen
            · rcases mem_intercalate hgroup with rfl | ⟨code, hcode, hc⟩
              · exact hcomma
              · exact hadded c (regionGroup_added hcodes code hcode c hc)
          · rcases List.mem_cons.mp hc with rfl | hc
            · exact hclose
            · exact ih hclosed hrest c hc
        · intro c hc
          rcases List.mem_append.mp hc with hgroup | hc
          · rcases List.mem_cons.mp hgroup with rfl | hgroup
            · exact hparen
            · exact hinner c hgroup
          · rcases List.mem_cons.mp hc with rfl | hc
            · exact hclose
            · exact ih hclosed hrest c hc
      · refine ih ?_ hrest
        intro inner' heq
        cases heq
        intro c hc
        rcases List.mem_append.mp hc with hc | hc
        · exact hinner c hc
        · rw [List.mem_singleton.mp hc]
          exact hfirst

end Chars

variable {name component out : Text}

theorem compressRegionTags_ne_nil {reading : Option Text} (hsome : reading ≠ none ∨ name ≠ []) :
    compressRegionTags reading name ≠ [] := by
  induction name generalizing reading with
  | nil =>
    cases reading with
    | none => simp at hsome
    | some inner => simp [compressRegionTags]
  | cons first rest ih =>
    cases reading with
    | none =>
      rw [compressRegionTags]
      split
      · exact ih (Or.inl nofun)
      · exact List.cons_ne_nil _ _
    | some inner =>
      rw [compressRegionTags]
      split
      · split
        · simp
        · simp
      · exact ih (Or.inl nofun)

/-! ## Trimming and cutting -/

theorem stemAndExtension_eq (name : Text) :
    withExtension (stemAndExtension name).1 (stemAndExtension name).2 = name := by
  unfold stemAndExtension
  split
  · rename_i stem ext hsplit
    split
    · exact (Text.rsplitOnce_eq_some.mp hsplit).1.symm
    · rfl
  · rfl

/-- The stem of a name is not empty, and its extension has no dot. -/
theorem stemAndExtension_ne_nil (hname : name ≠ []) : (stemAndExtension name).1 ≠ [] := by
  unfold stemAndExtension
  split
  · split
    · rename_i hkept
      intro hnil
      simp only [Bool.and_eq_true, Bool.not_eq_true', List.isEmpty_eq_false_iff] at hkept
      exact hkept.1 hnil
    · exact hname
  · exact hname

theorem mem_withExtension {stem : Text} {ext : Option Text} {c : Char}
    (hmem : c ∈ withExtension stem ext) : c ∈ stem ∨ ∃ e, ext = some e ∧ c ∈ '.' :: e := by
  cases ext with
  | none => exact Or.inl hmem
  | some e =>
    rcases List.mem_append.mp hmem with hstem | hext
    · exact Or.inl hstem
    · exact Or.inr ⟨e, rfl, hext⟩

theorem trimEnd_subset (p : Char → Bool) (text : Text) : Text.trimEnd p text ⊆ text := by
  intro c hc
  rw [Text.trimEnd, List.mem_reverse] at hc
  exact List.mem_reverse.mp (List.dropWhile_subset _ hc)

theorem stripSuffix_subset (stem suffix : Text) : stripSuffix stem suffix ⊆ stem := by
  unfold stripSuffix
  split
  · exact List.take_subset _ _
  · exact List.Subset.refl _

theorem trimLoop_subset (fuel : Nat) (stem : Text) : trimLoop fuel stem ⊆ stem := by
  have hround : ∀ stem, trimRound stem ⊆ stem := by
    intro stem c hc
    exact trimEnd_subset _ _ (stripSuffix_subset _ _ (stripSuffix_subset _ _ hc))
  induction fuel generalizing stem with
  | zero => exact List.Subset.refl _
  | succ fuel ih =>
    rw [trimLoop]
    split
    · exact hround stem
    · intro c hc
      exact hround stem (ih _ hc)

theorem cutAt_leads (budget : Nat) (text : Text) : cutAt budget text <+: text := by
  induction text generalizing budget with
  | nil => exact List.nil_prefix
  | cons c rest ih =>
    rw [cutAt]
    split
    · exact List.cons_prefix_cons.mpr ⟨rfl, ih _⟩
    · exact List.nil_prefix

theorem withExtension_ne_nil {stem : Text} {ext : Option Text} (hstem : stem ≠ []) :
    withExtension stem ext ≠ [] := by
  cases ext with
  | none => exact hstem
  | some e => simp [withExtension]

theorem trimTrailingJunk_ne_nil (name : Text) : trimTrailingJunk name ≠ [] := by
  unfold trimTrailingJunk
  simp only
  apply withExtension_ne_nil
  split
  · simp
  · assumption

theorem trimTrailingJunk_chars {P : Char → Prop} (hplaceholder : P '_') (hname : ∀ c ∈ name, P c) :
    ∀ c ∈ trimTrailingJunk name, P c := by
  have hparts : ∀ c, c ∈ (stemAndExtension name).1 ∨
      (∃ e, (stemAndExtension name).2 = some e ∧ c ∈ '.' :: e) → P c := by
    intro c hc
    apply hname
    rw [← stemAndExtension_eq name]
    rcases hc with hstem | ⟨e, hext, hc⟩
    · cases hext : (stemAndExtension name).2 with
      | none => exact hstem
      | some e => exact List.mem_append_left _ hstem
    · rw [hext]
      exact List.mem_append_right _ hc
  intro c hc
  rcases mem_withExtension hc with hstem | hext
  · change c ∈ (if trimLoop (stemAndExtension name).1.length (stemAndExtension name).1 = [] then ['_']
      else trimLoop (stemAndExtension name).1.length (stemAndExtension name).1) at hstem
    by_cases hnil : trimLoop (stemAndExtension name).1.length (stemAndExtension name).1 = []
    · rw [if_pos hnil] at hstem
      rw [List.mem_singleton.mp hstem]
      exact hplaceholder
    · rw [if_neg hnil] at hstem
      exact hparts c (Or.inl (trimLoop_subset _ _ hstem))
  · exact hparts c (Or.inr hext)

/-- Fitting keeps a component that is not empty that way, and adds only a few
characters. -/
theorem fitComponent_chars {P : Char → Prop} (hadded : ∀ c ∈ addedChars, P c) {budget : Nat}
    (hcomponent : ∀ c ∈ component, P c) (hne : component ≠ [])
    (hrun : fitComponent component budget = some out) : (∀ c ∈ out, P c) ∧ out ≠ [] := by
  have hclosed : ∀ inner, (none : Option Text) = some inner → ∀ c ∈ inner, P c := by
    intro inner heq
    cases heq
  unfold fitComponent at hrun
  split at hrun
  · cases hrun
    exact ⟨hcomponent, hne⟩
  · obtain ⟨name, hname, hrun⟩ := Option.bind_eq_some_iff.mp hrun
    obtain ⟨hsuffix, hnameNe⟩ := stripNoisePrefix_suffix hne hname
    have hnameChars : ∀ c ∈ name, P c := fun c hc => hcomponent c (hsuffix.subset hc)
    have hcompressed := compressRegionTags_chars hadded hclosed hnameChars
    split at hrun
    · cases hrun
      exact ⟨hnameChars, hnameNe⟩
    · simp only at hrun
      split at hrun
      · cases hrun
        exact ⟨hcompressed, compressRegionTags_ne_nil (Or.inr hnameNe)⟩
      · cases hrun
        exact ⟨trimTrailingJunk_chars (hadded '_' (by decide)) hcompressed,
          trimTrailingJunk_ne_nil _⟩

theorem capComponent_chars {P : Char → Prop} {max : Nat} (hcomponent : ∀ c ∈ component, P c)
    (hne : component ≠ []) (hrun : capComponent component max = some out) :
    (∀ c ∈ out, P c) ∧ out ≠ [] := by
  have hsub : ∀ {stem : Text}, stem ⊆ (stemAndExtension component).1 →
      ∀ c ∈ withExtension stem (stemAndExtension component).2, P c := by
    intro stem hstem c hc
    apply hcomponent
    rw [← stemAndExtension_eq component]
    rcases mem_withExtension hc with hc | ⟨e, hext, hc⟩
    · cases hext : (stemAndExtension component).2 with
      | none => exact hstem hc
      | some e => exact List.mem_append_left _ (hstem hc)
    · rw [hext]
      exact List.mem_append_right _ hc
  unfold capComponent at hrun
  split at hrun
  · cases hrun
    exact ⟨hcomponent, hne⟩
  · simp only at hrun
    split at hrun
    · obtain ⟨⟨first, left⟩, hslice, rfl⟩ := Option.map_eq_some_iff.mp hrun
      have hstem := Text.sliceAt_eq_some hslice
      refine ⟨hsub ?_, ?_⟩
      · rw [hstem]
        exact List.subset_append_left _ _
      · apply withExtension_ne_nil
        rintro rfl
        -- A slice of one byte is never empty.
        cases hfull : (stemAndExtension component).1 with
        | nil =>
          rw [hfull] at hslice
          cases hslice
        | cons c rest =>
          rw [hfull, Text.sliceAt] at hslice
          split at hslice
          · obtain ⟨_, _, heq⟩ := Option.map_eq_some_iff.mp hslice
            cases heq
          · cases hslice
    · rename_i hcut
      cases hrun
      refine ⟨hsub ?_, withExtension_ne_nil hcut⟩
      exact (cutAt_leads _ _).subset

theorem constrainComponent_chars {P : Char → Prop} (hadded : ∀ c ∈ addedChars, P c)
    {profile : Profile} (hclean : ∀ c ∈ profile.clean component, P c)
    (hrun : profile.constrainComponent component = some out) : (∀ c ∈ out, P c) ∧ out ≠ [] := by
  unfold Profile.constrainComponent at hrun
  simp only at hrun
  obtain ⟨fitted, hfit, hcap⟩ := Option.bind_eq_some_iff.mp hrun
  have hstart : (∀ c ∈ (if profile.clean component = [] then ['_'] else profile.clean component), P c) ∧
      (if profile.clean component = [] then ['_'] else profile.clean component) ≠ [] := by
    split
    · refine ⟨?_, by simp⟩
      intro c hc
      rw [List.mem_singleton.mp hc]
      exact hadded '_' (by decide)
    · rename_i hne
      exact ⟨hclean, hne⟩
  obtain ⟨hfitted, hfittedNe⟩ := fitComponent_chars hadded hstart.1 hstart.2 hfit
  exact capComponent_chars hfitted hfittedNe hcap

/-! ## Components -/

theorem forall₂_of_mapM {α β : Type} {f : α → Option β} {as : List α} {bs : List β}
    (hrun : as.mapM f = some bs) : List.Forall₂ (fun a b => f a = some b) as bs := by
  induction as generalizing bs with
  | nil =>
    cases hrun
    exact List.Forall₂.nil
  | cons a rest ih =>
    rw [List.mapM_cons] at hrun
    obtain ⟨b, hb, hrun⟩ := Option.bind_eq_some_iff.mp hrun
    obtain ⟨later, hlater, hrun⟩ := Option.bind_eq_some_iff.mp hrun
    cases hrun
    exact List.Forall₂.cons hb (ih hlater)

theorem forall₂_mem_right {α β : Type} {R : α → β → Prop} {as : List α} {bs : List β}
    (hforall : List.Forall₂ R as bs) {b : β} (hb : b ∈ bs) : ∃ a ∈ as, R a b := by
  induction hforall with
  | nil => cases hb
  | cons hhead _ ih =>
    rcases List.mem_cons.mp hb with rfl | htail
    · exact ⟨_, List.mem_cons_self, hhead⟩
    · obtain ⟨a, ha, hrel⟩ := ih htail
      exact ⟨a, List.mem_cons_of_mem _ ha, hrel⟩

namespace Text

theorem components_cons (c : Char) (rest : Text) : Text.components (c :: rest) =
    if c = '/' then [] :: rest.components else rest.components.modifyHead (List.cons c) := by
  rw [components, List.splitOn_cons_eq_if_modifyHead]
  simp [components]

theorem components_ne_nil (path : Text) : path.components ≠ [] := List.splitOn_ne_nil _ _

theorem components_slash (before after : Text) :
    Text.components (before ++ '/' :: after) = before.components ++ after.components :=
  List.splitOn_append_cons_self _ _

theorem components_of_notMem {path : Text} (hslash : '/' ∉ path) : path.components = [path] :=
  List.splitOn_eq_singleton hslash

theorem slash_notMem {path component : Text} (hmem : component ∈ path.components) :
    '/' ∉ component := by
  induction path generalizing component with
  | nil =>
    rw [components_of_notMem List.not_mem_nil, List.mem_singleton] at hmem
    rw [hmem]
    exact List.not_mem_nil
  | cons c rest ih =>
    rw [components_cons] at hmem
    split at hmem
    · rcases List.mem_cons.mp hmem with heq | hrest
      · rw [heq]
        exact List.not_mem_nil
      · exact ih hrest
    · rename_i hc
      obtain ⟨first, others, hsplit⟩ := List.exists_cons_of_ne_nil (components_ne_nil rest)
      rw [hsplit, List.modifyHead_cons] at hmem
      rcases List.mem_cons.mp hmem with heq | hothers
      · rw [heq, List.mem_cons, not_or]
        exact ⟨Ne.symm hc, ih (by rw [hsplit]; exact List.mem_cons_self)⟩
      · exact ih (by rw [hsplit]; exact List.mem_cons_of_mem _ hothers)

theorem join_components (path : Text) : join path.components = path := List.intercalate_splitOn _

theorem components_inj {path path' : Text} (heq : path.components = path'.components) :
    path = path' := by
  rw [← join_components path, heq, join_components]

theorem components_join {parts : List Text} (hparts : ∀ part ∈ parts, '/' ∉ part)
    (hne : parts ≠ []) : (join parts).components = parts :=
  List.splitOn_intercalate _ hparts hne

/-- The directories of a path with its last component. -/
theorem components_leaf (path : Text) : ∃ dirs leaf, path.components = dirs ++ [leaf] ∧
    ∀ word : Text, '/' ∉ word → Text.components (path ++ word) = dirs ++ [leaf ++ word] := by
  cases hsplit : path.rsplitOnce '/' with
  | none =>
    have hslash := rsplitOnce_eq_none.mp hsplit
    refine ⟨[], path, components_of_notMem hslash, ?_⟩
    intro word hword
    apply components_of_notMem
    rw [List.mem_append, not_or]
    exact ⟨hslash, hword⟩
  | some parts =>
    obtain ⟨parent, leaf⟩ := parts
    obtain ⟨rfl, hslash⟩ := rsplitOnce_eq_some.mp hsplit
    refine ⟨parent.components, leaf, ?_, ?_⟩
    · rw [components_slash, components_of_notMem hslash]
    · intro word hword
      have hleaf : '/' ∉ leaf ++ word := by
        rw [List.mem_append, not_or]
        exact ⟨hslash, hword⟩
      rw [List.append_assoc, List.cons_append, components_slash,
        components_of_notMem hleaf]

/-- Text without a slash, put anywhere into a path, lands in one of its components. -/
theorem components_insert {word : Text} (hword : '/' ∉ word) (before after : Text) :
    ∃ init x y tail, Text.components (before ++ after) = init ++ (x ++ y) :: tail ∧
      Text.components (before ++ word ++ after) = init ++ (x ++ word ++ y) :: tail := by
  induction before with
  | nil =>
    obtain ⟨first, others, hsplit⟩ := List.exists_cons_of_ne_nil (components_ne_nil after)
    refine ⟨[], [], first, others, hsplit, ?_⟩
    induction word with
    | nil => exact hsplit
    | cons c rest ih =>
      rw [List.mem_cons, not_or] at hword
      have hrest := ih hword.2
      simp only [List.nil_append, List.cons_append] at hrest ⊢
      rw [components_cons, if_neg (Ne.symm hword.1), hrest]
      rfl
  | cons c rest ih =>
    obtain ⟨init, x, y, tail, hplain, hword⟩ := ih
    simp only [List.cons_append, components_cons, hplain, hword]
    split
    · exact ⟨[] :: init, x, y, tail, rfl, rfl⟩
    · cases init with
      | nil => exact ⟨[], c :: x, y, tail, rfl, rfl⟩
      | cons first init => exact ⟨(c :: first) :: init, x, y, tail, rfl, rfl⟩

end Text

end Datboi.Catalog
