import Datboi.Catalog.Fitting
import Datboi.Catalog.Views

/-!
# What the layout keeps

The rows of an evaluated view have distinct paths, whatever was picked. That no picked
blob is lost, and that a tag lands in a file's name and not in a directory, depends on
the names: a tag goes in front of the last dot of the whole path, and a pick whose
tagged path is taken is taken for a repetition of the row that has it.
-/

namespace Datboi.Catalog

/-! ## Where a tag and a bucket may go -/

/-- The tag is somewhere in the last component, and the directories are the same. -/
def TagInLeaf (path path' : Text) (hash : Blake3) : Prop :=
  ∃ dirs before after, path.components = dirs ++ [before ++ after] ∧
    path'.components = dirs ++ [before ++ tagSuffix hash ++ after]

/-- One directory more, right above the last component. -/
def OneLevelDown (path path' : Text) : Prop :=
  ∃ dirs bucket leaf, path.components = dirs ++ [leaf] ∧
    path'.components = dirs ++ [bucket, leaf]

/-- What bucketing may do to a path: nothing, one level, or one level and a tag. -/
def Relocated (path path' : Text) (hash : Blake3) : Prop :=
  path' = path ∨ OneLevelDown path path' ∨
    ∃ mid, OneLevelDown path mid ∧ TagInLeaf mid path' hash

/-- No slash follows the dot a tag would go in front of. -/
def LastDotInLeaf (path : Text) : Prop :=
  ∀ stem ext, path.rsplitOnce '.' = some (stem, ext) → stem ≠ [] → '/' ∉ ext

/-- No component is empty. -/
def NoEmpty (path : Text) : Prop := ∀ component ∈ path.components, component ≠ []

section Leaf

variable {path path' : Text} {hash : Blake3}

theorem slash_notMem_tagSuffix (hash : Blake3) : '/' ∉ tagSuffix hash := by
  have hdigit : ∀ n < 16, Nat.digitChar n ≠ '/' := by decide
  have htag : '/' ∉ tagOf hash := by
    intro hmem
    obtain ⟨i, _, heq⟩ := List.mem_map.mp (List.mem_of_mem_take hmem)
    exact hdigit _ (Nat.mod_lt _ (by decide)) heq
  simp only [tagSuffix, List.mem_append, not_or]
  exact ⟨⟨by decide, htag⟩, by decide⟩

theorem tagSuffix_ne_nil (hash : Blake3) : tagSuffix hash ≠ [] := by
  simp [tagSuffix]

/-- A tagged path is its path with the tag in front of the last dot, or at its end. -/
theorem tagged_cases (path : Text) (hash : Blake3) :
    (tagged path hash = path ++ tagSuffix hash ∧ LastDotInLeaf path) ∨
      ∃ stem ext, stem ≠ [] ∧ path.rsplitOnce '.' = some (stem, ext) ∧
        tagged path hash = stem ++ tagSuffix hash ++ '.' :: ext := by
  cases hsplit : path.rsplitOnce '.' with
  | none =>
    refine Or.inl ⟨by simp only [tagged, hsplit], ?_⟩
    intro stem ext heq
    rw [hsplit] at heq
    cases heq
  | some parts =>
    obtain ⟨stem, ext⟩ := parts
    by_cases hstem : stem = []
    · refine Or.inl ⟨by simp only [tagged, hsplit, if_pos hstem], ?_⟩
      intro stem' ext' heq hne
      rw [hsplit] at heq
      cases heq
      exact absurd hstem hne
    · exact Or.inr ⟨stem, ext, hstem, rfl, by simp only [tagged, hsplit, if_neg hstem]⟩

theorem tagged_length (path : Text) (hash : Blake3) :
    (tagged path hash).length = path.length + (tagSuffix hash).length := by
  rcases tagged_cases path hash with ⟨heq, _⟩ | ⟨stem, ext, _, hsplit, heq⟩
  · rw [heq, List.length_append]
  · rw [heq, (Text.rsplitOnce_eq_some.mp hsplit).1]
    simp only [List.length_append]
    omega

theorem tagged_ne (path : Text) (hash : Blake3) : tagged path hash ≠ path := by
  intro heq
  have hlength := tagged_length path hash
  rw [heq] at hlength
  have := List.length_pos_iff.mpr (tagSuffix_ne_nil hash)
  omega

/-- A tag goes into the last component exactly when the last dot is there. -/
theorem tagInLeaf_tagged_iff (path : Text) (hash : Blake3) :
    TagInLeaf path (tagged path hash) hash ↔ LastDotInLeaf path := by
  have htag := slash_notMem_tagSuffix hash
  constructor
  · rintro ⟨dirs, before, after, hpath, htagged⟩ stem ext hsplit hstem hslash
    obtain ⟨hpathEq, _⟩ := Text.rsplitOnce_eq_some.mp hsplit
    have heq : tagged path hash = stem ++ tagSuffix hash ++ '.' :: ext := by
      simp only [tagged, hsplit, if_neg hstem]
    obtain ⟨inner, leaf, rfl⟩ := List.append_of_mem hslash
    -- Both paths end in what follows the slash, so their last components agree.
    rw [heq, List.append_assoc, ← List.cons_append, ← List.append_assoc, ← List.append_assoc,
      Text.components_slash] at htagged
    rw [hpathEq, ← List.cons_append, ← List.append_assoc, Text.components_slash] at hpath
    obtain ⟨deep, last, hlast, _⟩ := Text.components_leaf leaf
    rw [hlast, ← List.append_assoc] at hpath htagged
    have hsame := (List.append_inj' hpath rfl).2
    have hlonger := (List.append_inj' htagged rfl).2
    rw [hsame] at hlonger
    have hlength := congrArg (fun parts => parts.flatten.length) hlonger
    simp only [List.flatten_singleton, List.length_append] at hlength
    have := List.length_pos_iff.mpr (tagSuffix_ne_nil hash)
    omega
  · intro hdot
    rcases tagged_cases path hash with ⟨heq, _⟩ | ⟨stem, ext, hstem, hsplit, heq⟩
    · obtain ⟨dirs, leaf, hplain, hword⟩ := Text.components_leaf path
      refine ⟨dirs, leaf, [], ?_, ?_⟩
      · rw [hplain, List.append_nil]
      · rw [heq, hword _ htag, List.append_nil]
    · obtain ⟨dirs, leaf, _, hword⟩ := Text.components_leaf stem
      have hext : '/' ∉ '.' :: ext := by
        rw [List.mem_cons, not_or]
        exact ⟨by decide, hdot stem ext hsplit hstem⟩
      refine ⟨dirs, leaf, '.' :: ext, ?_, ?_⟩
      · rw [(Text.rsplitOnce_eq_some.mp hsplit).1, hword _ hext]
      · rw [heq, List.append_assoc, hword, List.append_assoc]
        rw [List.mem_append, not_or]
        exact ⟨htag, hext⟩

end Leaf

/-! ## Placed paths have no empty component -/

theorem sanitizeComponent_spec (component : Text) :
    (sanitizeComponent component ≠ [] ∧ sanitizeComponent component ≠ ['.'] ∧
      sanitizeComponent component ≠ ['.', '.']) ∧
      ∀ c ∈ sanitizeComponent component, c ≠ '/' ∧ c ≠ '\x00' := by
  unfold sanitizeComponent
  simp only
  split
  · refine ⟨by decide, fun c hmem => ?_⟩
    obtain rfl := List.mem_singleton.mp hmem
    decide
  · rename_i hcases
    rw [not_or, not_or] at hcases
    refine ⟨hcases, fun c hmem => ?_⟩
    obtain ⟨raw, -, heq⟩ := List.mem_map.mp hmem
    rw [← heq]
    split
    · decide
    · rename_i hraw
      rw [not_or, not_or] at hraw
      exact ⟨hraw.1, hraw.2.2⟩

theorem canonical_sanitizeName (name : Text) : pathIsCanonical (sanitizeName name) = true := by
  unfold sanitizeName
  simp only
  split
  · decide
  rename_i hne
  have hpart : ∀ part ∈ ((Text.components (name.map fun c => if c = '\\' then '/' else c)).filter
      fun c => !c.isEmpty).map sanitizeComponent, ∃ raw, sanitizeComponent raw = part :=
    fun part hmem => (List.mem_map.mp hmem).imp fun raw hraw => hraw.2
  generalize ((Text.components (name.map fun c => if c = '\\' then '/' else c)).filter
    fun c => !c.isEmpty).map sanitizeComponent = parts at hne hpart
  have hcomponents := Text.components_join (fun part hmem hslash => by
    obtain ⟨raw, rfl⟩ := hpart part hmem
    exact ((sanitizeComponent_spec raw).2 _ hslash).1 rfl) hne
  unfold pathIsCanonical
  rw [hcomponents, Bool.and_eq_true, Bool.and_eq_true, Bool.not_eq_true', Bool.not_eq_true',
    List.isEmpty_eq_false_iff, List.all_eq_true]
  refine ⟨⟨fun hnil => ?_, ?_⟩, fun part hmem => ?_⟩
  · rw [hnil] at hcomponents
    obtain ⟨raw, hraw⟩ := hpart [] (hcomponents ▸ List.mem_singleton_self _)
    exact (sanitizeComponent_spec raw).1.1 hraw
  · refine Bool.eq_false_iff.mpr fun hmem => ?_
    rcases mem_intercalate (List.contains_iff_mem.mp hmem) with hslash | ⟨part, hmem, hnul⟩
    · exact absurd hslash (by decide)
    · obtain ⟨raw, rfl⟩ := hpart part hmem
      exact ((sanitizeComponent_spec raw).2 _ hnul).2 rfl
  · obtain ⟨raw, rfl⟩ := hpart part hmem
    simpa [and_assoc] using (sanitizeComponent_spec raw).1

theorem noEmpty_of_canonical {path : Text} (hcanonical : pathIsCanonical path) : NoEmpty path := by
  intro component hmem heq
  simp only [pathIsCanonical, Bool.and_eq_true, List.all_eq_true] at hcanonical
  have hall := (hcanonical.2 component hmem).1.1
  rw [heq] at hall
  cases hall

namespace Profile

variable {profile : Profile} {component out path path' : Text}

theorem clean_chars {P : Char → Prop} (hplaceholder : P '_') (hchars : ∀ c ∈ component, P c) :
    ∀ c ∈ profile.clean component, P c := by
  unfold clean
  split
  · exact hchars
  · intro c hc
    obtain ⟨raw, hraw, heq⟩ := List.mem_map.mp (trimEnd_subset _ _ hc)
    split at heq
    · rwa [← heq]
    · split at heq
      · rwa [← heq]
      · rw [← heq]
        exact hchars raw hraw

theorem constrainComponent_spec (hslash : '/' ∉ component)
    (hrun : profile.constrainComponent component = some out) : '/' ∉ out ∧ out ≠ [] := by
  have hclean : ∀ c ∈ profile.clean component, c ≠ '/' := by
    have hchars : ∀ c ∈ component, c ≠ '/' := fun c hc heq => hslash (heq ▸ hc)
    exact clean_chars (P := fun c => c ≠ '/') (by decide) hchars
  obtain ⟨hchars, hne⟩ := constrainComponent_chars (Text.forall_of_all (by decide)) hclean hrun
  exact ⟨fun hmem => hchars '/' hmem rfl, hne⟩

/-- Constraining a path constrains its components one by one. -/
theorem constrainPath_components (hrun : profile.constrainPath path = some path') :
    path.components.mapM profile.constrainComponent = some path'.components := by
  obtain ⟨parts, hparts, hjoin⟩ := Option.map_eq_some_iff.mp hrun
  have hforall := forall₂_of_mapM hparts
  have hne : parts ≠ [] := by
    intro hnil
    rw [hnil] at hforall
    exact Text.components_ne_nil path (List.forall₂_nil_right_iff.mp hforall)
  rw [← hjoin, Text.components_join ?_ hne]
  · exact hparts
  · intro part hpart
    obtain ⟨raw, hraw, hcomponent⟩ := forall₂_mem_right hforall hpart
    exact (constrainComponent_spec (Text.slash_notMem hraw) hcomponent).1

end Profile

theorem ViewDef.noEmpty_place {view : ViewDef} {pick : Picked} {path : Text}
    (hplace : view.place pick = some path) : NoEmpty path := by
  unfold place at hplace
  simp only at hplace
  generalize hraw : (if pathIsCanonical (expand view.template pick) then
    expand view.template pick else sanitizeName (expand view.template pick)) = raw at hplace
  have hclean : NoEmpty raw := by
    split at hraw
    · rename_i hcanonical
      exact hraw ▸ noEmpty_of_canonical hcanonical
    · exact hraw ▸ noEmpty_of_canonical (canonical_sanitizeName _)
  split at hplace
  · cases hplace
    exact hclean
  · intro component hmem
    have hforall := forall₂_of_mapM (Profile.constrainPath_components hplace)
    obtain ⟨old, hold, hcomponent⟩ := forall₂_mem_right hforall hmem
    exact (Profile.constrainComponent_spec (Text.slash_notMem hold) hcomponent).2

theorem noEmpty_tagged {path : Text} (hpath : NoEmpty path) (hash : Blake3) :
    NoEmpty (tagged path hash) := by
  have hinsert : ∃ before after, path = before ++ after ∧
      tagged path hash = before ++ tagSuffix hash ++ after := by
    rcases tagged_cases path hash with ⟨heq, _⟩ | ⟨stem, ext, _, hsplit, heq⟩
    · exact ⟨path, [], by rw [List.append_nil], by rw [heq, List.append_nil]⟩
    · exact ⟨stem, '.' :: ext, (Text.rsplitOnce_eq_some.mp hsplit).1, heq⟩
  obtain ⟨before, after, hplain, hword⟩ := hinsert
  obtain ⟨init, x, y, tail, hcomponents, htagged⟩ :=
    Text.components_insert (slash_notMem_tagSuffix hash) before after
  rw [← hplain] at hcomponents
  rw [← hword] at htagged
  intro component hmem heq
  rw [htagged, List.mem_append, List.mem_cons] at hmem
  rcases hmem with hmem | hmem | hmem
  · exact hpath component (by rw [hcomponents]; simp [hmem]) heq
  · rw [heq] at hmem
    simp [tagSuffix_ne_nil] at hmem
  · exact hpath component (by rw [hcomponents]; simp [hmem]) heq

/-! ## One level down -/

theorem alphaBucket_chars (name : Text) : ∀ c ∈ alphaBucket name, c ≠ '/' ∧ c ≠ '.' := by
  have hascii : ∀ n < 128, (Char.ofNat n).isAlpha →
      (Char.ofNat n).toUpper ≠ '/' ∧ (Char.ofNat n).toUpper ≠ '.' := by decide
  have hletter : ∀ c : Char, c.isAlpha → c.toUpper ≠ '/' ∧ c.toUpper ≠ '.' := by
    intro c hc
    have hsmall : c.toNat < 128 := by
      delta Char.isAlpha Char.isUpper Char.isLower at hc
      simp only [Bool.or_eq_true, Bool.and_eq_true, decide_eq_true_eq] at hc
      rcases hc with ⟨_, hle⟩ | ⟨_, hle⟩
      · exact Nat.lt_of_le_of_lt (UInt32.le_iff_toNat_le.mp hle) (by decide)
      · exact Nat.lt_of_le_of_lt (UInt32.le_iff_toNat_le.mp hle) (by decide)
    have hspec := hascii c.toNat hsmall
    rw [Char.ofNat_toNat] at hspec
    exact hspec hc
  unfold alphaBucket
  split
  · split
    · rename_i hc
      intro c hmem
      rw [List.mem_singleton.mp hmem]
      exact hletter _ hc
    · exact Text.forall_of_all (by decide)
  · exact Text.forall_of_all (by decide)

section Bucketed

variable {path : Text}

section

variable (hpath : NoEmpty path)

include hpath

theorem bucketed_cases :
    ('/' ∉ path ∧ bucketed path = alphaBucket path ++ '/' :: path) ∨
      ∃ parent leaf, '/' ∉ leaf ∧ path = parent ++ '/' :: leaf ∧
        bucketed path = parent ++ '/' :: (alphaBucket leaf ++ '/' :: leaf) := by
  cases hsplit : path.rsplitOnce '/' with
  | none =>
    refine Or.inl ⟨Text.rsplitOnce_eq_none.mp hsplit, ?_⟩
    simp only [bucketed, splitPath, hsplit, Option.getD_none, if_pos]
  | some parts =>
    obtain ⟨parent, leaf⟩ := parts
    obtain ⟨heq, hslash⟩ := Text.rsplitOnce_eq_some.mp hsplit
    have hparent : parent ≠ [] := by
      intro hnil
      refine hpath [] ?_ rfl
      rw [heq, hnil, Text.components_slash, Text.components_of_notMem List.not_mem_nil]
      exact List.mem_cons_self
    refine Or.inr ⟨parent, leaf, hslash, heq, ?_⟩
    simp only [bucketed, splitPath, hsplit, Option.getD_some, if_neg hparent]

theorem bucketed_components :
    ∃ dirs leaf, path.components = dirs ++ [leaf] ∧
      (bucketed path).components = dirs ++ [alphaBucket leaf, leaf] := by
  have hbucket : ∀ name, '/' ∉ alphaBucket name :=
    fun name hmem => (alphaBucket_chars name '/' hmem).1 rfl
  rcases bucketed_cases hpath with ⟨hslash, heq⟩ | ⟨parent, leaf, hslash, hplain, heq⟩
  · refine ⟨[], path, Text.components_of_notMem hslash, ?_⟩
    rw [heq, Text.components_slash, Text.components_of_notMem (hbucket path),
      Text.components_of_notMem hslash]
    rfl
  · refine ⟨parent.components, leaf, ?_, ?_⟩
    · rw [hplain, Text.components_slash, Text.components_of_notMem hslash]
    · rw [heq, Text.components_slash, Text.components_slash,
        Text.components_of_notMem (hbucket leaf), Text.components_of_notMem hslash]
      rfl

theorem oneLevelDown_bucketed : OneLevelDown path (bucketed path) := by
  obtain ⟨dirs, leaf, hplain, hdown⟩ := bucketed_components hpath
  exact ⟨dirs, _, leaf, hplain, hdown⟩

theorem length_lt_bucketed : path.length < (bucketed path).length := by
  rcases bucketed_cases hpath with ⟨_, heq⟩ | ⟨parent, leaf, _, hplain, heq⟩
  · rw [heq]
    simp only [List.length_append, List.length_cons]
    omega
  · rw [heq, hplain]
    simp only [List.length_append, List.length_cons]
    omega

/-- Where a tag in a bucketed path misses the name, it is in a directory above the bucket. -/
theorem tagged_bucketed_components (hash : Blake3) (hdot : ¬ LastDotInLeaf (bucketed path)) :
    ∃ above above' bucket leaf, path.components = Text.components above ++ [leaf] ∧
      (tagged (bucketed path) hash).components = Text.components above' ++ [bucket, leaf] ∧
      above'.length = above.length + (tagSuffix hash).length := by
  obtain ⟨dirs, leaf, hplain, hdown⟩ := bucketed_components hpath
  simp only [LastDotInLeaf, not_forall, not_not] at hdot
  obtain ⟨stem, ext, hsplit, hstem, hslash⟩ := hdot
  have heq : tagged (bucketed path) hash = stem ++ tagSuffix hash ++ '.' :: ext := by
    simp only [tagged, hsplit, if_neg hstem]
  rw [(Text.rsplitOnce_eq_some.mp hsplit).1] at hdown
  -- The name and the bucket follow the last two slashes, which are behind the dot.
  obtain ⟨inner, name, rfl, hname⟩ := Text.exists_last hslash
  rw [← List.cons_append, ← List.append_assoc, Text.components_slash,
    Text.components_of_notMem hname, List.append_cons dirs] at hdown
  obtain ⟨hinner, hleaf⟩ := List.append_inj' hdown rfl
  have hdeep : '/' ∈ inner := by
    by_contra hflat
    have hword : '/' ∉ '.' :: inner := by
      rw [List.mem_cons, not_or]
      exact ⟨by decide, hflat⟩
    obtain ⟨init, last, _, hlast⟩ := Text.components_leaf stem
    rw [hlast _ hword] at hinner
    have hbucket := List.singleton_inj.mp (List.append_inj' hinner rfl).2
    refine (alphaBucket_chars leaf '.' ?_).2 rfl
    rw [← hbucket]
    simp
  obtain ⟨above, bucket, rfl, hbucket⟩ := Text.exists_last hdeep
  rw [← List.cons_append, ← List.append_assoc, Text.components_slash,
    Text.components_of_notMem hbucket] at hinner
  obtain ⟨habove, _⟩ := List.append_inj' hinner rfl
  refine ⟨stem ++ '.' :: above, stem ++ tagSuffix hash ++ '.' :: above, bucket, name, ?_, ?_, ?_⟩
  · rw [hplain, habove, ← List.singleton_inj.mp hleaf]
  · have hsplit' : tagged (bucketed path) hash =
        (stem ++ tagSuffix hash ++ '.' :: above) ++ '/' :: (bucket ++ '/' :: name) := by
      rw [heq]
      simp only [List.append_assoc, List.cons_append]
    rw [hsplit', Text.components_slash, Text.components_slash, Text.components_of_notMem hbucket,
      Text.components_of_notMem hname]
    rfl
  · simp only [List.length_append, List.length_cons]
    omega

/-- A bucketed path's tag goes where it may exactly when the last dot is in the name. -/
theorem relocated_tagged_iff (hash : Blake3) :
    Relocated path (tagged (bucketed path) hash) hash ↔ LastDotInLeaf (bucketed path) := by
  constructor
  · intro hrelocated
    by_contra hdot
    obtain ⟨above, above', bucket, leaf, hplain, htagged, hlength⟩ :=
      tagged_bucketed_components hpath hash hdot
    have hlonger := List.length_pos_iff.mpr (tagSuffix_ne_nil hash)
    rcases hrelocated with heq | ⟨dirs, bucket', leaf', hpath', hdown⟩ |
      ⟨mid, ⟨dirs, bucket', leaf', hpath', hdown⟩, dirs', before, after, hmid, hinside⟩
    · have htag := tagged_length (bucketed path) hash
      have hbucket := length_lt_bucketed hpath
      rw [heq] at htag
      omega
    · rw [hplain] at hpath'
      rw [htagged] at hdown
      have hdirs := (List.append_inj' hpath' rfl).1
      have habove := (List.append_inj' hdown rfl).1
      rw [Text.components_inj (habove.trans hdirs.symm)] at hlength
      omega
    · rw [hplain] at hpath'
      rw [hdown, List.append_cons] at hmid
      rw [htagged, List.append_cons] at hinside
      have hleaf := List.singleton_inj.mp (List.append_inj' hpath' rfl).2
      have hbare := List.singleton_inj.mp (List.append_inj' hmid rfl).2
      have hfull := List.singleton_inj.mp (List.append_inj' hinside rfl).2
      have hsame := congrArg List.length (hbare.symm.trans (hleaf.symm.trans hfull))
      simp only [List.length_append] at hsame
      omega
  · intro hdot
    exact Or.inr (Or.inr ⟨bucketed path, oneLevelDown_bucketed hpath,
      (tagInLeaf_tagged_iff _ _).mpr hdot⟩)

end

end Bucketed

/-! ## Turns -/

/-- The path of the row a turn adds, if it adds one. -/
def Turn.rowPath (pick : Picked) : Turn → Option Text
  | .kept path => some path
  | .renamed path => some (tagged path pick.hash)
  | .unselected | .oversize | .duplicate _ => none

/-- The turns of the picks, each against the paths taken before it. -/
def ViewDef.turns (view : ViewDef) : List Text → List Picked → Option (List (Picked × Turn))
  | _, [] => some []
  | seen, pick :: rest => do
      let turn ← view.turn seen pick
      let later ← view.turns ((turn.rowPath pick).toList ++ seen) rest
      return (pick, turn) :: later

def rowOf (db : Db) (entry : Picked × Turn) : Option Row :=
  (entry.2.rowPath entry.1).map fun path => ⟨entry.1, path, seekClassOf db entry.1.hash⟩

namespace ViewDef

variable {view : ViewDef} {db : Db} {seen : List Text} {pick : Picked} {picks : List Picked}
variable {turn : Turn} {turns : List (Picked × Turn)}

/-- The pick is one the view has to show. -/
def Wants (view : ViewDef) (pick : Picked) : Prop :=
  view.selects pick = true ∧ view.isOversize pick = false

/-- Everything a turn can be. -/
theorem turn_cases (hturn : view.turn seen pick = some turn) :
    (¬ view.Wants pick ∧ (turn = .unselected ∨ turn = .oversize)) ∨
      ∃ path, view.Wants pick ∧ view.place pick = some path ∧
        ((turn = .kept path ∧ path ∉ seen) ∨
          (turn = .renamed path ∧ tagged path pick.hash ∉ seen) ∨
          turn = .duplicate path) := by
  unfold ViewDef.turn at hturn
  split at hturn
  · rename_i hselects
    cases hturn
    refine Or.inl ⟨fun hwants => ?_, Or.inl rfl⟩
    rw [hwants.1] at hselects
    cases hselects
  · rename_i hselects
    split at hturn
    · rename_i hoversize
      cases hturn
      refine Or.inl ⟨fun hwants => ?_, Or.inr rfl⟩
      rw [hwants.2] at hoversize
      cases hoversize
    · rename_i hoversize
      obtain ⟨path, hplace, hturn⟩ := Option.bind_eq_some_iff.mp hturn
      refine Or.inr ⟨path, ⟨by simpa using hselects, by simpa using hoversize⟩, hplace, ?_⟩
      split at hturn
      · rename_i hfree
        cases hturn
        exact Or.inl ⟨rfl, hfree⟩
      · split at hturn
        · rename_i hfree
          cases hturn
          exact Or.inr (Or.inl ⟨rfl, hfree⟩)
        · cases hturn
          exact Or.inr (Or.inr rfl)

theorem turn_isSome (seen : List Text)
    (hplaced : view.Wants pick → ∃ path, view.place pick = some path) :
    ∃ turn, view.turn seen pick = some turn := by
  unfold ViewDef.turn
  split
  · exact ⟨_, rfl⟩
  · rename_i hselects
    split
    · exact ⟨_, rfl⟩
    · rename_i hoversize
      obtain ⟨path, hplace⟩ := hplaced ⟨by simpa using hselects, by simpa using hoversize⟩
      rw [hplace, Option.bind_eq_bind, Option.bind_some]
      split
      · exact ⟨_, rfl⟩
      · split <;> exact ⟨_, rfl⟩

theorem turns_cons_eq_some (hturns : view.turns seen (pick :: picks) = some turns) :
    ∃ turn later, view.turn seen pick = some turn ∧
      view.turns ((turn.rowPath pick).toList ++ seen) picks = some later ∧
      turns = (pick, turn) :: later := by
  obtain ⟨turn, hturn, hrest⟩ := Option.bind_eq_some_iff.mp hturns
  obtain ⟨later, hlater, hpure⟩ := Option.bind_eq_some_iff.mp hrest
  cases hpure
  exact ⟨turn, later, hturn, hlater, rfl⟩

theorem turns_isSome (seen : List Text) (hplaced : ∀ pick ∈ picks, view.Wants pick →
    ∃ path, view.place pick = some path) : ∃ turns, view.turns seen picks = some turns := by
  induction picks generalizing seen with
  | nil => exact ⟨[], rfl⟩
  | cons pick rest ih =>
    obtain ⟨turn, hturn⟩ := turn_isSome seen (hplaced pick List.mem_cons_self)
    obtain ⟨later, hlater⟩ := ih ((turn.rowPath pick).toList ++ seen)
      fun other hother => hplaced other (List.mem_cons_of_mem _ hother)
    refine ⟨(pick, turn) :: later, ?_⟩
    rw [turns, hturn, Option.bind_eq_bind, Option.bind_some, hlater]
    rfl

section

variable (hturns : view.turns seen picks = some turns)

include hturns

/-- Each turn is one of the pick it stands with, against some set of taken paths. -/
theorem turn_of_mem (hmem : (pick, turn) ∈ turns) :
    pick ∈ picks ∧ ∃ taken, view.turn taken pick = some turn := by
  induction picks generalizing seen turns with
  | nil =>
    cases hturns
    cases hmem
  | cons first rest ih =>
    obtain ⟨turn', later, hturn, hlater, rfl⟩ := turns_cons_eq_some hturns
    rcases List.mem_cons.mp hmem with heq | hmem
    · cases heq
      exact ⟨List.mem_cons_self, seen, hturn⟩
    · obtain ⟨hpick, htaken⟩ := ih hlater hmem
      exact ⟨List.mem_cons_of_mem _ hpick, htaken⟩

theorem exists_turn (hpick : pick ∈ picks) : ∃ turn, (pick, turn) ∈ turns := by
  induction picks generalizing seen turns with
  | nil => cases hpick
  | cons first rest ih =>
    obtain ⟨turn', later, _, hlater, rfl⟩ := turns_cons_eq_some hturns
    rcases List.mem_cons.mp hpick with rfl | hpick
    · exact ⟨turn', List.mem_cons_self⟩
    · obtain ⟨turn, hturn⟩ := ih hlater hpick
      exact ⟨turn, List.mem_cons_of_mem _ hturn⟩

/-- The rows' paths are distinct and none was taken before. -/
theorem turns_nodup :
    (turns.filterMap fun entry => entry.2.rowPath entry.1).Nodup ∧
      ∀ path ∈ turns.filterMap fun entry => entry.2.rowPath entry.1, path ∉ seen := by
  induction picks generalizing seen turns with
  | nil =>
    cases hturns
    exact ⟨List.nodup_nil, nofun⟩
  | cons pick rest ih =>
    obtain ⟨turn, later, hturn, hlater, rfl⟩ := turns_cons_eq_some hturns
    obtain ⟨hnodup, hfresh⟩ := ih hlater
    have hfree : ∀ path, turn.rowPath pick = some path → path ∉ seen := by
      intro path hpath
      rcases turn_cases hturn with ⟨_, rfl | rfl⟩ | ⟨placed, _, _, hcases⟩
      · cases hpath
      · cases hpath
      · rcases hcases with ⟨rfl, hfree⟩ | ⟨rfl, hfree⟩ | rfl
        · cases hpath
          exact hfree
        · cases hpath
          exact hfree
        · cases hpath
    cases hpath : turn.rowPath pick with
    | none =>
      rw [hpath] at hfresh
      simp only [List.filterMap_cons, hpath]
      exact ⟨hnodup, hfresh⟩
    | some path =>
      rw [hpath] at hfresh
      simp only [List.filterMap_cons, hpath]
      refine ⟨List.nodup_cons.mpr ⟨?_, hnodup⟩, ?_⟩
      · intro hmem
        exact hfresh path hmem List.mem_cons_self
      · intro other hother
        rcases List.mem_cons.mp hother with rfl | hother
        · exact hfree other hpath
        · exact fun hseen => hfresh other hother (List.mem_cons_of_mem _ hseen)

end

/-- The layout loop adds the rows of the turns, in order. -/
theorem foldlM_rows (layout : Layout) :
    (picks.foldlM (Layout.step view db) layout).map Layout.rows =
      (view.turns layout.seen picks).map fun turns => layout.rows ++ turns.filterMap (rowOf db) := by
  induction picks generalizing layout with
  | nil => simp [turns]
  | cons pick rest ih =>
    rw [List.foldlM_cons, turns, Layout.step]
    cases hturn : view.turn layout.seen pick with
    | none => rfl
    | some turn =>
      have hseen : (layout.after db pick turn).seen =
          (turn.rowPath pick).toList ++ layout.seen := by
        cases turn <;> rfl
      have hrows : (layout.after db pick turn).rows =
          layout.rows ++ (rowOf db (pick, turn)).toList := by
        cases turn <;> simp [Layout.after, Layout.push, rowOf, Turn.rowPath]
      simp only [Option.map_some, Option.bind_eq_bind, Option.bind_some]
      rw [ih, hseen, hrows]
      cases view.turns ((turn.rowPath pick).toList ++ layout.seen) rest with
      | none => rfl
      | some later =>
        cases hrow : rowOf db (pick, turn) <;> simp [hrow]

theorem layout_rows (view : ViewDef) (db : Db) (picks : List Picked) :
    (view.layout db picks).map Layout.rows =
      (view.turns [] picks).map fun turns => turns.filterMap (rowOf db) := by
  rw [layout, foldlM_rows]
  rfl

end ViewDef

/-! ## Bucketing -/

/-- What becomes of each row, against the other rows' paths at that moment. -/
def bucketTurns (overfull : List Text) : List Text → List Row → List (Row × BucketTurn)
  | _, [] => []
  | seen, row :: rest =>
    let turn := bucketTurn overfull seen row
    (row, turn) ::
      bucketTurns overfull (row.bucketPath turn :: seen.filter (· ≠ row.path)) rest

section Buckets

variable {overfull seen : List Text} {row : Row} {rows : List Row}

theorem bucketLoop_rows (overfull seen : List Text) (rows : List Row) :
    (bucketLoop overfull seen rows).1 = (bucketTurns overfull seen rows).map
      fun entry => { entry.1 with path := entry.1.bucketPath entry.2 } := by
  induction rows generalizing seen with
  | nil => rfl
  | cons row rest ih => simp only [bucketLoop, bucketTurns, List.map_cons, ih]

theorem bucketTurns_fst (overfull seen : List Text) (rows : List Row) :
    (bucketTurns overfull seen rows).map Prod.fst = rows := by
  induction rows generalizing seen with
  | nil => rfl
  | cons row rest ih => simp only [bucketTurns, List.map_cons, ih]

theorem bucketTurns_nil (seen : List Text) (rows : List Row) :
    ∀ entry ∈ bucketTurns [] seen rows, entry.2 = .stays := by
  induction rows generalizing seen with
  | nil => nofun
  | cons row rest ih =>
    intro entry hmem
    rcases List.mem_cons.mp hmem with rfl | hmem
    · simp [bucketTurn]
    · exact ih _ entry hmem

theorem bucketOverfullDirs_rows (rows : List Row) (cap : Nat) :
    (bucketOverfullDirs rows cap).rows =
      (bucketLoop (overfullDirs rows cap) (rows.map Row.path) rows).1 := by
  unfold bucketOverfullDirs
  simp only
  split
  · rename_i hnone
    rw [hnone, bucketLoop_rows]
    nth_rewrite 1 [← bucketTurns_fst [] (rows.map Row.path) rows]
    apply List.map_congr_left
    intro entry hmem
    rw [bucketTurns_nil _ _ entry hmem]
    rfl
  · rfl

/-- A row's new path is no other row's path. -/
theorem bucketPath_notMem (overfull seen : List Text) (row : Row) :
    row.bucketPath (bucketTurn overfull seen row) ∉ seen.filter (· ≠ row.path) := by
  have hself : row.path ∉ seen.filter (· ≠ row.path) := by simp
  unfold bucketTurn
  simp only
  split
  · exact hself
  · split
    · assumption
    · split
      · assumption
      · exact hself

/-- The loop keeps the paths distinct: a new path that was taken was one of the rows'. -/
theorem bucketLoop_nodup (hnodup : (rows.map Row.path).Nodup)
    (hseen : ∀ path ∈ rows.map Row.path, path ∈ seen) :
    ((bucketLoop overfull seen rows).1.map Row.path).Nodup ∧
      ∀ path ∈ (bucketLoop overfull seen rows).1.map Row.path, path ∈ seen →
        path ∈ rows.map Row.path := by
  induction rows generalizing seen with
  | nil => exact ⟨List.nodup_nil, nofun⟩
  | cons row rest ih =>
    simp only [bucketLoop, List.map_cons]
    rw [List.map_cons] at hnodup hseen
    obtain ⟨hrow, hrest⟩ := List.nodup_cons.mp hnodup
    have hfree := bucketPath_notMem overfull seen row
    have hothers : ∀ path ∈ rest.map Row.path, path ∈ seen.filter (· ≠ row.path) := by
      intro path hpath
      rw [List.mem_filter, decide_eq_true_eq]
      exact ⟨hseen path (List.mem_cons_of_mem _ hpath), fun heq => hrow (heq ▸ hpath)⟩
    obtain ⟨hlater, hold⟩ := ih hrest fun path hpath =>
      List.mem_cons_of_mem (row.bucketPath (bucketTurn overfull seen row)) (hothers path hpath)
    refine ⟨List.nodup_cons.mpr ⟨?_, hlater⟩, ?_⟩
    · intro hmem
      exact hfree (hothers _ (hold _ hmem List.mem_cons_self))
    · intro path hmem htaken
      by_cases heq : path = row.path
      · exact heq ▸ List.mem_cons_self
      · have hother : path ∈ seen.filter (· ≠ row.path) := by
          rw [List.mem_filter, decide_eq_true_eq]
          exact ⟨htaken, heq⟩
        rcases List.mem_cons.mp hmem with rfl | hmem
        · exact absurd hother hfree
        · exact List.mem_cons_of_mem _ (hold path hmem (List.mem_cons_of_mem _ hother))

end Buckets

/-! ## What a view keeps -/

/-- Rows that lose nothing of what was picked. `laid` are the rows before bucketing. -/
structure Kept (view : ViewDef) (picks : List Picked) (laid rows : List Row) : Prop where
  distinct : (rows.map Row.path).Nodup
  covered : ∀ pick ∈ picks, view.Wants pick → ∃ row ∈ rows, row.pick.hash = pick.hash
  placed : ∀ row ∈ laid, row.pick ∈ picks ∧ ∃ path, view.place row.pick = some path ∧
    (row.path = path ∨ TagInLeaf path row.path row.pick.hash)
  moved : List.Forall₂ (fun row row' => row'.pick = row.pick ∧ row'.seek = row.seek ∧
    Relocated row.path row'.path row.pick.hash) laid rows

/-- The view is evaluated, and its rows lose nothing. -/
def LosesNothing (view : ViewDef) (db : Db) (picks : List Picked) : Prop :=
  ∃ laid report, view.layout db picks = some laid ∧ view.evaluate db picks = some report ∧
    Kept view picks laid.rows report.rows

/-- What bucketing does with each row of a laid out view. -/
def ViewDef.bucketTurns (view : ViewDef) (rows : List Row) : List (Row × BucketTurn) :=
  match view.profile.bind Profile.maxDirEntries with
  | none => rows.map fun row => (row, .stays)
  | some cap => Catalog.bucketTurns (overfullDirs rows cap) (rows.map Row.path) rows

/-- No branch that goes wrong is taken: every wanted pick has a path, a pick or a row that
gets a tag has its last dot in the name, and a pick that finds both its paths taken is not
the only one of its blob. -/
structure Untroubled (view : ViewDef) (db : Db) (picks : List Picked) : Prop where
  fits : ∀ pick ∈ picks, view.Wants pick → ∃ path, view.place pick = some path
  tags : ∀ turns, view.turns [] picks = some turns →
    ∀ pick path, (pick, .renamed path) ∈ turns → LastDotInLeaf path
  repeats : ∀ turns, view.turns [] picks = some turns →
    ∀ pick path, (pick, .duplicate path) ∈ turns →
      ∃ other turn, (other, turn) ∈ turns ∧ other.hash = pick.hash ∧
        (turn.rowPath other).isSome
  buckets : ∀ laid, view.layout db picks = some laid →
    ∀ row, (row, .renamed) ∈ view.bucketTurns laid.rows → LastDotInLeaf (bucketed row.path)

namespace ViewDef

variable {view : ViewDef} {db : Db} {picks : List Picked} {turns : List (Picked × Turn)}
variable {laid : Layout} {rows : List Row} {row : Row}

theorem layout_eq_some (hlaid : view.layout db picks = some laid) :
    ∃ turns, view.turns [] picks = some turns ∧ laid.rows = turns.filterMap (rowOf db) := by
  have hrows := layout_rows view db picks
  rw [hlaid, Option.map_some] at hrows
  obtain ⟨turns, hturns, heq⟩ := Option.map_eq_some_iff.mp hrows.symm
  exact ⟨turns, hturns, heq.symm⟩

theorem layout_of_turns (db : Db) (hturns : view.turns [] picks = some turns) :
    ∃ laid, view.layout db picks = some laid ∧ laid.rows = turns.filterMap (rowOf db) := by
  have hrows := layout_rows view db picks
  rw [hturns, Option.map_some] at hrows
  exact Option.map_eq_some_iff.mp hrows

theorem mem_laid : row ∈ turns.filterMap (rowOf db) ↔
    ∃ turn, (row.pick, turn) ∈ turns ∧ turn.rowPath row.pick = some row.path ∧
      row.seek = seekClassOf db row.pick.hash := by
  rw [List.mem_filterMap]
  constructor
  · rintro ⟨⟨pick, turn⟩, hmem, hrow⟩
    obtain ⟨path, hpath, rfl⟩ := Option.map_eq_some_iff.mp hrow
    exact ⟨turn, hmem, hpath, rfl⟩
  · rintro ⟨turn, hmem, hpath, hseek⟩
    refine ⟨(row.pick, turn), hmem, ?_⟩
    simp only [rowOf, hpath, Option.map_some, ← hseek]

/-- A row's path is the one its pick asks for, or that one with the tag. -/
theorem laid_path (hturns : view.turns [] picks = some turns)
    (hrow : row ∈ turns.filterMap (rowOf db)) :
    row.pick ∈ picks ∧ ∃ path, view.place row.pick = some path ∧
      (row.path = path ∨
        ((row.pick, .renamed path) ∈ turns ∧ row.path = tagged path row.pick.hash)) := by
  obtain ⟨turn, hmem, hpath, _⟩ := mem_laid.mp hrow
  obtain ⟨hpick, taken, hturn⟩ := turn_of_mem hturns hmem
  refine ⟨hpick, ?_⟩
  rcases turn_cases hturn with ⟨_, rfl | rfl⟩ | ⟨path, _, hplace, hcases⟩
  · cases hpath
  · cases hpath
  · refine ⟨path, hplace, ?_⟩
    rcases hcases with ⟨rfl, _⟩ | ⟨rfl, _⟩ | rfl
    · exact Or.inl (Option.some.inj hpath).symm
    · exact Or.inr ⟨hmem, (Option.some.inj hpath).symm⟩
    · cases hpath

theorem noEmpty_laid (hturns : view.turns [] picks = some turns)
    (hrow : row ∈ turns.filterMap (rowOf db)) : NoEmpty row.path := by
  obtain ⟨_, path, hplace, hcases⟩ := laid_path hturns hrow
  have hpath := noEmpty_place hplace
  rcases hcases with heq | ⟨_, heq⟩
  · exact heq ▸ hpath
  · exact heq ▸ noEmpty_tagged hpath row.pick.hash

theorem bucketTurns_fst (view : ViewDef) (rows : List Row) :
    (view.bucketTurns rows).map Prod.fst = rows := by
  unfold ViewDef.bucketTurns
  split
  · rw [List.map_map]
    exact List.map_id rows
  · exact Catalog.bucketTurns_fst _ _ _

theorem bucket_rows (view : ViewDef) (laid : Layout) :
    (view.bucket laid).rows = (view.bucketTurns laid.rows).map
      fun entry => { entry.1 with path := entry.1.bucketPath entry.2 } := by
  unfold bucket ViewDef.bucketTurns
  cases view.profile.bind Profile.maxDirEntries with
  | none =>
    simp only [List.map_map]
    exact (List.map_id laid.rows).symm
  | some cap =>
    simp only
    rw [bucketOverfullDirs_rows, bucketLoop_rows]

theorem bucket_picks (view : ViewDef) (laid : Layout) :
    (view.bucket laid).rows.map Row.pick = laid.rows.map Row.pick := by
  rw [bucket_rows, List.map_map]
  nth_rewrite 2 [← bucketTurns_fst view laid.rows]
  rw [List.map_map]
  rfl

/-- The final rows have distinct paths. -/
theorem bucket_nodup (hnodup : (laid.rows.map Row.path).Nodup) :
    ((view.bucket laid).rows.map Row.path).Nodup := by
  unfold bucket
  split
  · exact hnodup
  · simp only
    rw [bucketOverfullDirs_rows]
    exact (bucketLoop_nodup hnodup fun _ hpath => hpath).1

theorem laid_nodup (hturns : view.turns [] picks = some turns) :
    ((turns.filterMap (rowOf db)).map Row.path).Nodup := by
  have hpaths : (turns.filterMap (rowOf db)).map Row.path =
      turns.filterMap fun entry => entry.2.rowPath entry.1 := by
    rw [List.map_filterMap]
    congr 1
    funext entry
    cases hpath : entry.2.rowPath entry.1 <;> simp [rowOf, hpath]
  rw [hpaths]
  exact (turns_nodup hturns).1

/-- Bucketing relocates rows as it may exactly where each tagged row has its dot in the name. -/
theorem moved_iff (hclean : ∀ row ∈ laid.rows, NoEmpty row.path) :
    List.Forall₂ (fun row row' => row'.pick = row.pick ∧ row'.seek = row.seek ∧
        Relocated row.path row'.path row.pick.hash) laid.rows (view.bucket laid).rows ↔
      ∀ row, (row, .renamed) ∈ view.bucketTurns laid.rows → LastDotInLeaf (bucketed row.path) := by
  have hmem : ∀ entry ∈ view.bucketTurns laid.rows, NoEmpty entry.1.path := by
    intro entry hentry
    apply hclean
    rw [← bucketTurns_fst view laid.rows]
    exact List.mem_map_of_mem hentry
  rw [bucket_rows]
  nth_rewrite 1 [← bucketTurns_fst view laid.rows]
  rw [List.forall₂_map_left_iff, List.forall₂_map_right_iff, List.forall₂_same]
  constructor
  · intro hall row hrow
    exact (relocated_tagged_iff (hmem _ hrow) row.pick.hash).mp (hall _ hrow).2.2
  · rintro hdots ⟨row, turn⟩ hentry
    refine ⟨rfl, rfl, ?_⟩
    cases turn with
    | stays => exact Or.inl rfl
    | blocked => exact Or.inl rfl
    | moves => exact Or.inr (Or.inl (oneLevelDown_bucketed (hmem _ hentry)))
    | renamed =>
      exact (relocated_tagged_iff (hmem _ hentry) row.pick.hash).mpr (hdots row hentry)

section

variable (hturns : view.turns [] picks = some turns)
  (hlaid : laid.rows = turns.filterMap (rowOf db))

include hturns hlaid

theorem covered_iff :
    (∀ pick ∈ picks, view.Wants pick → ∃ row ∈ (view.bucket laid).rows,
        row.pick.hash = pick.hash) ↔
      ∀ pick path, (pick, .duplicate path) ∈ turns →
        ∃ other turn, (other, turn) ∈ turns ∧ other.hash = pick.hash ∧
          (turn.rowPath other).isSome := by
  -- Bucketing keeps the picks of the rows, so the rows laid out decide.
  have hpicks : ∀ hash, (∃ row ∈ (view.bucket laid).rows, row.pick.hash = hash) ↔
      ∃ other turn, (other, turn) ∈ turns ∧ other.hash = hash ∧
        (turn.rowPath other).isSome := by
    intro hash
    have hsame : (∃ row ∈ (view.bucket laid).rows, row.pick.hash = hash) ↔
        ∃ row ∈ laid.rows, row.pick.hash = hash := by
      have hany : ∀ rows : List Row, (∃ row ∈ rows, row.pick.hash = hash) ↔
          hash ∈ (rows.map Row.pick).map Picked.hash := by
        simp
      rw [hany, hany, bucket_picks]
    rw [hsame, hlaid]
    constructor
    · rintro ⟨row, hrow, heq⟩
      obtain ⟨turn, hmem, hpath, _⟩ := mem_laid.mp hrow
      exact ⟨row.pick, turn, hmem, heq, Option.isSome_of_eq_some hpath⟩
    · rintro ⟨other, turn, hmem, heq, hsome⟩
      obtain ⟨path, hpath⟩ := Option.isSome_iff_exists.mp hsome
      exact ⟨⟨other, path, seekClassOf db other.hash⟩, mem_laid.mpr ⟨turn, hmem, hpath, rfl⟩, heq⟩
  constructor
  · intro hcovered pick path hmem
    obtain ⟨hpick, taken, hturn⟩ := turn_of_mem hturns hmem
    have hwants : view.Wants pick := by
      rcases turn_cases hturn with ⟨_, heq | heq⟩ | ⟨_, hwants, _⟩
      · cases heq
      · cases heq
      · exact hwants
    exact (hpicks pick.hash).mp (hcovered pick hpick hwants)
  · intro hrepeats pick hpick hwants
    rw [hpicks]
    obtain ⟨turn, hmem⟩ := exists_turn hturns hpick
    obtain ⟨_, taken, hturn⟩ := turn_of_mem hturns hmem
    rcases turn_cases hturn with ⟨hnot, _⟩ | ⟨path, _, _, hcases⟩
    · exact absurd hwants hnot
    · rcases hcases with ⟨rfl, _⟩ | ⟨rfl, _⟩ | rfl
      · exact ⟨pick, _, hmem, rfl, rfl⟩
      · exact ⟨pick, _, hmem, rfl, rfl⟩
      · exact hrepeats pick path hmem

theorem placed_iff :
    (∀ row ∈ laid.rows, row.pick ∈ picks ∧ ∃ path, view.place row.pick = some path ∧
        (row.path = path ∨ TagInLeaf path row.path row.pick.hash)) ↔
      ∀ pick path, (pick, .renamed path) ∈ turns → LastDotInLeaf path := by
  rw [hlaid]
  constructor
  · intro hplaced pick path hmem
    obtain ⟨_, taken, hturn⟩ := turn_of_mem hturns hmem
    have hplace : view.place pick = some path := by
      rcases turn_cases hturn with ⟨_, heq | heq⟩ | ⟨_, _, hplace, ⟨heq, _⟩ | ⟨heq, _⟩ | heq⟩
      · cases heq
      · cases heq
      · cases heq
      · cases heq
        exact hplace
      · cases heq
    have hrow : ⟨pick, tagged path pick.hash, seekClassOf db pick.hash⟩ ∈
        turns.filterMap (rowOf db) := mem_laid.mpr ⟨.renamed path, hmem, rfl, rfl⟩
    obtain ⟨_, path', hplace', heq | htag⟩ := hplaced _ hrow
    · rw [hplace] at hplace'
      cases hplace'
      exact absurd heq (tagged_ne path pick.hash)
    · rw [hplace] at hplace'
      cases hplace'
      exact (tagInLeaf_tagged_iff path pick.hash).mp htag
  · intro hdots row hrow
    obtain ⟨hpick, path, hplace, hcases⟩ := laid_path hturns hrow
    refine ⟨hpick, path, hplace, ?_⟩
    rcases hcases with heq | ⟨hmem, heq⟩
    · exact Or.inl heq
    · rw [heq]
      exact Or.inr ((tagInLeaf_tagged_iff path row.pick.hash).mpr (hdots row.pick path hmem))

end

end ViewDef

/-- Two games of one name in a directory with a dot. -/
def dottedPicks : List Picked :=
  [⟨1, "a".toList, "v1.0/rom".toList, 1, 1, 4⟩, ⟨2, "b".toList, "v1.0/rom".toList, 2, 2, 4⟩]

/-- A name that spells another pick's tagged path. -/
def spelledPicks : List Picked :=
  [⟨1, "a".toList, "rom (00000000)".toList, 1, 1, 4⟩, ⟨2, "b".toList, "rom".toList, 2, 2, 4⟩,
    ⟨3, "c".toList, "rom".toList, 3, 3, 4⟩]

def namesView : ViewDef := { template := "{name}".toList, profile := none }

end Datboi.Catalog
