import Datboi.Catalog.Fat32
import Datboi.Catalog.Fitting

/-!
# Names in a FAT32 directory

An operating system finds an entry by its long name or by its 8.3 name, ignoring case. Two
long names differ because the tree is built so, and two short names because a used one is
not given again. A short name with a numeric tail, however, is only compared with the short
names given before it, and may spell another entry's long name.
-/

namespace Datboi.Catalog

namespace Fat32

/-! ## Looking up -/

/-- The text an 8.3 name is looked up by. -/
def shortText (short : Text) : Text :=
  withDot (Text.trimEnd (· = ' ') (short.take 8)) (Text.trimEnd (· = ' ') (short.drop 8))

/-- The names an entry can be found by. -/
def Child.names (child : Child) : List Text := [child.node.name, shortText child.short]

/-- No two entries have names that agree up to case. -/
def Unambiguous (fold : CaseFold) (children : List Child) : Prop :=
  ∀ a ∈ children, ∀ b ∈ children, ∀ x ∈ a.names, ∀ y ∈ b.names,
    fold.toUppercase x = fold.toUppercase y → a = b

def lookup (fold : CaseFold) (children : List Child) (name : Text) : Option Child :=
  children.find? fun child => child.names.any fun other =>
    fold.toUppercase other = fold.toUppercase name

/-- The tailed alias a name gets when it cannot keep its plain one. -/
def aliasOf (long : Text) (used : List Text) : Option Text :=
  let (stem, ext, lossy) := mangled long
  if !lossy ∧ render stem ext ∉ used then none else tailLoop used stem ext (2 ^ 32 - 1) 1

/-- No entry that gets a tailed alias, against the short names before it, gets one that spells
the long name of another entry. -/
def AliasesFree (fold : CaseFold) (children : List Child) : Prop :=
  ∀ before child after, children = before ++ child :: after →
    ∀ short, aliasOf child.node.name (before.map Child.short).reverse = some short →
      ∀ other ∈ before ++ after, fold.toUppercase other.node.name ≠ shortText short

/-! ## The 8.3 charset -/

/-- A character of an 8.3 name's field. -/
def IsShortChar (c : Char) : Prop := c.toNat < 128 ∧ c.toUpper = c ∧ c ≠ ' ' ∧ c ≠ '.'

instance : DecidablePred IsShortChar := fun _ => inferInstanceAs (Decidable (_ ∧ _))

theorem forall_ascii {P : Char → Prop} (hall : ∀ n < 128, P (Char.ofNat n)) {c : Char}
    (hc : c.toNat < 128) : P c := by
  have hspec := hall c.toNat hc
  rwa [Char.ofNat_toNat] at hspec

theorem ascii_of_letter {c : Char} (hc : c.isUpper ∨ c.isDigit ∨ c.isLower) : c.toNat < 128 := by
  delta Char.isUpper Char.isDigit Char.isLower at hc
  simp only [Bool.and_eq_true, decide_eq_true_eq] at hc
  rcases hc with ⟨_, hle⟩ | ⟨_, hle⟩ | ⟨_, hle⟩
  all_goals exact Nat.lt_of_le_of_lt (UInt32.le_iff_toNat_le.mp hle) (by decide)

theorem kept_isShortChar : ∀ c ∈ keptChars, IsShortChar c := Text.forall_of_all (by decide)

/-- What a character becomes belongs to the charset, and nothing is lost only where it is
the character in upper case. -/
theorem mangleChar_spec (c : Char) : (∀ b, (mangleChar c).1 = some b → IsShortChar b) ∧
    ((mangleChar c).2 = false → (mangleChar c).1 = some c.toUpper ∧ c.toNat < 128) := by
  unfold mangleChar
  split
  · rename_i hc
    have hascii : c.toNat < 128 := ascii_of_letter (by tauto)
    have hshort : c.isUpper ∨ c.isDigit → IsShortChar c :=
      forall_ascii (P := fun c => c.isUpper ∨ c.isDigit → IsShortChar c) (by decide) hascii
    refine ⟨fun b hb => Option.some.inj hb ▸ hshort hc, fun _ => ⟨?_, hascii⟩⟩
    rw [(hshort hc).2.1]
  · split
    · rename_i hc
      have hascii : c.toNat < 128 := ascii_of_letter (by tauto)
      have hshort : c.isLower → IsShortChar c.toUpper :=
        forall_ascii (P := fun c => c.isLower → IsShortChar c.toUpper) (by decide) hascii
      exact ⟨fun b hb => Option.some.inj hb ▸ hshort hc, fun _ => ⟨rfl, hascii⟩⟩
    · split
      · rename_i hc
        have hshort := kept_isShortChar c (List.contains_iff_mem.mp hc)
        refine ⟨fun b hb => Option.some.inj hb ▸ hshort, fun _ => ⟨?_, hshort.1⟩⟩
        rw [hshort.2.1]
      · split
        · exact ⟨nofun, nofun⟩
        · exact ⟨fun b hb => Option.some.inj hb ▸ by decide, nofun⟩

variable {lossy : Bool} {short stem ext : Text}

theorem mangle_spec {cap : Nat} {out text res : Text} {lossy' : Bool}
    (hout : ∀ c ∈ out, IsShortChar c) (hlength : out.length ≤ cap)
    (hrun : mangle cap out lossy text = (res, lossy')) :
    (∀ c ∈ res, IsShortChar c) ∧ res.length ≤ cap ∧
      (lossy' = false → lossy = false ∧ res = out ++ text.map Char.toUpper ∧
        ∀ c ∈ text, c.toNat < 128) := by
  induction text generalizing out lossy with
  | nil =>
    cases hrun
    exact ⟨hout, hlength, fun hlossy => ⟨hlossy, by simp, nofun⟩⟩
  | cons c rest ih =>
    rw [mangle] at hrun
    split at hrun
    · cases hrun
      exact ⟨hout, hlength, nofun⟩
    · rename_i hroom
      obtain ⟨hshort, hplain⟩ := mangleChar_spec c
      have hout' : ∀ b ∈ out ++ (mangleChar c).1.toList, IsShortChar b := by
        intro b hb
        rcases List.mem_append.mp hb with hb | hb
        · exact hout b hb
        · exact hshort b (Option.mem_toList.mp hb)
      have hlength' : (out ++ (mangleChar c).1.toList).length ≤ cap := by
        rw [List.length_append]
        cases (mangleChar c).1 <;> simp <;> omega
      obtain ⟨hres, hcap, hexact⟩ := ih hout' hlength' hrun
      refine ⟨hres, hcap, ?_⟩
      intro hlossy'
      obtain ⟨hlossy, heq, hascii⟩ := hexact hlossy'
      rw [Bool.or_eq_false_iff] at hlossy
      obtain ⟨hsome, hc⟩ := hplain hlossy.2
      refine ⟨hlossy.1, ?_, ?_⟩
      · rw [heq, hsome]
        simp
      · intro b hb
        rcases List.mem_cons.mp hb with rfl | hb
        · exact hc
        · exact hascii b hb

/-! ## Rendered names -/

/-- The name has the two padded fields, spelled with characters of the charset. -/
def Fields (short stem ext : Text) : Prop :=
  (∀ c ∈ stem, IsShortChar c) ∧ (∀ c ∈ ext, IsShortChar c) ∧ short.length = 11 ∧
    short.take 8 = stem ++ List.replicate (8 - stem.length) ' ' ∧
    ∃ padding, short.drop 8 = ext ++ List.replicate padding ' '

theorem trimEnd_padded {field : Text} (hfield : ∀ c ∈ field, IsShortChar c) (padding : Nat) :
    Text.trimEnd (· = ' ') (field ++ List.replicate padding ' ') = field := by
  unfold Text.trimEnd
  rw [List.reverse_append, List.reverse_replicate]
  have hdrop : (List.replicate padding ' ' ++ field.reverse).dropWhile (· = ' ') =
      field.reverse.dropWhile (· = ' ') := by
    induction padding with
    | zero => rfl
    | succ padding ih => simp [List.replicate_succ, ih]
  rw [hdrop]
  have hnone : field.reverse.dropWhile (· = ' ') = field.reverse := by
    cases hrev : field.reverse with
    | nil => rfl
    | cons c rest =>
      have hc : c ∈ field := by
        rw [← List.mem_reverse, hrev]
        exact List.mem_cons_self
      rw [List.dropWhile_cons, if_neg]
      simpa using (hfield c hc).2.2.1
  rw [hnone, List.reverse_reverse]

theorem Fields.shortText_eq (hfields : Fields short stem ext) :
    shortText short = withDot stem ext := by
  obtain ⟨hstem, hext, _, htake, padding, hdrop⟩ := hfields
  rw [shortText, htake, hdrop, trimEnd_padded hstem, trimEnd_padded hext]

theorem Fields.chars (hfields : Fields short stem ext) : '.' ∉ stem ∧ '.' ∉ ext := by
  obtain ⟨hstem, hext, _⟩ := hfields
  exact ⟨fun hmem => (hstem '.' hmem).2.2.2 rfl, fun hmem => (hext '.' hmem).2.2.2 rfl⟩

theorem withDot_inj {stem' ext' : Text} (hstem : '.' ∉ stem) (hext : '.' ∉ ext)
    (hstem' : '.' ∉ stem') (heq : withDot stem ext = withDot stem' ext') :
    stem = stem' ∧ ext = ext' := by
  unfold withDot at heq
  split at heq
  · rename_i hnone
    split at heq
    · rename_i hnone'
      exact ⟨heq, hnone.trans hnone'.symm⟩
    · rw [heq] at hstem
      exact absurd (by simp) hstem
  · split at heq
    · rw [← heq] at hstem'
      exact absurd (by simp) hstem'
    · obtain ⟨hsame, _, hsameExt⟩ := (List.append_cons_inj_of_notMem hstem hext).mp heq
      exact ⟨hsame, hsameExt⟩

/-- Names are told apart by what they are looked up by. -/
theorem Fields.inj {short' stem' ext' : Text} (hfields : Fields short stem ext)
    (hfields' : Fields short' stem' ext') (heq : shortText short = shortText short') :
    short = short' := by
  rw [hfields.shortText_eq, hfields'.shortText_eq] at heq
  obtain ⟨rfl, rfl⟩ := withDot_inj hfields.chars.1 hfields.chars.2 hfields'.chars.1 heq
  obtain ⟨_, _, hlength, htake, padding, hdrop⟩ := hfields
  obtain ⟨_, _, hlength', htake', padding', hdrop'⟩ := hfields'
  have hpadding : padding = padding' := by
    have hleft := congrArg List.length hdrop
    have hright := congrArg List.length hdrop'
    simp only [List.length_drop, List.length_append, List.length_replicate, hlength,
      hlength'] at hleft hright
    omega
  rw [← List.take_append_drop 8 short, ← List.take_append_drop 8 short', htake, htake', hdrop,
    hdrop', hpadding]

theorem CaseFold.toUppercase_of_ascii (fold : CaseFold) {text : Text}
    (hascii : ∀ c ∈ text, c.toNat < 128) : fold.toUppercase text = text.map Char.toUpper := by
  induction text with
  | nil => rfl
  | cons c rest ih =>
    rw [CaseFold.toUppercase, List.flatMap_cons, fold.ascii c (hascii c List.mem_cons_self)]
    rw [CaseFold.toUppercase] at ih
    rw [ih fun d hd => hascii d (List.mem_cons_of_mem _ hd)]
    rfl

/-- An 8.3 name is in upper case already. -/
theorem Fields.toUppercase (hfields : Fields short stem ext) (fold : CaseFold) :
    fold.toUppercase (shortText short) = shortText short := by
  have hchars : ∀ c ∈ withDot stem ext, c.toNat < 128 ∧ c.toUpper = c := by
    intro c hc
    have hcases : IsShortChar c ∨ c = '.' := by
      unfold withDot at hc
      split at hc
      · exact Or.inl (hfields.1 c hc)
      · rcases List.mem_append.mp hc with hc | hc
        · exact Or.inl (hfields.1 c hc)
        · rcases List.mem_cons.mp hc with hc | hc
          · exact Or.inr hc
          · exact Or.inl (hfields.2.1 c hc)
    rcases hcases with hshort | rfl
    · exact ⟨hshort.1, hshort.2.1⟩
    · decide
  rw [hfields.shortText_eq, fold.toUppercase_of_ascii fun c hc => (hchars c hc).1]
  conv => rhs; rw [← List.map_id (withDot stem ext)]
  exact List.map_congr_left fun c hc => (hchars c hc).2

theorem render_fields (hstem : ∀ c ∈ stem, IsShortChar c) (hext : ∀ c ∈ ext, IsShortChar c)
    (hlong : stem.length ≤ 11) (hshort : ext.length ≤ 3) :
    Fields (render stem ext) (stem.take 8) (ext ++ stem.drop (8 + ext.length)) := by
  have htake : (stem ++ List.replicate (11 - stem.length) ' ').take 8 =
      stem.take 8 ++ List.replicate (8 - (stem.take 8).length) ' ' := by
    rw [List.take_append, List.take_replicate, List.length_take]
    congr 2
    omega
  have hlength : ((stem ++ List.replicate (11 - stem.length) ' ').take 8).length = 8 := by
    simp only [List.length_take, List.length_append, List.length_replicate]
    omega
  refine ⟨fun c hc => hstem c (List.mem_of_mem_take hc), ?_, ?_, ?_, ?_⟩
  · intro c hc
    rcases List.mem_append.mp hc with hc | hc
    · exact hext c hc
    · exact hstem c (List.mem_of_mem_drop hc)
  · rw [render, List.length_append, List.length_append, hlength, List.length_drop,
      List.length_append, List.length_replicate]
    omega
  · rw [render, List.append_assoc, List.take_append_of_le_length (by omega),
      List.take_of_length_le (by omega), htake]
  · refine ⟨11 - stem.length - (8 + ext.length - stem.length), ?_⟩
    rw [render, List.append_assoc, List.drop_append, hlength, Nat.sub_self, List.drop_zero,
      List.drop_of_length_le (by omega), List.nil_append, List.drop_append, List.drop_replicate,
      List.append_assoc]


/-! ## Where a short name comes from -/

theorem withTail_spec {n : Nat} (hstem : ∀ c ∈ stem, IsShortChar c) (hn : n < 2 ^ 32) :
    (∀ c ∈ withTail stem n, IsShortChar c) ∧ (withTail stem n).length ≤ 11 := by
  have hdigits : (Nat.toDigits 10 n).length ≤ 10 :=
    (Nat.length_toDigits_le_iff (by decide) (by decide)).mpr (lt_trans hn (by decide))
  constructor
  · intro c hc
    rcases List.mem_append.mp hc with hc | hc
    · exact hstem c (List.mem_of_mem_take hc)
    · rcases List.mem_cons.mp hc with rfl | hc
      · decide
      · have hdigit := Nat.isDigit_of_mem_toDigits (by decide) (by decide) hc
        exact forall_ascii (P := fun c => c.isDigit → IsShortChar c) (by decide)
          (ascii_of_letter (Or.inr (Or.inl hdigit))) hdigit
  · simp only [withTail, List.length_append, List.length_take, List.length_cons]
    omega

theorem tailLoop_spec {used : List Text} {fuel n : Nat} (hbound : n + fuel ≤ 2 ^ 32)
    (hrun : tailLoop used stem ext fuel n = some short) :
    short ∉ used ∧ ∃ m < 2 ^ 32, short = render (withTail stem m) ext := by
  induction fuel generalizing n with
  | zero => cases hrun
  | succ fuel ih =>
    rw [tailLoop] at hrun
    split at hrun
    · exact ih (by omega) hrun
    · rename_i hfree
      cases hrun
      exact ⟨hfree, n, by omega, rfl⟩

theorem shortSources_cases (long : Text) : shortSources long = (long, none) ∨
    ∃ stem ext, long = stem ++ '.' :: ext ∧ shortSources long = (stem, some ext) := by
  unfold shortSources
  split
  · rename_i stem ext hsplit
    split
    · exact Or.inl rfl
    · exact Or.inr ⟨stem, ext, (Text.rsplitOnce_eq_some.mp hsplit).1, rfl⟩
  · exact Or.inl rfl

theorem getLast?_of_legal {name : Text} (hlegal : componentIsFatLegal name) :
    name.getLast? ≠ some '.' := by
  simp only [componentIsFatLegal, Bool.and_eq_true, bne_iff_ne, ne_eq] at hlegal
  exact hlegal.1.1.2

theorem mangledStem_spec {source : Text} (hrun : mangledStem source = (stem, lossy)) :
    (∀ c ∈ stem, IsShortChar c) ∧ stem.length ≤ 8 ∧
      (lossy = false → stem = source.map Char.toUpper ∧ ∀ c ∈ source, c.toNat < 128) := by
  unfold mangledStem at hrun
  cases hmangle : mangle 8 [] (source.length ≠ (trimDots source).length) (trimDots source) with
  | mk raw rawLossy =>
    obtain ⟨hchars, hlength, hexact⟩ := mangle_spec (List.forall_mem_nil _) (Nat.zero_le _) hmangle
    simp only [hmangle] at hrun
    split at hrun
    · cases hrun
      exact ⟨Text.forall_of_all (by decide), by decide, nofun⟩
    · cases hrun
      refine ⟨hchars, hlength, ?_⟩
      intro hlossy
      obtain ⟨hdots, heq, hascii⟩ := hexact hlossy
      have hsame : trimDots source = source := by
        apply (List.dropWhile_suffix _).eq_of_length
        simp only [ne_eq, decide_not, Bool.not_eq_false', decide_eq_true_eq] at hdots
        exact hdots.symm
      rw [hsame] at heq hascii
      exact ⟨heq, hascii⟩

theorem mangled_spec {long : Text} (hrun : mangled long = (stem, ext, lossy)) :
    (∀ c ∈ stem, IsShortChar c) ∧ (∀ c ∈ ext, IsShortChar c) ∧ stem.length ≤ 8 ∧
      ext.length ≤ 3 ∧ (lossy = false → componentIsFatLegal long = true →
        withDot stem ext = long.map Char.toUpper ∧ ∀ c ∈ long, c.toNat < 128) := by
  unfold mangled at hrun
  cases hstem : mangledStem (shortSources long).1 with
  | mk rawStem stemLossy =>
    cases hext : mangle 3 [] stemLossy ((shortSources long).2.getD []) with
    | mk rawExt extLossy =>
      simp only [hstem, hext] at hrun
      cases hrun
      obtain ⟨hstemChars, hstemLength, hstemExact⟩ := mangledStem_spec hstem
      obtain ⟨hextChars, hextLength, hextExact⟩ := mangle_spec (List.forall_mem_nil _) (Nat.zero_le _) hext
      refine ⟨hstemChars, hextChars, hstemLength, hextLength, ?_⟩
      intro hlossy hlegal
      obtain ⟨hstemLossy, hextEq, hextAscii⟩ := hextExact hlossy
      obtain ⟨hstemEq, hstemAscii⟩ := hstemExact hstemLossy
      rw [hstemEq, hextEq]
      rcases shortSources_cases long with hsources | ⟨source, rest, rfl, hsources⟩
      · rw [hsources] at hstemAscii ⊢
        exact ⟨rfl, hstemAscii⟩
      · rw [hsources] at hstemAscii hextAscii ⊢
        have hrest : rest ≠ [] := by
          rintro rfl
          exact getLast?_of_legal hlegal (by simp)
        refine ⟨?_, ?_⟩
        · simp [withDot, hrest]
        · intro c hc
          rcases List.mem_append.mp hc with hc | hc
          · exact hstemAscii c hc
          · rcases List.mem_cons.mp hc with rfl | hc
            · decide
            · exact hextAscii c hc

/-- A short name is free, it is an 8.3 name, and it is a tailed alias or the long name up to
case. -/
theorem shortName_spec {long : Text} {used : List Text} {needsLfn : Bool}
    (hlegal : componentIsFatLegal long) (hrun : shortName long used = some (short, needsLfn)) :
    short ∉ used ∧ (∃ stem ext, Fields short stem ext) ∧
      (aliasOf long used = some short ∨ (aliasOf long used = none ∧
        ∀ fold : CaseFold, fold.toUppercase (shortText short) = fold.toUppercase long)) := by
  unfold shortName at hrun
  unfold aliasOf
  cases hmangled : mangled long with
  | mk stem parts =>
    obtain ⟨ext, lossy⟩ := parts
    obtain ⟨hstem, hext, hstemLength, hextLength, hexact⟩ := mangled_spec hmangled
    simp only [hmangled] at hrun ⊢
    split at hrun
    · rename_i hplain
      cases hrun
      have hfields := render_fields hstem hext (le_trans hstemLength (by decide)) hextLength
      rw [if_pos hplain]
      refine ⟨hplain.2, ⟨_, _, hfields⟩, Or.inr ⟨rfl, ?_⟩⟩
      intro fold
      obtain ⟨hdot, hascii⟩ := hexact (by simpa using hplain.1) hlegal
      rw [hfields.toUppercase fold, hfields.shortText_eq, fold.toUppercase_of_ascii hascii,
        ← hdot, List.take_of_length_le hstemLength, List.drop_of_length_le (by omega),
        List.append_nil]
    · rename_i htailed
      rw [if_neg htailed]
      obtain ⟨found, hfound, heq⟩ := Option.map_eq_some_iff.mp hrun
      cases heq
      obtain ⟨hfree, n, hn, heq⟩ := tailLoop_spec (by decide) hfound
      obtain ⟨htail, htailLength⟩ := withTail_spec hstem hn
      refine ⟨hfree, ?_, Or.inl hfound⟩
      rw [heq]
      exact ⟨_, _, render_fields htail hext htailLength hextLength⟩

/-! ## A directory's entries -/

section Children

variable {nodes : List Node} {children : List Child} {used : List Text} {fold : CaseFold}

theorem nameChildren_cons {node : Node} (hrun : nameChildren used (node :: nodes) = some children) :
    ∃ short needsLfn later, shortName node.name used = some (short, needsLfn) ∧
      nameChildren (short :: used) nodes = some later ∧
      children = ⟨node, short, needsLfn⟩ :: later := by
  obtain ⟨⟨short, needsLfn⟩, hshort, hrun⟩ := Option.bind_eq_some_iff.mp hrun
  obtain ⟨later, hlater, hrun⟩ := Option.bind_eq_some_iff.mp hrun
  cases hrun
  exact ⟨short, needsLfn, later, hshort, hlater, rfl⟩

theorem nameChildren_nodes (hrun : nameChildren used nodes = some children) :
    children.map Child.node = nodes := by
  induction nodes generalizing used children with
  | nil =>
    cases hrun
    rfl
  | cons node rest ih =>
    obtain ⟨short, needsLfn, later, _, hlater, rfl⟩ := nameChildren_cons hrun
    rw [List.map_cons, ih hlater]

/-- Each entry got its short name against those of the entries before it. -/
theorem nameChildren_split {before after : List Child} {child : Child}
    (hrun : nameChildren used nodes = some children)
    (hsplit : children = before ++ child :: after) :
    shortName child.node.name ((before.map Child.short).reverse ++ used) =
      some (child.short, child.needsLfn) := by
  induction nodes generalizing used children before with
  | nil =>
    cases hrun
    simp at hsplit
  | cons node rest ih =>
    obtain ⟨short, needsLfn, later, hshort, hlater, rfl⟩ := nameChildren_cons hrun
    cases before with
    | nil =>
      obtain ⟨rfl, _⟩ := List.cons_eq_cons.mp hsplit
      exact hshort
    | cons first before =>
      obtain ⟨rfl, hrest⟩ := List.cons_eq_cons.mp hsplit
      have hthere := ih hlater hrest
      simpa using hthere

theorem nameChildren_shorts (hlegal : ∀ node ∈ nodes, componentIsFatLegal node.name)
    (hrun : nameChildren used nodes = some children) :
    (children.map Child.short).Nodup ∧ ∀ child ∈ children, child.short ∉ used := by
  induction nodes generalizing used children with
  | nil =>
    cases hrun
    exact ⟨List.nodup_nil, List.forall_mem_nil _⟩
  | cons node rest ih =>
    obtain ⟨short, needsLfn, later, hshort, hlater, rfl⟩ := nameChildren_cons hrun
    obtain ⟨hnodup, hfresh⟩ := ih (fun other hmem => hlegal other (List.mem_cons_of_mem _ hmem))
      hlater
    have hfree := (shortName_spec (hlegal node List.mem_cons_self) hshort).1
    constructor
    · rw [List.map_cons, List.nodup_cons]
      refine ⟨?_, hnodup⟩
      intro hmem
      obtain ⟨child, hchild, heq⟩ := List.mem_map.mp hmem
      exact hfresh child hchild (heq ▸ List.mem_cons_self)
    · intro child hmem
      rcases List.mem_cons.mp hmem with rfl | hmem
      · exact hfree
      · exact fun hused => hfresh child hmem (List.mem_cons_of_mem _ hused)

/-- Names of distinct entries agree up to case exactly when some tailed alias spells the long
name of another entry. -/
theorem unambiguous_iff (hlegal : ∀ node ∈ nodes, componentIsFatLegal node.name)
    (hfolded : (nodes.map fun node => fold.toUppercase node.name).Nodup)
    (hrun : nameChildren [] nodes = some children) :
    Unambiguous fold children ↔ AliasesFree fold children := by
  have hnodes := nameChildren_nodes hrun
  have hshorts := (nameChildren_shorts hlegal hrun).1
  have hspec : ∀ child ∈ children, ∃ before after, children = before ++ child :: after ∧
      (∃ stem ext, Fields child.short stem ext) ∧
      (aliasOf child.node.name (before.map Child.short).reverse = some child.short ∨
        (aliasOf child.node.name (before.map Child.short).reverse = none ∧
          fold.toUppercase (shortText child.short) = fold.toUppercase child.node.name)) := by
    intro child hchild
    obtain ⟨before, after, hsplit⟩ := List.append_of_mem hchild
    have hlegalChild : componentIsFatLegal child.node.name :=
      hlegal child.node (hnodes ▸ List.mem_map_of_mem hchild)
    have hshort := nameChildren_split hrun hsplit
    rw [List.append_nil] at hshort
    obtain ⟨_, hfields, halias⟩ := shortName_spec hlegalChild hshort
    exact ⟨before, after, hsplit, hfields, halias.imp_right fun h => ⟨h.1, h.2 fold⟩⟩
  have hlong : ∀ a ∈ children, ∀ b ∈ children,
      fold.toUppercase a.node.name = fold.toUppercase b.node.name → a = b := by
    rw [← hnodes, List.map_map] at hfolded
    intro a ha b hb heq
    exact List.inj_on_of_nodup_map hfolded ha hb heq
  constructor
  · intro hunambiguous before child after hsplit short halias other hother heq
    have hchild : child ∈ children := hsplit ▸ by simp
    have hotherMem : other ∈ children := by
      rw [hsplit, List.mem_append, List.mem_cons]
      rcases List.mem_append.mp hother with hother | hother
      · exact Or.inl hother
      · exact Or.inr (Or.inr hother)
    have hshort := nameChildren_split hrun hsplit
    rw [List.append_nil] at hshort
    have hlegalChild : componentIsFatLegal child.node.name :=
      hlegal child.node (hnodes ▸ List.mem_map_of_mem hchild)
    obtain ⟨_, ⟨stem, ext, hfields⟩, hcases⟩ := shortName_spec hlegalChild hshort
    have hsame : short = child.short := by
      rcases hcases with hsome | ⟨hnone, _⟩
      · rw [halias] at hsome
        exact Option.some.inj hsome
      · rw [halias] at hnone
        cases hnone
    have hself := hunambiguous other hotherMem child hchild other.node.name (by simp [Child.names])
      (shortText child.short) (by simp [Child.names])
      (by rw [heq, hsame, hfields.toUppercase fold])
    have hnodup : children.Nodup := hshorts.of_map _
    rw [hsplit, List.nodup_middle, List.nodup_cons] at hnodup
    exact hnodup.1 (hself ▸ hother)
  · intro hfree
    have hmixed : ∀ a ∈ children, ∀ b ∈ children,
        fold.toUppercase (shortText a.short) = fold.toUppercase b.node.name → a = b := by
      intro a ha b hb heq
      obtain ⟨before, after, hsplit, ⟨stem, ext, hfields⟩, halias | ⟨_, hplain⟩⟩ := hspec a ha
      · by_contra hne
        rw [hsplit, List.mem_append, List.mem_cons] at hb
        refine hfree before a after hsplit a.short halias b ?_ ?_
        · rw [List.mem_append]
          rcases hb with hb | hb | hb
          · exact Or.inl hb
          · exact absurd hb.symm hne
          · exact Or.inr hb
        · rw [← heq, hfields.toUppercase fold]
      · exact hlong a ha b hb (hplain.symm.trans heq)
    intro a ha b hb x hx y hy heq
    simp only [Child.names, List.mem_cons, List.not_mem_nil, or_false] at hx hy
    rcases hx with rfl | rfl
    · rcases hy with rfl | rfl
      · exact hlong a ha b hb heq
      · exact (hmixed b hb a ha heq.symm).symm
    · rcases hy with rfl | rfl
      · exact hmixed a ha b hb heq
      · obtain ⟨_, _, _, ⟨stem, ext, hfields⟩, _⟩ := hspec a ha
        obtain ⟨_, _, _, ⟨stem', ext', hfields'⟩, _⟩ := hspec b hb
        rw [hfields.toUppercase fold, hfields'.toUppercase fold] at heq
        exact List.inj_on_of_nodup_map hshorts ha hb (hfields.inj hfields' heq)

/-- Where names are unambiguous, looking one up finds its entry. -/
theorem Unambiguous.lookup_eq {child : Child} {name : Text} (hnames : Unambiguous fold children)
    (hchild : child ∈ children) (hname : name ∈ child.names) :
    lookup fold children name = some child := by
  cases hfound : lookup fold children name with
  | none =>
    have hnone := List.find?_eq_none.mp hfound child hchild
    refine absurd ?_ hnone
    rw [List.any_eq_true]
    exact ⟨name, hname, by simp⟩
  | some found =>
    unfold lookup at hfound
    have hanswers := List.find?_some hfound
    rw [List.any_eq_true] at hanswers
    obtain ⟨other, hother, heq⟩ := hanswers
    have hsame := hnames found (List.mem_of_find?_eq_some hfound) child hchild other hother name
      hname (by simpa using heq)
    rw [hsame]

end Children

/-! ## The tree -/

/-- What the tree keeps while it is built: the names of a directory differ up to case, and each
is legal and fits its slots. -/
structure WellNamed (fold : CaseFold) (nodes : List Node) : Prop where
  folded : (foldedNames fold nodes).Nodup
  legal : ∀ node ∈ nodes, componentIsFatLegal node.name = true
  length : ∀ node ∈ nodes, (encodeUtf16 node.name).length ≤ 255

namespace WellNamed

variable {fold : CaseFold} {nodes nodes' : List Node}

section

variable (hnodes : WellNamed fold nodes)

include hnodes

theorem push {parent name : Text} (kind : NodeKind) (hlegal : componentIsFatLegal name = true)
    (hlength : (encodeUtf16 name).length ≤ 255)
    (hfree : (parent, fold.toUppercase name) ∉ foldedNames fold nodes) :
    WellNamed fold (nodes ++ [⟨parent, name, kind⟩]) where
  folded := by
    rw [foldedNames, List.map_append, List.map_singleton]
    refine List.Nodup.append hnodes.folded (List.nodup_singleton _) ?_
    intro entry hmem hentry
    rw [List.mem_singleton.mp hentry] at hmem
    exact hfree hmem
  legal := by
    intro node hnode
    rcases List.mem_append.mp hnode with hnode | hnode
    · exact hnodes.legal node hnode
    · rw [List.mem_singleton.mp hnode]
      exact hlegal
  length := by
    intro node hnode
    rcases List.mem_append.mp hnode with hnode | hnode
    · exact hnodes.length node hnode
    · rw [List.mem_singleton.mp hnode]
      exact hlength

theorem createDirs {comps : List Text} {here dir : Text}
    (hrun : Fat32.createDirs fold nodes here comps = .ok (nodes', dir)) :
    WellNamed fold nodes' := by
  induction comps generalizing nodes here with
  | nil =>
    cases hrun
    exact hnodes
  | cons comp rest ih =>
    rw [Fat32.createDirs] at hrun
    split at hrun
    · exact ih hnodes hrun
    · split at hrun
      · cases hrun
      · rename_i hlegal
        split at hrun
        · cases hrun
        · rename_i hlength
          split at hrun
          · cases hrun
          · rename_i hfree
            exact ih (hnodes.push .dir (by simpa using hlegal) (by omega) hfree) hrun

theorem ensureDir {path dir : Text} (hrun : Fat32.ensureDir fold nodes path = .ok (nodes', dir)) :
    WellNamed fold nodes' := by
  unfold Fat32.ensureDir at hrun
  split at hrun
  · cases hrun
    exact hnodes
  · exact hnodes.createDirs hrun

theorem addFile {index : Nat} {file : FileEntry}
    (hrun : Fat32.addFile fold nodes index file = .ok nodes') : WellNamed fold nodes' := by
  unfold Fat32.addFile at hrun
  simp only at hrun
  split at hrun
  · cases hrun
  · split at hrun
    · cases hrun
    · rename_i hlegal
      split at hrun
      · cases hrun
      · rename_i hlength
        split at hrun
        · cases hrun
        · rename_i mid parent hensure
          split at hrun
          · cases hrun
          · rename_i hfree
            cases hrun
            exact (hnodes.ensureDir hensure).push _ (by simpa using hlegal) (by omega) hfree

theorem addFiles {index : Nat} {files : List FileEntry}
    (hrun : Fat32.addFiles fold nodes index files = .ok nodes') : WellNamed fold nodes' := by
  induction files generalizing nodes index with
  | nil =>
    cases hrun
    exact hnodes
  | cons file rest ih =>
    obtain ⟨mid, hadd, hrest⟩ := Moves.except_bind_eq_ok.mp hrun
    exact ih (hnodes.addFile hadd) hrest

end

end WellNamed

section Layout

variable {fold : CaseFold} {files : List FileEntry} {params : Params} {plan : Plan}

theorem wellNamed_of_buildTree {nodes : List Node} (hbuild : buildTree fold files = .ok nodes) :
    WellNamed fold nodes := by
  obtain ⟨_, _, hadd⟩ := Moves.except_bind_eq_ok.mp hbuild
  have hempty : WellNamed fold [] := ⟨List.nodup_nil, List.forall_mem_nil _, List.forall_mem_nil _⟩
  exact hempty.addFiles hadd

/-- The long names of one directory differ up to case. -/
theorem WellNamed.childrenOf {nodes : List Node} (hnodes : WellNamed fold nodes) (dir : Text) :
    (∀ node ∈ Fat32.childrenOf nodes dir, componentIsFatLegal node.name) ∧
      ((Fat32.childrenOf nodes dir).map fun node => fold.toUppercase node.name).Nodup := by
  constructor
  · intro node hnode
    rw [Fat32.childrenOf, List.mem_insertionSort] at hnode
    exact hnodes.legal node (List.mem_filter.mp hnode).1
  · have hperm := (List.perm_insertionSort (fun a b : Node => ¬ b.name < a.name)
      (nodes.filter fun node => node.parent = dir)).map fun node => fold.toUppercase node.name
    rw [Fat32.childrenOf, hperm.nodup_iff]
    have hfolded : ((nodes.filter fun node => node.parent = dir).map
        fun node => (node.parent, fold.toUppercase node.name)).Nodup :=
      hnodes.folded.sublist (List.filter_sublist.map _)
    have hconst : ((nodes.filter fun node => node.parent = dir).map
        fun node => (node.parent, fold.toUppercase node.name)) =
        ((nodes.filter fun node => node.parent = dir).map
          fun node => fold.toUppercase node.name).map fun name => (dir, name) := by
      rw [List.map_map]
      apply List.map_congr_left
      intro node hnode
      have hparent := (List.mem_filter.mp hnode).2
      rw [decide_eq_true_eq] at hparent
      rw [hparent]
      rfl
    rw [hconst] at hfolded
    exact hfolded.of_map _

theorem mem_nameDirs {nodes : List Node} {paths : List Text} {dirs : List Dir} {dir : Dir}
    (hrun : nameDirs params nodes paths = .ok dirs) (hdir : dir ∈ dirs) :
    ∃ path ∈ paths, nameDir params nodes path = .ok dir := by
  induction paths generalizing dirs with
  | nil =>
    cases hrun
    cases hdir
  | cons path rest ih =>
    obtain ⟨first, hfirst, hrun⟩ := Moves.except_bind_eq_ok.mp hrun
    obtain ⟨later, hlater, hrun⟩ := Moves.except_bind_eq_ok.mp hrun
    cases hrun
    rcases List.mem_cons.mp hdir with rfl | hdir
    · exact ⟨path, List.mem_cons_self, hfirst⟩
    · obtain ⟨other, hother, hnamed⟩ := ih hlater hdir
      exact ⟨other, List.mem_cons_of_mem _ hother, hnamed⟩

theorem nameDir_children {nodes : List Node} {path : Text} {dir : Dir}
    (hrun : nameDir params nodes path = .ok dir) :
    nameChildren [] (childrenOf nodes path) = some dir.children := by
  unfold nameDir at hrun
  split at hrun
  · cases hrun
  · rename_i children hchildren
    simp only at hrun
    split at hrun
    · cases hrun
    · cases hrun
      exact hchildren

theorem mem_allocDirs {clusterSize cur stop : Nat} {named dirs : List Dir} {dir : Dir}
    (hrun : allocDirs clusterSize cur named = .ok (dirs, stop)) (hdir : dir ∈ dirs) :
    ∃ old ∈ named, old.path = dir.path ∧ old.children = dir.children := by
  induction named generalizing cur dirs with
  | nil =>
    cases hrun
    cases hdir
  | cons first rest ih =>
    rw [allocDirs] at hrun
    split at hrun
    · cases hrun
    · obtain ⟨⟨later, stop'⟩, hlater, hrun⟩ := Moves.except_bind_eq_ok.mp hrun
      cases hrun
      rcases List.mem_cons.mp hdir with rfl | hdir
      · exact ⟨first, List.mem_cons_self, rfl, rfl⟩
      · obtain ⟨old, hold, hsame⟩ := ih hlater hdir
        exact ⟨old, List.mem_cons_of_mem _ hold, hsame⟩

/-- A directory of an accepted image has the entries of the tree, named one after another. -/
theorem layout_children (hlayout : layout fold files params = .ok plan) {dir : Dir}
    (hdir : dir ∈ plan.dirs) : ∃ nodes path, WellNamed fold nodes ∧
      nameChildren [] (childrenOf nodes path) = some dir.children := by
  unfold layout at hlayout
  split at hlayout
  · cases hlayout
  · obtain ⟨nodes, hbuild, hlayout⟩ := Moves.except_bind_eq_ok.mp hlayout
    obtain ⟨named, hnamed, hlayout⟩ := Moves.except_bind_eq_ok.mp hlayout
    obtain ⟨⟨dirs, cur⟩, hdirs, hlayout⟩ := Moves.except_bind_eq_ok.mp hlayout
    obtain ⟨⟨fileClusters, stop⟩, _, hlayout⟩ := Moves.except_bind_eq_ok.mp hlayout
    have hplan : plan.dirs = dirs := by
      simp only [geometry] at hlayout
      split at hlayout
      · cases hlayout
      · split at hlayout
        · cases hlayout
        · cases hlayout
          rfl
    rw [hplan] at hdir
    obtain ⟨old, hold, _, hchildren⟩ := mem_allocDirs hdirs hdir
    obtain ⟨path, _, hnameDir⟩ := mem_nameDirs hnamed hold
    exact ⟨nodes, path, wellNamed_of_buildTree hbuild, hchildren ▸ nameDir_children hnameDir⟩

end Layout

/-- Upper case for ASCII only; the names below have nothing else. -/
def asciiFold : CaseFold where
  upper c := [c.toUpper]
  ascii _ _ := rfl

def smallParams : Params := ⟨blankLabel, 512, false⟩

/-- A name whose alias is spelled like the next file's name. -/
def spelledFiles : List FileEntry := [⟨"hello world.gba".toList, 1⟩, ⟨"hellow~1.gba".toList, 1⟩]

end Fat32

end Datboi.Catalog
