import Datboi.Catalog.ViewRows

/-!
# The limits of constrained names

A component within its budget is only cleaned. Above the budget two steps can undo what the
others established: the literals of a noise prefix are compared with slices that may end
inside a character, and a name without an extension may be cut behind a space or a dot.
-/

namespace Datboi.Catalog

/-! ## Slices of texts -/

namespace Text

variable {text front back : Text} {n : Nat}

theorem utf8Len_cons (c : Char) (rest : Text) :
    utf8Len (c :: rest) = c.utf8Size + utf8Len rest := by
  rw [utf8Len, utf8Len, List.map_cons, List.sum_cons]

theorem utf8Len_append (front back : Text) :
    utf8Len (front ++ back) = utf8Len front + utf8Len back := by
  rw [utf8Len, utf8Len, utf8Len, List.map_append, List.sum_append]

/-- A slice that ends where a character ends. -/
theorem sliceAt_append (front back : Text) :
    sliceAt (front ++ back) front.utf8Len = some (front, back) := by
  induction front with
  | nil => cases back <;> rfl
  | cons c front ih =>
    obtain ⟨k, hk⟩ : ∃ k, utf8Len (c :: front) = k + 1 := by
      have hpos := Char.utf8Size_pos c
      rw [utf8Len_cons]
      exact ⟨c.utf8Size + utf8Len front - 1, by omega⟩
    have hsum := hk
    rw [utf8Len_cons] at hsum
    rw [hk, List.cons_append, sliceAt, if_pos (by omega),
      show k + 1 - c.utf8Size = utf8Len front by omega, ih]
    rfl

theorem utf8Len_of_sliceAt (hslice : sliceAt text n = some (front, back)) : front.utf8Len = n := by
  induction text generalizing n front with
  | nil =>
    cases n with
    | zero =>
      cases hslice
      rfl
    | succ n => cases hslice
  | cons c rest ih =>
    cases n with
    | zero =>
      cases hslice
      rfl
    | succ n =>
      rw [sliceAt] at hslice
      split at hslice
      · rename_i hfits
        obtain ⟨⟨taken, left⟩, hrest, heq⟩ := Option.map_eq_some_iff.mp hslice
        cases heq
        rw [utf8Len_cons, ih hrest]
        omega
      · cases hslice

/-- Byte `n` lies in the text, inside a character. -/
def Cut (text : Text) (n : Nat) : Prop :=
  n ≤ text.utf8Len ∧ ∀ front back, text = front ++ back → front.utf8Len ≠ n

theorem cut_iff : Cut text n ↔ n ≤ text.utf8Len ∧ sliceAt text n = none := by
  refine and_congr_right fun _ => ⟨fun hcut => ?_, ?_⟩
  · cases hslice : sliceAt text n with
    | none => rfl
    | some parts =>
      exact absurd (utf8Len_of_sliceAt hslice) (hcut _ _ (sliceAt_eq_some hslice))
  · rintro hnone front back rfl rfl
    rw [sliceAt_append] at hnone
    cases hnone

end Text

/-! ## Noise prefixes -/

section Noise

variable {literal rest name : Text}

/-- The text begins with the literal, up to the case of ASCII letters. -/
def startsWith (literal rest : Text) : Bool :=
  Text.eqIgnoreAsciiCase (rest.take literal.length) literal

def afterLiteral (literal rest : Text) : Text :=
  if startsWith literal rest then rest.drop literal.length else rest

/-- A literal of ASCII characters. -/
def Ascii (literal : Text) : Prop := ∀ c ∈ literal, c.utf8Size = 1 ∧ c.toLower.utf8Size = 1

instance (literal : Text) : Decidable (Ascii literal) := List.decidableBAll _ literal

theorem utf8Size_of_toLower {c : Char} (hone : c.toLower.utf8Size = 1) : c.utf8Size = 1 := by
  delta Char.toLower at hone
  split at hone
  · rename_i hupper
    exact Char.utf8Size_eq_one_iff.mpr (UInt32.le_trans hupper.2 (by decide))
  · exact hone

theorem utf8Len_of_ones {text : Text} (hones : ∀ c ∈ text, c.utf8Size = 1) :
    text.utf8Len = text.length := by
  induction text with
  | nil => rfl
  | cons c rest ih =>
    rw [Text.utf8Len_cons, hones c List.mem_cons_self,
      ih fun d hd => hones d (List.mem_cons_of_mem _ hd), List.length_cons, Nat.add_comm]

theorem Ascii.utf8Len (hascii : Ascii literal) : Text.utf8Len literal = literal.length :=
  utf8Len_of_ones fun c hc => (hascii c hc).1

/-- What equals an ASCII literal up to case is as long, also in bytes. -/
theorem length_of_eqIgnoreAsciiCase (hascii : Ascii literal) {taken : Text}
    (heq : taken.eqIgnoreAsciiCase literal = true) :
    taken.length = literal.length ∧ taken.utf8Len = literal.length := by
  rw [Text.eqIgnoreAsciiCase, decide_eq_true_eq] at heq
  have hlength : taken.length = literal.length := by
    have hmaps := congrArg List.length heq
    rwa [List.length_map, List.length_map] at hmaps
  refine ⟨hlength, ?_⟩
  rw [← hlength]
  refine utf8Len_of_ones fun c hc => utf8Size_of_toLower ?_
  have hmem : c.toLower ∈ literal.map Char.toLower := by
    rw [← heq]
    exact List.mem_map_of_mem hc
  obtain ⟨d, hd, hlower⟩ := List.mem_map.mp hmem
  rw [← hlower]
  exact (hascii d hd).2

theorem startsWith_slice (hascii : Ascii literal) {taken left : Text}
    (hslice : Text.sliceAt rest literal.utf8Len = some (taken, left)) :
    taken.eqIgnoreAsciiCase literal = startsWith literal rest ∧
      (startsWith literal rest = true → left = rest.drop literal.length) := by
  have hrest := Text.sliceAt_eq_some hslice
  have hfront : taken.eqIgnoreAsciiCase literal = true → rest.take literal.length = taken := by
    intro heq
    rw [hrest, ← (length_of_eqIgnoreAsciiCase hascii heq).1, List.take_left]
  have hback : startsWith literal rest = true → taken = rest.take literal.length ∧
      left = rest.drop literal.length := by
    intro hstarts
    have hsplit := Text.sliceAt_append (rest.take literal.length) (rest.drop literal.length)
    rw [List.take_append_drop, (length_of_eqIgnoreAsciiCase hascii hstarts).2] at hsplit
    rw [hascii.utf8Len, hsplit] at hslice
    obtain ⟨htaken, hleft⟩ := Prod.mk.inj (Option.some.inj hslice)
    exact ⟨htaken.symm, hleft.symm⟩
  refine ⟨Bool.eq_iff_iff.mpr ⟨fun heq => ?_, fun hstarts => ?_⟩, fun hstarts => (hback hstarts).2⟩
  · rw [startsWith, hfront heq]
    exact heq
  · rw [(hback hstarts).1]
    exact hstarts

/-- Matching a literal panics at a cut character, and else does what it says. -/
theorem takeLiteral_cases (hascii : Ascii literal) (rest : Text) :
    (Text.Cut rest literal.length ∧ takeLiteral literal rest = none) ∨
      (¬ Text.Cut rest literal.length ∧
        takeLiteral literal rest = some (startsWith literal rest, afterLiteral literal rest)) := by
  rw [Text.cut_iff, ← hascii.utf8Len]
  unfold takeLiteral
  split
  · rename_i hshort
    refine Or.inr ⟨fun hcut => absurd hcut.1 (by omega), ?_⟩
    have hnot : startsWith literal rest = false := by
      rw [Bool.eq_false_iff]
      intro hstarts
      have hlen := (length_of_eqIgnoreAsciiCase hascii hstarts).2
      have hsplit := Text.utf8Len_append (rest.take literal.length) (rest.drop literal.length)
      rw [List.take_append_drop] at hsplit
      rw [hascii.utf8Len] at hshort
      omega
    rw [afterLiteral, hnot]
    rfl
  · rename_i hlong
    cases hslice : Text.sliceAt rest literal.utf8Len with
    | none => exact Or.inl ⟨⟨by omega, rfl⟩, rfl⟩
    | some parts =>
      obtain ⟨taken, left⟩ := parts
      obtain ⟨hfound, hleft⟩ := startsWith_slice hascii hslice
      refine Or.inr ⟨fun hcut => (by cases hcut.2), ?_⟩
      simp only [Option.bind_eq_bind, Option.bind_some, hfound, afterLiteral]
      cases hstarts : startsWith literal rest with
      | true =>
        rw [if_pos rfl, if_pos rfl, hleft hstarts]
        rfl
      | false => rfl

def BeginsWithDigit (text : Text) : Prop := ∃ c, text.head? = some c ∧ c.isDigit = true

theorem length_dropWhile_digits (text : Text) :
    (text.dropWhile Char.isDigit).length = text.length ↔ ¬ BeginsWithDigit text := by
  cases text with
  | nil => simp [BeginsWithDigit]
  | cons c rest =>
    rw [List.dropWhile_cons]
    by_cases hdigit : c.isDigit = true
    · rw [if_pos hdigit]
      have hle := (List.dropWhile_suffix (l := rest) Char.isDigit).length_le
      simp only [List.length_cons, BeginsWithDigit, List.head?_cons, Option.some.injEq,
        exists_eq_left', hdigit, not_true_eq_false, iff_false]
      omega
    · rw [if_neg hdigit]
      simp [BeginsWithDigit, hdigit]

/-- A count of games, or of parts, is followed by a cut character where `!` or the dash of the
prefix is looked for. -/
def CountCut (count : Text) : Prop :=
  BeginsWithDigit count ∧
    (Text.Cut (count.dropWhile Char.isDigit) 1 ∨
      Text.Cut (afterLiteral "!".toList (count.dropWhile Char.isDigit)) 3)

/-- Where a literal of the noise prefix would be, a character is cut. -/
def NoiseCut (name : Text) : Prop :=
  BeginsWithDigit name ∧
    (Text.Cut (name.dropWhile Char.isDigit) 6 ∨
      Text.Cut (afterLiteral " games".toList (name.dropWhile Char.isDigit)) 4 ∨
      (startsWith " in ".toList
          (afterLiteral " games".toList (name.dropWhile Char.isDigit)) = true ∧
        CountCut ((afterLiteral " games".toList (name.dropWhile Char.isDigit)).drop 4)))

/-- Stripping panics exactly at a cut character. -/
theorem stripNoisePrefix_eq_none_iff (name : Text) :
    stripNoisePrefix name = none ↔ NoiseCut name := by
  unfold stripNoisePrefix NoiseCut
  simp only
  by_cases hdigits : BeginsWithDigit name
  · rw [if_neg (fun h => (length_dropWhile_digits name).mp h hdigits)]
    rw [and_iff_right hdigits]
    generalize name.dropWhile Char.isDigit = games
    rcases @takeLiteral_cases " games".toList (by decide) games with
      ⟨hcut, htake⟩ | ⟨hwhole, htake⟩
    · rw [htake]
      exact iff_of_true rfl (Or.inl hcut)
    rw [htake]
    have hwhole : ¬ Text.Cut games 6 := hwhole
    rw [or_iff_right hwhole]
    change (takeLiteral " in ".toList (afterLiteral " games".toList games) >>= _) = none ↔ _
    generalize afterLiteral " games".toList games = middle
    rcases @takeLiteral_cases " in ".toList (by decide) middle with
      ⟨hcut, htake⟩ | ⟨hwhole, htake⟩
    · rw [htake]
      exact iff_of_true rfl (Or.inl hcut)
    rw [htake]
    have hwhole : ¬ Text.Cut middle 4 := hwhole
    rw [or_iff_right hwhole]
    simp only [Option.bind_eq_bind, Option.bind_some]
    cases hin : startsWith " in ".toList middle with
    | false => simp
    | true =>
      have hafter : afterLiteral " in ".toList middle = middle.drop 4 := by
        rw [afterLiteral, hin, if_pos rfl]
        rfl
      rw [hafter, Bool.not_true, if_neg Bool.false_ne_true]
      generalize middle.drop 4 = count
      unfold CountCut
      by_cases hcount : BeginsWithDigit count
      · rw [if_neg (fun h => (length_dropWhile_digits count).mp h hcount), and_iff_right hcount]
        generalize count.dropWhile Char.isDigit = bang
        rcases @takeLiteral_cases "!".toList (by decide) bang with
          ⟨hcut, htake⟩ | ⟨hwhole, htake⟩
        · rw [htake]
          exact iff_of_true rfl ⟨rfl, Or.inl hcut⟩
        rw [htake]
        have hwhole : ¬ Text.Cut bang 1 := hwhole
        rw [or_iff_right hwhole]
        simp only [Option.bind_some]
        generalize afterLiteral "!".toList bang = dash
        rcases @takeLiteral_cases " - ".toList (by decide) dash with
          ⟨hcut, htake⟩ | ⟨hwhole, htake⟩
        · rw [htake]
          exact iff_of_true rfl ⟨trivial, hcut⟩
        rw [htake]
        refine iff_of_false (fun h => ?_) fun h => hwhole h.2
        simp only [Option.bind_some] at h
        split at h
        · cases h
        · cases h
      · rw [if_pos ((length_dropWhile_digits count).mpr hcount)]
        exact iff_of_false (fun h => by cases h) fun h => hcount h.2.1
  · rw [if_pos ((length_dropWhile_digits name).mpr hdigits)]
    exact iff_of_false (fun h => by cases h) fun h => hdigits h.1

end Noise

/-! ## The ends of names -/

/-- The last character is not a dot and not a space. -/
def Ended (name : Text) : Prop := name.getLast? ≠ some '.' ∧ name.getLast? ≠ some ' '

section Ends

variable {name stem : Text}

theorem Ended.suffix {out : Text} (h : Ended name) (hsuffix : out <:+ name) (hne : out ≠ []) :
    Ended out := by
  obtain ⟨front, rfl⟩ := hsuffix
  have hlast : (front ++ out).getLast? = out.getLast? := by
    rw [List.getLast?_append]
    cases hout : out.getLast? with
    | none => exact absurd (List.getLast?_eq_none_iff.mp hout) hne
    | some c => rfl
  rw [Ended, hlast] at h
  exact h

theorem trimEnd_last {p : Char → Bool} {c : Char}
    (hlast : (Text.trimEnd p name).getLast? = some c) : p c = false := by
  rw [Text.trimEnd, List.getLast?_reverse] at hlast
  have hhead := List.head?_dropWhile_not p name.reverse
  rw [hlast] at hhead
  simpa using hhead

theorem getLast?_append_cons (front rest : Text) (c : Char) :
    (front ++ c :: rest).getLast? = some (rest.getLast?.getD c) := by
  rw [List.getLast?_append, List.getLast?_cons]
  rfl

/-- What is open so far, as it stands in the name. -/
def opened : Option Text → Text
  | none => []
  | some inner => '(' :: inner

/-- Compressing tags leaves the last character. -/
theorem getLast?_compressRegionTags (reading : Option Text) (name : Text) :
    (compressRegionTags reading name).getLast? = (opened reading ++ name).getLast? := by
  induction name generalizing reading with
  | nil =>
    rw [List.append_nil]
    cases reading <;> rfl
  | cons c rest ih =>
    cases reading with
    | none =>
      rw [compressRegionTags]
      split
      · rename_i hopen
        rw [ih, hopen]
        rfl
      · rw [List.getLast?_cons, ih]
        exact (List.getLast?_cons).symm
    | some inner =>
      rw [compressRegionTags]
      split
      · rename_i hclose
        have hrest : (compressRegionTags none rest).getLast? = rest.getLast? := ih none
        rw [hclose, getLast?_append_cons]
        split
        · rw [getLast?_append_cons, hrest]
        · rw [getLast?_append_cons, hrest]
      · rw [ih]
        simp [opened]

theorem Ended.compress (h : Ended name) : Ended (compressRegionTags none name) := by
  have hlast : (compressRegionTags none name).getLast? = name.getLast? :=
    getLast?_compressRegionTags none name
  rw [Ended, hlast]
  exact h

theorem stripSuffix_eq {stem suffix : Text}
    (hlength : (stripSuffix stem suffix).length = stem.length) :
    stripSuffix stem suffix = stem := by
  unfold stripSuffix at hlength ⊢
  split
  · rename_i hsuffix
    rw [if_pos hsuffix, List.length_take] at hlength
    exact List.take_of_length_le (by omega)
  · rfl

theorem length_stripSuffix_le (stem suffix : Text) :
    (stripSuffix stem suffix).length ≤ stem.length := by
  unfold stripSuffix
  split
  · exact List.length_take_le' _ _
  · exact Nat.le_refl _

/-- A separator at the end of a stem. -/
def isJunk (c : Char) : Bool := c = ' ' ∨ c = '.' ∨ c = '-'

theorem length_trimEnd_le (p : Char → Bool) (stem : Text) :
    (Text.trimEnd p stem).length ≤ stem.length := by
  rw [Text.trimEnd, List.length_reverse, ← @List.length_reverse _ stem]
  exact (List.dropWhile_suffix p).length_le

theorem trimEnd_eq {p : Char → Bool} (hlength : (Text.trimEnd p stem).length = stem.length) :
    Text.trimEnd p stem = stem := by
  rw [Text.trimEnd] at hlength ⊢
  rw [List.length_reverse, ← @List.length_reverse _ stem] at hlength
  rw [(List.dropWhile_suffix p).eq_of_length hlength, List.reverse_reverse]

theorem length_trimRound_le (stem : Text) : (trimRound stem).length ≤ stem.length :=
  ((length_stripSuffix_le _ _).trans (length_stripSuffix_le _ _)).trans (length_trimEnd_le _ _)

/-- A round that changes nothing found no junk at the end. -/
theorem trimRound_stable (hlength : (trimRound stem).length = stem.length) :
    trimRound stem = stem ∧ Ended stem := by
  have hbrackets := length_stripSuffix_le (stripSuffix (Text.trimEnd isJunk stem) "()".toList)
    "[]".toList
  have hparens := length_stripSuffix_le (Text.trimEnd isJunk stem) "()".toList
  have htrim := length_trimEnd_le isJunk stem
  change (stripSuffix (stripSuffix (Text.trimEnd isJunk stem) "()".toList) "[]".toList).length =
    stem.length at hlength
  have htrimEq : Text.trimEnd isJunk stem = stem := trimEnd_eq (by omega)
  have hends : ∀ c, stem.getLast? = some c → isJunk c = false := fun c hc =>
    trimEnd_last (htrimEq.symm ▸ hc)
  refine ⟨?_, fun hdot => ?_, fun hspace => ?_⟩
  · change stripSuffix (stripSuffix (Text.trimEnd isJunk stem) "()".toList) "[]".toList = stem
    rw [htrimEq] at hbrackets hparens hlength ⊢
    rw [stripSuffix_eq (by omega), stripSuffix_eq (by omega)]
  · exact absurd (hends '.' hdot) (by decide)
  · exact absurd (hends ' ' hspace) (by decide)

/-- Trimming with enough rounds leaves nothing, or a stem without junk at its end. -/
theorem trimLoop_ended {fuel : Nat} (hfuel : stem.length ≤ fuel) (hne : trimLoop fuel stem ≠ []) :
    Ended (trimLoop fuel stem) := by
  induction fuel generalizing stem with
  | zero =>
    have hnil : stem = [] := List.eq_nil_of_length_eq_zero (Nat.le_zero.mp hfuel)
    exact absurd hnil hne
  | succ fuel ih =>
    rw [trimLoop] at hne ⊢
    split
    · rename_i hstop
      rw [if_pos hstop] at hne
      obtain ⟨heq, hended⟩ := trimRound_stable (hstop.resolve_right hne)
      rw [heq]
      exact hended
    · rename_i hgo
      rw [if_neg hgo] at hne
      have hle := length_trimRound_le stem
      exact ih (by have hlt := not_or.mp hgo; omega) hne

/-- A name that ends well either has an extension, whose end is the name's, or none. -/
theorem ended_withExtension {e : Text} (stem : Text) (hne : e ≠ []) :
    Ended (withExtension stem (some e)) ↔ Ended e := by
  have hlast : (withExtension stem (some e)).getLast? = e.getLast? := by
    rw [withExtension, List.getLast?_append, List.getLast?_cons]
    cases he : e.getLast? with
    | none => exact absurd (List.getLast?_eq_none_iff.mp he) hne
    | some c => rfl
  rw [Ended, hlast]
  exact Iff.rfl

theorem Ended.extension (h : Ended name) {e : Text} (hext : (stemAndExtension name).2 = some e) :
    e ≠ [] ∧ Ended e := by
  have hname := stemAndExtension_eq name
  rw [hext] at hname
  have hne : e ≠ [] := by
    rintro rfl
    refine h.1 ?_
    rw [← hname, withExtension, List.getLast?_append]
    rfl
  rw [← hname, ended_withExtension _ hne] at h
  exact ⟨hne, h⟩

theorem Ended.trimJunk (h : Ended name) : Ended (trimTrailingJunk name) := by
  unfold trimTrailingJunk
  simp only
  cases hext : (stemAndExtension name).2 with
  | some e =>
    obtain ⟨hne, hended⟩ := h.extension hext
    exact (ended_withExtension _ hne).mpr hended
  | none =>
    rw [withExtension]
    split
    · exact ⟨by decide, by decide⟩
    · rename_i hne
      exact trimLoop_ended (Nat.le_refl _) hne

theorem Ended.fit {budget : Nat} {out : Text} (h : Ended name) (hne : name ≠ [])
    (hrun : fitComponent name budget = some out) : Ended out := by
  unfold fitComponent at hrun
  split at hrun
  · cases hrun
    exact h
  · obtain ⟨stripped, hstripped, hrun⟩ := Option.bind_eq_some_iff.mp hrun
    obtain ⟨hsuffix, hstrippedNe⟩ := stripNoisePrefix_suffix hne hstripped
    have hended := h.suffix hsuffix hstrippedNe
    split at hrun
    · cases hrun
      exact hended
    · simp only at hrun
      split at hrun
      · cases hrun
        exact hended.compress
      · cases hrun
        exact hended.compress.trimJunk

end Ends

/-! ## Cutting -/

section Cutting

variable {name e : Text} {max : Nat}

theorem utf8Len_cutAt_le (budget : Nat) (text : Text) : (cutAt budget text).utf8Len ≤ budget := by
  induction text generalizing budget with
  | nil => exact Nat.zero_le _
  | cons c rest ih =>
    rw [cutAt]
    split
    · rename_i hfits
      have hrest := ih (budget - c.utf8Size)
      rw [Text.utf8Len_cons]
      omega
    · exact Nat.zero_le _

/-- Four bytes hold a character. -/
theorem cutAt_ne_nil {budget : Nat} (hbudget : 4 ≤ budget) (hne : name ≠ []) :
    cutAt budget name ≠ [] := by
  obtain ⟨c, rest, rfl⟩ := List.exists_cons_of_ne_nil hne
  rw [cutAt, if_pos (c.utf8Size_le_four.trans hbudget)]
  exact List.cons_ne_nil _ _

theorem utf8Len_extension (hext : (stemAndExtension name).2 = some e) : e.utf8Len ≤ 16 := by
  unfold stemAndExtension at hext
  split at hext
  · split at hext
    · rename_i hkept
      cases hext
      rw [Bool.and_eq_true, decide_eq_true_eq] at hkept
      exact hkept.2
    · cases hext
  · cases hext

theorem stem_of_no_extension (hext : (stemAndExtension name).2 = none) :
    (stemAndExtension name).1 = name := by
  have hname := stemAndExtension_eq name
  rwa [hext] at hname

/-- A name without an extension is cut to the budget. -/
theorem capComponent_bare (hmax : 4 ≤ max) (hlong : max < name.utf8Len) (hne : name ≠ [])
    (hext : (stemAndExtension name).2 = none) : capComponent name max = some (cutAt max name) := by
  have hbudget : Nat.max (max - 0) 1 = max := Nat.max_eq_left (by omega)
  unfold capComponent
  rw [if_neg (Nat.not_le_of_lt hlong)]
  simp only [hext, stem_of_no_extension hext, Option.map_none, Option.getD_none, hbudget]
  rw [if_neg (cutAt_ne_nil hmax hne)]
  rfl

/-- A name with an extension keeps it, and fits. -/
theorem capComponent_extended (hmax : 21 ≤ max) (hlong : max < name.utf8Len) (hne : name ≠ [])
    (hext : (stemAndExtension name).2 = some e) :
    ∃ stem, capComponent name max = some (withExtension stem (some e)) ∧
      (withExtension stem (some e)).utf8Len ≤ max := by
  have hshort := utf8Len_extension hext
  have hbudget : Nat.max (max - (e.utf8Len + 1)) 1 = max - (e.utf8Len + 1) :=
    Nat.max_eq_left (by omega)
  refine ⟨cutAt (max - (e.utf8Len + 1)) (stemAndExtension name).1, ?_, ?_⟩
  · unfold capComponent
    rw [if_neg (Nat.not_le_of_lt hlong)]
    simp only [hext, Option.map_some, Option.getD_some, hbudget]
    rw [if_neg (cutAt_ne_nil (by omega) (stemAndExtension_ne_nil hne))]
  · have hcut := utf8Len_cutAt_le (max - (e.utf8Len + 1)) (stemAndExtension name).1
    have hdot : Char.utf8Size '.' = 1 := by decide
    rw [withExtension, Text.utf8Len_append, Text.utf8Len_cons, hdot]
    omega

end Cutting

/-- Only stripping the prefix can panic. -/
theorem fitComponent_eq_none_iff {component : Text} {budget : Nat}
    (hlong : budget < component.utf8Len) :
    fitComponent component budget = none ↔ NoiseCut component := by
  rw [← stripNoisePrefix_eq_none_iff]
  unfold fitComponent
  rw [if_neg (Nat.not_le_of_lt hlong)]
  cases hstrip : stripNoisePrefix component with
  | none => exact Iff.rfl
  | some name =>
    refine iff_of_false (fun h => ?_) fun h => by cases h
    rw [Option.bind_eq_bind, Option.bind_some] at h
    split at h
    · cases h
    · simp only at h
      split at h
      · cases h
      · cases h

/-! ## Legal components -/

/-- The characters that a device can store. -/
def Charset.Allows : Charset → Char → Prop
  | .any, _ => True
  | .fat, c => c ∉ "\"*:<>?\\|".toList ∧ 0x20 ≤ c.toNat

instance : DecidablePred (Charset.Allows .fat) := fun _ => inferInstanceAs (Decidable (_ ∧ _))

namespace Profile

variable {profile : Profile} {component : Text}

def budget (profile : Profile) : Nat := profile.maxNameLen - suffixReserve

/-- A component as a device is to get it, with room for the collision suffix. -/
structure Legal (profile : Profile) (component : Text) : Prop where
  nonempty : component ≠ []
  chars : ∀ c ∈ component, profile.charset.Allows c
  ending : profile.charset = .fat → Ended component
  length : component.utf8Len ≤ profile.budget

/-- A cleaned component that is never empty. -/
def cleaned (profile : Profile) (component : Text) : Text :=
  if profile.clean component = [] then ['_'] else profile.clean component

/-- An over-long component is not cut by its noise prefix, and where the rules leave it over-long
and without an extension, it is not cut behind a dot or a space. -/
def Keeps (profile : Profile) (component : Text) : Prop :=
  profile.budget < (profile.cleaned component).utf8Len →
    ¬ NoiseCut (profile.cleaned component) ∧
      ∀ name, fitComponent (profile.cleaned component) profile.budget = some name →
        profile.budget < name.utf8Len → (stemAndExtension name).2 = none →
          Ended (cutAt profile.budget name)

theorem clean_allows (hfat : profile.charset = .fat) :
    ∀ c ∈ profile.clean component, Charset.Allows .fat c := by
  unfold clean
  rw [hfat]
  intro c hc
  obtain ⟨raw, -, rfl⟩ := List.mem_map.mp (trimEnd_subset _ _ hc)
  split
  · decide
  · rename_i hbanned
    split
    · decide
    · rename_i hcontrol
      refine ⟨fun hmem => hbanned ?_, Nat.le_of_not_lt hcontrol⟩
      simpa using hmem

theorem cleaned_ne_nil : profile.cleaned component ≠ [] := by
  unfold cleaned
  split
  · exact List.cons_ne_nil _ _
  · assumption

theorem cleaned_ended (hfat : profile.charset = .fat) : Ended (profile.cleaned component) := by
  unfold cleaned
  split
  · exact ⟨by decide, by decide⟩
  · unfold clean
    rw [hfat]
    refine ⟨fun hdot => ?_, fun hspace => ?_⟩
    · exact absurd (trimEnd_last hdot) (by decide)
    · exact absurd (trimEnd_last hspace) (by decide)

/-- The characters and the start are never at fault. -/
theorem legal_iff (hfat : profile.charset = .fat) {out : Text}
    (hrun : profile.constrainComponent component = some out) :
    profile.Legal out ↔ Ended out ∧ out.utf8Len ≤ profile.budget := by
  obtain ⟨hchars, hne⟩ := constrainComponent_chars (P := Charset.Allows .fat)
    (Text.forall_of_all (by decide)) (clean_allows hfat) hrun
  refine ⟨fun h => ⟨h.ending hfat, h.length⟩, fun h => ⟨hne, ?_, fun _ => h.1, h.2⟩⟩
  rw [hfat]
  exact hchars

theorem constrainComponent_eq : profile.constrainComponent component =
    (fitComponent (profile.cleaned component) profile.budget).bind fun name =>
      capComponent name profile.budget := rfl

theorem constrainComponent_legal_iff (hfat : profile.charset = .fat)
    (hbudget : 21 ≤ profile.budget) :
    (∃ out, profile.constrainComponent component = some out ∧ profile.Legal out) ↔
      profile.Keeps component := by
  have hlegal : ∀ out, profile.constrainComponent component = some out →
      (profile.Legal out ↔ Ended out ∧ out.utf8Len ≤ profile.budget) :=
    fun out hrun => legal_iff hfat hrun
  rw [constrainComponent_eq] at hlegal ⊢
  have hended := @cleaned_ended profile component hfat
  have hne := @cleaned_ne_nil profile component
  unfold Keeps
  by_cases hlong : profile.budget < (profile.cleaned component).utf8Len
  · rw [imp_iff_right hlong]
    cases hfit : fitComponent (profile.cleaned component) profile.budget with
    | none =>
      exact iff_of_false (fun ⟨out, hout, _⟩ => by cases hout) fun h =>
        h.1 ((fitComponent_eq_none_iff hlong).mp hfit)
    | some name =>
      have hwhole : ¬ NoiseCut (profile.cleaned component) := by
        rw [← fitComponent_eq_none_iff hlong, hfit]
        exact Option.some_ne_none name
      have hnameEnded := hended.fit hne hfit
      have hnameNe : name ≠ [] :=
        (fitComponent_chars (P := fun _ => True) (fun _ _ => trivial) (fun _ _ => trivial) hne
          hfit).2
      rw [and_iff_right hwhole]
      rw [hfit, Option.bind_some] at hlegal
      rw [Option.bind_some]
      simp only [Option.some.injEq, forall_eq']
      by_cases hover : profile.budget < name.utf8Len
      · rw [imp_iff_right hover]
        cases hext : (stemAndExtension name).2 with
        | some e =>
          obtain ⟨stem, hcap, hlength⟩ := capComponent_extended hbudget hover hnameNe hext
          obtain ⟨hextNe, hextEnded⟩ := hnameEnded.extension hext
          refine iff_of_true ⟨_, hcap, (hlegal _ hcap).mpr ⟨?_, hlength⟩⟩ fun h => by cases h
          exact (ended_withExtension _ hextNe).mpr hextEnded
        | none =>
          have hcap := capComponent_bare (by omega) hover hnameNe hext
          rw [imp_iff_right rfl, hcap]
          constructor
          · rintro ⟨out, hout, hout'⟩
            obtain rfl := Option.some.inj hout
            exact ((hlegal _ hcap).mp hout').1
          · intro hcut
            exact ⟨_, rfl, (hlegal _ hcap).mpr ⟨hcut, utf8Len_cutAt_le _ _⟩⟩
      · have hcap : capComponent name profile.budget = some name :=
          if_pos (Nat.le_of_not_lt hover)
        exact iff_of_true
          ⟨_, hcap, (hlegal _ hcap).mpr ⟨hnameEnded, Nat.le_of_not_lt hover⟩⟩
          fun h => absurd h hover
  · refine iff_of_true ?_ fun h => absurd h hlong
    have hfit : fitComponent (profile.cleaned component) profile.budget =
        some (profile.cleaned component) := if_pos (Nat.le_of_not_lt hlong)
    have hcap : capComponent (profile.cleaned component) profile.budget =
        some (profile.cleaned component) := if_pos (Nat.le_of_not_lt hlong)
    rw [hfit, Option.bind_some] at hlegal ⊢
    exact ⟨_, hcap, (hlegal _ hcap).mpr ⟨hended, Nat.le_of_not_lt hlong⟩⟩

theorem profiles_fat (hprofile : profile ∈ profiles) :
    profile.charset = .fat ∧ 21 ≤ profile.budget := by
  have hall : ∀ profile ∈ profiles, profile.charset = .fat ∧ 21 ≤ profile.budget := by decide
  exact hall profile hprofile

end Profile

/-- The device with the shortest names. -/
def ezflash : Profile := ⟨"ezflash-omega", .fat, 99, some (4 * 2 ^ 30 - 1), some 512⟩

end Datboi.Catalog
