import Datboi.Catalog.ViewRows

/-!
# Filling in a view's template

The placeholders are replaced one after the other, so a name that was filled in can make a
placeholder of its own. Where none does, the path is the template with its own placeholders
replaced at once. Whatever was filled in, the path is relative and stays where it is joined on.
-/

namespace Datboi.Catalog

namespace Text

/-- Several patterns replaced at once, at each place the first that fits; `skip` counts as in
`replaceFrom`. -/
def replaceAllFrom (subs : List (Text × Text)) : Nat → Text → Text
  | _, [] => []
  | skip + 1, _ :: rest => replaceAllFrom subs skip rest
  | 0, c :: rest =>
    match subs.find? fun sub => sub.1.isPrefixOf (c :: rest) with
    | some sub => sub.2 ++ replaceAllFrom subs (sub.1.length - 1) rest
    | none => c :: replaceAllFrom subs 0 rest

def replaceAll (text : Text) (subs : List (Text × Text)) : Text := replaceAllFrom subs 0 text

/-- At how many places of a text a pattern fits. -/
def occurrences (pattern : Text) : Text → Nat
  | [] => 0
  | c :: rest => (if pattern.isPrefixOf (c :: rest) then 1 else 0) + occurrences pattern rest

/-- Braces around a text without any. -/
def Placeholder (pattern : Text) : Prop :=
  ∃ body, pattern = '{' :: (body ++ ['}']) ∧ '{' ∉ body ∧ '}' ∉ body

variable {subs : List (Text × Text)} {pattern sub text rest pre : Text} {c : Char}

theorem replaceAllFrom_append :
    replaceAllFrom subs pre.length (pre ++ rest) = replaceAll rest subs := by
  induction pre with
  | nil => rfl
  | cons c pre ih => exact ih

/-- Replacing one pattern. -/
theorem replace_eq (text pattern sub : Text) :
    text.replace pattern sub = replaceAll text [(pattern, sub)] := by
  suffices h : ∀ skip, replaceFrom pattern sub skip text =
      replaceAllFrom [(pattern, sub)] skip text from h 0
  induction text with
  | nil => exact fun skip => by rw [replaceFrom, replaceAllFrom]
  | cons c rest ih =>
    intro skip
    cases skip with
    | succ skip => exact ih skip
    | zero =>
      rw [replaceFrom, replaceAllFrom, List.find?_cons]
      cases pattern.isPrefixOf (c :: rest) with
      | true => exact congrArg (sub ++ ·) (ih _)
      | false => exact congrArg (c :: ·) (ih 0)

theorem replaceAll_cons (hnone : subs.find? (fun sub => sub.1.isPrefixOf (c :: rest)) = none) :
    replaceAll (c :: rest) subs = c :: replaceAll rest subs := by
  rw [replaceAll, replaceAllFrom, hnone]
  rfl

theorem replaceAll_append (hpattern : pattern ≠ [])
    (hfind : subs.find? (fun sub => sub.1.isPrefixOf (pattern ++ rest)) = some (pattern, sub)) :
    replaceAll (pattern ++ rest) subs = sub ++ replaceAll rest subs := by
  cases pattern with
  | nil => exact absurd rfl hpattern
  | cons c pre =>
    rw [List.cons_append] at hfind ⊢
    rw [replaceAll, replaceAllFrom, hfind]
    exact congrArg (sub ++ ·) replaceAllFrom_append

theorem replaceAll_self (hpattern : pattern ≠ []) :
    replaceAll (pattern ++ rest) [(pattern, sub)] =
      sub ++ replaceAll rest [(pattern, sub)] := by
  refine replaceAll_append hpattern ?_
  rw [List.find?_singleton, if_pos (List.isPrefixOf_iff_prefix.mpr (List.prefix_append _ _))]

/-! ## Placeholders do not overlap -/

theorem Placeholder.prefix_unique {p q : Text} (hp : Placeholder p) (hq : Placeholder q)
    (hpt : p.isPrefixOf text = true) (hqt : q.isPrefixOf text = true) : p = q := by
  obtain ⟨left, rfl, -, hleft⟩ := hp
  obtain ⟨right, rfl, -, hright⟩ := hq
  obtain ⟨leftRest, rfl⟩ := List.isPrefixOf_iff_prefix.mp hpt
  obtain ⟨rightRest, heq⟩ := List.isPrefixOf_iff_prefix.mp hqt
  have hbody : ∀ body more : Text, '}' ∉ body →
      (body ++ ['}'] ++ more).takeWhile (fun c => c ≠ '}') = body := by
    intro body more hbody
    rw [List.append_assoc, List.takeWhile_append_of_pos]
    · simp
    · exact fun c hc => decide_eq_true fun heq => hbody (heq ▸ hc)
  rw [List.cons_append, List.cons_append] at heq
  have htail := congrArg (List.takeWhile fun c => c ≠ '}') (List.cons.inj heq).2
  rw [hbody right rightRest hright, hbody left leftRest hleft] at htail
  rw [htail]

theorem Placeholder.not_begins (hpattern : Placeholder pattern) (hc : c ≠ '{') :
    pattern.isPrefixOf (c :: rest) = false := by
  obtain ⟨body, rfl, -⟩ := hpattern
  rw [List.isPrefixOf, beq_eq_false_iff_ne.mpr hc.symm, Bool.false_and]

theorem replaceAll_plain (hsubs : ∀ sub ∈ subs, Placeholder sub.1) (hpre : '{' ∉ pre) :
    replaceAll (pre ++ rest) subs = pre ++ replaceAll rest subs := by
  induction pre with
  | nil => rfl
  | cons c pre ih =>
    rw [List.mem_cons, not_or] at hpre
    rw [List.cons_append, replaceAll_cons, ih hpre.2, List.cons_append]
    rw [List.find?_eq_none]
    intro sub hsub
    rw [(hsubs sub hsub).not_begins (Ne.symm hpre.1)]
    exact Bool.false_ne_true

theorem occurrences_plain (hpattern : Placeholder pattern) (hpre : '{' ∉ pre) :
    occurrences pattern (pre ++ rest) = occurrences pattern rest := by
  induction pre with
  | nil => rfl
  | cons c pre ih =>
    rw [List.mem_cons, not_or] at hpre
    rw [List.cons_append, occurrences, hpattern.not_begins (Ne.symm hpre.1), ih hpre.2]
    exact Nat.zero_add _

/-- A placeholder in front hides no occurrence and counts where it is the pattern itself. -/
theorem occurrences_append {p : Text} (hpattern : Placeholder pattern) (hp : Placeholder p) :
    occurrences pattern (p ++ rest) =
      (if p = pattern then 1 else 0) + occurrences pattern rest := by
  obtain ⟨body, rfl, hopen, -⟩ := id hp
  rw [List.cons_append, occurrences, ← List.cons_append]
  rw [occurrences_plain hpattern (by
    rw [List.mem_append, List.mem_singleton, not_or]
    exact ⟨hopen, by decide⟩)]
  congr 1
  have hself := List.isPrefixOf_iff_prefix.mpr
    (List.prefix_append ('{' :: (body ++ ['}'])) rest)
  refine if_congr ⟨fun hbegins => hp.prefix_unique hpattern hself hbegins, fun heq => ?_⟩ rfl rfl
  rw [← heq]
  exact hself

/-- Text in front adds occurrences; where it adds none, the pattern is not replaced in it. -/
theorem occurrences_front : occurrences pattern rest ≤ occurrences pattern (pre ++ rest) ∧
    (occurrences pattern (pre ++ rest) = occurrences pattern rest →
      replaceAll (pre ++ rest) [(pattern, sub)] = pre ++ replaceAll rest [(pattern, sub)]) := by
  induction pre with
  | nil => exact ⟨Nat.le_refl _, fun _ => rfl⟩
  | cons c pre ih =>
    obtain ⟨hle, hplain⟩ := ih
    rw [List.cons_append, occurrences]
    refine ⟨Nat.le_add_left_of_le hle, fun heq => ?_⟩
    cases hbegins : pattern.isPrefixOf (c :: (pre ++ rest)) with
    | true =>
      rw [hbegins, if_pos rfl] at heq
      omega
    | false =>
      rw [hbegins, if_neg Bool.false_ne_true, Nat.zero_add] at heq
      rw [replaceAll_cons, hplain heq, List.cons_append]
      rw [List.find?_cons, hbegins]
      rfl

/-- Replacing some placeholders and then one more is replacing them at once, if what was put in
makes no occurrence of the last. -/
theorem replaceAll_snoc (hsubs : ∀ sub ∈ subs, Placeholder sub.1) (hpattern : Placeholder pattern)
    (hnew : ∀ sub ∈ subs, sub.1 ≠ pattern) :
    occurrences pattern text ≤ occurrences pattern (replaceAll text subs) ∧
      (occurrences pattern (replaceAll text subs) = occurrences pattern text →
        replaceAll (replaceAll text subs) [(pattern, sub)] =
          replaceAll text (subs ++ [(pattern, sub)])) := by
  induction hlen : text.length using Nat.strong_induction_on generalizing text with
  | _ n ih =>
  cases text with
  | nil => exact ⟨Nat.le_refl _, fun _ => rfl⟩
  | cons c rest =>
    cases hfind : subs.find? fun sub => sub.1.isPrefixOf (c :: rest) with
    | some found =>
      obtain ⟨p, out⟩ := found
      have hmem := List.mem_of_find?_eq_some hfind
      have hp : Placeholder p := hsubs _ hmem
      have hbegins : p.isPrefixOf (c :: rest) = true :=
        @List.find?_some _ (fun sub : Text × Text => sub.1.isPrefixOf (c :: rest)) _ _ hfind
      obtain ⟨more, hmore⟩ := List.isPrefixOf_iff_prefix.mp hbegins
      have hne : p ≠ [] := by
        obtain ⟨body, rfl, -⟩ := hp
        exact List.cons_ne_nil _ _
      have hboth : (subs ++ [(pattern, sub)]).find? (fun sub => sub.1.isPrefixOf (p ++ more)) =
          some (p, out) := by
        rw [hmore, List.find?_append, hfind]
        rfl
      rw [← hmore] at hfind hlen ⊢
      rw [replaceAll_append hne hfind, replaceAll_append hne hboth, occurrences_append hpattern hp,
        if_neg (hnew _ hmem), Nat.zero_add]
      obtain ⟨hle, hrest⟩ := ih more.length (by
        rw [← hlen, List.length_append]
        exact Nat.lt_add_of_pos_left (List.length_pos_of_ne_nil hne)) rfl
      obtain ⟨hfront, hplain⟩ := @occurrences_front pattern sub (replaceAll more subs) out
      refine ⟨hle.trans hfront, fun heq => ?_⟩
      rw [hplain (by omega), hrest (by omega)]
    | none =>
      have hboth : (subs ++ [(pattern, sub)]).find? (fun sub => sub.1.isPrefixOf (c :: rest)) =
          [(pattern, sub)].find? (fun sub => sub.1.isPrefixOf (c :: rest)) := by
        rw [List.find?_append, hfind]
        rfl
      rw [List.find?_singleton] at hboth
      cases hbegins : pattern.isPrefixOf (c :: rest) with
      | true =>
        obtain ⟨more, hmore⟩ := List.isPrefixOf_iff_prefix.mp hbegins
        rw [hbegins, if_pos rfl] at hboth
        obtain ⟨body, hbody, hopen, -⟩ := id hpattern
        have hne : pattern ≠ [] := hbody ▸ List.cons_ne_nil _ _
        -- The braces and what is between them are copied one by one.
        have hkept : replaceAll (c :: rest) subs = pattern ++ replaceAll more subs := by
          rw [replaceAll_cons hfind]
          have hsplit : c :: rest = '{' :: (body ++ ['}'] ++ more) := by
            rw [← hmore, hbody, List.cons_append]
          obtain ⟨rfl, rfl⟩ := List.cons.inj hsplit
          rw [replaceAll_plain hsubs (by simp [hopen]), hbody, List.cons_append]
        have honce : replaceAll (c :: rest) (subs ++ [(pattern, sub)]) =
            sub ++ replaceAll more (subs ++ [(pattern, sub)]) := by
          rw [← hmore] at hboth ⊢
          exact replaceAll_append hne hboth
        have hcount : occurrences pattern (c :: rest) = 1 + occurrences pattern more := by
          rw [← hmore, occurrences_append hpattern hpattern, if_pos rfl]
        obtain ⟨hle, hrest⟩ := ih more.length (by
          rw [← hlen, ← hmore, List.length_append]
          exact Nat.lt_add_of_pos_left (List.length_pos_of_ne_nil hne)) rfl
        rw [hkept, honce, hcount, occurrences_append hpattern hpattern, if_pos rfl,
          replaceAll_self hne]
        exact ⟨Nat.add_le_add_left hle 1, fun heq => by rw [hrest (by omega)]⟩
      | false =>
        rw [hbegins, if_neg Bool.false_ne_true] at hboth
        rw [replaceAll_cons hfind, replaceAll_cons hboth, occurrences, hbegins,
          if_neg Bool.false_ne_true, Nat.zero_add]
        obtain ⟨hle, hrest⟩ := ih rest.length (by rw [← hlen]; exact Nat.lt_succ_self _) rfl
        obtain ⟨hfront, hplain⟩ := @occurrences_front pattern sub (replaceAll rest subs) [c]
        rw [List.singleton_append] at hfront hplain
        refine ⟨hle.trans hfront, fun heq => ?_⟩
        rw [hplain (by omega), hrest (by omega), List.singleton_append]

end Text

/-! ## The layout -/

/-- A path as it is if it is canonical, sanitized if not. -/
def tidy (path : Text) : Text := if pathIsCanonical path then path else sanitizeName path

/-- The path of a pick before its components are fitted to a profile. -/
def ViewDef.laidOut (view : ViewDef) (pick : Picked) : Text := tidy (expand view.template pick)

/-- The template with its own placeholders replaced at once. -/
def filled (template : Text) (pick : Picked) : Text :=
  Text.replaceAll template [("{entry}".toList, sanitizeComponent pick.entry),
    ("{name}".toList, sanitizeName pick.claim),
    ("{alpha_bucket}".toList, alphaBucket pick.claim)]

/-- With the entry filled in, `{name}` occurs as often as in the template, and with the claim's
name filled in as well, `{alpha_bucket}` does. -/
def MakesNoPlaceholder (template : Text) (pick : Picked) : Prop :=
  Text.occurrences "{name}".toList
      (Text.replaceAll template [("{entry}".toList, sanitizeComponent pick.entry)]) =
    Text.occurrences "{name}".toList template ∧
  Text.occurrences "{alpha_bucket}".toList
      (Text.replaceAll template [("{entry}".toList, sanitizeComponent pick.entry),
        ("{name}".toList, sanitizeName pick.claim)]) =
    Text.occurrences "{alpha_bucket}".toList template

theorem expand_eq {template : Text} {pick : Picked} (hfree : MakesNoPlaceholder template pick) :
    expand template pick = filled template pick := by
  have hentry : Text.Placeholder "{entry}".toList := ⟨"entry".toList, by decide⟩
  have hname : Text.Placeholder "{name}".toList := ⟨"name".toList, by decide⟩
  have hbucket : Text.Placeholder "{alpha_bucket}".toList := ⟨"alpha_bucket".toList, by decide⟩
  unfold expand filled
  simp only [Text.replace_eq]
  rw [(Text.replaceAll_snoc (by simpa using hentry) hname (by simp)).2 hfree.1]
  exact (Text.replaceAll_snoc (by simpa using ⟨hentry, hname⟩) hbucket (by simp)).2 hfree.2

theorem canonical_tidy (path : Text) : pathIsCanonical (tidy path) = true := by
  unfold tidy
  split
  · assumption
  · exact canonical_sanitizeName path

/-- A pick's path before the profile is canonical, and where no name that is filled in makes a
placeholder, it is the template with its own placeholders replaced at once. -/
theorem layout_path (view : ViewDef) (pick : Picked) :
    view.place pick = view.profile.elim (some (view.laidOut pick))
        (fun profile => profile.constrainPath (view.laidOut pick)) ∧
      pathIsCanonical (view.laidOut pick) = true ∧
      (MakesNoPlaceholder view.template pick →
        view.laidOut pick = tidy (filled view.template pick)) := by
  refine ⟨?_, canonical_tidy _, fun hfree => congrArg tidy (expand_eq hfree)⟩
  unfold ViewDef.place
  cases view.profile <;> rfl

def bucketView : ViewDef :=
  { template := "{alpha_bucket}/{entry}/{name}".toList, profile := none }

/-- Names without braces go where the template has them. -/
theorem layout_path_bucket :
    bucketView.laidOut ⟨1, "Disc 1".toList, "a/rom.bin".toList, 1, 1, 4⟩ =
      tidy (filled bucketView.template ⟨1, "Disc 1".toList, "a/rom.bin".toList, 1, 1, 4⟩) :=
  (layout_path bucketView ⟨1, "Disc 1".toList, "a/rom.bin".toList, 1, 1, 4⟩).2.2 (by
    unfold MakesNoPlaceholder
    decide)

/-- An entry that is called like a placeholder is replaced by the claim's name. -/
theorem entry_is_replaced :
    ViewDef.place { template := "{entry}".toList, profile := none }
        ⟨1, "{name}".toList, "rom.bin".toList, 1, 1, 4⟩ = some "rom.bin".toList ∧
      tidy (filled "{entry}".toList ⟨1, "{name}".toList, "rom.bin".toList, 1, 1, 4⟩) =
        "{name}".toList := by
  decide

end Datboi.Catalog
