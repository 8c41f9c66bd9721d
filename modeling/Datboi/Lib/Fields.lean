import Datboi.Lib.Rows

/-!
# Records written as keyed fields

A record is written as the list of its fields in ascending key order, absent optional fields
left out, and read by a loop that folds the entries into a partial record. If each step adds
exactly the entry it reads to what the partial record stands for, the loop accepts no second
spelling. `Inverts` says that a decoder accepts exactly what its encoder writes.
-/

namespace Fields

variable {α β ε κ ν σ : Type}

/-- On good inputs the decoder undoes the encoder, and accepts nothing else. -/
structure Inverts (decode : α → Except ε β) (encode : β → α) (good : α → Prop)
    (valid : β → Prop) : Prop where
  sound : ∀ {a b}, good a → decode a = .ok b → valid b ∧ a = encode b
  complete : ∀ {b}, valid b → decode (encode b) = .ok b

theorem mapM_cons_eq_ok {f : α → Except ε β} {a : α} {as : List α} {bs : List β} :
    (a :: as).mapM f = .ok bs ↔
      ∃ b rest, f a = .ok b ∧ as.mapM f = .ok rest ∧ bs = b :: rest := by
  rw [List.mapM_cons]
  cases f a with
  | error e => simp [Bind.bind, Except.bind]
  | ok b =>
    cases as.mapM f with
    | error e => simp [Bind.bind, Except.bind]
    | ok rest =>
      simp only [Bind.bind, Except.bind, Pure.pure, Except.pure, Except.ok.injEq]
      constructor
      · rintro rfl
        exact ⟨b, rest, rfl, rfl, rfl⟩
      · rintro ⟨_, _, rfl, rfl, rfl⟩
        rfl

theorem forM_eq_ok {check : α → Except ε Unit} {as : List α} :
    as.forM check = .ok () ↔ ∀ a ∈ as, check a = .ok () := by
  induction as with
  | nil => simp [Pure.pure, Except.pure]
  | cons a rest ih =>
    rw [List.forM, List.forall_mem_cons, ← ih]
    cases check a <;> simp [Bind.bind, Except.bind]

/-- Decoding a list element by element undoes encoding it so. -/
theorem Inverts.mapM {decode : α → Except ε β} {encode : β → α} {good : α → Prop}
    {valid : β → Prop} (hinverts : Inverts decode encode good valid) :
    Inverts (fun as : List α => as.mapM decode) (fun bs => bs.map encode)
      (fun as => ∀ a ∈ as, good a) (fun bs => ∀ b ∈ bs, valid b) where
  sound := by
    intro as
    induction as with
    | nil =>
      intro bs _ hrun
      cases hrun
      exact ⟨by simp, rfl⟩
    | cons a as ih =>
      intro bs hgood hrun
      obtain ⟨b, rest, hfirst, hrest, rfl⟩ := mapM_cons_eq_ok.mp hrun
      rw [List.forall_mem_cons] at hgood
      obtain ⟨hb, ha⟩ := hinverts.sound hgood.1 hfirst
      obtain ⟨hbs, has⟩ := ih hgood.2 hrest
      refine ⟨List.forall_mem_cons.mpr ⟨hb, hbs⟩, ?_⟩
      rw [List.map_cons, ← ha, ← has]
  complete := by
    intro bs
    induction bs with
    | nil => exact fun _ => rfl
    | cons b rest ih =>
      intro hvalid
      rw [List.forall_mem_cons] at hvalid
      exact mapM_cons_eq_ok.mpr ⟨b, rest, hinverts.complete hvalid.1, ih hvalid.2, rfl⟩

/-- An optional field: no entry when it is absent. -/
def optEntry (key : κ) (value : Option ν) : List (κ × ν) := (value.map fun v => (key, v)).toList

@[simp] theorem optEntry_none (key : κ) : optEntry key (none : Option ν) = [] := rfl

@[simp] theorem optEntry_some (key : κ) (value : ν) : optEntry key (some value) = [(key, value)] := rfl

theorem foldlM_cons_eq_ok {step : σ → α → Except ε σ} {s s' : σ} {a : α} {as : List α} :
    (a :: as).foldlM step s = .ok s' ↔ ∃ next, step s a = .ok next ∧ as.foldlM step next = .ok s' := by
  rw [List.foldlM_cons]
  cases step s a with
  | error e => simp [Bind.bind, Except.bind]
  | ok next => simp [Bind.bind, Except.bind]

/-- An invariant of the partial record that every step on a good entry keeps. -/
theorem foldlM_preserves {step : σ → α → Except ε σ} {good : α → Prop} {P : σ → Prop}
    (hstep : ∀ s a s', good a → P s → step s a = .ok s' → P s') {entries : List α} {s s' : σ}
    (hgood : ∀ a ∈ entries, good a) (hs : P s) (hrun : entries.foldlM step s = .ok s') : P s' := by
  induction entries generalizing s with
  | nil =>
    cases hrun
    exact hs
  | cons a rest ih =>
    obtain ⟨next, hfirst, hrest⟩ := foldlM_cons_eq_ok.mp hrun
    rw [List.forall_mem_cons] at hgood
    exact ih hgood.2 (hstep s a next hgood.1 hs hfirst) hrest

/-- A run reads only entries that some step accepts. -/
theorem foldlM_accepted {step : σ → α → Except ε σ} {P : α → Prop}
    (hstep : ∀ s a s', step s a = .ok s' → P a) {entries : List α} {s s' : σ}
    (hrun : entries.foldlM step s = .ok s') : ∀ a ∈ entries, P a := by
  induction entries generalizing s with
  | nil => exact fun a ha => absurd ha List.not_mem_nil
  | cons a rest ih =>
    obtain ⟨next, hfirst, hrest⟩ := foldlM_cons_eq_ok.mp hrun
    exact List.forall_mem_cons.mpr ⟨hstep s a next hfirst, ih hrest⟩

/-- The loop over a record's entries. `written` is what a partial record stands for; if each
step appends its entry to it, provided the entry's key is above those written, then a run over
ascending entries has written them all. -/
theorem foldlM_written {κ' : Type} [LinearOrder κ'] (rank : α → κ') {good : α → Prop}
    {step : σ → α → Except ε σ} {written : σ → List α}
    (hstep : ∀ s a s', good a → (∀ b ∈ written s, rank b < rank a) → step s a = .ok s' →
      written s' = written s ++ [a])
    {entries : List α} {s s' : σ} (hgood : ∀ a ∈ entries, good a)
    (hascending : Rows.Ascending rank entries)
    (habove : ∀ b ∈ written s, ∀ a ∈ entries, rank b < rank a)
    (hrun : entries.foldlM step s = .ok s') : written s' = written s ++ entries := by
  induction entries generalizing s with
  | nil =>
    cases hrun
    exact (List.append_nil _).symm
  | cons a rest ih =>
    obtain ⟨next, hfirst, hrest⟩ := foldlM_cons_eq_ok.mp hrun
    rw [List.forall_mem_cons] at hgood
    have hnext := hstep s a next hgood.1 (fun b hb => habove b hb a List.mem_cons_self) hfirst
    have habove' : ∀ b ∈ written next, ∀ c ∈ rest, rank b < rank c := by
      intro b hb c hc
      rw [hnext] at hb
      rcases List.mem_append.mp hb with hb | hb
      · exact habove b hb c (List.mem_cons_of_mem _ hc)
      · rw [List.mem_singleton.mp hb]
        exact hascending.lt_of_mem hc
    rw [ih hgood.2 hascending.tail habove' hrest, hnext, List.append_assoc]
    rfl

end Fields
