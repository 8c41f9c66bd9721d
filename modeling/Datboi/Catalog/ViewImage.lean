import Datboi.Catalog.Fat32Tree
import Datboi.Catalog.ViewRows

/-!
# Images of FAT-profiled views

A view with a FAT profile replaces the characters that FAT bans and gives its rows distinct
paths, so an image of its rows is never refused for a banned character, an empty component or
the order of the rows. Three rules of the image have no counterpart in the view: a component
may be cut right behind a dot or a space, it may get two tags, and paths may differ only by
case or name a file that is another path's directory.
-/

namespace Datboi.Catalog

open Fat32

/-- The files of an image: the snapshot's rows, in the order of their paths. -/
def imageFiles (rows : List Row) : List FileEntry :=
  (Rows.sortBy Row.path rows).map fun row => ⟨row.path, row.pick.size⟩

/-! ## Characters of a row's path -/

/-- A slash, or a character FAT allows in a name. -/
def IsPathChar (c : Char) : Prop := c = '/' ∨ IsFatChar c

instance : DecidablePred IsFatChar := fun _ => inferInstanceAs (Decidable (_ ∧ _))

instance : DecidablePred IsPathChar := fun _ => inferInstanceAs (Decidable (_ ∨ _))

theorem Text.mem_of_mem_components {path component : Text} {c : Char}
    (hcomponent : component ∈ path.components) (hc : c ∈ component) : c ∈ path := by
  obtain ⟨before, after, hsplit⟩ := List.append_of_mem hcomponent
  rw [← Text.join_components path, hsplit]
  have hmem : ∀ before : List Text, c ∈ Text.join (before ++ component :: after) := by
    intro before
    induction before with
    | nil =>
      cases after with
      | nil => simpa [Text.join] using hc
      | cons second after =>
        simp only [List.nil_append, Text.join, List.intercalate_cons_cons, List.mem_append]
        exact Or.inl (Or.inl hc)
    | cons first before ih =>
      rw [List.cons_append, Text.join, List.intercalate_cons_of_ne_nil (by simp)]
      exact List.mem_append_right _ ih
  exact hmem before

theorem Profile.clean_fat {profile : Profile} {component : Text} (hfat : profile.charset = .fat)
    (hslash : '/' ∉ component) : ∀ c ∈ profile.clean component, IsFatChar c := by
  unfold clean
  simp only [hfat]
  intro c hc
  obtain ⟨raw, hraw, heq⟩ := List.mem_map.mp (trimEnd_subset _ _ hc)
  split at heq
  · rw [← heq]
    decide
  · rename_i hbanned
    split at heq
    · rw [← heq]
      decide
    · rename_i hcontrol
      subst heq
      refine ⟨?_, by omega⟩
      intro hmem
      have hlisted : ∀ c ∈ bannedChars, c = '/' ∨ (c = '"' ∨ c = '*' ∨ c = ':' ∨ c = '<' ∨
          c = '>' ∨ c = '?' ∨ c = '\\' ∨ c = '|') := Text.forall_of_all (by decide)
      rcases hlisted raw hmem with rfl | hlisted
      · exact hslash hraw
      · exact hbanned hlisted

section Rows

variable {view : ViewDef} {profile : Profile} {db : Db} {picks : List Picked}

theorem ViewDef.place_chars {pick : Picked} {path : Text} (hprofile : view.profile = some profile)
    (hfat : profile.charset = .fat) (hplace : view.place pick = some path) :
    ∀ c ∈ path, IsPathChar c := by
  unfold ViewDef.place at hplace
  simp only [hprofile] at hplace
  have hforall := forall₂_of_mapM (Profile.constrainPath_components hplace)
  intro c hc
  rw [← Text.join_components path] at hc
  rcases mem_intercalate hc with hslash | ⟨component, hcomponent, hc⟩
  · exact Or.inl hslash
  · obtain ⟨raw, hraw, hrun⟩ := forall₂_mem_right hforall hcomponent
    have hclean := Profile.clean_fat hfat (Text.slash_notMem hraw)
    exact Or.inr ((constrainComponent_chars (Text.forall_of_all (by decide)) hclean hrun).1 c hc)

theorem tagSuffix_chars (hash : Blake3) : ∀ c ∈ tagSuffix hash, IsPathChar c := by
  have hdigit : ∀ n < 16, IsPathChar (Nat.digitChar n) := by decide
  have hopen : ∀ c ∈ " (".toList, IsPathChar c := Text.forall_of_all (by decide)
  intro c hc
  simp only [tagSuffix, List.mem_append] at hc
  rcases hc with (hc | hc) | hc
  · exact hopen c hc
  · obtain ⟨i, _, rfl⟩ := List.mem_map.mp (List.mem_of_mem_take hc)
    exact hdigit _ (Nat.mod_lt _ (by decide))
  · rw [List.mem_singleton.mp hc]
    decide

theorem tagged_chars {path : Text} (hpath : ∀ c ∈ path, IsPathChar c) (hash : Blake3) :
    ∀ c ∈ tagged path hash, IsPathChar c := by
  intro c hc
  rcases tagged_cases path hash with ⟨heq, _⟩ | ⟨stem, ext, _, hsplit, heq⟩
  · rw [heq, List.mem_append] at hc
    rcases hc with hc | hc
    · exact hpath c hc
    · exact tagSuffix_chars hash c hc
  · rw [heq, List.append_assoc, List.mem_append, List.mem_append] at hc
    have hwhole := (Text.rsplitOnce_eq_some.mp hsplit).1
    rcases hc with hc | hc | hc
    · exact hpath c (by rw [hwhole]; exact List.mem_append_left _ hc)
    · exact tagSuffix_chars hash c hc
    · exact hpath c (by rw [hwhole]; exact List.mem_append_right _ hc)

theorem alphaBucket_fat (name : Text) :
    alphaBucket name ≠ [] ∧ ∀ c ∈ alphaBucket name, IsPathChar c := by
  have hletter : ∀ c : Char, c.isAlpha → IsPathChar c.toUpper := by
    intro c hc
    have hascii : c.toNat < 128 := ascii_of_letter (by
      rcases Bool.or_eq_true_iff.mp hc with hc | hc
      · exact Or.inl hc
      · exact Or.inr (Or.inr hc))
    exact forall_ascii (P := fun c => c.isAlpha → IsPathChar c.toUpper) (by decide) hascii hc
  unfold alphaBucket
  split
  · split
    · rename_i hc
      refine ⟨by simp, ?_⟩
      intro c hmem
      rw [List.mem_singleton.mp hmem]
      exact hletter _ hc
    · exact ⟨by decide, Text.forall_of_all (by decide)⟩
  · exact ⟨by decide, Text.forall_of_all (by decide)⟩

theorem bucketed_clean {path : Text} (hpath : NoEmpty path) (hchars : ∀ c ∈ path, IsPathChar c) :
    NoEmpty (bucketed path) ∧ ∀ c ∈ bucketed path, IsPathChar c := by
  obtain ⟨dirs, leaf, hplain, hdown⟩ := bucketed_components hpath
  obtain ⟨hbucket, hbucketChars⟩ := alphaBucket_fat leaf
  have hcomponent : ∀ component ∈ (bucketed path).components,
      component ∈ path.components ∨ component = alphaBucket leaf := by
    intro component hmem
    rw [hdown] at hmem
    rw [hplain]
    simp only [List.mem_append, List.mem_cons, List.not_mem_nil, or_false] at hmem ⊢
    tauto
  constructor
  · intro component hmem
    rcases hcomponent component hmem with hold | rfl
    · exact hpath component hold
    · exact hbucket
  · intro c hc
    rw [← Text.join_components (bucketed path)] at hc
    rcases mem_intercalate hc with hslash | ⟨component, hmem, hc⟩
    · exact Or.inl hslash
    · rcases hcomponent component hmem with hold | rfl
      · exact hchars c (Text.mem_of_mem_components hold hc)
      · exact hbucketChars c hc

/-- Rows of a FAT-profiled view have clean paths. -/
theorem evaluate_clean {report : EvalReport} (hprofile : view.profile = some profile)
    (hfat : profile.charset = .fat) (heval : view.evaluate db picks = some report) :
    ∀ row ∈ report.rows, NoEmpty row.path ∧ ∀ c ∈ row.path, IsPathChar c := by
  obtain ⟨laid, hlaid, rfl⟩ := Option.map_eq_some_iff.mp heval
  obtain ⟨turns, hturns, hrows⟩ := ViewDef.layout_eq_some hlaid
  have hlaidClean : ∀ row ∈ laid.rows, NoEmpty row.path ∧ ∀ c ∈ row.path, IsPathChar c := by
    intro row hrow
    rw [hrows] at hrow
    refine ⟨ViewDef.noEmpty_laid hturns hrow, ?_⟩
    obtain ⟨_, path, hplace, hcases⟩ := ViewDef.laid_path hturns hrow
    have hpath := ViewDef.place_chars hprofile hfat hplace
    rcases hcases with heq | ⟨_, heq⟩
    · exact heq ▸ hpath
    · rw [heq]
      exact tagged_chars hpath row.pick.hash
  intro row hrow
  rw [ViewDef.bucket_rows] at hrow
  obtain ⟨⟨old, turn⟩, hentry, rfl⟩ := List.mem_map.mp hrow
  have hold : old ∈ laid.rows := by
    rw [← ViewDef.bucketTurns_fst view laid.rows]
    exact List.mem_map_of_mem hentry
  obtain ⟨hne, hchars⟩ := hlaidClean old hold
  obtain ⟨hneDown, hcharsDown⟩ := bucketed_clean hne hchars
  cases turn with
  | stays => exact ⟨hne, hchars⟩
  | blocked => exact ⟨hne, hchars⟩
  | moves => exact ⟨hneDown, hcharsDown⟩
  | renamed => exact ⟨noEmpty_tagged hneDown _, tagged_chars hcharsDown _⟩

theorem evaluate_nodup {report : EvalReport} (heval : view.evaluate db picks = some report) :
    (report.rows.map Row.path).Nodup := by
  obtain ⟨laid, hlaid, rfl⟩ := Option.map_eq_some_iff.mp heval
  obtain ⟨turns, hturns, hrows⟩ := ViewDef.layout_eq_some hlaid
  apply ViewDef.bucket_nodup
  rw [hrows]
  exact ViewDef.laid_nodup hturns

end Rows

def fatView : ViewDef := { template := "{name}".toList, profile := profiles.head? }

/-- Claims of different blobs under the given names. -/
def claimsNamed (names : List Text) : List Picked :=
  names.zipIdx.map fun (name, i) => ⟨i, "game".toList, name, i, BitVec.ofNat 256 (i + 1), 4⟩

/-- What the layout says to the image of a view. -/
def imageError (picks : List Picked) : Option Fat32.Error := do
  let report ← fatView.evaluate .empty picks
  match layout asciiFold (imageFiles report.rows) smallParams with
  | .error e => some e
  | .ok _ => none

theorem refused_of_imageError {picks : List Picked}
    (herror : (imageError picks).any Error.isNaming = true) :
    ∃ report, fatView.evaluate .empty picks = some report ∧
      Refused asciiFold (imageFiles report.rows) smallParams := by
  unfold imageError at herror
  cases heval : fatView.evaluate .empty picks with
  | none =>
    rw [heval] at herror
    cases herror
  | some report =>
    rw [heval, Option.bind_eq_bind, Option.bind_some] at herror
    refine ⟨report, rfl, ?_⟩
    split at herror
    · rename_i e hlayout
      exact ⟨e, hlayout, herror⟩
    · cases herror

end Datboi.Catalog
