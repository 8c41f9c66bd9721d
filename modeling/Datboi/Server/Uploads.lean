import Mathlib.Data.List.Dedup
import Mathlib.Logic.Function.Basic

/-!
# Staged uploads

An upload waits in the registry under a token until an ingest spends it. Every listed token is
looked up before the first one is removed; a removal that then finds nothing panics, and what
was removed before it is gone.
-/

namespace Datboi.Jobs

/-- Bytes on disk in the store's tmp/, with the client's name for them. -/
structure StagedUpload where
  path : String
  name : String
  bytes : Nat
  deriving DecidableEq, Repr

/-- The upload map of the registry. -/
abbrev Uploads := String → Option StagedUpload

namespace Uploads

variable {uploads : Uploads} {tokens : List String} {got : List StagedUpload}

def stage (uploads : Uploads) (token : String) (upload : StagedUpload) : Uploads :=
  Function.update uploads token (some upload)

def remove (uploads : Uploads) (token : String) : Uploads := Function.update uploads token none

/-- Remove the listed uploads in turn; `none` is the panic of a removal that finds nothing. -/
def removeAll : Uploads → List String → Option (List StagedUpload) × Uploads
  | uploads, [] => (some [], uploads)
  | uploads, token :: rest =>
    match uploads token with
    | none => (none, uploads)
    | some upload =>
      let (got, left) := removeAll (uploads.remove token) rest
      (got.map (upload :: ·), left)

/-- Spend tokens; `none` is a panic, and an error is the first token that is not staged. -/
def take (uploads : Uploads) (tokens : List String) :
    Option (Except String (List StagedUpload)) × Uploads :=
  match tokens.find? fun token => (uploads token).isNone with
  | some missing => (some (.error missing), uploads)
  | none =>
    let (got, left) := uploads.removeAll tokens
    (got.map .ok, left)

/-- The listed uploads are returned, each of them once, and they are what the map has lost. -/
structure Spent (uploads : Uploads) (tokens : List String) (got : List StagedUpload)
    (left : Uploads) : Prop where
  returned : (tokens.dedup.map uploads).Perm (got.map some)
  removed : ∀ token ∈ tokens, left token = none
  kept : ∀ token ∉ tokens, left token = uploads token

/-- Either all the listed uploads are spent, or the map is as it was. -/
def AllOrNothing (uploads : Uploads) (tokens : List String) : Prop :=
  (∃ got left, uploads.take tokens = (some (.ok got), left) ∧ uploads.Spent tokens got left) ∨
    ∃ missing, uploads.take tokens = (some (.error missing), uploads)

theorem removeAll_cons {token : String} {upload : StagedUpload} {rest : List String}
    (hstaged : uploads token = some upload) :
    uploads.removeAll (token :: rest) =
      (((uploads.remove token).removeAll rest).1.map (upload :: ·),
        ((uploads.remove token).removeAll rest).2) := by
  rw [removeAll, hstaged]

/-- Distinct staged tokens are all removed. -/
theorem removeAll_of_nodup (hnodup : tokens.Nodup)
    (hstaged : ∀ token ∈ tokens, uploads token ≠ none) :
    ∃ got left, uploads.removeAll tokens = (some got, left) ∧
      tokens.map uploads = got.map some ∧ (∀ token ∈ tokens, left token = none) ∧
      ∀ token ∉ tokens, left token = uploads token := by
  induction tokens generalizing uploads with
  | nil => exact ⟨[], uploads, rfl, rfl, by simp, fun _ _ => rfl⟩
  | cons token rest ih =>
    obtain ⟨hfresh, hnodup'⟩ := List.nodup_cons.mp hnodup
    obtain ⟨upload, hupload⟩ := Option.ne_none_iff_exists'.mp (hstaged token List.mem_cons_self)
    have hother : ∀ other ∈ rest, uploads.remove token other = uploads other := by
      intro other hrest
      have hne : other ≠ token := fun heq => hfresh (heq ▸ hrest)
      rw [remove, Function.update_of_ne hne]
    obtain ⟨got, left, hrun, hgot, hremoved, hkept⟩ := @ih (uploads.remove token) hnodup'
      fun other hmem => hother other hmem ▸ hstaged other (List.mem_cons_of_mem _ hmem)
    refine ⟨upload :: got, left, ?_, ?_, ?_, ?_⟩
    · rw [removeAll_cons hupload, hrun]
      rfl
    · rw [List.map_cons, List.map_cons, hupload, ← hgot, List.map_congr_left hother]
    · intro other hmem
      rcases List.mem_cons.mp hmem with rfl | hrest
      · rw [hkept _ hfresh, remove, Function.update_self]
      · exact hremoved other hrest
    · intro other hmem
      rw [List.mem_cons, not_or] at hmem
      rw [hkept other hmem.2, remove, Function.update_of_ne hmem.1]

/-- A removal that succeeds has met no token twice. -/
theorem nodup_of_removeAll (hrun : (uploads.removeAll tokens).1 = some got) :
    tokens.Nodup ∧ ∀ token ∈ tokens, uploads token ≠ none := by
  induction tokens generalizing uploads got with
  | nil => exact ⟨.nil, by simp⟩
  | cons token rest ih =>
    cases hupload : uploads token with
    | none =>
      rw [removeAll, hupload] at hrun
      cases hrun
    | some upload =>
      rw [removeAll_cons hupload, Option.map_eq_some_iff] at hrun
      obtain ⟨got', hgot, -⟩ := hrun
      obtain ⟨hnodup, hstaged⟩ := ih hgot
      have hfresh : token ∉ rest := fun hmem =>
        hstaged token hmem (Function.update_self ..)
      refine ⟨List.nodup_cons.mpr ⟨hfresh, hnodup⟩, fun other hmem => ?_⟩
      rcases List.mem_cons.mp hmem with rfl | hrest
      · simp [hupload]
      · have hne : other ≠ token := fun heq => hfresh (heq ▸ hrest)
        simpa [remove, Function.update_of_ne hne] using hstaged other hrest

/-- Spending is all or nothing exactly if no token is listed twice, or one is not staged. -/
theorem take_allOrNothing_iff (uploads : Uploads) (tokens : List String) :
    uploads.AllOrNothing tokens ↔ tokens.Nodup ∨ ∃ token ∈ tokens, uploads token = none := by
  unfold AllOrNothing take
  cases hfind : tokens.find? fun token => (uploads token).isNone with
  | some missing =>
    have hmissing := List.find?_some hfind
    exact iff_of_true (Or.inr ⟨missing, rfl⟩)
      (Or.inr ⟨missing, List.mem_of_find?_eq_some hfind, Option.isNone_iff_eq_none.mp hmissing⟩)
  | none =>
    have hstaged : ∀ token ∈ tokens, uploads token ≠ none := fun token hmem hnone =>
      List.find?_eq_none.mp hfind token hmem (Option.isNone_iff_eq_none.mpr hnone)
    have hnone : ¬ ∃ token ∈ tokens, uploads token = none :=
      fun ⟨token, hmem, habsent⟩ => hstaged token hmem habsent
    rw [or_iff_left hnone]
    constructor
    · rintro (⟨got, left, hrun, -⟩ | ⟨missing, hrun⟩)
      · obtain ⟨got', hgot, -⟩ := Option.map_eq_some_iff.mp (congrArg Prod.fst hrun)
        exact (nodup_of_removeAll hgot).1
      · obtain ⟨got', -, hgot⟩ := Option.map_eq_some_iff.mp (congrArg Prod.fst hrun)
        cases hgot
    · intro hnodup
      obtain ⟨got, left, hrun, hgot, hremoved, hkept⟩ := removeAll_of_nodup hnodup hstaged
      refine Or.inl ⟨got, left, by rw [hrun]; rfl, ?_, hremoved, hkept⟩
      rw [hnodup.dedup, hgot]

/-- One token listed twice: the second removal panics, and the upload is lost. -/
theorem take_repeated :
    ¬ (stage (fun _ => none) "a" ⟨"tmp/1", "one.gba", 1⟩).AllOrNothing ["a", "a"] := by
  have hpanics :
      ((stage (fun _ => none) "a" ⟨"tmp/1", "one.gba", 1⟩).take ["a", "a"]).1 = none := by
    decide
  rintro (⟨got, left, hrun, -⟩ | ⟨missing, hrun⟩)
  · rw [hrun] at hpanics
    cases hpanics
  · rw [hrun] at hpanics
    cases hpanics

end Uploads

end Datboi.Jobs
