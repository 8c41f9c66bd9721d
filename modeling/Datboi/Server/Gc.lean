import Datboi.Exec.Evict
import Datboi.Exec.ReplayEffects
import Datboi.Index.Gc

/-!
# Applying orphan deletions

The one destructive action a person triggers. Each requested candidate is checked
again at delete time; bytes go before rows; packed orphans are collected and their
packs rewritten without them.
-/

namespace Datboi

structure GcApplyResponse where
  deleted : Nat := 0
  bytesReclaimed : Nat := 0
  skipped : Nat := 0
  deriving DecidableEq, Repr

namespace GcApplyResponse

def skip (response : GcApplyResponse) : GcApplyResponse :=
  { response with skipped := response.skipped + 1 }

def delete (response : GcApplyResponse) (candidate : OrphanCandidate) : GcApplyResponse :=
  { response with
    deleted := response.deleted + 1
    bytesReclaimed := response.bytesReclaimed + candidate.size.getD 0 }

end GcApplyResponse

namespace Executor

variable (exec : Executor)

/-- The blobs one tag roots: its own, and every row of a pinned view. -/
def rootedByTag (site : Site) (tag : String × Blake3) : Except ExecError (List Nat) :=
  let own := (site.db.getBlobId tag.2).toList
  if tag.1.startsWith "view/" then
    match exec.loadSnapshot site.store tag.2 with
    | .error e => .error e
    | .ok rows => .ok (own ++ rows.filterMap fun row => site.db.getBlobId row.hash)
  else .ok own

/-- The roots that the index cannot compute by itself. -/
def orphanExtraRoots (site : Site) : Except ExecError (List Nat) := do
  let roots ← site.db.tags.mapM (exec.rootedByTag site)
  return roots.flatten

end Executor

namespace Gc

/-- Remove one orphan's loose bytes, then its rows. -/
def unlinkOrphan (candidate : OrphanCandidate) : ExecM Unit := fun site =>
  let site := { site with store := site.store.removeBlob .data candidate.hash }
  ExecM.onDb (·.deleteOrphanRows candidate.blobId) site

/-- Which orphans each affected pack loses, packs in the order they were met. -/
abbrev PackedOrphans := List (Blake3 × List OrphanCandidate)

def PackedOrphans.push (packed : PackedOrphans) (pack : Blake3) (candidate : OrphanCandidate) :
    PackedOrphans :=
  match packed with
  | [] => [(pack, [candidate])]
  | (other, orphans) :: rest =>
    if other = pack then (other, orphans ++ [candidate]) :: rest
    else (other, orphans) :: push rest pack candidate

/-- The loose sweep: skip what is kept or no longer deletable, set packed orphans
aside, delete the others. -/
def applyLoose (keeps : List Blake3) (roots : List Nat) (now grace : Int) :
    List OrphanCandidate → GcApplyResponse → PackedOrphans →
      ExecM (GcApplyResponse × PackedOrphans)
  | [], response, packed => pure (response, packed)
  | candidate :: rest, response, packed => fun site =>
    if candidate.hash ∈ keeps ∨
        site.db.orphanStillDeletable candidate.blobId roots now grace = false then
      applyLoose keeps roots now grace rest response.skip packed site
    else
      match site.store.packOf candidate.hash with
      | some pack =>
        applyLoose keeps roots now grace rest response (packed.push pack candidate) site
      | none =>
        (unlinkOrphan candidate >>= fun _ =>
          applyLoose keeps roots now grace rest (response.delete candidate) packed) site

/-- Unlink the orphans a rewritten pack has lost. -/
def unlinkPacked : List OrphanCandidate → GcApplyResponse → ExecM GcApplyResponse
  | [], response => pure response
  | candidate :: rest, response =>
    unlinkOrphan candidate >>= fun _ => unlinkPacked rest (response.delete candidate)

def repack (host : Host) (pack : Blake3) (orphans : List OrphanCandidate) : ExecM Unit :=
  fun site =>
    match site.store.repack host pack (orphans.map OrphanCandidate.hash) with
    | .error e => .error (.store e) site
    | .ok store => .ok () { site with store := store }

/-- Rewrite each affected pack once without its orphans, then remove their rows. -/
def applyPacked (host : Host) : PackedOrphans → GcApplyResponse → ExecM GcApplyResponse
  | [], response => pure response
  | (pack, orphans) :: rest, response => do
      repack host pack orphans
      let response ← unlinkPacked orphans response
      applyPacked host rest response

/-- Delete the requested candidates. -/
def apply (host : Host) (keeps : List Blake3) (roots : List Nat) (now grace : Int)
    (wanted : List OrphanCandidate) : ExecM GcApplyResponse := do
  let (response, packed) ← applyLoose keeps roots now grace wanted {} []
  applyPacked host packed response

/-! ## What one deletion does -/

theorem unlinkOrphan_eq_ok {candidate : OrphanCandidate} {site site' : Site}
    (hrun : unlinkOrphan candidate site = .ok () site') :
    ∃ db, site.db.deleteOrphanRows candidate.blobId = .ok db ∧
      site' = { site with store := site.store.removeBlob .data candidate.hash, db := db } := by
  unfold unlinkOrphan at hrun
  exact Executor.onDb_ok hrun

/-- A request for one candidate that deleted it: the candidate was deletable at that
moment, its pack was rewritten if it had one, and its rows went after its bytes. -/
theorem apply_singleton_eq_ok {host : Host} {keeps : List Blake3} {roots : List Nat}
    {now grace : Int} {candidate : OrphanCandidate} {response : GcApplyResponse}
    {site site' : Site}
    (hrun : apply host keeps roots now grace [candidate] site = .ok response site')
    (hdeleted : response.deleted = 1) :
    site.db.orphanStillDeletable candidate.blobId roots now grace = true ∧
    ∃ store db, site.db.deleteOrphanRows candidate.blobId = .ok db ∧
      site' = { site with store := store.removeBlob .data candidate.hash, db := db } ∧
      ((site.store.packOf candidate.hash = none ∧ store = site.store) ∨
        ∃ pack, site.store.packOf candidate.hash = some pack ∧
          site.store.repack host pack [candidate.hash] = .ok store) := by
  unfold apply at hrun
  obtain ⟨⟨swept, packed⟩, site₁, hloose, hpacked⟩ := Moves.bind_eq_ok hrun
  unfold applyLoose at hloose
  split at hloose
  · cases hloose
    cases hpacked
    cases hdeleted
  · rename_i hchecked
    rw [not_or, Bool.not_eq_false] at hchecked
    refine ⟨hchecked.2, ?_⟩
    split at hloose
    · rename_i pack hpack
      cases hloose
      obtain ⟨_, site₂, hrepack, hrest⟩ := Moves.bind_eq_ok hpacked
      obtain ⟨_, site₃, hunlink, hdone⟩ := Moves.bind_eq_ok hrest
      cases hdone
      unfold repack at hrepack
      split at hrepack
      · cases hrepack
      · rename_i store hstore
        cases hrepack
        obtain ⟨_, site₄, hone, hnil⟩ := Moves.bind_eq_ok hunlink
        cases hnil
        obtain ⟨db, hdb, rfl⟩ := unlinkOrphan_eq_ok hone
        exact ⟨store, db, hdb, rfl, Or.inr ⟨pack, hpack, hstore⟩⟩
    · rename_i hnone
      obtain ⟨_, site₂, hone, hnil⟩ := Moves.bind_eq_ok hloose
      cases hnil
      cases hpacked
      obtain ⟨db, hdb, rfl⟩ := unlinkOrphan_eq_ok hone
      exact ⟨site.store, db, hdb, rfl, Or.inl ⟨hnone, rfl⟩⟩

end Gc

end Datboi
