import Datboi.Exec.Replay

/-!
# Eviction

The one code path that destroys bytes on purpose. A literal is dropped only when
the blob stays grounded without it, and its outboard is kept. The planner takes
licensed candidates first and, if asked to, replays `verified` routes to license
more.
-/

namespace Datboi

/-- Why a blob may not be evicted right now. -/
inductive Blocked where
  | notResident
  | notGrounded
  | needsReplay
  | pinnedByView
  | packed
  deriving DecidableEq, Repr

inductive EvictOutcome where
  | evicted (bytesReclaimed : Nat)
  | blocked (why : Blocked)
  deriving DecidableEq, Repr

structure EvictReport where
  evicted : Nat := 0
  bytesReclaimed : Nat := 0
  blocked : List (Blake3 × Blocked) := []
  replays : Nat := 0
  deriving DecidableEq, Repr

/-- A planner run in progress: what it counts as still resident, and its report. -/
structure EvictProgress where
  resident : Nat
  report : EvictReport := {}

namespace EvictProgress

def block (progress : EvictProgress) (hash : Blake3) (why : Blocked) : EvictProgress :=
  { progress with report := { progress.report with
      blocked := progress.report.blocked ++ [(hash, why)] } }

def record (progress : EvictProgress) (hash : Blake3) : EvictOutcome → EvictProgress
  | .evicted bytesReclaimed =>
    { resident := progress.resident - bytesReclaimed
      report := { progress.report with
        evicted := progress.report.evicted + 1
        bytesReclaimed := progress.report.bytesReclaimed + bytesReclaimed } }
  | .blocked why => progress.block hash why

def countReplay (progress : EvictProgress) : EvictProgress :=
  { progress with report := { progress.report with replays := progress.report.replays + 1 } }

end EvictProgress

namespace Executor

variable (exec : Executor)

/-! ## Pins -/

/-- The snapshot a `view/` tag names. -/
def loadSnapshot (store : Store) (hash : Blake3) : Except ExecError (List SnapshotRow) :=
  match store.get .metadata hash with
  | none => .error (.malformed ("pinned snapshot " ++ hash.toHex ++ " missing from meta/"))
  | some bytes =>
    match exec.host.decodeSnapshot bytes with
    | .error what =>
      .error (.malformed ("pinned snapshot " ++ hash.toHex ++ " does not decode: " ++ what))
    | .ok rows => .ok rows

/-- The blobs one tag protects: every input of an image's live recipes, and the rows
of a view that it recorded as unable to seek. -/
def protectedByTag (site : Site) (tag : String × Blake3) : Except ExecError (List Nat) :=
  if tag.1.startsWith "image/" then
    match site.db.blobByHash tag.2 with
    | none => .ok []
    | some row => .ok (((site.db.recipesForOutput row.blobId).filter (·.verify ≠ .failed)).flatMap
        fun recipe => (site.db.recipeInputs recipe.recipeId).map BlobRow.blobId)
  else if tag.1.startsWith "view/" then
    match exec.loadSnapshot site.store tag.2 with
    | .error e => .error e
    | .ok rows => .ok ((rows.filter (·.seek = 2)).filterMap fun row => site.db.getBlobId row.hash)
  else .ok []

/-- Blob ids no eviction may touch while their pins stand; a tag that cannot be read
is an error. -/
def pinnedProtectedSet (site : Site) : Except ExecError (List Nat) := do
  let protectedIds ← site.db.tags.mapM (exec.protectedByTag site)
  return protectedIds.flatten

/-! ## Dropping -/

/-- Drop the loose literal, then flip the residency; a blob that is also packed has
only lost a duplicate. -/
def dropLiteral (row : BlobRow) (store : Store) (site : Site) : Site :=
  let store := store.evictLiteral .data row.hash
  { site with
    store := store
    db := site.db.setResidency row.blobId
      (if store.has .data row.hash then .resident else .evictedCovered) }

/-- Evict one literal if every safety rule passes. -/
def evictWith (protectedIds : List Nat) (hash : Blake3) : ExecM EvictOutcome := fun site =>
  match site.db.blobByHash hash with
  | none => .ok (.blocked .notResident) site
  | some row =>
    if row.residency ≠ .resident ∨ site.store.has .data hash = false then
      .ok (.blocked .notResident) site
    else if row.blobId ∈ protectedIds then .ok (.blocked .pinnedByView) site
    else if site.store.isPacked hash ∧ site.store.hasLoose .data hash = false then
      .ok (.blocked .packed) site
    else if site.db.isEvictable row.blobId = false then
      .ok (.blocked (if (site.db.recipesForOutput row.blobId).any (·.verify ≠ .failed)
        then .needsReplay else .notGrounded)) site
    else
      -- The tree must exist before the bytes may go.
      match site.store.ensureObao exec.host .data hash with
      | .error e => .error (.store e) site
      | .ok (false, store) => .ok (.blocked .notResident) { site with store := store }
      | .ok (true, store) =>
        .ok (.evicted ((row.size.or (store.len .data hash)).getD 0))
          (dropLiteral row store site)

variable {exec} in
/-- What a drop has passed, and what it leaves. -/
theorem evictWith_eq_evicted {protectedIds : List Nat} {hash : Blake3} {bytes : Nat}
    {site site' : Site} (hrun : exec.evictWith protectedIds hash site = .ok (.evicted bytes) site') :
    ∃ row store, site.db.blobByHash hash = some row ∧ row.residency = .resident ∧
      site.store.has .data hash = true ∧ site.db.isEvictable row.blobId = true ∧
      site.store.SameBlobs store ∧ site' = dropLiteral row store site := by
  unfold evictWith at hrun
  split at hrun
  · cases hrun
  · rename_i row hrow
    split at hrun
    · cases hrun
    · rename_i hpresent
      rw [not_or, not_not, Bool.not_eq_false] at hpresent
      split at hrun
      · cases hrun
      split at hrun
      · cases hrun
      split at hrun
      · cases hrun
      · rename_i hevictable
        split at hrun
        · cases hrun
        · cases hrun
        · rename_i store hobao
          cases hrun
          exact ⟨row, store, hrow, hpresent.1, hpresent.2, by simpa using hevictable,
            Store.sameBlobs_ensureObao hobao, rfl⟩

def evict (hash : Blake3) : ExecM EvictOutcome := fun site =>
  match exec.pinnedProtectedSet site with
  | .error e => .error e site
  | .ok protectedIds => exec.evictWith protectedIds hash site

/-! ## The planner -/

section Planner

variable (protectedIds : List Nat) (target : Nat)

/-- Evict candidates in turn until the target is met. -/
def evictCandidates : List BlobRow → EvictProgress → ExecM EvictProgress
  | [], progress => pure progress
  | candidate :: rest, progress =>
    if progress.resident ≤ target then pure progress
    else do
      let outcome ← exec.evictWith protectedIds candidate.hash
      evictCandidates rest (progress.record candidate.hash outcome)

/-- Replay the `verified` recipes of a list in turn until one succeeds; disproved
ones are skipped, any other failure ends the pass. -/
def licenseRoute (around : Nat → Surroundings) : List RecipeRow → ExecM Bool
  | [] => pure false
  | recipe :: rest => fun site =>
    if recipe.verify ≠ .verified then licenseRoute around rest site
    else
      match exec.replay (around recipe.recipeId) recipe.recipeId site with
      | .ok _ site => .ok true site
      | .error e site =>
        if e.isClaimFailure then licenseRoute around rest site else .error e site

/-- License one candidate by replay, then evict it. -/
def licenseAndEvict (around : Nat → Surroundings) (candidate : BlobRow)
    (progress : EvictProgress) : ExecM EvictProgress := fun site =>
  (do
    let licensed ← exec.licenseRoute around (site.db.recipesForOutput candidate.blobId)
    if licensed then
      let outcome ← exec.evictWith protectedIds candidate.hash
      return progress.countReplay.record candidate.hash outcome
    else return progress.block candidate.hash .needsReplay : ExecM EvictProgress) site

/-- License and evict candidates in turn until the target is met. -/
def licenseCandidates (around : Nat → Surroundings) :
    List BlobRow → EvictProgress → ExecM EvictProgress
  | [], progress => pure progress
  | candidate :: rest, progress =>
    if progress.resident ≤ target then pure progress
    else if candidate.blobId ∈ protectedIds then
      licenseCandidates around rest (progress.block candidate.hash .pinnedByView)
    else do
      let progress ← exec.licenseAndEvict protectedIds around candidate progress
      licenseCandidates around rest progress

/-- The second pass over the candidates of the moment. -/
def licensePass (around : Nat → Surroundings) (progress : EvictProgress) : ExecM EvictProgress :=
  fun site =>
    exec.licenseCandidates protectedIds target around site.db.verifiedOnlyCandidates progress site

end Planner

/-- Evict recipe-covered literals until at most `target` resident bytes remain. -/
def evictCovered (around : Nat → Surroundings) (target : Nat) (license : Bool) :
    ExecM EvictReport := fun site =>
  let progress : EvictProgress := { resident := site.db.residentDataBytes }
  if progress.resident ≤ target then .ok progress.report site
  else
    match exec.pinnedProtectedSet site with
    | .error e => .error e site
    | .ok protectedIds =>
      (do
        let progress ← exec.evictCandidates protectedIds target site.db.listEvictionCandidates
          progress
        if license = false ∨ progress.resident ≤ target then return progress.report
        else
          let progress ← exec.licensePass protectedIds target around progress
          return progress.report : ExecM EvictReport) site

/-- Evict licensed literals until about `reclaimBytes` are freed. -/
def evictReclaim (around : Nat → Surroundings) (reclaimBytes : Nat) : ExecM EvictReport :=
  fun site => exec.evictCovered around (site.db.residentDataBytes - reclaimBytes) false site

end Executor

end Datboi
