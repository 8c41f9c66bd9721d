import Datboi.Catalog.Views
import Datboi.Index.Grounding
import Mathlib.Data.List.MinMax
import Mathlib.Data.List.Sort

/-!
# What a catalog holds

Dat entries make claims, a claim names a content identity, and identities are linked to
blobs by evidence of different strength. The rollup scores each identity by its best
available blob; a view shows the claims whose identity scores as held, each with the
blob its query resolves the identity to.
-/

namespace Datboi.Catalog

/-! ## Tables -/

inductive ClaimKind where
  | rom
  | disk
  | sample
  deriving DecidableEq, Repr

inductive DatFormat where
  | mameListXml
  | other
  deriving DecidableEq, Repr

/-- A dat entry. `deviceRefs` is the list its attributes hold, `none` where they do not
parse. -/
structure Entry where
  entryId : Nat
  revisionId : Nat
  name : Text
  isDevice : Bool := false
  isBios : Bool := false
  cloneofId : Option Nat := none
  deviceRefs : Option (List Text) := some []
  deriving DecidableEq

/-- A claim of an entry. Status 2 is `nodump`. -/
structure RomClaim where
  claimId : Nat
  entryId : Nat
  kind : ClaimKind := .rom
  name : Text
  status : Nat := 0
  isOptional : Bool := false
  mergeName : Option Text := none
  identityId : Option Nat
  deriving DecidableEq

/-- An identity with a blob that may be its content. From basis 1 on the evidence is a
real digest. -/
structure IdentityBlob where
  identityId : Nat
  blobId : Nat
  basis : Int
  deriving DecidableEq

/-- The catalog tables beside the index, with their primary keys. -/
structure CatalogState where
  index : Db
  entries : List Entry
  claims : List RomClaim
  identityBlobs : List IdentityBlob
  peerHave : List Nat := []
  format : Nat → DatFormat := fun _ => .other
  entryKey : (entries.map Entry.entryId).Nodup
  claimKey : (claims.map RomClaim.claimId).Nodup
  identityBlobKey : (identityBlobs.map fun link => (link.identityId, link.blobId)).Nodup

namespace CatalogState

variable (state : CatalogState)

/-! ## The rollup -/

/-- Literal residency, or grounding by recipes this host vouches for. -/
def available (blob : BlobRow) : Bool :=
  blob.residency = .resident ∨ blob.blobId ∈ state.index.grounded .auditVerified none

/-- The score one link gives its identity: 4 held and verified, 3 held on a claim, 2 at a
peer, 1 probable, 0 missing. -/
def linkState (link : IdentityBlob) : Option Nat :=
  (state.index.blobById link.blobId).map fun blob =>
    if 1 ≤ link.basis ∧ state.available blob then 4
    else if 1 ≤ link.basis ∧ blob.blobId ∈ state.index.grounded .auditClaimed none then 3
    else if link.blobId ∈ state.peerHave then 2
    else if link.basis ≤ 0 ∧ state.available blob then 1
    else 0

/-- Stage 1 of the rollup: an identity's best score, `none` if it has no links. -/
def identityStatus (identityId : Nat) : Option Nat :=
  ((state.identityBlobs.filter fun link => link.identityId = identityId).filterMap
    state.linkState).max?

/-! ## Resolving claims -/

/-- The blobs linked to an identity on a real digest. -/
def strongBlobs (identityId : Nat) : List BlobRow :=
  (state.identityBlobs.filter fun link => link.identityId = identityId ∧ 1 ≤ link.basis).filterMap
    fun link => state.index.blobById link.blobId

/-- The columns `MIN(b.hash)` and `MAX(b.size)` over those blobs, for an identity that
scores as held. Addresses are compared as their bytes are; an unknown size is no candidate,
and the size is 0 if there is none. -/
def resolve (identityId : Nat) : Option (Blake3 × Nat) := do
  guard (state.identityStatus identityId = some 4)
  let blobs := state.strongBlobs identityId
  let least ← blobs.argmin fun blob => blob.hash.toNat
  return (least.hash, (blobs.filterMap BlobRow.size).max?.getD 0)

/-- A claim with its entry and what its identity resolves to. -/
structure HeldClaim where
  entry : Entry
  claim : RomClaim
  identityId : Nat
  hash : Blake3
  size : Nat
  deriving DecidableEq

/-- The query's row for a claim, if the joins and the conditions leave one. -/
def heldClaim (revision : Nat) (claim : RomClaim) : Option HeldClaim := do
  let entry ← state.entries.find? fun entry => entry.entryId = claim.entryId
  guard (entry.revisionId = revision ∧ claim.status ≠ 2 ∧ !claim.isOptional)
  let identityId ← claim.identityId
  let (hash, size) ← state.resolve identityId
  return ⟨entry, claim, identityId, hash, size⟩

/-- `ORDER BY e.name, rc.name`. -/
def byNames (a b : HeldClaim) : Prop :=
  a.entry.name < b.entry.name ∨ (a.entry.name = b.entry.name ∧ ¬ b.claim.name < a.claim.name)

instance : DecidableRel byNames := fun _ _ => inferInstanceAs (Decidable (_ ∨ _))

def heldClaims (revision : Nat) : List HeldClaim :=
  (state.claims.filterMap (state.heldClaim revision)).insertionSort byNames

/-- The picks of a plain view. -/
def picks (revision : Nat) : List Picked :=
  (state.heldClaims revision).map fun held =>
    ⟨held.entry.entryId, held.entry.name, held.claim.name, held.identityId, held.hash, held.size⟩

end CatalogState

/-! ## Merge-mode sets -/

inductive MameMode where
  | nonMerged
  | split
  | merged
  deriving DecidableEq, Repr

/-- Why merge-mode rendering gives up. -/
inductive MameFault where
  | notListxml (revision : Nat)
  | chainTooDeep (entry : Text)
  deriving DecidableEq

inductive CatalogError where
  | mame (fault : MameFault)
  | corrupt (what : String)
  | panicked
  deriving DecidableEq

/-- Keep the first of the elements with each key, but none whose key is in `seen`. -/
def keepFirst {α κ : Type} [DecidableEq κ] (key : α → κ) : List κ → List α → List α
  | _, [] => []
  | seen, a :: rest =>
    if key a ∈ seen then keepFirst key seen rest else a :: keepFirst key (key a :: seen) rest

open CatalogState (HeldClaim)

/-- Disks are named without their extension in dats. -/
def HeldClaim.fileName (held : HeldClaim) : Text :=
  if held.claim.kind = .disk ∧ ¬ ".chd".toList.isSuffixOf (held.claim.name.map Char.toLower) then
    held.claim.name ++ ".chd".toList
  else held.claim.name

/-- The rows of one set: each name with each content once. -/
def emit (anchor : Nat) (setName : Text) (claims : List HeldClaim) : List Picked :=
  (keepFirst (fun held => (HeldClaim.fileName held, held.hash)) [] claims).map fun held =>
    ⟨anchor, setName, HeldClaim.fileName held, held.identityId, held.hash, held.size⟩

/-- The entry a name stands for: the last one read, if names repeat. -/
def entryByName (entries : List Entry) (name : Text) : Option Entry :=
  entries.reverse.find? fun entry => entry.name = name

/-- The worklist of the device closure: the claims it gathers and the references that no
entry answers. -/
def closureLoop (entries : List Entry) (held : Nat → List HeldClaim) :
    Nat → List Nat → List Text → List HeldClaim × Nat
  | 0, _, _ => ([], 0)
  | _ + 1, _, [] => ([], 0)
  | fuel + 1, visited, name :: queue =>
    match entryByName entries name with
    | none =>
      let (claims, dangling) := closureLoop entries held fuel visited queue
      (claims, dangling + 1)
    | some entry =>
      if entry.entryId ∈ visited then closureLoop entries held fuel visited queue
      else
        let (claims, dangling) := closureLoop entries held fuel (entry.entryId :: visited)
          ((entry.deviceRefs.getD []).reverse ++ queue)
        (held entry.entryId ++ claims, dangling)

/-- The claims of the devices an entry refers to, directly or not. Each entry is expanded
at most once, so the references of all entries bound the work. -/
def closureClaims (entries : List Entry) (held : Nat → List HeldClaim) (start : Entry) :
    List HeldClaim × Nat :=
  let refs := start.deviceRefs.getD []
  closureLoop entries held
    (refs.length + (entries.map fun entry => (entry.deviceRefs.getD []).length).sum + 1)
    [] refs.reverse

/-- The top of an entry's cloneof chain; `none` after too many hops. -/
def topOf (entries : List Entry) : Nat → Nat → Option Nat
  | 0, top =>
    match (entries.find? fun entry => entry.entryId = top).bind Entry.cloneofId with
    | some _ => none
    | none => some top
  | hops + 1, top =>
    match (entries.find? fun entry => entry.entryId = top).bind Entry.cloneofId with
    | some parent => topOf entries hops parent
    | none => some top

structure MameRender where
  rows : List Picked := []
  danglingDeviceRefs : Nat := 0

/-- One entry's contribution to the sets. -/
def renderEntry (entries : List Entry) (held : Nat → List HeldClaim) (mode : MameMode)
    (entry : Entry) : Except CatalogError MameRender :=
  let own := held entry.entryId
  let unmerged := own.filter fun claim => claim.claim.mergeName.isNone
  match mode with
  | .nonMerged =>
    if entry.isDevice then .ok {}
    else
      let (devices, dangling) := closureClaims entries held entry
      .ok ⟨emit entry.entryId entry.name (own ++ devices), dangling⟩
  | .split => .ok ⟨emit entry.entryId entry.name unmerged, 0⟩
  | .merged =>
    if entry.isDevice ∨ entry.isBios then .ok ⟨emit entry.entryId entry.name unmerged, 0⟩
    else
      match topOf entries 32 entry.entryId with
      | none => .error (.mame (.chainTooDeep entry.name))
      | some top =>
        let topName := ((entries.find? fun entry => entry.entryId = top).map Entry.name).getD
          entry.name
        .ok ⟨emit top topName unmerged, 0⟩

/-- The sets of the entries in order. -/
def renderEntries (entries : List Entry) (held : Nat → List HeldClaim) (mode : MameMode) :
    List Entry → Except CatalogError MameRender
  | [] => .ok {}
  | entry :: rest => do
      let first ← renderEntry entries held mode entry
      let others ← renderEntries entries held mode rest
      return ⟨first.rows ++ others.rows, first.danglingDeviceRefs + others.danglingDeviceRefs⟩

namespace CatalogState

variable (state : CatalogState)

/-- The revision's held claims as merge-mode sets, by entry name. Entries of one name keep
the order of the table. -/
def renderSets (revision : Nat) (mode : MameMode) : Except CatalogError MameRender := do
  let entries := state.entries.filter fun entry => entry.revisionId = revision
  if entries.any fun entry => entry.deviceRefs.isNone then throw (.corrupt "entry attrs")
  let held := fun entryId => (state.heldClaims revision).filter fun held =>
    held.entry.entryId = entryId
  let render ← renderEntries entries held mode
    (entries.insertionSort fun a b => ¬ b.name < a.name)
  return { render with
    rows := keepFirst (fun row => (row.entry, row.claim, row.hash)) [] render.rows }

/-- The picks of a view over a revision. -/
def viewPicks (revision : Nat) : Option MameMode → Except CatalogError (List Picked)
  | none => .ok (state.picks revision)
  | some mode =>
    if state.format revision ≠ .mameListXml then
      .error (.mame (.notListxml revision))
    else (state.renderSets revision mode).map MameRender.rows

/-- Evaluate a view over the relinked catalog. -/
def evaluateView (view : ViewDef) (revision : Nat) (mode : Option MameMode) :
    Except CatalogError EvalReport := do
  let picks ← state.viewPicks revision mode
  match view.evaluate state.index picks with
  | none => throw .panicked
  | some report => return report

end CatalogState

end Datboi.Catalog
