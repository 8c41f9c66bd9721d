import Datboi.Core.Host

/-!
# The content-addressed store

Loose files by namespace and address, outboard sidecars beside them, and sealed
packs whose members resolve like data blobs. Publishing is atomic and the medium
does not fail, so an operation that errors leaves the store as it was.
-/

namespace Datboi

/-! ## Outboards -/

/-- Bytes covered by one chunk group. -/
def groupBytes : Nat := 16 * 1024

/-- Sidecar size for a blob of `len` bytes: one hash pair for each inner node of
the tree over its groups. -/
def outboardSize (len : Nat) : Nat := (max 1 ((len + groupBytes - 1) / groupBytes) - 1) * 64

inductive ObaoError where
  | io (error : IoError)
  | sidecarSize (actual expected len : Nat)
  | rangeInvalid (hash : Blake3) (start stop : Nat)
  deriving DecidableEq, Repr

namespace Obao

/-- Root and outboard of exactly `len` bytes of a stream. -/
def compute (host : Host) (reader : ByteStream) (len : Nat) : Except ObaoError (Blake3 × Bytes) :=
  if len ≤ reader.items.length then
    .ok (host.blake3 (reader.items.take len), host.outboard (reader.items.take len))
  else .error (.io (reader.failure.getD {}))

end Obao

/-! ## The store -/

inductive StoreError where
  | io (error : IoError)
  | obao (error : ObaoError)
  | hashMismatch (expected actual : Blake3)
  | missingOutboard
  | emptyPack
  | packMemberMismatch (expected actual : Blake3)
  | packFooter
  deriving DecidableEq, Repr

inductive PutOutcome where
  | stored
  | alreadyPresent
  deriving DecidableEq, Repr

/-- Where a packed member resolves: its pack, its window and its tree's window. -/
structure PackedLoc where
  pack : Blake3
  bytes : Bytes
  obao : Bytes
  deriving DecidableEq, Repr

structure Store where
  loose : Namespace → Blake3 → Option Bytes
  obaoFiles : Namespace → Blake3 → Option Bytes
  packs : Blake3 → Option PackedLoc
  packFiles : Blake3 → Option (List (Blake3 × Bytes))
  availableBytes : Option Nat := none

def Store.empty : Store where
  loose _ _ := none
  obaoFiles _ _ := none
  packs _ := none
  packFiles _ := none

namespace Store

def hasLoose (store : Store) (ns : Namespace) (hash : Blake3) : Bool :=
  (store.loose ns hash).isSome

def isPacked (store : Store) (hash : Blake3) : Bool := (store.packs hash).isSome

def packOf (store : Store) (hash : Blake3) : Option Blake3 := (store.packs hash).map PackedLoc.pack

/-- The bytes of a blob: loose files win, data blobs fall through to the packs. -/
def get (store : Store) (ns : Namespace) (hash : Blake3) : Option Bytes :=
  match store.loose ns hash with
  | some bytes => some bytes
  | none => if ns = .data then (store.packs hash).map PackedLoc.bytes else none

def has (store : Store) (ns : Namespace) (hash : Blake3) : Bool :=
  store.hasLoose ns hash || (ns = .data && store.isPacked hash)

def len (store : Store) (ns : Namespace) (hash : Blake3) : Option Nat :=
  (store.get ns hash).map List.length

theorem has_eq_isSome_get (store : Store) (ns : Namespace) (hash : Blake3) :
    store.has ns hash = (store.get ns hash).isSome := by
  unfold has hasLoose isPacked get
  cases store.loose ns hash with
  | some bytes => simp
  | none => by_cases hns : ns = .data <;> simp [hns]

/-- Publish a loose file. -/
def setLoose (store : Store) (ns : Namespace) (hash : Blake3) (file : Option Bytes) : Store :=
  { store with loose := fun ns' hash' =>
      if ns' = ns ∧ hash' = hash then file else store.loose ns' hash' }

def setObao (store : Store) (ns : Namespace) (hash : Blake3) (file : Option Bytes) : Store :=
  { store with obaoFiles := fun ns' hash' =>
      if ns' = ns ∧ hash' = hash then file else store.obaoFiles ns' hash' }

/-! ## Puts -/

/-- Publish the bytes under their address, unless a loose file is already there. -/
def publish (store : Store) (ns : Namespace) (hash : Blake3) (bytes : Bytes) :
    PutOutcome × Store :=
  if store.hasLoose ns hash then (.alreadyPresent, store)
  else (.stored, store.setLoose ns hash (some bytes))

/-- Stream a reader into the store, verifying that it hashes to `expected`. -/
def put (store : Store) (host : Host) (ns : Namespace) (expected : Blake3) (reader : ByteStream) :
    Except StoreError (PutOutcome × Store) :=
  if store.hasLoose ns expected then .ok (.alreadyPresent, store)
  else
    match reader.failure with
    | some e => .error (.io e)
    | none =>
      if host.blake3 reader.items = expected then .ok (store.publish ns expected reader.items)
      else .error (.hashMismatch expected (host.blake3 reader.items))

/-- Stream a reader into the store under its computed address. -/
def putNew (store : Store) (host : Host) (ns : Namespace) (reader : ByteStream) :
    Except StoreError (Blake3 × Store) :=
  match reader.failure with
  | some e => .error (.io e)
  | none =>
    let hash := host.blake3 reader.items
    .ok (hash, (store.publish ns hash reader.items).2)

/-- Publish an outboard sidecar. Empty outboards are never written, and an existing
sidecar wins. -/
def putObao (store : Store) (ns : Namespace) (hash : Blake3) (sidecar : Bytes) : Store :=
  if sidecar = [] ∨ (store.obaoFiles ns hash).isSome then store
  else store.setObao ns hash (some sidecar)

/-- Materialize exactly `len` claimed bytes with their outboard. The reader is
always consumed and verified, also when the blob is already present; a short
stream, trailing bytes or a wrong root publish nothing. -/
def putWithObao (store : Store) (host : Host) (ns : Namespace) (expected : Blake3) (len : Nat)
    (reader : ByteStream) : Except StoreError (PutOutcome × Store) :=
  match Obao.compute host reader len with
  | .error e => .error (.obao e)
  | .ok (root, sidecar) =>
    let trailing : Except StoreError Bool :=
      if len < reader.items.length then .ok true
      else
        match reader.failure with
        | some e => .error (.io e)
        | none => .ok false
    match trailing with
    | .error e => .error e
    | .ok trailing =>
      if root ≠ expected ∨ trailing then .error (.hashMismatch expected root)
      else
        let (outcome, store) := store.publish ns expected (reader.items.take len)
        .ok (outcome, store.putObao ns expected sidecar)

/-- A blob's outboard: the loose sidecar first, then the pack's, then the empty one
of a small stored blob. -/
def getObao (store : Store) (ns : Namespace) (hash : Blake3) : Option Bytes :=
  match store.obaoFiles ns hash with
  | some sidecar => some sidecar
  | none =>
    match (if ns = .data then store.packs hash else none) with
    | some loc => some loc.obao
    | none =>
      match store.len ns hash with
      | some len => if outboardSize len = 0 then some [] else none
      | none => none

def hasObao (store : Store) (ns : Namespace) (hash : Blake3) : Bool :=
  (store.obaoFiles ns hash).isSome || (ns = .data && store.isPacked hash) ||
    (store.len ns hash).any (outboardSize · = 0)

/-- Compute and publish a blob's outboard from its stored bytes; `false` for absent
blobs. -/
def ensureObao (store : Store) (host : Host) (ns : Namespace) (hash : Blake3) :
    Except StoreError (Bool × Store) :=
  if (store.getObao ns hash).isSome then .ok (true, store)
  else
    match store.get ns hash with
    | none => .ok (false, store)
    | some bytes =>
      if host.blake3 bytes = hash then .ok (true, store.putObao ns hash (host.outboard bytes))
      else .error (.hashMismatch hash (host.blake3 bytes))

/-! ## Removal -/

/-- Remove a blob's loose literal, keeping its sidecar. -/
def evictLiteral (store : Store) (ns : Namespace) (hash : Blake3) : Store :=
  store.setLoose ns hash none

/-- Remove a blob's loose literal and its sidecar. -/
def removeBlob (store : Store) (ns : Namespace) (hash : Blake3) : Store :=
  (store.setObao ns hash none).evictLiteral ns hash

/-! ## Packs -/

/-- Check one declared member against its reader. -/
def packMember (host : Host) (hash : Blake3) (len : Nat) (reader : ByteStream) :
    Except StoreError (Blake3 × Bytes) :=
  match Obao.compute host reader len with
  | .error (.io e) => .error (.io e)
  | .error e => .error (.obao e)
  | .ok (root, _) =>
    match reader.failure with
    | some e => .error (.io e)
    | none =>
      if root = hash ∧ reader.items.length = len then .ok (hash, reader.items.take len)
      else .error (.packMemberMismatch hash root)

/-- Later members win, as repeated inserts into a map do. -/
def resolveMember (host : Host) (members : List (Blake3 × Bytes)) (hash : Blake3) :
    Option PackedLoc :=
  (members.reverse.find? fun member => member.1 = hash).map fun member =>
    ⟨host.packHash members, member.2, host.outboard member.2⟩

/-- Map the members of a sealed pack. -/
def sealPack (store : Store) (host : Host) (members : List (Blake3 × Bytes)) : Store :=
  { store with
    packs := fun hash => (resolveMember host members hash).or (store.packs hash)
    packFiles := fun pack => if pack = host.packHash members then some members
      else store.packFiles pack }

/-- Write one sealed pack from declared members and their readers; a member that
does not match aborts the whole pack. -/
def putPack (store : Store) (host : Host) (members : List (Blake3 × Nat × ByteStream)) :
    Except StoreError (Blake3 × Store) := do
  if members = [] then throw .emptyPack
  let sealed ← members.mapM fun (hash, len, reader) => packMember host hash len reader
  return (host.packHash sealed, store.sealPack host sealed)

/-- Forget the packed location of some members. -/
def unmapMembers (store : Store) (hashes : List Blake3) : Store :=
  { store with packs := fun hash => if hash ∈ hashes then none else store.packs hash }

def unlinkPack (store : Store) (pack : Blake3) : Store :=
  { store with packFiles := fun other => if other = pack then none else store.packFiles other }

/-- Rewrite a pack without the members in `drop`: nothing to drop is a no-op, a
pack without survivors is unlinked, otherwise the survivors move to a fresh pack. -/
def repack (store : Store) (host : Host) (pack : Blake3) (drop : List Blake3) :
    Except StoreError Store :=
  match store.packFiles pack with
  | none => .error .packFooter
  | some members =>
    let survivors := members.filter fun member => member.1 ∉ drop
    let dropped := (members.filter fun member => member.1 ∈ drop).map Prod.fst
    if dropped = [] then .ok store
    else if survivors = [] then .ok ((store.unmapMembers (members.map Prod.fst)).unlinkPack pack)
    else do
      let (newPack, store) ← store.putPack host
        (survivors.map fun member => (member.1, member.2.length, ⟨member.2, none⟩))
      let store := store.unmapMembers dropped
      return if newPack = pack then store else store.unlinkPack pack

/-! ## Which blobs an operation touches -/

section Has

variable {store store' : Store} {host : Host} {ns ns' : Namespace} {hash other : Blake3}

theorem has_data : store.has .data hash = (store.hasLoose .data hash || store.isPacked hash) := by
  simp [has]

theorem get_metadata : store.get .metadata hash = store.loose .metadata hash := by
  cases hloose : store.loose .metadata hash <;> simp [get, hloose]

@[simp] theorem hasLoose_setLoose (file : Option Bytes) :
    (store.setLoose ns hash file).hasLoose ns' other =
      if ns' = ns ∧ other = hash then file.isSome else store.hasLoose ns' other := by
  simp only [hasLoose, setLoose]
  split <;> rfl

@[simp] theorem isPacked_setLoose (file : Option Bytes) :
    (store.setLoose ns hash file).isPacked other = store.isPacked other := rfl

@[simp] theorem loose_metadata_setLoose_data (file : Option Bytes) :
    (store.setLoose .data hash file).loose .metadata other = store.loose .metadata other := by
  simp [setLoose]

@[simp] theorem hasLoose_unmapMembers (hashes : List Blake3) :
    (store.unmapMembers hashes).hasLoose ns hash = store.hasLoose ns hash := rfl

@[simp] theorem isPacked_unmapMembers (hashes : List Blake3) :
    (store.unmapMembers hashes).isPacked hash = (decide (hash ∉ hashes) && store.isPacked hash) := by
  simp only [isPacked, unmapMembers]
  split <;> simp_all

@[simp] theorem loose_unmapMembers (hashes : List Blake3) :
    (store.unmapMembers hashes).loose = store.loose := rfl

@[simp] theorem isPacked_sealPack (members : List (Blake3 × Bytes)) :
    (store.sealPack host members).isPacked hash =
      (decide (hash ∈ members.map Prod.fst) || store.isPacked hash) := by
  simp only [isPacked, sealPack, resolveMember, Option.isSome_or, Option.isSome_map]
  congr 1
  rw [Bool.eq_iff_iff, List.find?_isSome]
  simp

@[simp] theorem loose_sealPack (members : List (Blake3 × Bytes)) :
    (store.sealPack host members).loose = store.loose := rfl

@[simp] theorem isPacked_unlinkPack (pack : Blake3) :
    (store.unlinkPack pack).isPacked hash = store.isPacked hash := rfl

/-- Same blobs in the same places; only sidecars may differ. -/
structure SameBlobs (store store' : Store) : Prop where
  loose : store'.loose = store.loose
  packs : store'.packs = store.packs
  packFiles : store'.packFiles = store.packFiles

theorem SameBlobs.refl (store : Store) : store.SameBlobs store := ⟨rfl, rfl, rfl⟩

theorem SameBlobs.get (hsame : store.SameBlobs store') (ns : Namespace) (hash : Blake3) :
    store'.get ns hash = store.get ns hash := by
  simp only [Store.get, hsame.loose, hsame.packs]

theorem sameBlobs_putObao (sidecar : Bytes) : store.SameBlobs (store.putObao ns hash sidecar) := by
  unfold putObao
  split
  · exact SameBlobs.refl store
  · exact ⟨rfl, rfl, rfl⟩

theorem sameBlobs_ensureObao {built : Bool}
    (hrun : store.ensureObao host ns hash = .ok (built, store')) : store.SameBlobs store' := by
  unfold ensureObao at hrun
  split at hrun
  · cases hrun
    exact SameBlobs.refl store
  · split at hrun
    · cases hrun
      exact SameBlobs.refl store
    · split at hrun
      · cases hrun
        exact sameBlobs_putObao _
      · cases hrun

theorem has_evictLiteral_data :
    (store.evictLiteral .data hash).has .data other =
      ((decide (other ≠ hash) && store.hasLoose .data other) || store.isPacked other) := by
  rw [has_data, evictLiteral, hasLoose_setLoose, isPacked_setLoose]
  by_cases heq : other = hash <;> simp [heq]

theorem has_removeBlob_data :
    (store.removeBlob .data hash).has .data other =
      ((decide (other ≠ hash) && store.hasLoose .data other) || store.isPacked other) := by
  rw [removeBlob, has_evictLiteral_data]
  rfl

/-- A blob's pack entry is real: the pack lists the blob, and every member that it
lists resolves. -/
def PackEntryReal (store : Store) (hash : Blake3) : Prop :=
  ∀ pack, store.packOf hash = some pack → ∃ members, store.packFiles pack = some members ∧
    hash ∈ members.map Prod.fst ∧ ∀ member ∈ members, store.isPacked member.1 = true

theorem packMember_fst {len : Nat} {reader : ByteStream} {member : Blake3 × Bytes}
    (hrun : packMember host hash len reader = .ok member) : member.1 = hash := by
  unfold packMember at hrun
  split at hrun
  · cases hrun
  · cases hrun
  · split at hrun
    · cases hrun
    · split at hrun <;> cases hrun
      rfl

theorem mapM_packMember_fst {members : List (Blake3 × Nat × ByteStream)}
    {sealed : List (Blake3 × Bytes)}
    (hrun : (members.mapM fun member => packMember host member.1 member.2.1 member.2.2) =
      .ok sealed) : sealed.map Prod.fst = members.map Prod.fst := by
  induction members generalizing sealed with
  | nil =>
    cases hrun
    rfl
  | cons member rest ih =>
    rw [List.mapM_cons] at hrun
    cases hmember : packMember host member.1 member.2.1 member.2.2 with
    | error e =>
      rw [hmember] at hrun
      cases hrun
    | ok first =>
      rw [hmember] at hrun
      cases hrest : rest.mapM fun member => packMember host member.1 member.2.1 member.2.2 with
      | error e =>
        rw [hrest] at hrun
        cases hrun
      | ok others =>
        rw [hrest] at hrun
        cases hrun
        rw [List.map_cons, List.map_cons, ih hrest, packMember_fst hmember]

/-- A written pack maps exactly its declared members. -/
theorem putPack_eq_ok {members : List (Blake3 × Nat × ByteStream)} {pack : Blake3}
    (hrun : store.putPack host members = .ok (pack, store')) :
    members ≠ [] ∧ store'.loose = store.loose ∧
      ∀ other, store'.isPacked other =
        (decide (other ∈ members.map Prod.fst) || store.isPacked other) := by
  unfold putPack at hrun
  by_cases hempty : members = []
  · rw [if_pos hempty] at hrun
    cases hrun
  · rw [if_neg hempty] at hrun
    cases hsealed : members.mapM fun member => packMember host member.1 member.2.1 member.2.2 with
    | error e =>
      simp only [hsealed] at hrun
      cases hrun
    | ok sealed =>
      simp only [hsealed] at hrun
      cases hrun
      refine ⟨hempty, rfl, fun other => ?_⟩
      rw [isPacked_sealPack, mapM_packMember_fst hsealed]

/-- Rewriting the pack of one blob without it loses that blob and no other. -/
theorem repack_eq_ok {pack : Blake3} (hpack : store.packOf hash = some pack)
    (hreal : store.PackEntryReal hash) (hrun : store.repack host pack [hash] = .ok store') :
    store'.loose = store.loose ∧
      ∀ other, store'.isPacked other = (decide (other ≠ hash) && store.isPacked other) := by
  obtain ⟨members, hfile, hlisted, hmapped⟩ := hreal pack hpack
  have hdropped : ((members.filter fun member => member.1 ∈ [hash]).map Prod.fst) ≠ [] := by
    obtain ⟨member, hmember, rfl⟩ := List.mem_map.mp hlisted
    exact List.ne_nil_of_mem (List.mem_map_of_mem (List.mem_filter.mpr ⟨hmember, by simp⟩))
  simp only [repack, hfile, if_neg hdropped] at hrun
  split at hrun
  · rename_i hsurvivors
    cases hrun
    refine ⟨rfl, fun other => ?_⟩
    have honly : other ∈ members.map Prod.fst ↔ other = hash := by
      constructor
      · intro hother
        obtain ⟨member, hmember, rfl⟩ := List.mem_map.mp hother
        by_contra hne
        exact List.filter_eq_nil_iff.mp hsurvivors member hmember (by simpa using hne)
      · rintro rfl
        exact hlisted
    simp only [isPacked_unlinkPack, isPacked_unmapMembers, honly]
  · cases hput : store.putPack host ((members.filter fun member => member.1 ∉ [hash]).map
        fun member => (member.1, member.2.length, ⟨member.2, none⟩)) with
    | error e =>
      rw [hput] at hrun
      cases hrun
    | ok written =>
      obtain ⟨newPack, store''⟩ := written
      obtain ⟨_, hloose, hpacked⟩ := putPack_eq_ok hput
      rw [hput] at hrun
      cases hrun
      have hkept : ∀ other, (store''.unmapMembers ((members.filter fun member =>
          member.1 ∈ [hash]).map Prod.fst)).isPacked other =
            (decide (other ≠ hash) && store.isPacked other) := by
        intro other
        by_cases heq : other = hash
        · subst heq
          obtain ⟨bytes, hmember⟩ : ∃ bytes, (other, bytes) ∈ members := by simpa using hlisted
          simpa using fun hnone => absurd hmember (hnone bytes)
        · have hsurvivor : other ∈ members.map Prod.fst → store.isPacked other = true := by
            intro hother
            obtain ⟨member, hmember, rfl⟩ := List.mem_map.mp hother
            exact hmapped member hmember
          rw [isPacked_unmapMembers, hpacked]
          cases hbefore : store.isPacked other <;> simp_all
      split
      · exact ⟨hloose, hkept⟩
      · exact ⟨hloose, hkept⟩

end Has

end Store

end Datboi
