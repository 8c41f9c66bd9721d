import Datboi.Core.Alias
import Datboi.Store.Store

/-!
# Hashing the members of a zip container

A member of a container is hashed where it stands, when the container stays, or stored, when it
is unpacked. There are three loops for it: one that only hashes, one that builds the outboard in
the same pass, and the store's own. Each reads one byte more than the directory declares, to see
that there is none.
-/

namespace Datboi.Ingest

inductive Method where
  | stored
  | deflate
  deriving DecidableEq, Repr

/-- Where a member's data lies in its container, and how long the directory says it is. -/
structure Member where
  method : Method
  compSize : Nat
  uncompSize : Nat
  dataStart : Nat
  deriving DecidableEq, Repr

/-- Why a member gives no claim. -/
inductive MemberError where
  | seek (source : IoError)
  | unreadable (source : IoError)
  | unreadableTree (source : ObaoError)
  | bombShaped (declared : Nat)
  | sizeMismatch (declared counted : Nat)
  | rootDisagrees (root blake3 : Blake3)
  | store (source : StoreError)
  deriving DecidableEq, Repr

/-- Deflate cannot expand by more. -/
def maxDeflateExpansion : Nat := 1032

/-- Saturating 64-bit arithmetic. -/
def saturate (n : Nat) : Nat := min (2 ^ 64 - 1) n

/-- Does this member's route need an outboard that is built here? -/
def blessesAtIngest (member : Member) : Bool :=
  member.method = .deflate ∧ 0 < outboardSize member.uncompSize ∧
    member.uncompSize ≤ saturate (saturate (member.compSize * maxDeflateExpansion) + groupBytes)

/-- One byte more than declared. -/
def cap (member : Member) : Nat := saturate (member.uncompSize + 1)

/-- What reading a container in sequence from an offset gives. -/
abbrev Container := Nat → Except IoError ByteStream

/-- The window of the member's data. -/
def openWindow (blob : Container) (member : Member) : Except MemberError ByteStream :=
  match blob member.dataStart with
  | .error e => .error (.seek e)
  | .ok stream => .ok (stream.take member.compSize)

variable (host : Host) (digests : Digests)

/-- The member's bytes, up to one more than declared. -/
def memberReader (window : ByteStream) (member : Member) : ByteStream :=
  match member.method with
  | .stored => window.take (cap member)
  | .deflate => (host.inflate window).take (cap member)

/-- Read to the end into a hasher. -/
def streamInto (reader : ByteStream) (hasher : AliasHasher) :
    Except IoError (Nat × AliasHasher) :=
  match reader.failure with
  | some e => .error e
  | none => .ok (reader.items.length, hasher.update reader.items)

/-- Hash a member and build its outboard in the same pass. -/
def hashAndBlessMember (reader : ByteStream) (member : Member) (hasher : AliasHasher) :
    Except MemberError (AliasTuple × Option Bytes) :=
  let counted := min member.uncompSize reader.items.length
  match Obao.compute host reader member.uncompSize with
  | .error e =>
    if counted < member.uncompSize then .error (.sizeMismatch member.uncompSize counted)
    else .error (.unreadableTree e)
  | .ok (root, sidecar) =>
    if member.uncompSize < reader.items.length then .error (.bombShaped member.uncompSize)
    else
      match reader.failure with
      | some e => .error (.unreadable e)
      | none =>
        let tuple := (hasher.update (reader.items.take member.uncompSize)).finalize host digests
        if root ≠ tuple.blake3 then .error (.rootDisagrees root tuple.blake3)
        else .ok (tuple, some sidecar)

/-- Hash one member by streaming out of the stored container. -/
def hashMember (blob : Container) (member : Member) :
    Except MemberError (AliasTuple × Option Bytes) := do
  let window ← openWindow blob member
  if blessesAtIngest member then
    hashAndBlessMember host digests ((host.inflate window).take (cap member)) member {}
  else
    match streamInto (memberReader host window member) {} with
    | .error e => .error (.unreadable e)
    | .ok (counted, hasher) =>
      if member.uncompSize < counted then .error (.bombShaped member.uncompSize)
      else if counted ≠ member.uncompSize then
        .error (.sizeMismatch member.uncompSize counted)
      else .ok (hasher.finalize host digests, none)

/-- One member, streamed out of the container and into the store. What was published stays
published when the size turns out wrong. -/
def storeZipMember (blob : Container) (member : Member) (store : Store) :
    Except MemberError AliasTuple × Store :=
  match openWindow blob member with
  | .error e => (.error e, store)
  | .ok window =>
    let reader := memberReader host window member
    match store.putNew host .data reader with
    | .error (.io e) => (.error (.unreadable e), store)
    | .error e => (.error (.store e), store)
    | .ok (hash, store) =>
      let aliases := (AliasHasher.update {} reader.items).finalize host digests
      if member.uncompSize < aliases.size.toNat then
        (.error (.bombShaped member.uncompSize), store)
      else if aliases.size.toNat ≠ member.uncompSize then
        (.error (.sizeMismatch member.uncompSize aliases.size.toNat), store)
      else
        match store.ensureObao host .data hash with
        | .error e => (.error (.store e), store)
        | .ok (_, store) => (.ok aliases, store)

/-! ## What each path accepts -/

/-- The reader ends where the directory says, without a failure. -/
def DeliversMember (reader : ByteStream) (member : Member) : Prop :=
  reader.failure = none ∧ reader.items.length = member.uncompSize

/-- The aliases of some bytes. -/
def aliasesOf (bytes : Bytes) : AliasTuple := (AliasHasher.mk bytes).finalize host digests

variable {host digests}
variable {reader : ByteStream} {member : Member} {tuple : AliasTuple}

theorem finalize_update (bytes : Bytes) :
    (AliasHasher.update {} bytes).finalize host digests = aliasesOf host digests bytes := by
  rw [aliasesOf, AliasHasher.update, List.nil_append]

theorem hashAndBlessMember_iff :
    (∃ sidecar, hashAndBlessMember host digests reader member {} = .ok (tuple, sidecar)) ↔
      DeliversMember reader member ∧ tuple = aliasesOf host digests reader.items := by
  unfold hashAndBlessMember Obao.compute DeliversMember
  by_cases hlong : member.uncompSize ≤ reader.items.length
  · simp only [if_pos hlong]
    by_cases hextra : member.uncompSize < reader.items.length
    · simp only [if_pos hextra, reduceCtorEq, exists_false, false_iff]
      omega
    · have hlength : reader.items.length = member.uncompSize := by omega
      have hall : reader.items.take member.uncompSize = reader.items := by
        rw [← hlength, List.take_length]
      simp only [if_neg hextra, hall]
      cases reader.failure with
      | some e => simp
      | none =>
        -- The root and the hasher's own digest are computed from the same bytes.
        have hroot : host.blake3 reader.items =
            (aliasesOf host digests reader.items).blake3 := rfl
        simp only [finalize_update]
        rw [if_neg (not_not.mpr hroot)]
        simp only [Except.ok.injEq, Prod.mk.injEq, true_and]
        constructor
        · rintro ⟨_, rfl, _⟩
          exact ⟨hlength, rfl⟩
        · rintro ⟨_, rfl⟩
          exact ⟨_, rfl, rfl⟩
  · have hshort : min member.uncompSize reader.items.length < member.uncompSize := by omega
    simp only [if_neg hlong, if_pos hshort, reduceCtorEq, exists_false, false_iff]
    omega

variable {blob : Container} {store : Store}

theorem hashMember_iff {window : ByteStream} (hwindow : openWindow blob member = .ok window) :
    (∃ sidecar, hashMember host digests blob member = .ok (tuple, sidecar)) ↔
      DeliversMember (memberReader host window member) member ∧
        tuple = aliasesOf host digests (memberReader host window member).items := by
  unfold hashMember
  rw [hwindow, Decoding.ok_bind]
  split
  · rename_i hbless
    have hmethod : member.method = .deflate := (of_decide_eq_true hbless).1
    have hreader : memberReader host window member = (host.inflate window).take (cap member) := by
      rw [memberReader, hmethod]
    rw [hreader]
    exact hashAndBlessMember_iff
  · generalize memberReader host window member = reader
    unfold streamInto DeliversMember
    cases reader.failure with
    | some e => simp
    | none =>
      simp only [true_and]
      by_cases hextra : member.uncompSize < reader.items.length
      · simp only [if_pos hextra, reduceCtorEq, exists_false, false_iff]
        omega
      · by_cases hlength : reader.items.length = member.uncompSize
        · simp only [if_neg hextra, if_neg (not_not.mpr hlength), finalize_update,
            Except.ok.injEq, Prod.mk.injEq]
          constructor
          · rintro ⟨_, rfl, _⟩
            exact ⟨hlength, rfl⟩
          · rintro ⟨_, rfl⟩
            exact ⟨_, rfl, rfl⟩
        · simp only [if_neg hextra, if_pos hlength, reduceCtorEq, exists_false, false_iff]
          omega

/-- Every data blob of the store hashes to its key. -/
def Intact (host : Host) (store : Store) : Prop :=
  ∀ hash bytes, store.get .data hash = some bytes → host.blake3 bytes = hash

theorem length_memberReader_lt (window : ByteStream) (member : Member) :
    (memberReader host window member).items.length < 2 ^ 64 := by
  have hcap : cap member ≤ 2 ^ 64 - 1 := Nat.min_le_left _ _
  have htake : ∀ stream : ByteStream, (stream.take (cap member)).items.length ≤ cap member :=
    fun stream => List.length_take_le _ _
  unfold memberReader
  split
  · have hle := htake window
    omega
  · have hle := htake (host.inflate window)
    omega

section

variable (hintact : Intact host store)

include hintact

/-- Publishing bytes under their own address keeps the store intact. -/
theorem Intact.publish (bytes : Bytes) :
    Intact host (store.publish .data (host.blake3 bytes) bytes).2 := by
  intro hash found hfound
  unfold Store.publish at hfound
  split at hfound
  · exact hintact hash found hfound
  · unfold Store.get Store.setLoose at hfound
    simp only at hfound
    by_cases heq : hash = host.blake3 bytes
    · rw [if_pos ⟨trivial, heq⟩] at hfound
      cases hfound
      exact heq.symm
    · rw [if_neg fun hboth => heq hboth.2] at hfound
      exact hintact hash found hfound

/-- The store builds a tree for what it holds, if that is what its key says. -/
theorem Intact.ensureObao (hash : Blake3) :
    ∃ built store', store.ensureObao host .data hash = .ok (built, store') := by
  unfold Store.ensureObao
  split
  · exact ⟨_, _, rfl⟩
  · cases hget : store.get .data hash with
    | none => exact ⟨_, _, rfl⟩
    | some bytes =>
      simp only [if_pos (hintact hash bytes hget)]
      exact ⟨_, _, rfl⟩

theorem storeZipMember_iff {window : ByteStream} (hwindow : openWindow blob member = .ok window) :
    (storeZipMember host digests blob member store).1 = .ok tuple ↔
      DeliversMember (memberReader host window member) member ∧
        tuple = aliasesOf host digests (memberReader host window member).items := by
  have hbound := @length_memberReader_lt host window member
  unfold storeZipMember
  simp only [hwindow]
  generalize memberReader host window member = reader at hbound ⊢
  unfold DeliversMember Store.putNew
  cases reader.failure with
  | some e => simp
  | none =>
    have hsize : (aliasesOf host digests reader.items).size.toNat = reader.items.length := by
      rw [aliasesOf, AliasHasher.finalize, UInt64.toNat_ofNat', Nat.mod_eq_of_lt hbound]
    obtain ⟨built, store', hobao⟩ :=
      (hintact.publish reader.items).ensureObao (host.blake3 reader.items)
    simp only [finalize_update, hsize, true_and, hobao]
    by_cases hextra : member.uncompSize < reader.items.length
    · simp only [if_pos hextra, reduceCtorEq, false_iff]
      omega
    · by_cases hlength : reader.items.length = member.uncompSize
      · simp only [if_neg hextra, if_neg (not_not.mpr hlength), Except.ok.injEq]
        constructor
        · rintro rfl
          exact ⟨hlength, rfl⟩
        · rintro ⟨_, rfl⟩
          rfl
      · simp only [if_neg hextra, if_pos hlength, reduceCtorEq, false_iff]
        omega

/-- The unpacker keeps the store intact. -/
theorem storeZipMember_intact : Intact host (storeZipMember host digests blob member store).2 := by
  unfold storeZipMember
  split
  · exact hintact
  · rename_i window _
    simp only
    generalize memberReader host window member = reader
    unfold Store.putNew
    cases reader.failure with
    | some e => exact hintact
    | none =>
      have hpublished := hintact.publish reader.items
      simp only
      split_ifs
      · exact hpublished
      · exact hpublished
      · obtain ⟨built, store', hobao⟩ := hpublished.ensureObao (host.blake3 reader.items)
        rw [hobao]
        have hsame := Store.sameBlobs_ensureObao hobao
        intro hash bytes hget
        refine hpublished hash bytes ?_
        rw [← hget]
        exact (hsame.get .data hash).symm

end

/-- The three paths accept the same members of a container, with the same identity, size and
digests: those of the bytes that its reader yields. -/
theorem memberPaths_agree (host : Host) (digests : Digests) (store : Store)
    (hintact : Intact host store) (blob : Container) (member : Member) (tuple : AliasTuple) :
    ((∃ sidecar, hashMember host digests blob member = .ok (tuple, sidecar)) ↔
      (storeZipMember host digests blob member store).1 = .ok tuple) ∧
    ∀ window, openWindow blob member = .ok window →
      ((∃ sidecar, hashAndBlessMember host digests (memberReader host window member) member {} =
          .ok (tuple, sidecar)) ↔
        ∃ sidecar, hashMember host digests blob member = .ok (tuple, sidecar)) := by
  cases hwindow : openWindow blob member with
  | error e =>
    refine ⟨?_, fun _ hopen => (by cases hopen)⟩
    simp [hashMember, storeZipMember, hwindow, Bind.bind, Except.bind]
  | ok window =>
    rw [hashMember_iff hwindow, storeZipMember_iff hintact hwindow]
    refine ⟨Iff.rfl, fun window' hopen => ?_⟩
    cases hopen
    exact hashAndBlessMember_iff

/-- A stored member of one byte, over an empty store. -/
theorem memberPaths_agree_seven :
    (storeZipMember Host.sample .blank (fun _ => .ok ⟨[7], none⟩) ⟨.stored, 1, 1, 0⟩ .empty).1 =
      .ok (aliasesOf Host.sample .blank [7]) := by
  have hintact : Intact Host.sample .empty := fun _ _ hget => (by cases hget)
  refine ((memberPaths_agree Host.sample .blank .empty hintact (fun _ => .ok ⟨[7], none⟩)
    ⟨.stored, 1, 1, 0⟩ (aliasesOf Host.sample .blank [7])).1).mp ⟨none, rfl⟩

end Datboi.Ingest
