import Datboi.Store.Effects

/-!
# Integrity of the store under failures

Every loose file and every pack file is named by its digest, and every entry of the pack map
points at a member of a pack that is there. Each effect keeps this, so it holds along every run
with failures anywhere. What a failed operation leaves behind is judged by the invariant alone:
a key that still has a file or an entry resolves to the bytes it had.
-/

namespace Datboi.StoreFs

open Moves (final)

/-- No call fails. -/
def noFaults : Faults := fun _ => none

variable {host : Host} {s s' : Files} {faults : Faults}

/-! ## The invariant -/

structure Sound (host : Host) (s : Files) : Prop where
  blob : ∀ ns hash bytes, s.disk (.blob ns hash) = some bytes → host.blake3 bytes = hash
  pack : ∀ pack file, s.disk (.pack pack) = some file → host.blake3 file = pack ∧
    ∃ blobs, file = packBytes host blobs ∧ PackFits host blobs
  mapped : ∀ hash loc, s.packs hash = some loc → ∃ members entry,
    Lists host s loc.pack members ∧ entry ∈ members ∧ entry.hash = hash ∧
      loc = entry.loc loc.pack

theorem sound_empty : Sound host Files.empty := ⟨nofun, nofun, nofun⟩

/-- The byte strings that the store holds: loose files, pack files and pack members. -/
inductive Held (host : Host) (s : Files) : Bytes → Prop
  | blob {ns hash bytes} (hfile : s.disk (.blob ns hash) = some bytes) : Held host s bytes
  | pack {pack file} (hfile : s.disk (.pack pack) = some file) : Held host s file
  | member {pack file members entry} (hfile : s.disk (.pack pack) = some file)
      (hparse : parseFooter host file = .ok members) (hentry : entry ∈ members) :
      Held host s (Reader.slice file entry.offset entry.len)

/-- BLAKE3 has no collision between what is held before and after a step. -/
def NoCollision (host : Host) (s s' : Files) : Prop :=
  ∀ a b, Held host s a → Held host s' b → host.blake3 a = host.blake3 b → a = b

/-- A key with a loose file or a pack entry. -/
def Present (s : Files) (ns : Namespace) (hash : Blake3) : Prop :=
  s.disk (.blob ns hash) ≠ none ∨ ns = .data ∧ s.packs hash ≠ none

variable {blobs : List Bytes} {hash : Blake3} {loc : PackedLoc} {ns : Namespace} {bytes : Bytes}

theorem PackFits.parseFooter (hsized : OutboardSized host) (hfits : PackFits host blobs) :
    StoreFs.parseFooter host (packBytes host blobs) = .ok (packTable host blobs) := by
  have hlength := hfits.length
  unfold maxFileBytes at hlength
  exact parseFooter_packBytes hsized hfits.nonempty hfits.count (by omega)

theorem Lists.unique {pack : Blake3} {members members' : List MemberEntry}
    (hlists : Lists host s pack members) (hlists' : Lists host s pack members') :
    members = members' := by
  obtain ⟨file, hfile, hparse⟩ := hlists
  obtain ⟨file', hfile', hparse'⟩ := hlists'
  rw [hfile] at hfile'
  cases hfile'
  rw [hparse] at hparse'
  cases hparse'
  rfl

theorem Lists.congr {pack : Blake3} {members : List MemberEntry}
    (hdisk : s'.disk (.pack pack) = s.disk (.pack pack)) (hlists : Lists host s pack members) :
    Lists host s' pack members := by
  obtain ⟨file, hfile, hparse⟩ := hlists
  exact ⟨file, hdisk.trans hfile, hparse⟩

section

variable (hsized : OutboardSized host) (hsound : Sound host s)

include hsized hsound

/-- The footer of a pack in a sound store lists the pack's members. -/
theorem Sound.lists {pack : Blake3} {members : List MemberEntry}
    (hlists : Lists host s pack members) :
    ∃ blobs, s.disk (.pack pack) = some (packBytes host blobs) ∧
      members = packTable host blobs ∧ PackFits host blobs := by
  obtain ⟨file, hfile, hparse⟩ := hlists
  obtain ⟨_, blobs, rfl, hfits⟩ := hsound.pack pack file hfile
  rw [hfits.parseFooter hsized] at hparse
  cases hparse
  exact ⟨blobs, hfile, rfl, hfits⟩

/-- The member that a pack entry points at. -/
theorem Sound.member (hloc : s.packs hash = some loc) :
    ∃ file blob, s.disk (.pack loc.pack) = some file ∧ host.blake3 blob = hash ∧
      loc.len = blob.length ∧ Reader.slice file loc.offset loc.len = blob ∧
      Reader.slice file loc.obaoOffset loc.obaoLen = host.outboard blob ∧ Held host s blob := by
  obtain ⟨_, entry, hlists, hentry, rfl, hentryLoc⟩ := hsound.mapped hash loc hloc
  obtain ⟨blobs, hfile, rfl, hfits⟩ := hsound.lists hsized hlists
  obtain ⟨blob, _, hhash, hlen, hwindow, htree⟩ := mem_packTable hsized hentry
  have hheld : Held host s blob := hwindow ▸ .member hfile (hfits.parseFooter hsized) hentry
  rw [hentryLoc]
  exact ⟨packBytes host blobs, blob, hfile, hhash.symm, hlen, hwindow, htree, hheld⟩

/-- Bytes that are read are the key's, whatever else fails. -/
theorem Sound.get_eq_ok (hget : s.get faults ns hash = .ok (some bytes)) :
    host.blake3 bytes = hash ∧ Held host s bytes := by
  unfold Files.get at hget
  split at hget
  · cases hget
  · rename_i hfile
    cases hget
    exact ⟨hsound.blob _ _ _ hfile, .blob hfile⟩
  · split at hget
    · cases hget
    · rename_i hloc
      split at hloc
      · obtain ⟨file, blob, hfile, hhash, _, hwindow, _, hheld⟩ := hsound.member hsized hloc
        rw [hfile] at hget
        split at hget
        · cases hget
        · rename_i hmissing
          cases hmissing
        · rename_i hthere
          cases hthere
          cases hget
          rw [hwindow]
          exact ⟨hhash, hheld⟩
      · cases hloc

/-- A key that is present can be read. -/
theorem Sound.get_of_present (hpresent : Present s ns hash) :
    ∃ bytes, s.get noFaults ns hash = .ok (some bytes) := by
  unfold Files.get noFaults
  cases hfile : s.disk (.blob ns hash) with
  | some bytes => exact ⟨bytes, rfl⟩
  | none =>
    rcases hpresent with hloose | ⟨rfl, hmapped⟩
    · exact absurd hfile hloose
    · obtain ⟨loc, hloc⟩ := Option.ne_none_iff_exists'.mp hmapped
      obtain ⟨file, _, hpack, _⟩ := hsound.member hsized hloc
      exact ⟨Reader.slice file loc.offset loc.len, by simp [hloc, hpack]⟩

end

theorem present_of_get (hget : s.get faults ns hash = .ok (some bytes)) : Present s ns hash := by
  unfold Files.get at hget
  split at hget
  · cases hget
  · rename_i hfile
    exact Or.inl (by simp [hfile])
  · split at hget
    · cases hget
    · rename_i hloc
      split at hloc
      · rename_i hns
        exact Or.inr ⟨hns, by simp [hloc]⟩
      · cases hloc

theorem present_of_has (hhas : s.has faults ns hash = true) : Present s ns hash := by
  simp only [Files.has, Bool.or_eq_true, Bool.and_eq_true, decide_eq_true_eq,
    Option.isSome_iff_ne_none] at hhas
  rcases hhas with ⟨_, hfile⟩ | ⟨hns, hmapped⟩
  · exact Or.inl hfile
  · exact Or.inr ⟨hns, hmapped⟩

/-- The length that is reported is that of the key's bytes. -/
theorem Sound.get_of_len (hsized : OutboardSized host) (hsound : Sound host s) {n : Nat}
    (hlen : s.len faults ns hash = .ok (some n)) :
    ∃ bytes, s.get noFaults ns hash = .ok (some bytes) ∧ bytes.length = n := by
  unfold Files.len at hlen
  split at hlen
  · cases hlen
  · rename_i bytes _ hfile
    cases hlen
    exact ⟨bytes, by simp [Files.get, noFaults, hfile], rfl⟩
  · rename_i hfile
    simp only [Except.ok.injEq, Option.map_eq_some_iff] at hlen
    obtain ⟨loc, hloc, rfl⟩ := hlen
    split at hloc
    · rename_i hns
      subst hns
      obtain ⟨file, blob, hpack, _, hlen, hwindow, _⟩ := hsound.member hsized hloc
      refine ⟨blob, ?_, hlen.symm⟩
      simp [Files.get, noFaults, hfile, hloc, hpack, hwindow]
    · cases hloc

/-- Between two sound states, a key that stays present keeps its bytes. -/
theorem Sound.get_unchanged (hsized : OutboardSized host) (hsound : Sound host s)
    (hsound' : Sound host s') (hcollision : NoCollision host s s')
    (hget : s.get noFaults ns hash = .ok (some bytes)) (hpresent : Present s' ns hash) :
    s'.get noFaults ns hash = .ok (some bytes) := by
  obtain ⟨bytes', hget'⟩ := hsound'.get_of_present hsized hpresent
  obtain ⟨hhash, hheld⟩ := hsound.get_eq_ok hsized hget
  obtain ⟨hhash', hheld'⟩ := hsound'.get_eq_ok hsized hget'
  rw [hcollision bytes bytes' hheld hheld' (hhash.trans hhash'.symm)]
  exact hget'

/-! ## Effects keep the invariant -/

theorem SameBlobs.sound (hsame : SameBlobs s s') (hsound : Sound host s) : Sound host s' where
  blob ns hash bytes hfile := hsound.blob ns hash bytes (hsame.blob ns hash ▸ hfile)
  pack pack file hfile := hsound.pack pack file (hsame.pack pack ▸ hfile)
  mapped hash loc hloc := by
    rw [hsame.packs] at hloc
    obtain ⟨members, entry, hlists, hentry⟩ := hsound.mapped hash loc hloc
    exact ⟨members, entry, hlists.congr (hsame.pack loc.pack), hentry⟩

theorem SameBlobs.present (hsame : SameBlobs s s') : Present s' ns hash ↔ Present s ns hash := by
  rw [Present, Present, hsame.blob, hsame.packs]

theorem Sound.setBlob (hsound : Sound host s) (ns : Namespace) (bytes : Bytes) :
    Sound host (s.setFile (.blob ns (host.blake3 bytes)) (some bytes)) where
  blob ns' hash bytes' hfile := by
    by_cases heq : Path.blob ns' hash = .blob ns (host.blake3 bytes)
    · rw [heq, Files.setFile_same] at hfile
      cases hfile
      cases heq
      rfl
    · rw [Files.setFile_ne heq] at hfile
      exact hsound.blob ns' hash bytes' hfile
  pack := hsound.pack
  mapped := hsound.mapped

theorem Sound.removeBlob (hsound : Sound host s) (ns : Namespace) (hash : Blake3) :
    Sound host (s.setFile (.blob ns hash) none) where
  blob ns' hash' bytes hfile := by
    by_cases heq : Path.blob ns' hash' = .blob ns hash
    · rw [heq, Files.setFile_same] at hfile
      cases hfile
    · rw [Files.setFile_ne heq] at hfile
      exact hsound.blob ns' hash' bytes hfile
  pack := hsound.pack
  mapped := hsound.mapped

/-- A pack file that is put in place replaces at most a copy of itself. -/
theorem Sound.withPack (hsound : Sound host s) (hfits : PackFits host blobs)
    (hcopy : ∀ file, s.disk (.pack (host.blake3 (packBytes host blobs))) = some file →
      file = packBytes host blobs) : Sound host (s.withPack host blobs) where
  blob := hsound.blob
  pack pack file hfile := by
    by_cases heq : Path.pack pack = .pack (host.blake3 (packBytes host blobs))
    · rw [heq, Files.withPack, Files.setFile_same] at hfile
      cases hfile
      cases heq
      exact ⟨rfl, blobs, rfl, hfits⟩
    · rw [Files.withPack, Files.setFile_ne heq] at hfile
      exact hsound.pack pack file hfile
  mapped hash loc hloc := by
    obtain ⟨members, entry, hlists, hentry⟩ := hsound.mapped hash loc hloc
    refine ⟨members, entry, ?_, hentry⟩
    by_cases heq : Path.pack loc.pack = .pack (host.blake3 (packBytes host blobs))
    · obtain ⟨file, hfile, hparse⟩ := hlists
      rw [heq] at hfile
      refine ⟨file, ?_, hparse⟩
      rw [heq, Files.withPack, Files.setFile_same, hcopy _ hfile]
    · exact hlists.congr (Files.setFile_ne heq _)

/-- The entry that a key has after a table was mapped. -/
theorem Files.packs_mapPack {pack : Blake3} {table : List MemberEntry} {hash : Blake3} :
    (hash ∈ table.map MemberEntry.hash ∧ ∃ entry ∈ table, entry.hash = hash ∧
        (s.mapPack pack table).packs hash = some (entry.loc pack)) ∨
      (hash ∉ table.map MemberEntry.hash ∧ (s.mapPack pack table).packs hash = s.packs hash) := by
  unfold Files.mapPack
  dsimp only
  cases hfind : table.reverse.find? fun entry => entry.hash = hash with
  | some entry =>
    have hentry := List.mem_reverse.mp (List.mem_of_find?_eq_some hfind)
    have hhash : entry.hash = hash := by simpa using List.find?_some hfind
    exact Or.inl ⟨hhash ▸ List.mem_map_of_mem hentry, entry, hentry, hhash, rfl⟩
  | none =>
    refine Or.inr ⟨?_, rfl⟩
    intro hmem
    obtain ⟨entry, hentry, hhash⟩ := List.mem_map.mp hmem
    rw [List.find?_eq_none] at hfind
    exact hfind entry (List.mem_reverse.mpr hentry) (by simpa using hhash)

theorem Sound.withMapped (hsized : OutboardSized host) (hsound : Sound host s)
    (hfits : PackFits host blobs)
    (hcopy : ∀ file, s.disk (.pack (host.blake3 (packBytes host blobs))) = some file →
      file = packBytes host blobs) : Sound host (s.withMapped host blobs) where
  blob := hsound.blob
  pack := (hsound.withPack hfits hcopy).pack
  mapped hash loc hloc := by
    rcases @Files.packs_mapPack (s.withPack host blobs) (host.blake3 (packBytes host blobs))
        (packTable host blobs) hash with ⟨_, entry, hentry, hhash, hnew⟩ | ⟨_, hold⟩
    · rw [Files.withMapped, hnew] at hloc
      cases hloc
      exact ⟨_, entry, ⟨_, Files.setFile_same _ _ _, hfits.parseFooter hsized⟩, hentry, hhash, rfl⟩
    · rw [Files.withMapped, hold] at hloc
      exact (hsound.withPack hfits hcopy).mapped hash loc hloc

theorem Files.packs_unmap {hashes : List Blake3} :
    (s.unmap hashes).packs hash = some loc ↔ hash ∉ hashes ∧ s.packs hash = some loc := by
  simp [Files.unmap]

theorem Sound.unmap (hsound : Sound host s) (hashes : List Blake3) :
    Sound host (s.unmap hashes) where
  blob := hsound.blob
  pack := hsound.pack
  mapped hash loc hloc := hsound.mapped hash loc (Files.packs_unmap.mp hloc).2

/-- A pack that no entry points at may be unlinked. -/
theorem Sound.unlink (hsound : Sound host s) {pack : Blake3}
    (hunused : ∀ hash loc, s.packs hash = some loc → loc.pack ≠ pack) :
    Sound host (s.setFile (.pack pack) none) where
  blob := hsound.blob
  pack pack' file hfile := by
    by_cases heq : Path.pack pack' = .pack pack
    · rw [heq, Files.setFile_same] at hfile
      cases hfile
    · rw [Files.setFile_ne heq] at hfile
      exact hsound.pack pack' file hfile
  mapped hash loc hloc := by
    obtain ⟨members, entry, hlists, hentry⟩ := hsound.mapped hash loc hloc
    refine ⟨members, entry, hlists.congr ?_, hentry⟩
    rw [Files.setFile_ne fun heq => hunused hash loc hloc (Path.pack.inj heq)]

/-! ## Steps keep the invariant -/

theorem PutEffect.sound (heffect : PutEffect host s s') (hsound : Sound host s) :
    Sound host s' := by
  rcases heffect with hsame | ⟨ns, bytes, hsame⟩
  · exact hsame.sound hsound
  · exact hsame.sound (hsound.setBlob ns bytes)

theorem PutEffect.present (heffect : PutEffect host s s') (hpresent : Present s ns hash) :
    Present s' ns hash := by
  rcases heffect with hsame | ⟨ns', bytes, hsame⟩
  · exact hsame.present.mpr hpresent
  · refine hsame.present.mpr ?_
    rcases hpresent with hloose | hmapped
    · refine Or.inl ?_
      by_cases heq : Path.blob ns hash = .blob ns' (host.blake3 bytes)
      · rw [heq, Files.setFile_same]
        simp
      · rwa [Files.setFile_ne heq]
    · exact Or.inr hmapped

theorem EvictEffect.sound (heffect : EvictEffect s s') (hsound : Sound host s) :
    Sound host s' := by
  rcases heffect with hsame | ⟨ns, hash, hsame⟩
  · exact hsame.sound hsound
  · exact hsame.sound (hsound.removeBlob ns hash)

/-- What a collision-free step puts at a pack's path, if the path was taken. -/
theorem NoCollision.copy (hcollision : NoCollision host s s') (hsound : Sound host s)
    (hplaced : s'.disk (.pack (host.blake3 (packBytes host blobs))) =
      some (packBytes host blobs)) :
    ∀ file, s.disk (.pack (host.blake3 (packBytes host blobs))) = some file →
      file = packBytes host blobs := fun file hfile =>
  hcollision file _ (.pack hfile) (.pack hplaced) (hsound.pack _ _ hfile).1

theorem SameTree.pack_disk (hsame : SameTree s s') (pack : Blake3) :
    s'.disk (.pack pack) = s.disk (.pack pack) := hsame.disk _ id

theorem withPack_disk (host : Host) (s : Files) (blobs : List Bytes) :
    (s.withPack host blobs).disk (.pack (host.blake3 (packBytes host blobs))) =
      some (packBytes host blobs) := Files.setFile_same _ _ _

theorem withMapped_disk (host : Host) (s : Files) (blobs : List Bytes) :
    (s.withMapped host blobs).disk (.pack (host.blake3 (packBytes host blobs))) =
      some (packBytes host blobs) := Files.setFile_same _ _ _

theorem present_withMapped (hpresent : Present s ns hash) :
    Present (s.withMapped host blobs) ns hash := by
  rcases hpresent with hloose | ⟨hns, hmapped⟩
  · exact Or.inl hloose
  · refine Or.inr ⟨hns, ?_⟩
    rcases @Files.packs_mapPack (s.withPack host blobs) (host.blake3 (packBytes host blobs))
        (packTable host blobs) hash with ⟨_, _, _, _, hnew⟩ | ⟨_, hold⟩
    · rw [Files.withMapped, hnew]
      simp
    · rw [Files.withMapped, hold]
      exact hmapped

theorem putPack_sound {members : List PackMember} {openMember : Nat → Except IoError ByteStream}
    (hsized : OutboardSized host) (hsound : Sound host s)
    (hcollision : NoCollision host s (final (putPack host faults members openMember s))) :
    Sound host (final (putPack host faults members openMember s)) ∧
      ∀ ns hash, Present s ns hash →
        Present (final (putPack host faults members openMember s)) ns hash := by
  cases hrun : putPack host faults members openMember s with
  | ok pack s' =>
    rw [hrun] at hcollision
    obtain ⟨blobs, hfits, _, _, hsame⟩ := putPack_eq_ok hrun
    have hplaced := (hsame.pack_disk _).trans (withMapped_disk host s blobs)
    refine ⟨hsame.sameBlobs.sound
      (hsound.withMapped hsized hfits (hcollision.copy hsound hplaced)), ?_⟩
    exact fun ns hash hpresent => hsame.sameBlobs.present.mpr (present_withMapped hpresent)
  | error e s' =>
    rw [hrun] at hcollision
    rcases putPack_eq_error hrun with hsame | ⟨blobs, hfits, hsame⟩
    · exact ⟨hsame.sameBlobs.sound hsound, fun ns hash => hsame.sameBlobs.present.mpr⟩
    · have hplaced := (hsame.pack_disk _).trans (withPack_disk host s blobs)
      refine ⟨hsame.sameBlobs.sound (hsound.withPack hfits (hcollision.copy hsound hplaced)), ?_⟩
      exact fun ns hash hpresent => hsame.sameBlobs.present.mpr hpresent

/-- A key that an entry resolves into a pack is listed by the pack. -/
theorem Sound.listed (hsound : Sound host s) {pack : Blake3} {members : List MemberEntry}
    (hlists : Lists host s pack members) (hloc : s.packs hash = some loc)
    (hpack : loc.pack = pack) : hash ∈ members.map MemberEntry.hash := by
  obtain ⟨_, entry, hlists', hentry, rfl, _⟩ := hsound.mapped hash loc hloc
  rw [hpack] at hlists'
  rw [hlists.unique hlists']
  exact List.mem_map_of_mem hentry

section Repack

variable {pack : Blake3} {drop : List Blake3} {members : List MemberEntry} {base : Files}

/-- Every member is dropped or survives. -/
theorem mem_dropped_or_survivors {hash : Blake3} (hlisted : hash ∈ members.map MemberEntry.hash) :
    hash ∈ (dropped drop members).map MemberEntry.hash ∨
      hash ∈ (survivors drop members).map MemberEntry.hash := by
  obtain ⟨member, hmember, rfl⟩ := List.mem_map.mp hlisted
  by_cases hdrop : member.hash ∈ drop
  · exact Or.inl (List.mem_map_of_mem (List.mem_filter.mpr ⟨hmember, by simpa using hdrop⟩))
  · exact Or.inr (List.mem_map_of_mem (List.mem_filter.mpr ⟨hmember, by simpa using hdrop⟩))

variable {hash : Blake3} {ns : Namespace}

theorem mem_dropped (hdropped : hash ∈ (dropped drop members).map MemberEntry.hash) :
    hash ∈ drop ∧ hash ∈ members.map MemberEntry.hash := by
  obtain ⟨member, hmember, rfl⟩ := List.mem_map.mp hdropped
  obtain ⟨hmember, hdrop⟩ := List.mem_filter.mp hmember
  exact ⟨by simpa using hdrop, List.mem_map_of_mem hmember⟩

section

variable (hmoved : Moved host s pack (survivors drop members) base)

include hmoved

theorem Moved.sound (hsized : OutboardSized host) (hsound : Sound host s)
    (hcollision : NoCollision host s s')
    (hdisk : ∀ other, other ≠ pack → s'.disk (.pack other) = base.disk (.pack other)) :
    Sound host base := by
  rcases hmoved with ⟨_, rfl⟩ | ⟨blobs, hfits, _, hother, rfl⟩
  · exact hsound
  · have hplaced := (hdisk _ hother).trans (withMapped_disk host s blobs)
    exact hsound.withMapped hsized hfits (hcollision.copy hsound hplaced)

theorem Moved.present (hpresent : Present s ns hash) : Present base ns hash := by
  rcases hmoved with ⟨_, rfl⟩ | ⟨blobs, _, _, _, rfl⟩
  · exact hpresent
  · exact present_withMapped hpresent

/-- Once the survivors are mapped elsewhere and the dropped members forgotten, nothing points
at the old pack. -/
theorem Moved.unused (hsound : Sound host s) (hlists : Lists host s pack members) (hash : Blake3)
    (loc : PackedLoc)
    (hloc : (base.unmap ((dropped drop members).map MemberEntry.hash)).packs hash = some loc) :
    loc.pack ≠ pack := by
  intro hpack
  obtain ⟨hkept, hloc⟩ := Files.packs_unmap.mp hloc
  rcases hmoved with ⟨hnone, rfl⟩ | ⟨blobs, _, hhashes, hother, rfl⟩
  · have hlisted := hsound.listed hlists hloc hpack
    rw [← dropped_of_survivors_nil hnone] at hlisted
    exact hkept hlisted
  · rcases @Files.packs_mapPack (s.withPack host blobs) (host.blake3 (packBytes host blobs))
        (packTable host blobs) hash with ⟨_, entry, _, _, hnew⟩ | ⟨hnotTable, hold⟩
    · rw [Files.withMapped, hnew] at hloc
      cases hloc
      exact hother hpack
    · rw [Files.withMapped, hold] at hloc
      rcases @mem_dropped_or_survivors drop members hash (hsound.listed hlists hloc hpack)
        with hdropped | hsurvives
      · exact hkept hdropped
      · rw [map_hash_packTable, hhashes] at hnotTable
        exact hnotTable hsurvives

end

theorem setFile_pack_ne {other : Blake3} (hne : other ≠ pack) (file : Option Bytes) :
    (s.setFile (.pack pack) file).disk (.pack other) = s.disk (.pack other) :=
  Files.setFile_ne (fun heq => hne (Path.pack.inj heq)) file

theorem RepackResult.sound {result : EStateM.Result StoreError Files RepackOutcome}
    (hresult : RepackResult host faults s pack drop result) (hsized : OutboardSized host)
    (hsound : Sound host s) (hcollision : NoCollision host s (final result)) :
    Sound host (final result) := by
  cases hresult with
  | refused hsame => exact hsame.sameBlobs.sound hsound
  | @staged e s' blobs hfits hsame =>
    have hplaced := (hsame.pack_disk _).trans (withPack_disk host s blobs)
    exact hsame.sameBlobs.sound (hsound.withPack hfits (hcollision.copy hsound hplaced))
  | kept => exact hsound
  | @onto outcome s' members blobs hlists _ hfits hhashes hpack hsame =>
    have hplaced := (hsame.pack_disk _).trans (withMapped_disk host s blobs)
    exact hsame.sameBlobs.sound
      ((hsound.withMapped hsized hfits (hcollision.copy hsound hplaced)).unmap _)
  | @unlinked outcome s' members base hlists _ hmoved hsame =>
    have hbase := hmoved.sound hsized hsound hcollision fun other hne =>
      (hsame.pack_disk other).trans (setFile_pack_ne hne none)
    exact hsame.sameBlobs.sound ((hbase.unmap _).unlink (hmoved.unused hsound hlists))
  | @failed e s' members base hlists _ hmoved _ hsame =>
    rcases hsame with hsame | hsame
    · have hbase := hmoved.sound hsized hsound hcollision fun other _ => hsame.pack_disk other
      exact hsame.sameBlobs.sound (hbase.unmap _)
    · have hbase := hmoved.sound hsized hsound hcollision fun other hne =>
        (hsame.pack_disk other).trans (setFile_pack_ne hne none)
      exact hsame.sameBlobs.sound ((hbase.unmap _).unlink (hmoved.unused hsound hlists))

/-- The old pack is unlinked without a failure, or the members that a failure would lose have
loose copies. -/
def UnlinkSafe (host : Host) (faults : Faults) (s : Files) (pack : Blake3) (drop : List Blake3) :
    Prop :=
  (faults (.remove (.pack pack)) = none ∧ faults (.syncDir (.pack pack)) = none) ∨
    ∀ members, Lists host s pack members → ∀ hash ∈ members.map MemberEntry.hash, hash ∈ drop →
      s.packs hash ≠ none → s.disk (.blob .data hash) ≠ none

theorem present_unmap_dropped (hlists : Lists host s pack members)
    (hmoved : Moved host s pack (survivors drop members) base)
    (hloose : ∀ members, Lists host s pack members → ∀ hash ∈ members.map MemberEntry.hash,
      hash ∈ drop → s.packs hash ≠ none → s.disk (.blob .data hash) ≠ none)
    (hpresent : Present s ns hash) :
    Present (base.unmap ((dropped drop members).map MemberEntry.hash)) ns hash := by
  by_cases hdropped : hash ∈ (dropped drop members).map MemberEntry.hash
  · obtain ⟨hdrop, hlisted⟩ := mem_dropped hdropped
    have hfile : s.disk (.blob ns hash) ≠ none := by
      rcases hpresent with hfile | ⟨rfl, hmapped⟩
      · exact hfile
      · exact hloose members hlists hash hlisted hdrop hmapped
    rcases hmoved with ⟨_, rfl⟩ | ⟨blobs, _, _, _, rfl⟩
    · exact Or.inl hfile
    · exact Or.inl hfile
  · rcases hmoved.present hpresent with hfile | ⟨hns, hmapped⟩
    · exact Or.inl hfile
    · refine Or.inr ⟨hns, ?_⟩
      simpa only [Files.unmap, if_neg hdropped] using hmapped

/-- A rewrite that fails safely loses no key. -/
theorem RepackResult.present {e : StoreError}
    (hresult : RepackResult host faults s pack drop (.error e s'))
    (hsafe : UnlinkSafe host faults s pack drop) (hpresent : Present s ns hash) :
    Present s' ns hash := by
  cases hresult with
  | refused hsame => exact hsame.sameBlobs.present.mpr hpresent
  | staged _ hsame => exact hsame.sameBlobs.present.mpr hpresent
  | failed hlists _ hmoved hfault hsame =>
    rcases hsafe with ⟨hremove, hsync⟩ | hloose
    · rcases hfault with hfault | hfault
      · exact absurd hremove hfault
      · exact absurd hsync hfault
    · have hkept := present_unmap_dropped hlists hmoved hloose hpresent
      rcases hsame with hsame | hsame
      · exact hsame.sameBlobs.present.mpr hkept
      · exact hsame.sameBlobs.present.mpr hkept

end Repack

/-! ## Runs -/

/-- A step that keeps every key when it fails. -/
def Op.Keeps (host : Host) (faults : Faults) (s : Files) : Op → Prop
  | .repack pack drop => UnlinkSafe host faults s pack drop
  | .evictLiteral _ _ => False
  | .removeBlob _ _ => False
  | _ => True

theorem Op.run_sound (hsized : OutboardSized host) (hsound : Sound host s) (op : Op)
    (hcollision : NoCollision host s (final (op.run host faults s))) :
    Sound host (final (op.run host faults s)) := by
  cases op with
  | put ns expected reader =>
    rw [Op.run, Moves.final_bind_pure]
    exact (putInner_effect expected reader false).sound hsound
  | putWithAliases ns expected reader =>
    rw [Op.run, Moves.final_bind_pure]
    exact (putInner_effect expected reader true).sound hsound
  | putNew ns reader =>
    rw [Op.run, Moves.final_bind_pure]
    exact (putNew_effect reader).sound hsound
  | putWithObao ns expected len reader =>
    rw [Op.run, Moves.final_bind_pure]
    exact (putWithObao_effect expected len reader).sound hsound
  | putPack members openMember =>
    rw [Op.run, Moves.final_bind_pure] at hcollision ⊢
    exact (putPack_sound hsized hsound hcollision).1
  | repack pack drop =>
    rw [Op.run, Moves.final_bind_pure] at hcollision ⊢
    exact (repack_result pack drop).sound hsized hsound hcollision
  | evictLiteral ns hash =>
    rw [Op.run, Moves.final_bind_pure]
    exact (evictLiteral_effect ns hash).sound hsound
  | removeBlob ns hash =>
    rw [Op.run, Moves.final_bind_pure]
    exact (removeBlob_effect ns hash).sound hsound

theorem Op.run_present (hsized : OutboardSized host) (hsound : Sound host s) (op : Op)
    (hcollision : NoCollision host s (final (op.run host faults s)))
    (hkeeps : op.Keeps host faults s) {e : StoreError} (hrun : op.run host faults s = .error e s')
    (hpresent : Present s ns hash) : Present s' ns hash := by
  have hfinal : final (op.run host faults s) = s' := by
    rw [hrun]
    rfl
  cases op with
  | put ns expected reader =>
    rw [Op.run, Moves.final_bind_pure] at hfinal
    exact hfinal ▸ (putInner_effect expected reader false).present hpresent
  | putWithAliases ns expected reader =>
    rw [Op.run, Moves.final_bind_pure] at hfinal
    exact hfinal ▸ (putInner_effect expected reader true).present hpresent
  | putNew ns reader =>
    rw [Op.run, Moves.final_bind_pure] at hfinal
    exact hfinal ▸ (putNew_effect reader).present hpresent
  | putWithObao ns expected len reader =>
    rw [Op.run, Moves.final_bind_pure] at hfinal
    exact hfinal ▸ (putWithObao_effect expected len reader).present hpresent
  | putPack members openMember =>
    rw [Op.run, Moves.final_bind_pure] at hcollision hfinal
    exact hfinal ▸ (putPack_sound hsized hsound hcollision).2 _ _ hpresent
  | repack pack drop =>
    have hresult := @repack_result host faults s pack drop
    rcases Moves.bind_eq_error hrun with hrun | ⟨_, _, _, hrun⟩
    · rw [hrun] at hresult
      exact hresult.present hkeeps hpresent
    · cases hrun
  | evictLiteral ns hash => exact hkeeps.elim
  | removeBlob ns hash => exact hkeeps.elim

/-- The states of runs from an empty store, with failures anywhere and no hash collision. -/
inductive Reached (host : Host) : Files → Prop
  | empty : Reached host Files.empty
  | step {s : Files} (hreached : Reached host s) (op : Op) (faults : Faults)
      (hcollision : NoCollision host s (final (op.run host faults s))) :
      Reached host (final (op.run host faults s))

theorem Reached.sound (hsized : OutboardSized host) (hreached : Reached host s) :
    Sound host s := by
  induction hreached with
  | empty => exact sound_empty
  | step _ op faults hcollision ih => exact op.run_sound hsized ih hcollision

/-- In every state that a run reaches, what is read, reported present or measured under a key
is the key's bytes; and an operation that fails leaves every key that resolved with its bytes,
unless it is a rewrite whose old pack could not be unlinked. -/
theorem reached_integrity (hsized : OutboardSized host) (hreached : Reached host s) :
    (∀ faults ns hash bytes, s.get faults ns hash = .ok (some bytes) → host.blake3 bytes = hash) ∧
    (∀ faults ns hash, s.has faults ns hash = true →
      ∃ bytes, s.get noFaults ns hash = .ok (some bytes)) ∧
    (∀ faults ns hash n, s.len faults ns hash = .ok (some n) →
      ∃ bytes, s.get noFaults ns hash = .ok (some bytes) ∧ bytes.length = n) ∧
    ∀ (op : Op) faults e s', NoCollision host s s' → op.Keeps host faults s →
      op.run host faults s = .error e s' → ∀ ns hash bytes,
        s.get noFaults ns hash = .ok (some bytes) → s'.get noFaults ns hash = .ok (some bytes) := by
  have hsound := hreached.sound hsized
  refine ⟨?_, ?_, ?_, ?_⟩
  · intro faults ns hash bytes hget
    exact (hsound.get_eq_ok hsized hget).1
  · intro faults ns hash hhas
    exact hsound.get_of_present hsized (present_of_has hhas)
  · intro faults ns hash n hlen
    exact hsound.get_of_len hsized hlen
  · intro op faults e s' hcollision hkeeps hrun ns hash bytes hget
    have hfinal : final (op.run host faults s) = s' := by
      rw [hrun]
      rfl
    rw [← hfinal] at hcollision
    have hpresent := op.run_present hsized hsound hcollision hkeeps hrun (present_of_get hget)
    have hsound' := op.run_sound hsized hsound hcollision
    rw [hfinal] at hcollision hsound'
    exact hsound.get_unchanged hsized hsound' hcollision hget hpresent

/-- A host whose outboards have the size of their trees. -/
def sizedHost : Host :=
  { Host.sample with outboard := fun bytes => List.replicate (outboardSize bytes.length) 0 }

theorem sizedHost_sized : OutboardSized sizedHost := by
  intro bytes
  simp [sizedHost]

theorem noCollision_empty : NoCollision host Files.empty s := by
  intro a b ha
  cases ha with
  | blob hfile => cases hfile
  | pack hfile => cases hfile
  | member hfile => cases hfile

/-- A store with one loose blob. -/
def storedSeven : Files :=
  final ((Op.put .data 8 ⟨[7], none⟩).run sizedHost noFaults Files.empty)

/-- The same store after a put of bytes that are not the key's. -/
def refusedNine : Files :=
  final ((Op.put .data 5 ⟨[9], none⟩).run sizedHost noFaults storedSeven)

theorem held_refusedNine (hheld : Held sizedHost refusedNine bytes) : bytes = [7] := by
  cases hheld with
  | @blob ns hash _ hfile =>
    change (if Path.blob ns hash = .blob .data 8 then some [7] else none) = some bytes at hfile
    split at hfile <;> cases hfile
    rfl
  | pack hfile => cases hfile
  | member hfile => cases hfile

/-- The refused put leaves the blob where it was. -/
theorem reached_integrity_refused :
    storedSeven.get noFaults .data 8 = .ok (some [7]) ∧ sizedHost.blake3 [7] = 8 ∧
      refusedNine.get noFaults .data 8 = .ok (some [7]) := by
  have hreached : Reached sizedHost storedSeven :=
    .step .empty (.put .data 8 ⟨[7], none⟩) noFaults noCollision_empty
  have hget : storedSeven.get noFaults .data 8 = .ok (some [7]) := rfl
  obtain ⟨hdigest, -, -, hkept⟩ := reached_integrity sizedHost_sized hreached
  refine ⟨hget, hdigest noFaults .data 8 [7] hget, ?_⟩
  refine hkept (.put .data 5 ⟨[9], none⟩) noFaults (.hashMismatch 5 10) refusedNine ?_ trivial rfl
    .data 8 [7] hget
  intro a b ha hb _
  have ha' : Held sizedHost refusedNine a := by
    cases ha with
    | blob hfile => exact .blob hfile
    | pack hfile => cases hfile
    | member hfile => cases hfile
  rw [held_refusedNine ha', held_refusedNine hb]

/-- A store with one packed blob. -/
def packedSeven : Files :=
  final ((Op.putPack [⟨8, 1⟩] fun _ => .ok ⟨[7], none⟩).run sizedHost noFaults Files.empty)

/-- The pack of that blob. -/
def sevenPack : Blake3 := sizedHost.blake3 (packBytes sizedHost [[7]])

/-- Unlinking the pack fails. -/
def unlinkFault : Faults := fun call => if call = .remove (.pack sevenPack) then some {} else none

/-- The rewrite fails, and the member that it was to drop no longer resolves: the map was
cleared before the unlink. -/
theorem failed_repack_forgets :
    Reached sizedHost packedSeven ∧ packedSeven.get noFaults .data 8 = .ok (some [7]) ∧
      ∃ e s', (Op.repack sevenPack [8]).run sizedHost unlinkFault packedSeven = .error e s' ∧
        s'.get noFaults .data 8 = .ok none := by
  have hreached : Reached sizedHost packedSeven :=
    .step .empty (.putPack [⟨8, 1⟩] fun _ => .ok ⟨[7], none⟩) noFaults noCollision_empty
  have hfailed : Moves.failed ((Op.repack sevenPack [8]).run sizedHost unlinkFault packedSeven) =
      true := by
    decide +kernel
  obtain ⟨e, herror⟩ := Moves.eq_error_of_failed hfailed
  exact ⟨hreached, by decide +kernel, e, _, herror, by decide +kernel⟩

end Datboi.StoreFs
