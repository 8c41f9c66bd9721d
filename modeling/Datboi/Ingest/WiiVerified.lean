import Datboi.Ingest.Wii
import Datboi.Xf.WiiCryptExact

/-!
# A verified body is encrypted back

The pass hashes the body and its plaintext, and finds every hash block in order
exactly when the component encrypts the plaintext to the body. The reader hands out
slices of the same plaintext, whatever is asked of it and in whatever order.
-/

namespace Datboi.Wii

open Reader (slice length_slice)
open WiiCrypt

variable {prims : Primitives} {part : PartitionHeader} {common : Key} {image : Bytes}

/-- A sector of the body. -/
def PartitionHeader.sector (part : PartitionHeader) (image : Bytes) (s : Nat) : Bytes :=
  slice image (part.dataOffset.toNat + s * SECTOR_LEN) SECTOR_LEN

/-- The plaintext of a sector. -/
def PartitionHeader.data (prims : Primitives) (part : PartitionHeader) (common : Key)
    (image : Bytes) (s : Nat) : Bytes :=
  decryptData prims (part.titleKey prims common) (part.sector image s)

def PartitionHeader.plaintext (prims : Primitives) (part : PartitionHeader) (common : Key)
    (image : Bytes) : Bytes :=
  (List.range part.sectors).flatMap (part.data prims common image)

/-- The body lies inside the image. -/
def PartitionHeader.Inside (part : PartitionHeader) (image : Bytes) : Prop :=
  part.dataOffset.toNat + part.sectors * SECTOR_LEN ≤ image.length

/-- A sector's hash block is the one its group's plaintext yields. -/
def PartitionHeader.Matches (prims : Primitives) (part : PartitionHeader) (common : Key)
    (image : Bytes) (s : Nat) : Prop :=
  hashBlockMatches (decryptSector prims (part.titleKey prims common) (part.sector image s))
    (GroupHashes.compute prims
      (groupData part.params (part.data prims common image) (s / GROUP_SECTORS)))
    (s % GROUP_SECTORS) = true

theorem params_sectors (part : PartitionHeader) : part.params.sectors = part.sectors := rfl

theorem span_le (hin : part.Inside image) {done n : Nat} (hn : done + n ≤ part.sectors) :
    part.dataOffset.toNat + done * SECTOR_LEN + n * SECTOR_LEN ≤ image.length := by
  have hspan : (done + n) * SECTOR_LEN ≤ part.sectors * SECTOR_LEN := Nat.mul_le_mul_right _ hn
  rw [Nat.add_mul] at hspan
  rw [PartitionHeader.Inside] at hin
  omega

theorem length_sector (hin : part.Inside image) {s : Nat} (hs : s < part.sectors) :
    (part.sector image s).length = SECTOR_LEN := by
  have hspan := span_le hin (n := 1) hs
  rw [PartitionHeader.sector, length_slice]
  omega

theorem length_data (hin : part.Inside image) {s : Nat} (hs : s < part.sectors) :
    (part.data prims common image s).length = DATA_LEN :=
  length_decryptData (length_sector hin hs)

theorem length_plaintext (hin : part.Inside image) :
    (part.plaintext prims common image).length = part.sectors * DATA_LEN :=
  Chunks.length_flatMap_range fun _ hs => length_data hin hs

theorem length_body (hin : part.Inside image) :
    (part.body image).length = part.sectors * SECTOR_LEN := by
  have hspan := @span_le part image hin 0 part.sectors (by omega)
  rw [PartitionHeader.body, length_slice]
  omega

/-- The body's sectors are the image's. -/
theorem slice_body {s : Nat} (hs : s < part.sectors) :
    slice (part.body image) (s * SECTOR_LEN) SECTOR_LEN = part.sector image s := by
  have hfits : s * SECTOR_LEN + SECTOR_LEN ≤ part.sectors * SECTOR_LEN := by
    rw [← Nat.succ_mul]
    exact Nat.mul_le_mul_right _ hs
  rw [PartitionHeader.body, Reader.slice_slice _ _ _ _ _ hfits, PartitionHeader.sector]

/-! ## The pass -/

/-- The sectors of a group that was read from sector `done` on. -/
theorem groupEnc_eq {done n s : Nat} (hs : s < n) :
    groupEnc (slice image (part.dataOffset.toNat + done * SECTOR_LEN) (n * SECTOR_LEN)) s =
      part.sector image (done + s) := by
  have hfits : s * SECTOR_LEN + SECTOR_LEN ≤ n * SECTOR_LEN := by
    rw [← Nat.succ_mul]
    exact Nat.mul_le_mul_right _ hs
  rw [groupEnc, Reader.slice_slice _ _ _ _ _ hfits, PartitionHeader.sector, Nat.add_mul,
    Nat.add_assoc]

theorem groupPlain_eq (hin : part.Inside image) {g n : Nat}
    (hn : n = groupSectors part.params g) (hg : g * GROUP_SECTORS + n ≤ part.sectors) :
    groupPlain prims (part.titleKey prims common) n
        (slice image (part.dataOffset.toNat + g * GROUP_SECTORS * SECTOR_LEN) (n * SECTOR_LEN)) =
      groupData part.params (part.data prims common image) g := by
  rw [groupPlain, groupData, ← hn]
  refine List.flatMap_congr fun j hj => ?_
  rw [List.mem_range] at hj
  rw [groupEnc_eq hj, drop_decryptSector (length_sector hin (by omega)), PartitionHeader.data]

/-- No sector of a group disagrees exactly when each of them matches. -/
theorem firstMismatch_eq_none {g n : Nat} (hn : n = groupSectors part.params g) :
    firstMismatch prims (part.titleKey prims common) n
        (slice image (part.dataOffset.toNat + g * GROUP_SECTORS * SECTOR_LEN) (n * SECTOR_LEN))
        (groupData part.params (part.data prims common image) g) = none ↔
      ∀ j < n, part.Matches prims common image (g * GROUP_SECTORS + j) := by
  rw [firstMismatch, List.find?_eq_none]
  simp only [List.mem_range, Bool.not_eq_true', Bool.not_eq_false]
  refine forall₂_congr fun j hj => ?_
  have hj64 : j < 64 := by
    rw [hn] at hj
    exact Nat.lt_of_lt_of_le hj (Nat.min_le_right _ _)
  have hdiv : (g * 64 + j) / 64 = g := by omega
  have hmod : (g * 64 + j) % 64 = j := by omega
  rw [PartitionHeader.Matches, hdiv, hmod, groupEnc_eq hj]

/-- What one group adds to the pass. -/
theorem group_spec (hin : part.Inside image) (pass : Pass) {g n : Nat}
    (hn : n = groupSectors part.params g) (hg : g * GROUP_SECTORS + n ≤ part.sectors) :
    ∃ after, pass.group prims (part.titleKey prims common) (g * GROUP_SECTORS) n
        (slice image (part.dataOffset.toNat + g * GROUP_SECTORS * SECTOR_LEN)
          (n * SECTOR_LEN)) = after ∧
      after.bodyHashed = pass.bodyHashed ++
        slice image (part.dataOffset.toNat + g * GROUP_SECTORS * SECTOR_LEN) (n * SECTOR_LEN) ∧
      after.plainHashed =
        pass.plainHashed ++ groupData part.params (part.data prims common image) g ∧
      (after.verified = true ↔ pass.verified = true ∧
        ∀ j < n, part.Matches prims common image (g * GROUP_SECTORS + j)) := by
  refine ⟨_, rfl, ?_⟩
  rw [Pass.group, groupPlain_eq hin hn hg]
  have hmatch := @firstMismatch_eq_none prims part common image g n hn
  cases hverified : pass.verified with
  | false => simp
  | true =>
    cases hfirst : firstMismatch prims (part.titleKey prims common) n
        (slice image (part.dataOffset.toNat + g * GROUP_SECTORS * SECTOR_LEN) (n * SECTOR_LEN))
        (groupData part.params (part.data prims common image) g) with
    | none => simpa using hmatch.mp hfirst
    | some s =>
      have hnot : ¬ ∀ j < n, part.Matches prims common image (g * GROUP_SECTORS + j) := by
        intro hall
        rw [hmatch.mpr hall] at hfirst
        cases hfirst
      simpa using hnot

/-- The loop from a group boundary on. -/
theorem verifyLoop_spec (hin : part.Inside image) {fuel g : Nat} (pass : Pass)
    (hfuel : part.sectors ≤ g * GROUP_SECTORS + fuel) :
    ∃ after, verifyLoop prims (part.titleKey prims common) (.ofList image)
        part.dataOffset.toNat part.sectors fuel (min (g * GROUP_SECTORS) part.sectors) pass =
        .ok after ∧
      after.bodyHashed = pass.bodyHashed ++
        slice image
          (part.dataOffset.toNat + min (g * GROUP_SECTORS) part.sectors * SECTOR_LEN)
          ((part.sectors - min (g * GROUP_SECTORS) part.sectors) * SECTOR_LEN) ∧
      after.plainHashed = pass.plainHashed ++
        ((List.range (part.sectors - min (g * GROUP_SECTORS) part.sectors)).flatMap fun j =>
          part.data prims common image (min (g * GROUP_SECTORS) part.sectors + j)) ∧
      (after.verified = true ↔ pass.verified = true ∧
        ∀ s, g * GROUP_SECTORS ≤ s → s < part.sectors → part.Matches prims common image s) := by
  induction fuel generalizing g pass with
  | zero =>
    -- Every sector is behind.
    have hdone : min (g * GROUP_SECTORS) part.sectors = part.sectors := by omega
    refine ⟨pass, by rw [verifyLoop], ?_⟩
    rw [hdone, Nat.sub_self]
    refine ⟨by simp, by simp, fun hverified => ⟨hverified, fun s hs hlt => ?_⟩, fun h => h.1⟩
    omega
  | succ fuel ih =>
    by_cases hmore : g * GROUP_SECTORS < part.sectors
    · have hdone : min (g * GROUP_SECTORS) part.sectors = g * GROUP_SECTORS := by omega
      have hn : min (part.sectors - g * GROUP_SECTORS) GROUP_SECTORS =
          groupSectors part.params g := rfl
      have hg : g * GROUP_SECTORS + groupSectors part.params g ≤ part.sectors := by
        rw [← hn]
        omega
      have hnext : g * GROUP_SECTORS + groupSectors part.params g =
          min ((g + 1) * GROUP_SECTORS) part.sectors := by
        rw [← hn, Nat.succ_mul]
        omega
      have hrest : part.sectors - g * GROUP_SECTORS = groupSectors part.params g +
          (part.sectors - min ((g + 1) * GROUP_SECTORS) part.sectors) := by omega
      obtain ⟨middle, hmiddle, hbody, hplain, hverified⟩ :=
        @group_spec prims part common image hin pass g _ rfl hg
      obtain ⟨after, hafter, hbodyAfter, hplainAfter, hverifiedAfter⟩ := @ih (g + 1) middle (by
        rw [Nat.succ_mul]
        have hpos : 0 < GROUP_SECTORS := by decide
        omega)
      generalize min ((g + 1) * GROUP_SECTORS) part.sectors = middleEnd at *
      refine ⟨after, ?_, ?_, ?_, ?_⟩
      · rw [verifyLoop, hdone, if_pos hmore]
        simp only [hn, Reader.Source.readExact_ofList _ _ _ _ (span_le hin hg)]
        rw [hnext, ← hafter, ← hmiddle]
        rfl
      · rw [hbodyAfter, hbody, hdone, hrest, Nat.add_mul, ← Reader.slice_append_slice,
          List.append_assoc, ← hnext, Nat.add_mul, Nat.add_assoc]
      · rw [hplainAfter, hplain, hdone, hrest, Chunks.flatMap_range_add, List.append_assoc,
          groupData, ← hnext]
        simp only [Nat.add_assoc]
      · rw [hverifiedAfter, hverified, and_assoc]
        refine and_congr_right fun _ => ⟨fun hboth s hs hlt => ?_, fun hall => ⟨fun j hj => ?_,
          fun s hs hlt => ?_⟩⟩
        · by_cases hgroup : (g + 1) * GROUP_SECTORS ≤ s
          · exact hboth.2 s hgroup hlt
          · rw [Nat.succ_mul] at hgroup
            have hsplit : g * GROUP_SECTORS + (s - g * GROUP_SECTORS) = s := by omega
            have hmatch := hboth.1 (s - g * GROUP_SECTORS) (by
              rw [← hn]
              omega)
            rwa [hsplit] at hmatch
        · exact hall _ (Nat.le_add_right _ _) (by omega)
        · refine hall s (Nat.le_trans (Nat.mul_le_mul_right _ (Nat.le_succ g)) hs) hlt
    · have hdone : min (g * GROUP_SECTORS) part.sectors = part.sectors := by omega
      refine ⟨pass, by rw [verifyLoop, hdone, if_neg (Nat.lt_irrefl _)], ?_⟩
      rw [hdone, Nat.sub_self]
      refine ⟨by simp, by simp, fun hverified => ⟨hverified, fun s hs hlt => ?_⟩, fun h => h.1⟩
      omega

/-- The pass over a whole body. -/
theorem verifyBody_spec (blake3 : Bytes → Blake3) (hin : part.Inside image) :
    ∃ verdict, verifyBody prims blake3 (.ofList image) part common = .ok verdict ∧
      verdict.bodyHash = blake3 (part.body image) ∧
      verdict.plainHash = blake3 (part.plaintext prims common image) ∧
      (verdict.verified = true ↔
        ∀ s < part.sectors, part.Matches prims common image s) := by
  obtain ⟨after, hafter, hbody, hplain, hverified⟩ := @verifyLoop_spec prims part common image hin
    part.sectors 0 {} (by omega)
  rw [Nat.zero_mul, Nat.zero_min] at hafter hbody hplain
  have hbodyEq : after.bodyHashed = part.body image := by
    rw [hbody, List.nil_append, Nat.zero_mul, Nat.add_zero, Nat.sub_zero, PartitionHeader.body]
  have hplainEq : after.plainHashed = part.plaintext prims common image := by
    rw [hplain, List.nil_append, Nat.sub_zero, PartitionHeader.plaintext]
    exact List.flatMap_congr fun s _ => by rw [Nat.zero_add]
  refine ⟨⟨blake3 after.bodyHashed, blake3 after.plainHashed, after.verified, after.firstBad⟩, ?_,
    congrArg blake3 hbodyEq, congrArg blake3 hplainEq, ?_⟩
  · rw [verifyBody, hafter]
    rfl
  · rw [hverified]
    simp

/-! ## The component -/

/-- Decrypting the body gives the plaintext. -/
theorem decrypt_body (hin : part.Inside image) :
    output prims .decrypt part.params (part.body image) common =
      some (part.plaintext prims common image) := by
  have hlen : (part.body image).length = part.params.encryptedLen := by
    rw [length_body hin, Params.encryptedLen, params_sectors]
  rw [output_decrypt common hlen, params_sectors, PartitionHeader.plaintext]
  congr 1
  refine List.flatMap_congr fun s hs => ?_
  rw [slice_body (List.mem_range.mp hs)]
  rfl

/-- Encrypting the plaintext gives the body exactly when every sector's hash block
matches. -/
theorem encrypt_plaintext (hinverts : prims.Inverts) (hin : part.Inside image) :
    output prims .encrypt part.params (part.plaintext prims common image) common =
      some (part.body image) ↔ ∀ s < part.sectors, part.Matches prims common image s := by
  have hdata : ∀ s < part.params.sectors, (part.data prims common image s).length = DATA_LEN :=
    fun _ hs => length_data hin hs
  have hbody : (List.range part.sectors).flatMap (part.sector image) = part.body image := by
    rw [← Chunks.flatMap_slice (part.body image) (length_body hin)]
    exact List.flatMap_congr fun s hs => (slice_body (List.mem_range.mp hs)).symm
  rw [PartitionHeader.plaintext, ← params_sectors, output_encrypt hdata common, Option.some.injEq, ← hbody]
  refine (Chunks.flatMap_range_inj (fun s hs => length_encryptSector (hdata s hs))
    fun s hs => length_sector hin hs).trans (forall₂_congr fun s hs => ?_)
  exact encryptSector_decryptData hinverts (length_sector hin hs) _ _

/-! ## The reader -/

namespace PlainReader

/-- The answers are those of a cursor over the plaintext: a read gives bytes from the
position on, and none only when none are asked for or left. -/
def Yields (plain : Bytes) : Nat → List Request → List Response → Prop
  | _, [], [] => True
  | pos, .read count :: requests, .bytes got :: responses =>
    got = slice plain pos got.length ∧ got.length ≤ count ∧
      (got = [] → count = 0 ∨ plain.length ≤ pos) ∧
      Yields plain (pos + got.length) requests responses
  | pos, .seek whence :: requests, .position position :: responses =>
    target plain.length pos whence = some position ∧ Yields plain position requests responses
  | pos, .seek whence :: requests, .failed :: responses =>
    target plain.length pos whence = none ∧ Yields plain pos requests responses
  | _, _, _ => False

/-- The reader is over the partition's body, and its cache holds the sector it names. -/
structure Over (prims : Primitives) (part : PartitionHeader) (common : Key) (image : Bytes)
    (reader : PlainReader) : Prop where
  base_eq : reader.base = part.dataOffset.toNat
  sectors_eq : reader.sectors = part.sectors
  key_eq : reader.key = part.titleKey prims common
  cache : reader.cached < part.sectors →
    reader.data = part.data prims common image reader.cached

/-- No sector has the index the cache starts with. -/
theorem over_new : Over prims part common image (new prims part common) where
  base_eq := rfl
  sectors_eq := rfl
  key_eq := rfl
  cache hcached := by
    have hlen := part.dataLen.toNat_lt
    have hsectors : part.sectors ≤ part.dataLen.toNat := Nat.div_le_self _ _
    have hsentinel : (new prims part common).cached = 2 ^ 64 - 1 := rfl
    omega

variable {reader : PlainReader}

section

variable (hover : Over prims part common image reader) (hin : part.Inside image)

include hover hin

theorem Over.load {s : Nat} (hs : s < part.sectors) :
    ∃ loaded, reader.load prims (.ofList image) s = .ok loaded ∧
      Over prims part common image loaded ∧ loaded.pos = reader.pos ∧
      loaded.data = part.data prims common image s := by
  rw [PlainReader.load]
  by_cases hcached : reader.cached = s
  · rw [if_pos hcached]
    subst hcached
    exact ⟨reader, rfl, hover, rfl, hover.cache hs⟩
  · have hspan := span_le hin (n := 1) hs
    rw [Nat.one_mul] at hspan
    rw [if_neg hcached, hover.base_eq, Reader.Source.readExact_ofList _ _ _ _ hspan, hover.key_eq]
    exact ⟨_, rfl, ⟨rfl, hover.sectors_eq, rfl, fun _ => rfl⟩, rfl, rfl⟩

theorem Over.read (count : Nat) :
    ∃ got after, reader.read prims (.ofList image) count = .ok (got, after) ∧
      Over prims part common image after ∧ after.pos = reader.pos + got.length ∧
      got = slice (part.plaintext prims common image) reader.pos got.length ∧
      got.length ≤ count ∧
      (got = [] → count = 0 ∨ (part.plaintext prims common image).length ≤ reader.pos) := by
  have hlen : reader.len = (part.plaintext prims common image).length := by
    rw [length_plaintext hin, PlainReader.len, hover.sectors_eq]
  rw [PlainReader.read]
  by_cases hend : reader.len ≤ reader.pos ∨ count = 0
  · rw [if_pos hend]
    exact ⟨[], reader, rfl, hover, rfl, by simp, Nat.zero_le _,
      fun _ => hlen ▸ hend.symm⟩
  · rw [if_neg hend]
    obtain ⟨hpos, hcount⟩ := not_or.mp hend
    rw [hlen, length_plaintext hin] at hpos
    have hs : reader.pos / DATA_LEN < part.sectors :=
      (Nat.div_lt_iff_lt_mul (by decide)).mpr (by omega)
    obtain ⟨loaded, hload, hloaded, hsame, hdata⟩ := hover.load hin hs
    simp only [hload]
    have hsector : slice (part.plaintext prims common image)
        (reader.pos / DATA_LEN * DATA_LEN) DATA_LEN =
        part.data prims common image (reader.pos / DATA_LEN) :=
      Chunks.slice_flatMap_range_one (fun _ => length_data hin) hs
    have hinside : reader.pos % DATA_LEN < DATA_LEN := Nat.mod_lt _ (by decide)
    have hsplit := Nat.div_add_mod' reader.pos DATA_LEN
    have hloadedPos : loaded.pos = reader.pos := hsame
    generalize hn : min (min (DATA_LEN - reader.pos % DATA_LEN) count)
      (reader.len - reader.pos) = n
    rw [hlen, length_plaintext hin] at hn
    have hgot : slice loaded.data (reader.pos % DATA_LEN) n =
        slice (part.plaintext prims common image) reader.pos n := by
      rw [hdata, ← hsector, Reader.slice_slice _ _ _ _ _ (by omega), hsplit]
    have hgotLen : (slice (part.plaintext prims common image) reader.pos n).length = n := by
      rw [length_slice, length_plaintext hin]
      omega
    refine ⟨_, _, rfl, ⟨hloaded.base_eq, hloaded.sectors_eq, hloaded.key_eq, hloaded.cache⟩, ?_⟩
    simp only [hgot, hgotLen, hloadedPos]
    refine ⟨trivial, trivial, by omega, fun hnil => ?_⟩
    rw [hnil, List.length_nil] at hgotLen
    omega

theorem Over.seek (whence : SeekFrom) :
    (∃ after, reader.seek whence = .ok after ∧ Over prims part common image after.2 ∧
      after.2.pos = after.1 ∧
      target (part.plaintext prims common image).length reader.pos whence = some after.1) ∨
    ((∃ e, reader.seek whence = .error e) ∧
      target (part.plaintext prims common image).length reader.pos whence = none) := by
  have hlen : reader.len = (part.plaintext prims common image).length := by
    rw [length_plaintext hin, PlainReader.len, hover.sectors_eq]
  rw [PlainReader.seek, hlen]
  cases target (part.plaintext prims common image).length reader.pos whence with
  | some position =>
    exact .inl ⟨_, rfl, ⟨hover.base_eq, hover.sectors_eq, hover.key_eq, hover.cache⟩, rfl, rfl⟩
  | none => exact .inr ⟨⟨_, rfl⟩, rfl⟩

/-- Every run from a reader over the body answers as the cursor does. -/
theorem Over.run (requests : List Request) :
    Yields (part.plaintext prims common image) reader.pos requests
      (reader.run prims (.ofList image) requests) := by
  induction requests generalizing reader with
  | nil => trivial
  | cons request requests ih =>
    rw [PlainReader.run]
    cases request with
    | read count =>
      obtain ⟨got, after, hread, hafter, hpos, hgot, hcount, hnil⟩ := hover.read hin count
      simp only [step, hread]
      exact ⟨hgot, hcount, hnil, hpos ▸ ih hafter⟩
    | seek whence =>
      obtain ⟨after, hseek, hafter, hpos, htarget⟩ | ⟨⟨e, hseek⟩, htarget⟩ :=
        hover.seek hin whence
      · simp only [step, hseek]
        exact ⟨htarget, hpos ▸ ih hafter⟩
      · simp only [step, hseek]
        exact ⟨htarget, ih hover⟩

end

end PlainReader

/-! ## Verification implies exact re-encryption -/

/-- A body inside an image gets a verdict, and is verified exactly when encrypting the
plaintext its decryption gives reproduces it. The verdict hashes that plaintext, and
the reader hands out nothing else. -/
theorem verifyBody_reencrypts (blake3 : Bytes → Blake3) (hinverts : prims.Inverts)
    (part : PartitionHeader) (common : Key) (image : Bytes) (hin : part.Inside image) :
    ∃ verdict plain,
      verifyBody prims blake3 (.ofList image) part common = .ok verdict ∧
      output prims .decrypt part.params (part.body image) common = some plain ∧
      (verdict.verified = true ↔
        output prims .encrypt part.params plain common = some (part.body image)) ∧
      verdict.bodyHash = blake3 (part.body image) ∧
      verdict.plainHash = blake3 plain ∧
      ∀ requests, PlainReader.Yields plain 0 requests
        ((PlainReader.new prims part common).run prims (.ofList image) requests) := by
  obtain ⟨verdict, hverdict, hbody, hplain, hverified⟩ :=
    @verifyBody_spec prims part common image blake3 hin
  refine ⟨verdict, part.plaintext prims common image, hverdict, decrypt_body hin, ?_, hbody, hplain,
    fun requests => PlainReader.over_new.run hin requests⟩
  rw [hverified, encrypt_plaintext hinverts hin]

/-- A cipher that changes nothing, and one digest for everything. -/
def plainPrimitives : Primitives where
  encryptBlock _ block := block
  decryptBlock _ block := block
  sha1 _ := List.Vector.replicate SHA1_LEN 0

/-- A partition of one sector at the start of the image. -/
def oneSector : PartitionHeader where
  ticket := ⟨zeroKey, List.Vector.replicate 8 0⟩
  dataOffset := 0
  dataLen := 0x8000

theorem verifyBody_reencrypts_oneSector :
    ∃ verdict plain,
      verifyBody plainPrimitives (fun _ => 0) (.ofList (List.replicate SECTOR_LEN 0)) oneSector
        zeroKey = .ok verdict ∧
      output plainPrimitives .decrypt oneSector.params
        (oneSector.body (List.replicate SECTOR_LEN 0)) zeroKey = some plain ∧
      (verdict.verified = true ↔ output plainPrimitives .encrypt oneSector.params plain zeroKey =
        some (oneSector.body (List.replicate SECTOR_LEN 0))) := by
  have hin : oneSector.Inside (List.replicate SECTOR_LEN 0) := by
    rw [PartitionHeader.Inside, List.length_replicate]
    decide
  have hinverts : plainPrimitives.Inverts := fun _ _ => rfl
  obtain ⟨verdict, plain, hverdict, hplain, hverified, -⟩ :=
    verifyBody_reencrypts (fun _ => 0) hinverts oneSector zeroKey _ hin
  exact ⟨verdict, plain, hverdict, hplain, hverified⟩

end Datboi.Wii
