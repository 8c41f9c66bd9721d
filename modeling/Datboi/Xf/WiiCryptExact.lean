import Datboi.Xf.WiiCrypt
import Mathlib.Data.FinEnum
import Mathlib.Data.Fintype.Vector

/-!
# What the Wii component computes

Over a cipher whose decryption undoes its encryption, a sector is encrypted back
exactly when its hash block is the one the group's plaintext yields. A run over a
whole input writes what the sectors of the input become, in order.
-/

namespace Datboi.WiiCrypt

open Guest (Program)
open Reader (slice length_slice)
open Xf (collect copyAt length_copyAt)

/-! ## Chaining undone -/

theorem xor_xor (a b : Key) : xor (xor a b) b = a := by
  apply List.Vector.eq
  have hlen : a.toList.length = b.toList.length := by
    rw [List.Vector.toList_length, List.Vector.toList_length]
  refine List.ext_getElem ?_ fun i hleft hright => ?_
  · rw [List.Vector.toList_length, List.Vector.toList_length]
  · simp only [xor, List.Vector.toList_mk, List.getElem_zipWith]
    rw [UInt8.xor_assoc, UInt8.xor_self, UInt8.xor_zero]

variable {prims : Primitives}

/-- Block decryption inverts block encryption. -/
def Primitives.Inverts (prims : Primitives) : Prop :=
  ∀ key block, prims.decryptBlock key (prims.encryptBlock key block) = block

theorem cbcDecrypt_cbcEncrypt (hinverts : prims.Inverts) (key iv : Key) {data : Bytes}
    (hwhole : 16 ∣ data.length) :
    cbcDecrypt prims key iv (cbcEncrypt prims key iv data) = data := by
  have hlen := (Nat.div_mul_cancel hwhole).symm
  have hcount : (cbcEncrypt prims key iv data).length / 16 =
      (Cbc.encrypt (prims.encryptBlock key) xor iv
        (Chunks.blocks 16 (data.length / 16) data)).length := by
    rw [length_cbcEncrypt _ _ _ _ hwhole, Cbc.length_encrypt, Chunks.length_blocks hlen]
  rw [cbcDecrypt, hcount, cbcEncrypt, Chunks.blocks_flattened,
    Cbc.decrypt_encrypt xor_xor (hinverts key), Chunks.flattened_blocks hlen]

theorem cbcEncrypt_cbcDecrypt (hinverts : prims.Inverts) (key iv : Key) {data : Bytes}
    (hwhole : 16 ∣ data.length) :
    cbcEncrypt prims key iv (cbcDecrypt prims key iv data) = data := by
  have hlen := (Nat.div_mul_cancel hwhole).symm
  have hcount : (cbcDecrypt prims key iv data).length / 16 =
      (Cbc.decrypt (prims.decryptBlock key) xor iv
        (Chunks.blocks 16 (data.length / 16) data)).length := by
    rw [length_cbcDecrypt _ _ _ _ hwhole, Cbc.length_decrypt, Chunks.length_blocks hlen]
  rw [cbcEncrypt, hcount, cbcDecrypt, Chunks.blocks_flattened,
    Cbc.encrypt_decrypt xor_xor (Cbc.encipher_decipher (hinverts key)),
    Chunks.flattened_blocks hlen]

/-! ## Sectors -/

/-- Overwriting inside a hash block keeps its length. -/
theorem length_copyAt_block {out bytes : Bytes} {o bound : Nat}
    (hout : out.length = HASHES_LEN) (hbytes : bytes.length ≤ bound)
    (hfits : o + bound ≤ HASHES_LEN) : (copyAt out o bytes).length = HASHES_LEN := by
  rw [length_copyAt (by omega), hout]

@[simp] theorem length_block (hashes : GroupHashes) (sector : Nat) :
    (hashes.block sector).length = HASHES_LEN := by
  have hslice : ∀ (all : List Sha1) (start count : Nat),
      (Chunks.flattened (slice all start count)).length ≤ count * SHA1_LEN := by
    intro all start count
    rw [Chunks.length_flattened, length_slice]
    exact Nat.mul_le_mul_right _ (Nat.min_le_left _ _)
  have hh2 : (Chunks.flattened hashes.h2.toList).length ≤ 8 * SHA1_LEN := by
    rw [Chunks.length_flattened, List.Vector.toList_length]
    decide
  have hzero : (List.replicate HASHES_LEN (0 : UInt8)).length = HASHES_LEN :=
    List.length_replicate
  have hwithH0 := length_copyAt_block hzero
    (hslice hashes.h0 (sector * H0_PER_SECTOR) H0_PER_SECTOR) (o := 0) (by decide)
  have hwithH1 := length_copyAt_block hwithH0 (hslice hashes.h1.toList
    (sector / SUBGROUP_SECTORS * SUBGROUP_SECTORS) SUBGROUP_SECTORS) (o := H1_OFFSET)
    (by decide)
  exact length_copyAt_block hwithH1 hh2 (by decide)

variable {key : Key} {enc : Bytes}

theorem length_decryptData (hlen : enc.length = SECTOR_LEN) :
    (decryptData prims key enc).length = DATA_LEN := by
  have hdrop : (enc.drop HASHES_LEN).length = DATA_LEN := by rw [List.length_drop, hlen]
  rw [decryptData, length_cbcDecrypt _ _ _ _ (by rw [hdrop]; decide), hdrop]

/-- Dropping the hash block of a decrypted sector leaves its data. -/
theorem drop_decryptSector (hlen : enc.length = SECTOR_LEN) :
    (decryptSector prims key enc).drop HASHES_LEN = decryptData prims key enc := by
  have htake : (enc.take HASHES_LEN).length = HASHES_LEN := by
    rw [List.length_take, hlen]
    rfl
  refine List.drop_left' ?_
  rw [length_cbcDecrypt _ _ _ _ (by rw [htake]; decide), htake]

theorem length_encryptSector {hashes : GroupHashes} {sector : Nat} {data : Bytes}
    (hdata : data.length = DATA_LEN) :
    (encryptSector prims key hashes sector data).length = SECTOR_LEN := by
  rw [encryptSector, List.length_append,
    length_cbcEncrypt _ _ _ _ (by rw [length_block]; decide),
    length_cbcEncrypt _ _ _ _ (by rw [hdata]; decide), length_block, hdata]
  decide

/-- The initial value is read inside the hash block. -/
theorem dataIv_take (enc : Bytes) : dataIv (enc.take HASHES_LEN) = dataIv enc := by
  apply List.Vector.ext
  intro i
  have hi : DATA_IV_OFFSET + i.val < HASHES_LEN :=
    Nat.lt_of_lt_of_le (Nat.add_lt_add_left i.isLt DATA_IV_OFFSET) (by decide)
  simp only [dataIv, List.Vector.get_ofFn, List.getD_eq_getElem?_getD, List.getElem?_take, if_pos hi]

/-- Encrypting a sector's data again gives the sector back exactly when its hash block is
the one the group's hashes give. -/
theorem encryptSector_decryptData (hinverts : prims.Inverts) (hlen : enc.length = SECTOR_LEN)
    (hashes : GroupHashes) (sector : Nat) :
    encryptSector prims key hashes sector (decryptData prims key enc) = enc ↔
      hashBlockMatches (decryptSector prims key enc) hashes sector = true := by
  have htake : (enc.take HASHES_LEN).length = HASHES_LEN := by
    rw [List.length_take, hlen]
    rfl
  have hdrop : (enc.drop HASHES_LEN).length = DATA_LEN := by rw [List.length_drop, hlen]
  have hwholeTake : 16 ∣ (enc.take HASHES_LEN).length := by
    rw [htake]
    decide
  have hwholeDrop : 16 ∣ (enc.drop HASHES_LEN).length := by
    rw [hdrop]
    decide
  have hwholeBlock : 16 ∣ (hashes.block sector).length := by
    rw [length_block]
    decide
  have hhead : (decryptSector prims key enc).take HASHES_LEN =
      cbcDecrypt prims key zeroKey (enc.take HASHES_LEN) := by
    refine List.take_left' ?_
    rw [length_cbcDecrypt _ _ _ _ hwholeTake, htake]
  have hencrypted : (cbcEncrypt prims key zeroKey (hashes.block sector)).length = HASHES_LEN := by
    rw [length_cbcEncrypt _ _ _ _ hwholeBlock, length_block]
  rw [hashBlockMatches, beq_iff_eq, hhead]
  constructor
  · intro heq
    have hblock : cbcEncrypt prims key zeroKey (hashes.block sector) = enc.take HASHES_LEN := by
      rw [← heq, encryptSector, List.take_left' hencrypted]
    rw [← hblock, cbcDecrypt_cbcEncrypt hinverts _ _ hwholeBlock]
  · intro hblock
    have henc : cbcEncrypt prims key zeroKey (hashes.block sector) = enc.take HASHES_LEN := by
      rw [← hblock, cbcEncrypt_cbcDecrypt hinverts _ _ hwholeTake]
    rw [encryptSector, henc, dataIv_take, decryptData,
      cbcEncrypt_cbcDecrypt hinverts _ _ hwholeDrop, List.take_append_drop]

/-! ## Whole runs -/

section Runs

variable {common : Key} {p : Params} {other : Guest.Input IoError UInt8} {body written : Bytes}

/-- With both inputs streamed, the run is the operation's. -/
theorem output_eq (op : Op) (body : Bytes) (common : Key) :
    output prims op p body common =
      collect ((runBody prims op p (titleKey prims common p.wrappedTitleKey p.titleId)
        body.length).run maxRead
          ⟨[.sequential (.feed body 0), .sequential (.feed common.toList 16)], [.open []]⟩) := by
  have hlen := common.toList_length
  have hkey : slice common.toList 0 16 = common.toList := by
    rw [slice, List.drop_zero, List.take_of_length_le (Nat.le_of_eq hlen)]
  have hfits : 0 + 16 ≤ common.toList.length := by rw [hlen]
  have hstart : (run prims op p [.sequential, .sequential] 1).run maxRead
      ⟨[.sequential (.feed body 0), (.sequential (.feed common.toList 0) :
        Guest.Input IoError UInt8)], [.open []]⟩ =
      (runBody prims op p (titleKey prims common p.wrappedTitleKey p.titleId)
        body.length).run maxRead
          ⟨[.sequential (.feed body 0), .sequential (.feed common.toList 16)], [.open []]⟩ := by
    have hcount : (Guest.Input.sequential (.feed common.toList 0) :
        Guest.Input IoError UInt8).len = 16 := hlen
    simp only [run, commonKey, ne_eq, not_true_eq_false, if_false, Program.run,
      List.getElem?_cons_succ, List.getElem?_cons_zero, hcount]
    rw [Program.run_readExact_feed rfl (by decide) hfits]
    simp only [hkey, hlen, dif_pos]
    rfl
  unfold output
  simp only [hstart]

/-- Decrypting writes the data of one sector after another. -/
theorem decryptSectors_run {done rest : Nat} (hlen : body.length = (done + rest) * SECTOR_LEN) :
    (decryptSectors prims key rest).run maxRead
        ⟨[.sequential (.feed body (done * SECTOR_LEN)), other], [.open written]⟩ =
      (.done, ⟨[.sequential (.feed body ((done + rest) * SECTOR_LEN)), other],
        [.open (written ++ (List.range rest).flatMap fun j =>
          decryptData prims key (slice body ((done + j) * SECTOR_LEN) SECTOR_LEN))]⟩) := by
  induction rest generalizing done written with
  | zero => simp [decryptSectors, Program.run]
  | succ rest ih =>
    have hfits : done * SECTOR_LEN + SECTOR_LEN ≤ body.length := by
      rw [hlen, ← Nat.succ_mul]
      exact Nat.mul_le_mul_right _ (by omega)
    have hnext : done * SECTOR_LEN + SECTOR_LEN = (done + 1) * SECTOR_LEN :=
      (Nat.succ_mul _ _).symm
    have hregroup : done + 1 + rest = done + (rest + 1) := by omega
    rw [decryptSectors, Program.run_readExact_feed rfl (by decide) hfits,
      Program.run_write_open rfl]
    simp only [List.set_cons_zero]
    rw [hnext, ih (by rw [hlen, hregroup]), hregroup, Nat.add_comm rest 1,
      Chunks.flatMap_range_add, List.append_assoc]
    simp [Nat.add_assoc]

/-- The plaintext of a group, out of the plaintext of the sectors. -/
def groupData (p : Params) (data : Nat → Bytes) (g : Nat) : Bytes :=
  (List.range (groupSectors p g)).flatMap fun j => data (g * GROUP_SECTORS + j)

/-- What sector `s` of the plaintext is encrypted to. -/
def encrypted (prims : Primitives) (key : Key) (p : Params) (data : Nat → Bytes) (s : Nat) :
    Bytes :=
  encryptSector prims key (GroupHashes.compute prims (groupData p data (s / GROUP_SECTORS)))
    (s % GROUP_SECTORS) (data s)

variable {data : Nat → Bytes} (hdata : ∀ s < p.sectors, (data s).length = DATA_LEN)

include hdata

theorem encryptGroup_flatten {g : Nat} :
    (encryptGroup prims key (groupSectors p g) (groupData p data g)).flatten =
      (List.range (groupSectors p g)).flatMap fun j =>
        encrypted prims key p data (g * GROUP_SECTORS + j) := by
  have hsector : ∀ j < groupSectors p g, (data (g * GROUP_SECTORS + j)).length = DATA_LEN := by
    intro j hj
    rw [groupSectors] at hj
    exact hdata _ (by omega)
  rw [encryptGroup, ← List.flatMap_def]
  refine List.flatMap_congr fun j hj => ?_
  rw [List.mem_range] at hj
  have hslice := Chunks.slice_flatMap_range_one hsector hj
  have hj64 : j < 64 := Nat.lt_of_lt_of_le hj (Nat.min_le_right _ _)
  have hdiv : (g * 64 + j) / 64 = g := by omega
  have hmod : (g * 64 + j) % 64 = j := by omega
  rw [encrypted, hdiv, hmod, ← hslice]
  rfl

/-- Encrypting writes the ciphertext of one group after another. -/
theorem encryptGroups_run {g m : Nat} (hgroups : ∀ h < g + m, h * GROUP_SECTORS < p.sectors) :
    ∃ left, (encryptGroups prims key p (List.range' g m)).run maxRead
        ⟨[.sequential (.feed ((List.range p.sectors).flatMap data)
          (min (g * GROUP_SECTORS) p.sectors * DATA_LEN)), other], [.open written]⟩ =
      (.done, ⟨left, [.open (written ++ (List.range m).flatMap fun h =>
        (encryptGroup prims key (groupSectors p (g + h)) (groupData p data (g + h))).flatten)]⟩) := by
  induction m generalizing g written with
  | zero =>
    refine ⟨[.sequential (.feed ((List.range p.sectors).flatMap data)
      (min (g * GROUP_SECTORS) p.sectors * DATA_LEN)), other], ?_⟩
    rw [List.range'_zero, encryptGroups, Program.run, List.range_zero, List.flatMap_nil,
      List.append_nil]
  | succ m ih =>
    have hstart := hgroups g (by omega)
    have hin : g * GROUP_SECTORS + groupSectors p g ≤ p.sectors := by
      rw [groupSectors]
      omega
    have hlen := Chunks.length_flatMap_range hdata
    have hmax : groupSectors p g * DATA_LEN ≤ maxRead :=
      Nat.le_trans (Nat.mul_le_mul_right _ (Nat.min_le_right _ _)) (by decide)
    have hfits : g * GROUP_SECTORS * DATA_LEN + groupSectors p g * DATA_LEN ≤
        ((List.range p.sectors).flatMap data).length := by
      rw [hlen, ← Nat.add_mul]
      exact Nat.mul_le_mul_right _ hin
    have hnext : g * GROUP_SECTORS + groupSectors p g =
        min ((g + 1) * GROUP_SECTORS) p.sectors := by
      rw [groupSectors, Nat.succ_mul]
      omega
    obtain ⟨left, hrest⟩ := @ih (written ++
      (encryptGroup prims key (groupSectors p g) (groupData p data g)).flatten) (g + 1)
      fun h hh => hgroups h (by omega)
    refine ⟨left, ?_⟩
    rw [List.range'_succ, encryptGroups, Nat.min_eq_left (by omega)]
    rw [Program.run_readExact_feed rfl hmax hfits, Program.run_writeAll_open rfl]
    simp only [List.set_cons_zero]
    rw [Chunks.slice_flatMap_range hdata hin, ← groupData, ← Nat.add_mul, hnext, hrest,
      Nat.add_comm m 1, Chunks.flatMap_range_add, List.append_assoc]
    simp [Nat.add_assoc]

/-- The component's encrypt, over the plaintext of whole sectors. -/
theorem output_encrypt (common : Key) :
    output prims .encrypt p ((List.range p.sectors).flatMap data) common =
      some ((List.range p.sectors).flatMap
        (encrypted prims (titleKey prims common p.wrappedTitleKey p.titleId) p data)) := by
  have hlen : ((List.range p.sectors).flatMap data).length = p.plainLen :=
    Chunks.length_flatMap_range hdata
  have hgroups : ∀ h < 0 + (p.sectors + (GROUP_SECTORS - 1)) / GROUP_SECTORS,
      h * GROUP_SECTORS < p.sectors := by
    intro h hh
    have hle : h + 1 ≤ (p.sectors + (GROUP_SECTORS - 1)) / GROUP_SECTORS := by omega
    have hmul := (Nat.le_div_iff_mul_le (by decide)).mp hle
    simp only [GROUP_SECTORS] at hmul ⊢
    omega
  have hall : p.sectors ≤ (p.sectors + (GROUP_SECTORS - 1)) / GROUP_SECTORS * GROUP_SECTORS := by
    simp only [GROUP_SECTORS]
    omega
  have hstart : min (0 * GROUP_SECTORS) p.sectors * DATA_LEN = 0 := by simp
  have hrun := @encryptGroups_run prims (titleKey prims common p.wrappedTitleKey p.titleId) p
    (.sequential (.feed common.toList 16)) [] data hdata 0
    ((p.sectors + (GROUP_SECTORS - 1)) / GROUP_SECTORS) hgroups
  rw [hstart, ← List.range_eq_range'] at hrun
  obtain ⟨left, hrun⟩ := hrun
  have hwritten : ((List.range ((p.sectors + (GROUP_SECTORS - 1)) / GROUP_SECTORS)).flatMap fun h =>
      (encryptGroup prims (titleKey prims common p.wrappedTitleKey p.titleId)
        (groupSectors p (0 + h)) (groupData p data (0 + h))).flatten) =
      (List.range p.sectors).flatMap
        (encrypted prims (titleKey prims common p.wrappedTitleKey p.titleId) p data) := by
    have hregroup := Chunks.flatMap_range_groups
      (encrypted prims (titleKey prims common p.wrappedTitleKey p.titleId) p data)
      p.sectors GROUP_SECTORS ((p.sectors + (GROUP_SECTORS - 1)) / GROUP_SECTORS)
    rw [Nat.min_eq_right hall] at hregroup
    rw [← hregroup]
    refine List.flatMap_congr fun h _ => ?_
    rw [Nat.zero_add, encryptGroup_flatten hdata]
    rfl
  rw [hwritten] at hrun
  rw [output_eq, hlen, runBody]
  simp only [ne_eq, not_true_eq_false, if_false, hrun]
  rfl

omit hdata in
/-- The component's decrypt, over whole sectors. -/
theorem output_decrypt (common : Key) (hlen : body.length = p.encryptedLen) :
    output prims .decrypt p body common =
      some ((List.range p.sectors).flatMap fun s =>
        decryptData prims (titleKey prims common p.wrappedTitleKey p.titleId)
          (slice body (s * SECTOR_LEN) SECTOR_LEN)) := by
  have hrun := @decryptSectors_run prims (titleKey prims common p.wrappedTitleKey p.titleId)
    (.sequential (.feed common.toList 16)) body [] 0 p.sectors (by rw [hlen, Nat.zero_add]; rfl)
  rw [Nat.zero_mul] at hrun
  rw [output_eq, hlen, runBody]
  simp only [ne_eq, not_true_eq_false, if_false, hrun, Nat.zero_add]
  rfl

end Runs

end Datboi.WiiCrypt
