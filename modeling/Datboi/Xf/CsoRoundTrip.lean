import Datboi.Xf.CsoPaths

/-!
# What the decompressor makes of a container

Every block but the last is got back. The last one needs the end of the container to be
aligned, and the index has to fit in one host read; under the two conditions, and only then,
decompressing undoes compressing.
-/

namespace Datboi.Cso

open Guest (Program)
open Reader (slice)
open Xf (collect)

variable {p : Packing}

/-! ## Blocks and entries -/

/-- A block can be got when another one follows it, or nothing is missing at the end. -/
theorem decodeBlock_extent (hinflates : p.codec.Inflates) {i : Nat} (hi : i < p.count)
    (hlast : i + 1 < p.count ∨ p.Aligned) :
    p.start (i + 1) ≤ p.container.length ∧
      decodeBlock p.codec (slice p.container (p.start i) (p.start (i + 1) - p.start i))
        (p.stored i) (p.plainLen i) i = .ok (p.plain i) := by
  by_cases hmiddle : i + 1 < p.count
  · refine ⟨?_, ?_⟩
    · exact Nat.le_trans (Placement.start_le_finish_succ (i + 1))
        (Packing.finish_le_length (i + 1 + 1) hmiddle)
    · rw [Packing.extent_of_lt hmiddle, Packing.decodeBlock_block hinflates]
  · have hend : i + 1 = p.count := by omega
    have haligned : p.Aligned := hlast.resolve_left hmiddle
    refine ⟨?_, ?_⟩
    · rw [Packing.length_container, hend]
      exact Nat.le_of_eq ((Placement.alignUp_eq_self_iff Packing.unit_pos _).mpr haligned)
    · rw [Packing.extent_of_aligned hend haligned, ← List.append_nil (p.block i),
        Packing.decodeBlock_block hinflates]

theorem length_container_lt (hnot : ¬ p.Aligned) : p.container.length < p.start p.count := by
  rw [Packing.length_container]
  refine Nat.lt_of_le_of_ne (Packing.finish_le_start _) fun heq => hnot ?_
  exact (Placement.alignUp_eq_self_iff Packing.unit_pos _).mp heq.symm

theorem getElem?_entries {first n j : Nat} (hj : j < n) :
    ((List.range n).map fun j => p.entry (first + j))[j]? = some (p.entry (first + j)) := by
  rw [List.getElem?_map, List.getElem?_range hj, Option.map_some]

/-! ## The whole image -/

/-- The blocks from `i` on are written in order, if the last one can be got. -/
theorem collect_inflatePass (hinflates : p.codec.Inflates) (hfits : p.Fits) {k i : Nat}
    (hend : i + k = p.count) {filePos : Nat} (hlow : p.finish i ≤ filePos)
    (hhigh : filePos ≤ p.start i) {written : Bytes} :
    collect ((inflatePass p.codec p.params.align
        ((List.range (p.count + 1)).map fun j => p.entry (0 + j))
        ((List.range' i k).map fun j => (p.plainLen j, j)) filePos).run maxRead
        (ports (.sequential (.feed p.container filePos)) written)) =
      if k = 0 ∨ p.Aligned then some (written ++ p.image.drop (i * p.bs)) else none := by
  induction k generalizing i filePos written with
  | zero =>
    obtain rfl : i = p.count := hend
    rw [if_pos (Or.inl rfl), List.drop_eq_nil_of_le Packing.length_image_le, List.append_nil]
    rfl
  | succ k ih =>
    have hi : i < p.count := by omega
    have hentry := @getElem?_entries p 0 (p.count + 1) i (by omega)
    have hafter := @getElem?_entries p 0 (p.count + 1) (i + 1) (by omega)
    rw [Nat.zero_add] at hentry hafter
    have hmono : p.start i ≤ p.start (i + 1) := Packing.start_le_start_succ i
    have hback : ¬ (p.start i < filePos ∨ p.start (i + 1) < p.start i) := by omega
    have hin : p.start i ≤ p.container.length :=
      Nat.le_trans (Placement.start_le_finish_succ i) (Packing.finish_le_length (i + 1) hi)
    have hnone : ¬ (k + 1 = 0 ∨ p.Aligned) ↔ ¬ p.Aligned := by simp
    -- The block itself, from its own offset.
    have hblock : collect ((readExactSeq 0 (p.start (i + 1) - p.start i) "block extent"
        fun extent =>
          orRefuse (decodeBlock p.codec extent (p.stored i) (p.plainLen i) i) fun plain =>
            .write 0 plain (inflatePass p.codec p.params.align
              ((List.range (p.count + 1)).map fun j => p.entry (0 + j))
              ((List.range' (i + 1) k).map fun j => (p.plainLen j, j)) (p.start (i + 1)))).run
        maxRead (ports (.sequential (.feed p.container (p.start i))) written)) =
        if k + 1 = 0 ∨ p.Aligned then some (written ++ p.image.drop (i * p.bs)) else none := by
      by_cases hlast : i + 1 < p.count ∨ p.Aligned
      · obtain ⟨hfull, hdecode⟩ := decodeBlock_extent hinflates hi hlast
        have hrest := @ih (i + 1) (by omega) (p.start (i + 1)) (Packing.finish_le_start _)
          (Nat.le_refl _) (written ++ p.plain i)
        have hcond : (k = 0 ∨ p.Aligned) ↔ (k + 1 = 0 ∨ p.Aligned) := by
          constructor
          · rintro (rfl | haligned)
            · exact Or.inr (hlast.resolve_left (by omega))
            · exact Or.inr haligned
          · rintro (hzero | haligned)
            · omega
            · exact Or.inr haligned
        rw [run_readExactSeq (Packing.extent_le i) (by omega), Nat.add_sub_cancel' hmono]
        simp only [hdecode, orRefuse, run_write, hrest, hcond, List.append_assoc, p.plain_append_drop i]
      · have hshort := @length_container_lt p fun haligned => hlast (Or.inr haligned)
        have hcount : i + 1 = p.count := by omega
        rw [← hcount] at hshort
        rw [if_neg (hnone.mpr fun haligned => hlast (Or.inr haligned)),
          collect_readExactSeq_short hin (by omega)]
    rw [List.range'_succ, List.map_cons, inflatePass]
    simp only [hentry, hafter, Packing.entryOffset_entry hfits (Nat.le_of_lt hi),
      Packing.entryOffset_entry hfits (Nat.succ_le_of_lt hi), Packing.entry_and_flag hfits hi,
      if_neg hback]
    split
    · rename_i hgap
      have hunit := @Packing.unit_le p
      have hlt := p.start_lt i
      have hmax : maxRead = 2 ^ 24 := rfl
      rw [run_readExactSeq (by omega) (by omega), Nat.add_sub_cancel' hhigh]
      exact hblock
    · rename_i hnogap
      obtain rfl : filePos = p.start i := by omega
      exact hblock

/-- The header is read, and says what the image is. -/
theorem parse_header (hfits : p.Fits) :
    parseHeader (slice p.container 0 HEADER_LEN) = .ok p.header ∧
      p.header.total.toNat = p.image.length := by
  have hlen : p.image.length < 2 ^ 64 := by
    have hentries := hfits.entries
    calc p.image.length ≤ p.count * p.bs := Packing.length_image_le
      _ ≤ 2 ^ 31 * 2 ^ 20 := Nat.mul_le_mul (by omega) Packing.bs_le
      _ < 2 ^ 64 := by decide
  refine ⟨?_, ?_⟩
  · rw [Packing.slice_header]
    exact parseHeader_encodeHeader p.params.hsize.2
  · exact (UInt64.toNat_ofNat').trans (Nat.mod_eq_of_lt hlen)

/-- A slice of the index is read back. -/
theorem parse_index (hfits : p.Fits) {first n : Nat} (hin : first + n ≤ p.count + 1) :
    parseIndex (slice p.container (HEADER_LEN + first * 4) (n * 4)) =
      (List.range n).map fun j => p.entry (first + j) := by
  rw [Packing.slice_index hin]
  exact parseIndex_entries fun j hj => Packing.entry_lt hfits (by omega)

theorem headEnd_le_length : p.headEnd ≤ p.container.length :=
  Packing.finish_le_length 0 (Nat.zero_le _)

theorem zipIdx_blockLens :
    (blockLens p.image.length p.bs).zipIdx =
      (List.range' 0 p.count).map fun j => (p.plainLen j, j) := by
  rw [Packing.blockLens_eq]
  refine List.ext_getElem (by simp) fun i hleft hright => ?_
  simp

theorem decompressed_eq (hinflates : p.codec.Inflates) (hfits : p.Fits) :
    decompressed p.codec p.container =
      if (p.count + 1) * 4 ≤ maxRead ∧ (p.count = 0 ∨ p.Aligned) then some p.image else none := by
  obtain ⟨hparse, htotal⟩ := parse_header hfits
  have hentries := hfits.entries
  have hhead := @headEnd_le_length p
  have hwrap : wrap64 ((p.count + 1) * 4) = (p.count + 1) * 4 := by
    rw [wrap64, Nat.mod_eq_of_lt (by omega)]
  have hwrapEnd : wrap64 (HEADER_LEN + (p.count + 1) * 4) = p.headEnd := by
    have hheader : HEADER_LEN = 24 := rfl
    rw [wrap64, Nat.mod_eq_of_lt (by omega), Packing.headEnd]
  have hindex := @parse_index p hfits 0 (p.count + 1) (by omega)
  have hrun := @collect_inflatePass p hinflates hfits p.count 0 (Nat.zero_add _) p.headEnd
    (Nat.le_refl _) (Packing.finish_le_start 0) []
  rw [Packing.headEnd] at hhead
  change collect ((decompress p.codec).run maxRead _) = _
  rw [decompress, run_readExactSeq (by decide) (by omega)]
  simp only [hparse, htotal]
  change collect ((readExactSeq 0 (wrap64 ((p.count + 1) * 4)) "index" fun bytes =>
    inflatePass p.codec p.params.align (parseIndex bytes) (blockLens p.image.length p.bs).zipIdx
      (wrap64 (HEADER_LEN + wrap64 ((p.count + 1) * 4)))).run maxRead
        (ports (.sequential (.feed p.container HEADER_LEN)) [])) = _
  rw [hwrap, hwrapEnd, zipIdx_blockLens]
  by_cases hmax : (p.count + 1) * 4 ≤ maxRead
  · rw [run_readExactSeq hmax hhead, hindex]
    simpa [hmax, Packing.headEnd] using hrun
  · rw [collect_readExactSeq_long (Nat.lt_of_not_le hmax), if_neg fun hboth => hmax hboth.1]

/-! ## Windows -/

theorem fits_container (hfits : p.Fits) : Fits p.container := by
  intro header hparse
  obtain ⟨hheader, htotal⟩ := parse_header hfits
  obtain rfl := Except.ok.inj (hheader.symm.trans hparse)
  have hentries := hfits.entries
  have halign := p.params.halign
  refine .inr ⟨?_, .inl ?_⟩
  · rw [htotal]
    change p.count * 4 + 20 < 2 ^ 64
    omega
  · change p.params.align.toNat < 64
    omega

/-! ## The round trip -/

theorem count_eq_zero_iff : p.count = 0 ↔ p.image = [] := by
  constructor
  · intro hzero
    have hlen := @Packing.length_image_le p
    rw [hzero, Nat.zero_mul] at hlen
    exact List.eq_nil_of_length_eq_zero (Nat.le_zero.mp hlen)
  · intro hempty
    refine Nat.eq_zero_of_not_pos fun hpos => ?_
    have hlt := Packing.lt_count_iff.mp hpos
    rw [hempty] at hlt
    exact absurd hlt (Nat.not_lt_zero _)

/-- The plaintext of the last block. -/
def lastBlock (params : CompressParams) (image : Bytes) : Bytes :=
  let bs := params.blockSize.toNat
  image.drop ((divCeil image.length bs - 1) * bs)

/-- The blocks end at a multiple of the alignment when the last one fills its units. -/
theorem aligned_iff (hsome : p.image ≠ []) :
    p.Aligned ↔ 2 ^ p.params.align.toNat ∣
      (deflateBlock p.codec (lastBlock p.params p.image) p.params.level).1.length := by
  obtain ⟨m, hm⟩ := Nat.exists_eq_succ_of_ne_zero fun hzero => hsome (count_eq_zero_iff.mp hzero)
  have hplain : p.plain m = lastBlock p.params p.image := by
    have happend := p.plain_append_drop m
    have hend := @Packing.length_image_le p
    rw [hm] at hend
    rw [List.drop_eq_nil_of_le hend, List.append_nil] at happend
    rw [happend, lastBlock]
    change _ = p.image.drop ((p.count - 1) * p.bs)
    rw [hm, Nat.succ_sub_one]
  rw [← hplain, ← Packing.unit_eq, Packing.Aligned, hm]
  exact Placement.dvd_finish_succ_iff m

/-- Decompressing undoes compressing when the index fits in one host read and the last block
leaves no padding to be written after it, and only then. -/
theorem compressed_roundTrip_iff {codec : Codec} (hinflates : codec.Inflates)
    {paramBytes image cso : Bytes} {params : CompressParams}
    (hparams : decodeParams paramBytes = .ok params)
    (hout : compressed codec paramBytes image = some cso) :
    (decompressed codec cso = some image ∧ ∀ offset len : UInt64,
      served codec cso offset len = some (slice image offset.toNat len.toNat)) ↔
    (divCeil image.length params.blockSize.toNat + 1) * 4 ≤ maxRead ∧
      (image = [] ∨ 2 ^ params.align.toNat ∣
        (deflateBlock codec (lastBlock params image) params.level).1.length) := by
  let p : Packing := ⟨codec, params, image⟩
  obtain ⟨hfits, rfl⟩ := @compressed_eq p paramBytes cso hparams hout
  have hdecompressed := @decompressed_eq p hinflates hfits
  have hlast : (p.count = 0 ∨ p.Aligned) ↔ (image = [] ∨ 2 ^ params.align.toNat ∣
      (deflateBlock codec (lastBlock params image) params.level).1.length) := by
    rw [count_eq_zero_iff]
    by_cases hempty : image = []
    · exact iff_of_true (Or.inl hempty) (Or.inl hempty)
    · exact or_congr_right (aligned_iff hempty)
  rw [← hlast]
  change (decompressed codec p.container = some image ∧ _) ↔ (p.count + 1) * 4 ≤ maxRead ∧ _
  constructor
  · rintro ⟨hwhole, _⟩
    by_contra hnot
    rw [if_neg hnot, hwhole] at hdecompressed
    cases hdecompressed
  · intro hboth
    rw [if_pos hboth] at hdecompressed
    refine ⟨hdecompressed, fun offset len => ?_⟩
    exact agrees_of_fits (fits_container hfits) image hdecompressed offset len

/-- Deflate streams with a stored block for each byte, apart from one fixed-code stream. -/
def inflateStored : Bytes → Except String Bytes
  | 0x4B :: 0x04 :: 0x00 :: _ => .ok [0x61]
  | 0 :: 1 :: 0 :: 0xFE :: 0xFF :: byte :: rest => (inflateStored rest).map (byte :: ·)
  | 1 :: 0 :: 0 :: 0xFF :: 0xFF :: _ => .ok []
  | _ => .error "Failed"

def deflateStored (plain : Bytes) : Bytes :=
  plain.flatMap (fun byte => [0, 1, 0, 0xFE, 0xFF, byte]) ++ [1, 0, 0, 0xFF, 0xFF]

def storedCodec : Codec where
  deflate plain _ := if plain = [0x61] then [0x4B, 0x04, 0x00] else deflateStored plain
  inflate := inflateStored

theorem inflateStored_deflateStored (plain rest : Bytes) :
    inflateStored (deflateStored plain ++ rest) = .ok plain := by
  induction plain with
  | nil => rfl
  | cons byte plain ih =>
    have hcons : deflateStored (byte :: plain) ++ rest =
        0 :: 1 :: 0 :: 0xFE :: 0xFF :: byte :: (deflateStored plain ++ rest) := rfl
    rw [hcons, inflateStored, ih]
    rfl

theorem storedCodec_inflates : storedCodec.Inflates := by
  intro plain level rest
  by_cases hsample : plain = [0x61]
  · subst hsample
    rfl
  · change inflateStored ((if plain = [0x61] then _ else deflateStored plain) ++ rest) = _
    rw [if_neg hsample]
    exact inflateStored_deflateStored plain rest

theorem compressed_roundTrip_iff_oneByte :
    ∃ cso, compressed storedCodec [] [0x61] = some cso ∧
      ((decompressed storedCodec cso = some [0x61] ∧ ∀ offset len : UInt64,
        served storedCodec cso offset len = some (slice [0x61] offset.toNat len.toNat)) ↔
      (divCeil ([0x61] : Bytes).length (default : CompressParams).blockSize.toNat + 1) * 4 ≤ maxRead ∧
        (([0x61] : Bytes) = [] ∨ 2 ^ (default : CompressParams).align.toNat ∣
          (deflateBlock storedCodec (lastBlock default [0x61])
            (default : CompressParams).level).1.length)) := by
  have hsome : (compressed storedCodec [] [0x61]).isSome = true := by decide +kernel
  obtain ⟨cso, hcso⟩ := Option.isSome_iff_exists.mp hsome
  exact ⟨cso, hcso, compressed_roundTrip_iff storedCodec_inflates rfl hcso⟩

/-- With alignment two, an image of one byte leaves one byte of padding out. -/
theorem decompressed_unaligned :
    storedCodec.Inflates ∧ ∃ cso, compressed storedCodec [0xA1, 0x03, 0x01] [0x61] = some cso ∧
      decompressed storedCodec cso = none := by
  have hrun : ((compressed storedCodec [0xA1, 0x03, 0x01] [0x61]).any
      fun cso => decompressed storedCodec cso = none) = true := by decide +kernel
  cases hcso : compressed storedCodec [0xA1, 0x03, 0x01] [0x61] with
  | none =>
    rw [hcso] at hrun
    cases hrun
  | some cso =>
    rw [hcso, Option.any_some, decide_eq_true_eq] at hrun
    exact ⟨storedCodec_inflates, cso, rfl, hrun⟩

end Datboi.Cso
