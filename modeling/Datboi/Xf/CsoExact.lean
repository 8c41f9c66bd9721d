import Datboi.Xf.Cso
import Mathlib.Data.Nat.Bitwise

/-!
# The compressor and the decompressor place the same blocks

The two passes of the compressor lay the blocks out alike, so the container is known byte
for byte, and every entry of its index is the offset of a block. The sentinel, however, is
rounded up to the alignment while nothing is written after the last block: an end that is
not aligned leaves the last block's extent short. And an index longer than one host read is
never got.
-/

namespace Datboi.Cso

open Guest (Program)
open Placement (alignUp)
open Reader (slice)
open Xf (collect)

/-! ## Numbers -/

theorem lt_divCeil_iff {n k i : Nat} (hk : 0 < k) : i < divCeil n k ↔ i * k < n := by
  rw [divCeil, ← Nat.succ_le_iff, Nat.le_div_iff_mul_le hk, Nat.succ_mul]
  omega

section

variable {offset : Nat} (hfits : offset ≤ OFFSET_MASK)

include hfits

theorem indexEntry_and_mask (stored : Bool) :
    indexEntry offset stored &&& OFFSET_MASK = offset := by
  have hlt : offset < 2 ^ 31 := Nat.lt_of_le_of_lt hfits (by decide)
  have hmask : OFFSET_MASK = 2 ^ 31 - 1 := by decide
  have hflag : STORED_FLAG = 2 ^ 31 * 1 := by decide
  rw [hmask, Nat.and_two_pow_sub_one_eq_mod, indexEntry]
  split
  · rw [Nat.or_comm, hflag, ← Nat.two_pow_add_eq_or_of_lt hlt, Nat.mul_one,
      Nat.add_mod_left, Nat.mod_eq_of_lt hlt]
  · exact Nat.mod_eq_of_lt hlt

theorem indexEntry_and_flag (stored : Bool) :
    decide (indexEntry offset stored &&& STORED_FLAG ≠ 0) = stored := by
  have hlt : offset < 2 ^ 31 := Nat.lt_of_le_of_lt hfits (by decide)
  have hflag : STORED_FLAG = 2 ^ 31 := by decide
  have hbit : offset.testBit 31 = false := Nat.testBit_lt_two_pow hlt
  cases stored with
  | true =>
    rw [indexEntry, if_pos rfl, hflag, Nat.and_two_pow, Nat.testBit_or, hbit,
      Nat.testBit_two_pow_self]
    rfl
  | false =>
    rw [indexEntry, if_neg (by decide), hflag, Nat.and_two_pow, hbit]
    rfl

theorem indexEntry_lt (stored : Bool) : indexEntry offset stored < 2 ^ 32 := by
  have hlt : offset < 2 ^ 32 := Nat.lt_of_le_of_lt hfits (by decide)
  rw [indexEntry]
  split
  · exact Nat.or_lt_two_pow hlt (by decide)
  · exact hlt

end

/-! ## Header and index -/

@[simp] theorem length_encodeHeader (h : Header) : (encodeHeader h).length = HEADER_LEN := by
  simp [encodeHeader]

/-- The parser reads back every header with a block size that is a power of two. -/
theorem parseHeader_encodeHeader {h : Header} (hsize : isPowerOfTwo h.blockSize.toNat) :
    parseHeader (encodeHeader h) = .ok h := by
  have hmagic : slice (encodeHeader h) 0 4 = [0x43, 0x49, 0x53, 0x4F] := by
    rw [encodeHeader, List.append_assoc, List.append_assoc, List.append_assoc]
    exact Reader.slice_middle [] [0x43, 0x49, 0x53, 0x4F] _
  have htotal : slice (encodeHeader h) 8 8 = Wire.toLe 8 h.total.toNat := by
    have hfront : ([0x43, 0x49, 0x53, 0x4F] ++ Wire.toLe 4 HEADER_LEN).length = 8 := by
      rw [List.length_append, Wire.length_toLe]
      rfl
    have hlen := Wire.length_toLe 8 h.total.toNat
    have hmiddle := Reader.slice_middle ([0x43, 0x49, 0x53, 0x4F] ++ Wire.toLe 4 HEADER_LEN)
      (Wire.toLe 8 h.total.toNat) (Wire.toLe 4 h.blockSize.toNat ++ [1, h.align, 0, 0])
    rwa [hfront, hlen, ← List.append_assoc, ← List.append_assoc] at hmiddle
  have hblock : slice (encodeHeader h) 16 4 = Wire.toLe 4 h.blockSize.toNat := by
    have hfront : ([0x43, 0x49, 0x53, 0x4F] ++ Wire.toLe 4 HEADER_LEN ++
        Wire.toLe 8 h.total.toNat).length = 16 := by
      rw [List.length_append, List.length_append, Wire.length_toLe, Wire.length_toLe]
      rfl
    have hlen := Wire.length_toLe 4 h.blockSize.toNat
    have hmiddle := Reader.slice_middle ([0x43, 0x49, 0x53, 0x4F] ++ Wire.toLe 4 HEADER_LEN ++
      Wire.toLe 8 h.total.toNat) (Wire.toLe 4 h.blockSize.toNat) [1, h.align, 0, 0]
    rwa [hfront, hlen, ← List.append_assoc] at hmiddle
  have hlast : ∀ i, (encodeHeader h).getD (20 + i) 0 = ([1, h.align, 0, 0] : Bytes).getD i 0 := by
    intro i
    have hfront : ([0x43, 0x49, 0x53, 0x4F] ++ Wire.toLe 4 HEADER_LEN ++
        Wire.toLe 8 h.total.toNat ++ Wire.toLe 4 h.blockSize.toNat).length = 20 := by
      rw [List.length_append, List.length_append, List.length_append, Wire.length_toLe,
        Wire.length_toLe, Wire.length_toLe]
      rfl
    rw [encodeHeader, List.getD_append_right _ _ _ _ (by omega), hfront, Nat.add_sub_cancel_left]
  have hver : (encodeHeader h).getD 20 0 = 1 := hlast 0
  have halign : (encodeHeader h).getD 21 0 = h.align := hlast 1
  have htotalVal : UInt64.ofNat (Wire.ofLe (Wire.toLe 8 h.total.toNat)) = h.total := by
    rw [Wire.ofLe_toLe h.total.toNat_lt, UInt64.ofNat_toNat]
  have hblockVal : UInt32.ofNat (Wire.ofLe (Wire.toLe 4 h.blockSize.toNat)) = h.blockSize := by
    rw [Wire.ofLe_toLe h.blockSize.toNat_lt, UInt32.ofNat_toNat]
  simp only [parseHeader, length_encodeHeader, hmagic, htotal, hblock, hver, halign, htotalVal,
    hblockVal, hsize, ne_eq, not_true_eq_false, if_false]

theorem parseIndex_entries {entry : Nat → Nat} {n : Nat} (hentry : ∀ j < n, entry j < 2 ^ 32) :
    parseIndex ((List.range n).flatMap fun j => Wire.toLe 4 (entry j)) =
      (List.range n).map entry := by
  have hpiece : ∀ j < n, (Wire.toLe 4 (entry j)).length = 4 := fun j _ => Wire.length_toLe _ _
  rw [parseIndex, Chunks.length_flatMap_range hpiece, Nat.mul_div_cancel _ (by decide)]
  refine List.map_congr_left fun j hj => ?_
  rw [List.mem_range] at hj
  rw [Chunks.slice_flatMap_range_one hpiece hj, Wire.ofLe_toLe (hentry j hj)]

/-! ## Host reads -/

section Reads

variable {items written : Bytes} {offset n : Nat} {what : String} {next : Bytes → Program UInt8}

theorem run_readExactAt (hmax : n ≤ maxRead) (hfull : (slice items offset n).length = n) :
    (readExactAt 0 offset n what next).run maxRead (ports (.randomAccess (.ofList items)) written) =
      (next (slice items offset n)).run maxRead
        (ports (.randomAccess (.ofList items)) written) := by
  rw [readExactAt, Program.run_readAt_ofList rfl hmax, if_neg (not_not.mpr hfull)]

variable {consumed : Nat}

theorem run_readExactSeq (hmax : n ≤ maxRead) (hfits : consumed + n ≤ items.length) :
    (readExactSeq 0 n what next).run maxRead
        (ports (.sequential (.feed items consumed)) written) =
      (next (slice items consumed n)).run maxRead
        (ports (.sequential (.feed items (consumed + n))) written) := by
  have hsmall : ¬ 2 ^ 32 ≤ n := Nat.not_le_of_lt (Nat.lt_of_le_of_lt hmax (by decide))
  have hfull : (slice items consumed n).length = n := by
    rw [Reader.length_slice]
    omega
  rw [readExactSeq, if_neg hsmall, Program.run_read_feed rfl hmax hfits, if_neg (not_not.mpr hfull)]
  rfl

theorem collect_readExactSeq_short (hin : consumed ≤ items.length)
    (hshort : items.length < consumed + n) :
    collect ((readExactSeq 0 n what next).run maxRead
      (ports (.sequential (.feed items consumed)) written)) = none := by
  rw [readExactSeq]
  split
  · rfl
  · by_cases hmax : n ≤ maxRead
    · have hpart : (slice items consumed n).length ≠ n := by
        rw [Reader.length_slice]
        omega
      rw [Program.run_read_feed_upTo rfl hmax hin, if_pos hpart]
      rfl
    · rw [Program.run_read_trap rfl (Nat.lt_of_not_le hmax)]
      rfl

theorem collect_readExactSeq_long (hmax : maxRead < n) :
    collect ((readExactSeq 0 n what next).run maxRead
      (ports (.sequential (.feed items consumed)) written)) = none := by
  rw [readExactSeq]
  split
  · rfl
  · rw [Program.run_read_trap rfl hmax]
    rfl

theorem run_write {input : Guest.Input IoError UInt8} {chunk : Bytes} {after : Program UInt8} :
    (Program.write 0 chunk after).run maxRead (ports input written) =
      after.run maxRead (ports input (written ++ chunk)) :=
  Program.run_write_open rfl

end Reads

/-- The inflater recovers what the deflater wrote, and ignores what comes after it. -/
def Codec.Inflates (codec : Codec) : Prop :=
  ∀ plain level rest, codec.inflate (codec.deflate plain level ++ rest) = .ok plain

/-! ## Where everything goes -/

/-- An image and what it is compressed with. -/
structure Packing where
  codec : Codec
  params : CompressParams
  image : Bytes

namespace Packing

variable (p : Packing)

def bs : Nat := p.params.blockSize.toNat

def unit : Nat := 1 <<< p.params.align.toNat

def count : Nat := divCeil p.image.length p.bs

def plainLen (i : Nat) : Nat := min (p.image.length - i * p.bs) p.bs

def plain (i : Nat) : Bytes := slice p.image (i * p.bs) (p.plainLen i)

/-- The bytes written for a block. -/
def block (i : Nat) : Bytes := (deflateBlock p.codec (p.plain i) p.params.level).1

def stored (i : Nat) : Bool := (deflateBlock p.codec (p.plain i) p.params.level).2

def headEnd : Nat := HEADER_LEN + (p.count + 1) * 4

/-- Where the first so many blocks end. -/
def finish (i : Nat) : Nat := Placement.finish p.unit p.headEnd (fun j => (p.block j).length) i

/-- Where a block begins, or would begin. -/
def start (i : Nat) : Nat := Placement.start p.unit p.headEnd (fun j => (p.block j).length) i

/-- The entries of the blocks, and the sentinel. -/
def entry (j : Nat) : Nat :=
  indexEntry (p.start j >>> p.params.align.toNat) (decide (j < p.count) && p.stored j)

def header : Header where
  total := UInt64.ofNat p.image.length
  blockSize := p.params.blockSize
  align := p.params.align

def head : Bytes :=
  encodeHeader p.header ++ (List.range (p.count + 1)).flatMap fun j => Wire.toLe 4 (p.entry j)

/-- The container, up to a number of blocks. -/
def written (i : Nat) : Bytes := Placement.contents p.unit p.head 0 p.block i

def container : Bytes := p.written p.count

/-- The compressor's checks. -/
structure Fits : Prop where
  entries : (p.count + 1) * 4 < 2 ^ 31
  offsets : ∀ j ≤ p.count, p.start j >>> p.params.align.toNat ≤ OFFSET_MASK

/-- No padding is missing after the last block. -/
def Aligned : Prop := p.unit ∣ p.finish p.count

instance : Decidable p.Aligned := inferInstanceAs (Decidable (p.unit ∣ p.finish p.count))

variable {p}

/-! ### Blocks -/

theorem bs_pos : 0 < p.bs := Nat.lt_of_lt_of_le (by decide) p.params.hsize.1.1

theorem bs_le : p.bs ≤ 2 ^ 20 := p.params.hsize.1.2

theorem unit_eq : p.unit = 2 ^ p.params.align.toNat := Nat.one_shiftLeft _

theorem unit_pos : 0 < p.unit := by
  rw [unit_eq]
  exact Nat.two_pow_pos _

theorem unit_le : p.unit ≤ 2 ^ 15 := by
  rw [unit_eq]
  exact Nat.pow_le_pow_right (by decide) p.params.halign

theorem lt_count_iff {i : Nat} : i < p.count ↔ i * p.bs < p.image.length := lt_divCeil_iff bs_pos

theorem length_image_le : p.image.length ≤ p.count * p.bs :=
  Nat.not_lt.mp fun hlt => Nat.lt_irrefl _ (lt_count_iff.mpr hlt)

@[simp] theorem length_plain (i : Nat) : (p.plain i).length = p.plainLen i := by
  rw [plain, Reader.length_slice, plainLen]
  omega

theorem blockLens_eq :
    blockLens p.image.length p.bs = (List.range' 0 p.count).map p.plainLen := by
  rw [← List.range_eq_range']
  rfl

/-- The blocks are the image. -/
theorem plain_append_drop (i : Nat) :
    p.plain i ++ p.image.drop ((i + 1) * p.bs) = p.image.drop (i * p.bs) := by
  have hdrop : (p.image.drop (i * p.bs)).drop p.bs = p.image.drop ((i + 1) * p.bs) := by
    rw [List.drop_drop, Nat.succ_mul]
  have htake : p.plain i = (p.image.drop (i * p.bs)).take p.bs := by
    rw [plain, plainLen, slice, List.take_eq_take_iff, List.length_drop]
    omega
  rw [htake, ← hdrop, List.take_append_drop]

theorem length_block_le (i : Nat) : (p.block i).length ≤ p.plainLen i := by
  rw [block, deflateBlock]
  split
  · rw [length_plain]
  · rename_i hshorter
    rw [length_plain] at hshorter
    exact Nat.le_of_not_le hshorter

/-- A block is got back, whatever follows it. -/
theorem decodeBlock_block (hinflates : p.codec.Inflates) (i : Nat) (rest : Bytes) :
    decodeBlock p.codec (p.block i ++ rest) (p.stored i) (p.plainLen i) i = .ok (p.plain i) := by
  rw [block, stored, deflateBlock]
  split
  · rw [decodeBlock, if_pos rfl, List.length_append, length_plain, if_neg (by omega)]
    rw [← @length_plain p i, List.take_left]
  · rw [decodeBlock, if_neg Bool.false_ne_true]
    simp only [hinflates _ _ _, length_plain, ne_eq, not_true_eq_false, if_false]

/-! ### Offsets -/

theorem finish_succ (i : Nat) : p.finish (i + 1) = p.start i + (p.block i).length := rfl

theorem finish_le_start (i : Nat) : p.finish i ≤ p.start i :=
  Placement.finish_le_start unit_pos i

theorem start_le_start_succ (i : Nat) : p.start i ≤ p.start (i + 1) :=
  Placement.start_le_start_succ unit_pos i

theorem start_lt (i : Nat) : p.start i < p.finish i + p.unit := Placement.start_lt unit_pos i

theorem extent_le (i : Nat) : p.start (i + 1) - p.start i ≤ maxRead := by
  have hlt := p.start_lt (i + 1)
  have hlen := p.length_block_le i
  have hplain : p.plainLen i ≤ p.bs := Nat.min_le_right _ _
  have hbs := @bs_le p
  have hunit := @unit_le p
  have hmax : maxRead = 2 ^ 24 := rfl
  rw [finish_succ] at hlt
  omega

theorem entryOffset_entry (hfits : p.Fits) {j : Nat} (hj : j ≤ p.count) :
    entryOffset p.params.align (p.entry j) = p.start j := by
  have hoffset := hfits.offsets j hj
  have halign : p.params.align.toNat % 64 = p.params.align.toNat :=
    Nat.mod_eq_of_lt (Nat.lt_of_le_of_lt p.params.halign (by decide))
  have hdvd : 2 ^ p.params.align.toNat ∣ p.start j := by
    rw [← unit_eq]
    exact Placement.dvd_start j
  rw [entryOffset, entry, indexEntry_and_mask hoffset, halign, Nat.shiftLeft_eq]
  rw [Nat.shiftRight_eq_div_pow] at hoffset ⊢
  rw [Nat.div_mul_cancel hdvd, wrap64, Nat.mod_eq_of_lt]
  calc p.start j = p.start j / 2 ^ p.params.align.toNat * 2 ^ p.params.align.toNat :=
        (Nat.div_mul_cancel hdvd).symm
    _ ≤ OFFSET_MASK * 2 ^ 15 :=
        Nat.mul_le_mul hoffset (Nat.pow_le_pow_right (by decide) p.params.halign)
    _ < 2 ^ 64 := by decide

theorem entry_and_flag (hfits : p.Fits) {j : Nat} (hj : j < p.count) :
    decide (p.entry j &&& STORED_FLAG ≠ 0) = p.stored j := by
  rw [entry, indexEntry_and_flag (hfits.offsets j (Nat.le_of_lt hj)), decide_eq_true hj,
    Bool.true_and]

theorem entry_count : p.entry p.count = p.start p.count >>> p.params.align.toNat := by
  rw [entry, decide_eq_false (Nat.lt_irrefl _), Bool.false_and, indexEntry, if_neg (by decide)]

theorem entry_lt (hfits : p.Fits) {j : Nat} (hj : j ≤ p.count) : p.entry j < 2 ^ 32 :=
  indexEntry_lt (hfits.offsets j hj) _

/-! ### Contents -/

theorem length_head : p.head.length = p.headEnd := by
  rw [head, List.length_append, length_encodeHeader,
    Chunks.length_flatMap_range fun j _ => Wire.length_toLe 4 (p.entry j)]
  rfl

theorem length_written (i : Nat) : (p.written i).length = p.finish i := by
  rw [written, Placement.length_contents unit_pos, length_head]
  rfl

theorem written_succ (i : Nat) : p.written (i + 1) =
    p.written i ++ List.replicate (p.start i - p.finish i) 0 ++ p.block i := by
  have hlen := p.length_written i
  rw [written] at hlen
  rw [written, Placement.contents, hlen]
  rfl

theorem length_container : p.container.length = p.finish p.count := p.length_written p.count

theorem exists_container_eq_append : ∃ rest, p.container = p.head ++ rest :=
  Placement.exists_contents_eq_append (Nat.zero_le _)

theorem slice_header : slice p.container 0 HEADER_LEN = encodeHeader p.header := by
  obtain ⟨rest, hrest⟩ := @exists_container_eq_append p
  rw [hrest, head, List.append_assoc, ← length_encodeHeader p.header]
  exact Reader.slice_middle [] _ _

/-- A slice of the index holds the entries of its blocks. -/
theorem slice_index {first n : Nat} (hin : first + n ≤ p.count + 1) :
    slice p.container (HEADER_LEN + first * 4) (n * 4) =
      (List.range n).flatMap fun j => Wire.toLe 4 (p.entry (first + j)) := by
  obtain ⟨rest, hrest⟩ := @exists_container_eq_append p
  have hpiece : ∀ j < p.count + 1, (Wire.toLe 4 (p.entry j)).length = 4 :=
    fun j _ => Wire.length_toLe 4 (p.entry j)
  have hend : (first + n) * 4 ≤ (p.count + 1) * 4 := Nat.mul_le_mul_right 4 hin
  rw [Nat.add_mul, ← Chunks.length_flatMap_range hpiece] at hend
  rw [hrest, head, List.append_assoc, ← length_encodeHeader p.header, Chunks.slice_append_right,
    Chunks.slice_append_left hend, Chunks.slice_flatMap_range hpiece hin]

theorem finish_le_length (i : Nat) (hi : i ≤ p.count) : p.finish i ≤ p.container.length := by
  rw [length_container]
  exact Placement.finish_mono unit_pos hi

/-- The bytes from a block's offset to the next one's. -/
theorem extent_of_lt {i : Nat} (hi : i + 1 < p.count) :
    slice p.container (p.start i) (p.start (i + 1) - p.start i) =
      p.block i ++ List.replicate (p.start (i + 1) - p.finish (i + 1)) 0 := by
  have hgap := @Placement.slice_contents_gap _ p.unit p.head 0 p.block p.count unit_pos i hi
  rw [length_head] at hgap
  exact hgap

theorem extent_of_aligned {i : Nat} (hi : i + 1 = p.count) (haligned : p.Aligned) :
    slice p.container (p.start i) (p.start (i + 1) - p.start i) = p.block i := by
  have hpiece := @Placement.slice_contents _ p.unit p.head 0 p.block p.count unit_pos i (by omega)
  have hend : p.start (i + 1) = p.start i + (p.block i).length := by
    rw [← finish_succ, hi]
    exact (Placement.alignUp_eq_self_iff unit_pos _).mpr haligned
  rw [length_head] at hpiece
  rw [hend, Nat.add_sub_cancel_left]
  exact hpiece

end Packing

/-! ## The two passes -/

section Compress

variable {p : Packing}

/-- What a pass over the image sees: the input, and what was written. -/
abbrev imagePorts (p : Packing) (written : Bytes) : Guest.Ports IoError UInt8 :=
  ports (.randomAccess (.ofList p.image)) written

theorem pos_succ (i : Nat) :
    min (i * p.bs) p.image.length + p.plainLen i = min ((i + 1) * p.bs) p.image.length := by
  rw [Packing.plainLen, Nat.succ_mul]
  omega

theorem run_readPlain {i : Nat} (hi : i < p.count) {what : String} {next : Bytes → Program UInt8}
    {written : Bytes} :
    (readExactAt 0 (min (i * p.bs) p.image.length) (p.plainLen i) what next).run maxRead
        (imagePorts p written) =
      (next (p.plain i)).run maxRead (imagePorts p written) := by
  have hpos : min (i * p.bs) p.image.length = i * p.bs :=
    Nat.min_eq_left (Nat.le_of_lt (Packing.lt_count_iff.mp hi))
  have hmax : p.plainLen i ≤ maxRead :=
    Nat.le_trans (Nat.min_le_right _ _) (Nat.le_trans Packing.bs_le (by decide))
  rw [hpos]
  exact run_readExactAt hmax (p.length_plain i)

/-- A first pass that goes through has checked every offset, and hands on the index and the
end of the blocks. -/
theorem collect_sizingPass {next : List Nat → Nat → Program UInt8} {written out : Bytes}
    {k i : Nat} (hend : i + k = p.count) {index : List Nat}
    (hout : collect ((sizingPass p.codec p.params next ((List.range' i k).map p.plainLen) index
      (p.finish i) (min (i * p.bs) p.image.length)).run maxRead (imagePorts p written)) =
        some out) :
    (∀ j, i ≤ j → j < p.count → p.start j >>> p.params.align.toNat ≤ OFFSET_MASK) ∧
      collect ((next (index ++ (List.range' i k).map p.entry) (p.finish p.count)).run maxRead
        (imagePorts p written)) = some out := by
  induction k generalizing i index with
  | zero =>
    obtain rfl : i = p.count := hend
    refine ⟨fun j hij hj => absurd hj (Nat.not_lt_of_le hij), ?_⟩
    simpa [sizingPass] using hout
  | succ k ih =>
    have hi : i < p.count := by omega
    rw [List.range'_succ, List.map_cons, sizingPass] at hout
    change collect (Program.run maxRead (if OFFSET_MASK < p.start i >>> p.params.align.toNat
      then _ else _) _) = some out at hout
    split at hout
    · cases hout
    · rename_i hfits
      rw [run_readPlain hi, pos_succ] at hout
      obtain ⟨hrest, hnext⟩ := ih (by omega) hout
      refine ⟨?_, ?_⟩
      · intro j hij hj
        rcases Nat.eq_or_lt_of_le hij with rfl | hlt
        · exact Nat.le_of_not_lt hfits
        · exact hrest j hlt hj
      · rw [List.range'_succ, List.map_cons, ← List.singleton_append, ← List.append_assoc]
        rw [Packing.entry, decide_eq_true hi, Bool.true_and]
        exact hnext

theorem run_writePass {k i : Nat} (hend : i + k = p.count) :
    (writePass p.codec p.params ((List.range' i k).map p.plainLen) (p.finish i)
        (min (i * p.bs) p.image.length)).run maxRead (imagePorts p (p.written i)) =
      (.done, imagePorts p p.container) := by
  induction k generalizing i with
  | zero =>
    obtain rfl : i = p.count := hend
    rfl
  | succ k ih =>
    have hi : i < p.count := by omega
    have hcursor : p.finish i + (p.start i - p.finish i) + (p.block i).length =
        p.finish (i + 1) := by
      rw [Packing.finish_succ, Nat.add_sub_cancel' (Packing.finish_le_start i)]
    have hrest := @ih (i + 1) (by omega)
    rw [Packing.written_succ, ← pos_succ, ← hcursor] at hrest
    have hblock : (readExactAt 0 (min (i * p.bs) p.image.length) (p.plainLen i) "iso block"
        fun plain =>
          .write 0 (deflateBlock p.codec plain p.params.level).1
            (writePass p.codec p.params ((List.range' (i + 1) k).map p.plainLen)
              (p.finish i + (p.start i - p.finish i) +
                (deflateBlock p.codec plain p.params.level).1.length)
              (min (i * p.bs) p.image.length + p.plainLen i))).run maxRead
        (imagePorts p (p.written i ++ List.replicate (p.start i - p.finish i) 0)) =
        (.done, imagePorts p p.container) := by
      rw [run_readPlain hi]
      exact run_write.trans hrest
    rw [List.range'_succ, List.map_cons, writePass]
    change Program.run maxRead (if 0 < p.start i - p.finish i then _ else _) _ = _
    split
    · exact run_write.trans hblock
    · rename_i hnone
      have hnothing : p.written i ++ List.replicate (p.start i - p.finish i) 0 = p.written i := by
        rw [Nat.eq_zero_of_not_pos hnone, List.replicate_zero, List.append_nil]
      rw [hnothing] at hblock
      exact hblock

/-- The compressor succeeds with the container only, and only after its checks. -/
theorem compressed_eq {params cso : Bytes} (hparams : decodeParams params = .ok p.params)
    (hout : compressed p.codec params p.image = some cso) : p.Fits ∧ cso = p.container := by
  rw [compressed, run, if_neg (by decide), if_pos rfl, hparams] at hout
  simp only [if_true] at hout
  rw [compress, Program.run] at hout
  change collect (Program.run maxRead (if 2 ^ 64 ≤ p.count + 1 then _ else
    if 2 ^ 32 ≤ p.count + 1 then _ else if 2 ^ 31 ≤ (p.count + 1) * 4 then _ else _)
    (imagePorts p [])) = some cso at hout
  split at hout
  · cases hout
  split at hout
  · cases hout
  split at hout
  · cases hout
  rename_i hentries
  have hpos : min (0 * p.bs) p.image.length = 0 := by simp
  change collect (Program.run maxRead (sizingPass p.codec p.params
    (writeOut p.codec p.params p.image.length) (blockLens p.image.length p.bs) [] (p.finish 0) 0)
    (imagePorts p [])) = some cso at hout
  have hsizing := @collect_sizingPass p (writeOut p.codec p.params p.image.length) [] cso p.count 0
    (Nat.zero_add _) []
  rw [← Packing.blockLens_eq, hpos] at hsizing
  obtain ⟨hoffsets, hout⟩ := hsizing hout
  rw [writeOut] at hout
  change collect (Program.run maxRead
    (if OFFSET_MASK < p.start p.count >>> p.params.align.toNat then _ else _) _) = some cso at hout
  split at hout
  · cases hout
  rename_i hsentinel
  refine ⟨⟨Nat.lt_of_not_le hentries, ?_⟩, ?_⟩
  · intro j hj
    rcases Nat.eq_or_lt_of_le hj with rfl | hlt
    · exact Nat.le_of_not_lt hsentinel
    · exact hoffsets j (Nat.zero_le _) hlt
  · have hindex : ([] ++ (List.range' 0 p.count).map p.entry ++
        [p.start p.count >>> p.params.align.toNat]).flatMap (Wire.toLe 4) =
        (List.range (p.count + 1)).flatMap fun j => Wire.toLe 4 (p.entry j) := by
      rw [List.nil_append, ← Packing.entry_count, ← List.range_eq_range', List.range_succ,
        List.flatMap_append, List.flatMap_append, List.flatMap_map]
      rfl
    have hpasses := @run_writePass p p.count 0 (Nat.zero_add _)
    rw [← Packing.blockLens_eq, hpos] at hpasses
    have hstart : alignUp (1 <<< p.params.align.toNat) (p.finish p.count) = p.start p.count := rfl
    rw [run_write, run_write, hstart, hindex, List.nil_append (encodeHeader _)] at hout
    have hsame := hout.symm.trans (congrArg collect hpasses)
    exact Option.some.inj hsame

end Compress

end Datboi.Cso
