import Datboi.Xf.CsoExact

/-!
# The two ways into a container

Decompressing a file as a whole and serving a window of it decode the same blocks. Wherever the
whole file is got, and its numbers fit, a window is the slice of the result.
-/

namespace Datboi.Cso

open Guest (Program)
open Reader (slice)
open Xf (collect)

/-- The program goes on with a decoded block, or refuses. -/
def orRefuse (result : Except String Bytes) (next : Bytes → Program UInt8) : Program UInt8 :=
  match result with
  | .error message => .refuse message
  | .ok plain => next plain

/-! ## The header -/

section Headers

variable {header : Header} {bytes cso : Bytes}

theorem blockSize_pos (hparse : parseHeader bytes = .ok header) : 0 < header.blockSize.toNat := by
  unfold parseHeader at hparse
  split at hparse
  · cases hparse
  · split at hparse
    · cases hparse
    · split at hparse
      · cases hparse
      · simp only at hparse
        split at hparse
        · cases hparse
        · rename_i hpower
          rw [not_not] at hpower
          cases hparse
          simp only [isPowerOfTwo, ne_eq, decide_eq_true_eq] at hpower
          exact Nat.pos_of_ne_zero hpower.1

/-- A window that touches blocks is not empty, and its blocks are of the file. -/
theorem touchedBlocks_eq_some {total bs offset len first last : Nat} (hbs : 0 < bs)
    (htouched : touchedBlocks total bs offset len = some (first, last)) :
    min offset total < min (min (offset + len) (2 ^ 64 - 1)) total ∧
      first = min offset total / bs ∧
      last = (min (min (offset + len) (2 ^ 64 - 1)) total - 1) / bs ∧
      first ≤ last ∧ last < divCeil total bs := by
  rw [touchedBlocks] at htouched
  split at htouched
  · cases htouched
  · rename_i hwindow
    rw [Option.some.injEq, Prod.mk.injEq] at htouched
    obtain ⟨rfl, rfl⟩ := htouched
    refine ⟨by omega, rfl, rfl, Nat.div_le_div_right (by omega), ?_⟩
    rw [lt_divCeil_iff hbs]
    have hlow := Nat.div_mul_le_self (min (min (offset + len) (2 ^ 64 - 1)) total - 1) bs
    omega

/-- Every total of a header that is accepted: there is nothing to unpack, or the index fits
the address space and the shift is in range unless there is no index. -/
def Fits (cso : Bytes) : Prop :=
  ∀ header, parseHeader (slice cso 0 HEADER_LEN) = .ok header → header.total.toNat = 0 ∨
    (divCeil header.total.toNat header.blockSize.toNat * 4 + 20 < 2 ^ 64 ∧
      (header.align.toNat < 64 ∨ cso.length < 32))

end Headers

theorem zipIdx_lens (total bs : Nat) : (blockLens total bs).zipIdx =
    (List.range (divCeil total bs)).map fun i => (min (total - i * bs) bs, i) := by
  refine List.ext_getElem (by simp [blockLens]) fun i hleft hright => ?_
  simp [blockLens]

theorem length_parseIndex (bytes : Bytes) : (parseIndex bytes).length = bytes.length / 4 := by
  rw [parseIndex, List.length_map, List.length_range]

/-! ## The two paths -/

/-- An index entry of the file. -/
def entryAt (cso : Bytes) (j : Nat) : Nat := Wire.ofLe (slice cso (HEADER_LEN + j * 4) 4)

section Paths

variable {codec} {cso written out : Bytes} {header : Header} {index : List Nat}

/-- Where a block lies in the file, and where it ends. -/
def extentAt (header : Header) (cso : Bytes) (j : Nat) : Nat × Nat :=
  (entryOffset header.align (entryAt cso j), entryOffset header.align (entryAt cso (j + 1)))

def decodedAt (codec : Codec) (header : Header) (cso : Bytes) (j : Nat) : Except String Bytes :=
  let (dataOff, nextOff) := extentAt header cso j
  decodeBlock codec (slice cso dataOff (nextOff - dataOff)) (entryAt cso j &&& STORED_FLAG ≠ 0)
    (min (header.total.toNat - j * header.blockSize.toNat) header.blockSize.toNat) j

/-- A block that both paths can get. -/
structure Decodes (codec : Codec) (header : Header) (cso : Bytes) (j : Nat) (plain : Bytes) :
    Prop where
  order : (extentAt header cso j).1 ≤ (extentAt header cso j).2
  within : (extentAt header cso j).2 ≤ cso.length
  short : (extentAt header cso j).2 - (extentAt header cso j).1 ≤ maxRead
  decoded : decodedAt codec header cso j = .ok plain

theorem decodeBlock_length {extent plain : Bytes} {stored : Bool} {plainLen i : Nat}
    (hdecode : decodeBlock codec extent stored plainLen i = .ok plain) :
    plain.length = plainLen := by
  unfold decodeBlock at hdecode
  split at hdecode
  · split at hdecode
    · cases hdecode
    · rename_i hlong
      cases hdecode
      rw [List.length_take]
      omega
  · split at hdecode
    · cases hdecode
    · split at hdecode
      · cases hdecode
      · rename_i hlen
        cases hdecode
        exact not_not.mp hlen

theorem Decodes.length {j : Nat} {plain : Bytes} (h : Decodes codec header cso j plain) :
    plain.length = min (header.total.toNat - j * header.blockSize.toNat) header.blockSize.toNat :=
  decodeBlock_length h.decoded

/-- The entries of a part of the index. -/
theorem getElem?_parseIndex {first n i : Nat}
    (hfull : (slice cso (HEADER_LEN + first * 4) (n * 4)).length = n * 4) (hi : i < n) :
    (parseIndex (slice cso (HEADER_LEN + first * 4) (n * 4)))[i]? =
      some (entryAt cso (first + i)) := by
  rw [parseIndex, hfull, Nat.mul_div_cancel _ (by decide), List.getElem?_map,
    List.getElem?_range hi, Option.map_some, Reader.slice_slice _ _ _ _ _ (by omega), entryAt]
  rw [Nat.add_assoc, ← Nat.add_mul]

/-- A full read goes on; without one nothing comes of the run. -/
theorem collect_readExactSeq_some {n consumed : Nat} {what : String}
    {next : Bytes → Program UInt8} (hin : consumed ≤ cso.length)
    (hrun : collect ((readExactSeq 0 n what next).run maxRead
      (ports (.sequential (.feed cso consumed)) written)) = some out) :
    n ≤ maxRead ∧ consumed + n ≤ cso.length ∧
      collect ((next (slice cso consumed n)).run maxRead
        (ports (.sequential (.feed cso (consumed + n))) written)) = some out := by
  by_cases hmax : n ≤ maxRead
  · by_cases hfits : consumed + n ≤ cso.length
    · rw [run_readExactSeq hmax hfits] at hrun
      exact ⟨hmax, hfits, hrun⟩
    · rw [collect_readExactSeq_short hin (Nat.lt_of_not_le hfits)] at hrun
      cases hrun
  · rw [collect_readExactSeq_long (Nat.lt_of_not_le hmax)] at hrun
    cases hrun

/-- A run over the rest of the file decodes each block where the index says. -/
theorem inflatePass_some {k i filePos : Nat} (hin : filePos ≤ cso.length)
    (hindex : ∀ j ≤ i + k, index[j]? = some (entryAt cso j))
    (hrun : collect ((inflatePass codec header.align index ((List.range' i k).map fun j =>
        (min (header.total.toNat - j * header.blockSize.toNat) header.blockSize.toNat, j))
        filePos).run maxRead (ports (.sequential (.feed cso filePos)) written)) = some out) :
    ∃ plains : Nat → Bytes, (∀ j, i ≤ j → j < i + k → Decodes codec header cso j (plains j)) ∧
      out = written ++ (List.range' i k).flatMap plains := by
  induction k generalizing i filePos written with
  | zero =>
    refine ⟨fun _ => [], fun j hle hlt => absurd hlt (by omega), ?_⟩
    rw [List.range'_zero, List.flatMap_nil, List.append_nil]
    exact (Option.some.inj hrun).symm
  | succ k ih =>
    rw [List.range'_succ, List.map_cons, inflatePass] at hrun
    simp only [hindex i (by omega), hindex (i + 1) (by omega)] at hrun
    split at hrun
    · cases hrun
    rename_i hforward
    obtain ⟨hfirst, hsecond⟩ := not_or.mp hforward
    rw [Nat.not_lt] at hfirst hsecond
    change (extentAt header cso i).1 ≤ (extentAt header cso i).2 at hsecond
    -- The block, once the padding is behind.
    have hblock : ∀ pos, pos = (extentAt header cso i).1 → pos ≤ cso.length →
        collect ((readExactSeq 0 ((extentAt header cso i).2 - pos) "block extent" fun extent =>
          orRefuse (decodeBlock codec extent (entryAt cso i &&& STORED_FLAG ≠ 0)
            (min (header.total.toNat - i * header.blockSize.toNat) header.blockSize.toNat) i)
            fun plain => .write 0 plain (inflatePass codec header.align index
              ((List.range' (i + 1) k).map fun j => (min (header.total.toNat -
                j * header.blockSize.toNat) header.blockSize.toNat, j))
              (extentAt header cso i).2)).run maxRead
          (ports (.sequential (.feed cso pos)) written)) = some out →
        ∃ plains : Nat → Bytes,
          (∀ j, i ≤ j → j < i + (k + 1) → Decodes codec header cso j (plains j)) ∧
          out = written ++ (List.range' i (k + 1)).flatMap plains := by
      rintro pos rfl hpos hread
      obtain ⟨hmax, hfits, hread⟩ := collect_readExactSeq_some hpos hread
      rw [Nat.add_sub_cancel' hsecond] at hfits hread
      cases hdecode : decodedAt codec header cso i with
      | error message =>
        simp only [decodedAt] at hdecode
        rw [hdecode] at hread
        cases hread
      | ok plain =>
        have hdecodes : Decodes codec header cso i plain := ⟨hsecond, hfits, hmax, hdecode⟩
        simp only [decodedAt] at hdecode
        rw [hdecode] at hread
        change collect ((Program.write 0 plain _).run maxRead _) = _ at hread
        rw [run_write] at hread
        obtain ⟨plains, hplains, hout⟩ := ih hfits
          (fun j hj => hindex j (by omega)) hread
        refine ⟨fun j => if j = i then plain else plains j, fun j hle hlt => ?_, ?_⟩
        · beta_reduce
          by_cases hj : j = i
          · rw [if_pos hj, hj]
            exact hdecodes
          · rw [if_neg hj]
            exact hplains j (by omega) (by omega)
        · have hrest : ((List.range' (i + 1) k).flatMap fun j =>
              if j = i then plain else plains j) = (List.range' (i + 1) k).flatMap plains := by
            refine List.flatMap_congr fun j hj => ?_
            rw [List.mem_range'_1] at hj
            rw [if_neg (by omega)]
          rw [List.range'_succ, List.flatMap_cons, if_pos rfl, hrest, hout, List.append_assoc]
    split at hrun
    · rename_i hgap
      obtain ⟨-, hfits, hrun⟩ := collect_readExactSeq_some hin hrun
      rw [Nat.add_sub_cancel' (Nat.le_of_lt hgap)] at hfits hrun
      exact hblock _ rfl hfits hrun
    · rename_i hnogap
      have hpos : filePos = (extentAt header cso i).1 :=
        Nat.le_antisymm hfirst (Nat.le_of_not_lt hnogap)
      exact hblock filePos hpos hin (hpos ▸ hrun)

/-- The window's blocks are written one after another. -/
theorem collect_servePass_of_decodes {plains : Nat → Bytes} {blocks : List Nat}
    {winStart winEnd first : Nat}
    (hblocks : ∀ b ∈ blocks, Decodes codec header cso b (plains b) ∧
      index[b - first]? = some (entryAt cso b) ∧
      index[b - first + 1]? = some (entryAt cso (b + 1))) :
    collect ((servePass codec header index winStart winEnd first blocks).run maxRead
        (ports (.randomAccess (.ofList cso)) written)) =
      some (written ++ blocks.flatMap fun b =>
        Chunks.part (plains b) (b * header.blockSize.toNat) winStart winEnd) := by
  induction blocks generalizing written with
  | nil =>
    rw [List.flatMap_nil, List.append_nil]
    rfl
  | cons b rest ih =>
    obtain ⟨hdecodes, hentry, hafter⟩ := hblocks b List.mem_cons_self
    have hlen := hdecodes.length
    have hrest := fun written => @ih written fun b hb => hblocks b (List.mem_cons_of_mem _ hb)
    have hfull : (slice cso (extentAt header cso b).1
        ((extentAt header cso b).2 - (extentAt header cso b).1)).length =
        (extentAt header cso b).2 - (extentAt header cso b).1 := by
      have hwithin := hdecodes.within
      have horder := hdecodes.order
      rw [Reader.length_slice]
      omega
    have hshort : ¬ 2 ^ 32 ≤ (extentAt header cso b).2 - (extentAt header cso b).1 :=
      Nat.not_le_of_lt (Nat.lt_of_le_of_lt hdecodes.short (by decide))
    rw [servePass]
    simp only [hentry, hafter]
    change collect ((if (extentAt header cso b).2 < (extentAt header cso b).1 then _
      else if 2 ^ 32 ≤ (extentAt header cso b).2 - (extentAt header cso b).1 then _
      else readExactAt 0 (extentAt header cso b).1
        ((extentAt header cso b).2 - (extentAt header cso b).1) _ _).run maxRead _) = _
    rw [if_neg (Nat.not_lt_of_le hdecodes.order), if_neg hshort,
      run_readExactAt hdecodes.short hfull]
    change collect ((orRefuse (decodedAt codec header cso b) _).run maxRead _) = _
    rw [hdecodes.decoded, orRefuse, List.flatMap_cons]
    generalize hbase : b * header.blockSize.toNat = base at hlen
    rw [← hlen]
    have hpart : slice (plains b) (min (winStart - base) (plains b).length)
        (min (winEnd - base) (plains b).length - min (winStart - base) (plains b).length) =
        Chunks.part (plains b) base winStart winEnd := by
      rw [Chunks.part]
      by_cases hstart : winStart - base ≤ (plains b).length
      · rw [Nat.min_eq_left hstart, slice, slice, List.take_eq_take_iff, List.length_drop]
        omega
      · rw [Reader.slice_eq_nil_iff.mpr (by omega), Reader.slice_eq_nil_iff.mpr (by omega)]
    split
    · rw [run_write, hrest, hpart, List.append_assoc]
    · rename_i hnone
      have hempty : Chunks.part (plains b) base winStart winEnd = [] := by
        rw [← hpart, Nat.sub_eq_zero_of_le (Nat.le_of_not_lt hnone), Reader.slice_zero_right]
      rw [hempty, List.nil_append]
      exact hrest _

end Paths

/-! ## Pieces of a file -/

section Pieces

variable {plains : Nat → Bytes} {total bs n : Nat}

/-- Blocks of full size, but for the end of the file. -/
theorem length_pieces (hplains : ∀ j < n, (plains j).length = min (total - j * bs) bs) :
    ((List.range n).flatMap plains).length = min (n * bs) total := by
  induction n with
  | zero => simp
  | succ n ih =>
    rw [List.range_succ, List.flatMap_append, List.length_append,
      ih fun j hj => hplains j (Nat.lt_succ_of_lt hj), List.flatMap_singleton,
      hplains n (Nat.lt_succ_self n), Nat.succ_mul]
    omega

/-- A block is read back from the file. -/
theorem slice_pieces (hplains : ∀ j < n, (plains j).length = min (total - j * bs) bs) {j : Nat}
    (hj : j < n) (hin : j * bs < total) :
    slice ((List.range n).flatMap plains) (j * bs) bs = plains j := by
  obtain ⟨rest, rfl⟩ := Nat.exists_eq_add_of_lt hj
  have hfront := @length_pieces plains total bs j fun i hi => hplains i (by omega)
  rw [Nat.min_eq_left (Nat.le_of_lt hin)] at hfront
  have hwhole := length_pieces hplains
  have hlen := hplains j hj
  have hsplit : (List.range (j + rest + 1)).flatMap plains = (List.range j).flatMap plains ++
      (plains j ++ (List.range rest).flatMap fun i => plains (j + (1 + i))) := by
    rw [Nat.add_assoc, Nat.add_comm rest 1, Chunks.flatMap_range_add, Chunks.flatMap_range_add]
    simp
  rw [hsplit] at hwhole ⊢
  rw [List.length_append, List.length_append, hfront, hlen] at hwhole
  rw [slice, List.drop_append, List.drop_eq_nil_of_le (Nat.le_of_eq hfront), List.nil_append,
    hfront, Nat.sub_self, List.drop_zero]
  by_cases hlast : bs ≤ total - j * bs
  · rw [Nat.min_eq_right hlast] at hlen
    rw [List.take_append_of_le_length (Nat.le_of_eq hlen.symm), List.take_of_length_le
      (Nat.le_of_eq hlen)]
  · -- Nothing follows a block that is not full.
    have hmul : j * bs + bs ≤ (j + rest + 1) * bs := by
      rw [← Nat.succ_mul]
      exact Nat.mul_le_mul_right _ (by omega)
    have hnone : ((List.range rest).flatMap fun i => plains (j + (1 + i))) = [] :=
      List.eq_nil_of_length_eq_zero (by omega)
    rw [hnone, List.append_nil, List.take_of_length_le (by omega)]

end Pieces

variable {codec : Codec} {cso : Bytes}

/-- The result of the decompressor, and a window of it. -/
def Agrees (codec : Codec) (cso : Bytes) : Prop :=
  ∀ out, decompressed codec cso = some out → ∀ offset len : UInt64,
    served codec cso offset len = some (slice out offset.toNat len.toNat)

theorem agrees_of_fits (hfits : Fits cso) : Agrees codec cso := by
  intro out hout offset len
  change collect ((decompress codec).run maxRead _) = _ at hout
  obtain ⟨-, hhead, hout⟩ := collect_readExactSeq_some (Nat.zero_le _) hout
  have hheader : HEADER_LEN = 24 := rfl
  change collect ((serveDecompressedRange codec offset len).run maxRead _) = _
  have hfullHead : (slice cso 0 HEADER_LEN).length = HEADER_LEN := by
    rw [Reader.length_slice]
    omega
  rw [serveDecompressedRange, run_readExactAt (by decide) hfullHead]
  cases hparse : parseHeader (slice cso 0 HEADER_LEN) with
  | error message =>
    rw [hparse] at hout
    cases hout
  | ok header =>
    have hbs := blockSize_pos hparse
    have htotal := header.total.toNat_lt
    simp only [hparse] at hout
    simp only
    have hfit := hfits header hparse
    have hcount : header.total.toNat ≤
        divCeil header.total.toNat header.blockSize.toNat * header.blockSize.toNat := by
      have hnot : ¬ divCeil header.total.toNat header.blockSize.toNat <
          divCeil header.total.toNat header.blockSize.toNat := Nat.lt_irrefl _
      rw [lt_divCeil_iff hbs] at hnot
      exact Nat.le_of_not_lt hnot
    have hsmall : divCeil header.total.toNat header.blockSize.toNat * 4 + 20 < 2 ^ 64 := by
      rcases hfit with hzero | hfit
      · have hnone : ¬ 0 < divCeil header.total.toNat header.blockSize.toNat := by
          rw [lt_divCeil_iff hbs]
          omega
        omega
      · exact hfit.1
    generalize hn : divCeil header.total.toNat header.blockSize.toNat = n at hsmall hcount
    rw [zipIdx_lens, hn] at hout
    have hwrap : wrap64 ((n + 1) * 4) = (n + 1) * 4 := by
      rw [wrap64, Nat.mod_eq_of_lt (by omega)]
    rw [hwrap] at hout
    obtain ⟨hmax, hindexIn, hout⟩ := collect_readExactSeq_some hhead hout
    have hlimit : maxRead = 2 ^ 24 := rfl
    have hfull : (slice cso (HEADER_LEN + 0 * 4) ((n + 1) * 4)).length = (n + 1) * 4 := by
      rw [Reader.length_slice]
      omega
    have hwrapPos : wrap64 (HEADER_LEN + (n + 1) * 4) = HEADER_LEN + (n + 1) * 4 := by
      rw [wrap64, Nat.mod_eq_of_lt (by omega)]
    rw [hwrapPos, List.range_eq_range'] at hout
    have hentries : ∀ j ≤ 0 + n, (parseIndex (slice cso (0 + HEADER_LEN) ((n + 1) * 4)))[j]? =
        some (entryAt cso j) := by
      intro j hj
      have hentry := getElem?_parseIndex hfull (show j < n + 1 by omega)
      rw [Nat.zero_mul, Nat.add_zero, Nat.zero_add j] at hentry
      rw [Nat.zero_add]
      exact hentry
    obtain ⟨plains, hplains, rfl⟩ := inflatePass_some (by omega) hentries hout
    rw [List.nil_append, ← List.range_eq_range']
    have hlens : ∀ j < n, (plains j).length =
        min (header.total.toNat - j * header.blockSize.toNat) header.blockSize.toNat :=
      fun j hj => (hplains j (Nat.zero_le _) (by omega)).length
    have himage := length_pieces hlens
    rw [Nat.min_eq_right hcount] at himage
    have hwindow := @Xf.slice_window ((List.range n).flatMap plains) (by omega) offset len
    rw [himage, Xf.window] at hwindow
    cases htouched : touchedBlocks header.total.toNat header.blockSize.toNat offset.toNat
        len.toNat with
    | none =>
      rw [touchedBlocks] at htouched
      split at htouched
      · rename_i hempty
        rw [← hwindow, Nat.sub_eq_zero_of_le hempty, Reader.slice_zero_right]
        rfl
      · cases htouched
    | some blocks =>
      obtain ⟨first, last⟩ := blocks
      obtain ⟨hwin, hfirst, hlast, hle, hlt⟩ := touchedBlocks_eq_some hbs htouched
      rw [hn] at hlt
      have hsliceLen : wrap64 ((last - first + 2) * 4) = (last - first + 2) * 4 := by
        rw [wrap64, Nat.mod_eq_of_lt (by omega)]
      have hsliceAt : wrap64 (HEADER_LEN + first * 4) = HEADER_LEN + first * 4 := by
        rw [wrap64, Nat.mod_eq_of_lt (by omega)]
      have hpart : (slice cso (HEADER_LEN + first * 4) ((last - first + 2) * 4)).length =
          (last - first + 2) * 4 := by
        rw [Reader.length_slice]
        omega
      simp only [hsliceLen, hsliceAt]
      rw [if_neg (by omega), run_readExactAt (by omega) hpart]
      generalize hstart : min offset.toNat header.total.toNat = winStart at *
      generalize hend : min (min (offset.toNat + len.toNat) (2 ^ 64 - 1))
        header.total.toNat = winEnd at *
      rw [@collect_servePass_of_decodes codec cso [] header _ plains _ winStart winEnd first
        fun b hb => by
          rw [List.mem_range'_1] at hb
          refine ⟨hplains b (Nat.zero_le _) (by omega), ?_, ?_⟩
          · rw [getElem?_parseIndex hpart (by omega), Nat.add_sub_cancel' hb.1]
          · rw [getElem?_parseIndex hpart (by omega)]
            congr 2
            omega]
      rw [List.nil_append, ← hwindow]
      congr 1
      have hshares := @Chunks.flatMap_shares _ (slice ((List.range n).flatMap plains))
        (Reader.slice_zero_right _) (Reader.slice_append_slice _) winStart winEnd
        header.blockSize.toNat first (last + 1 - first)
      have hfirstLow := Nat.div_mul_le_self winStart header.blockSize.toNat
      have hlastHigh := Nat.lt_mul_div_succ (winEnd - 1) hbs
      rw [← hlast, Nat.mul_comm] at hlastHigh
      rw [← hfirst] at hfirstLow
      rw [Nat.add_sub_cancel' (by omega), Nat.max_eq_left hfirstLow,
        Nat.min_eq_left (by omega)] at hshares
      rw [← hshares, List.range'_eq_map_range, List.flatMap_map]
      refine List.flatMap_congr fun j hj => ?_
      rw [List.mem_range] at hj
      have hin := (lt_divCeil_iff hbs).mp (show first + j < divCeil header.total.toNat
        header.blockSize.toNat by omega)
      rw [← slice_pieces hlens (show first + j < n by omega) hin, Chunks.part_slice,
        Nat.succ_mul]

end Datboi.Cso
