import Datboi.Lib.GuestTraps
import Datboi.Xf.CsoRoundTrip

/-!
# Decompressing any file

Every number of a container is untrusted. With a check before each addition, multiplication
and shift the decompressor is the one above with traps in some places, so what is shown of
its checks says where the arithmetic of the component is exact. Wherever it decompresses a
whole file, a window is the slice of the result.
-/

namespace Datboi.Cso

open Guest (Program)
open Reader (slice)
open Xf (collect)

variable (codec : Codec)

/-! ## Checked arithmetic -/

namespace Checked

def addIn (a b : Nat) (next : Nat → Program UInt8) : Program UInt8 :=
  if a + b < 2 ^ 64 then next (a + b) else .trap false

def mulIn (a b : Nat) (next : Nat → Program UInt8) : Program UInt8 :=
  if a * b < 2 ^ 64 then next (a * b) else .trap false

/-- A shift overflows when its amount is not below the width; bits may be lost. -/
def shlIn (x amount : Nat) (next : Nat → Program UInt8) : Program UInt8 :=
  if amount < 64 then next (wrap64 (x <<< amount)) else .trap false

/-- The remaining blocks by their numbers, from the position in the file. -/
def inflatePass (header : Header) (index : List Nat) : List Nat → Nat → Program UInt8
  | [], _ => .done
  | i :: rest, filePos =>
    let bs := header.blockSize.toNat
    mulIn i bs fun start =>
      match index[i]?, index[i + 1]? with
      | some entry, some after =>
        shlIn (entry &&& OFFSET_MASK) header.align.toNat fun dataOff =>
          shlIn (after &&& OFFSET_MASK) header.align.toNat fun nextOff =>
            if dataOff < filePos ∨ nextOff < dataOff then
              .refuse s!"index entry {i} goes backwards"
            else
              let plainLen := min (header.total.toNat - start) bs
              let block :=
                readExactSeq 0 (nextOff - dataOff) "block extent" fun extent =>
                  orRefuse (decodeBlock codec extent (entry &&& STORED_FLAG ≠ 0) plainLen i)
                    fun plain => .write 0 plain (inflatePass header index rest nextOff)
              if filePos < dataOff then
                readExactSeq 0 (dataOff - filePos) "padding" fun _ => block
              else block
      | _, _ => .trap false

def decompress : Program UInt8 :=
  readExactSeq 0 HEADER_LEN "header" fun bytes =>
    match parseHeader bytes with
    | .error message => .refuse message
    | .ok header =>
      let blocks := divCeil header.total.toNat header.blockSize.toNat
      addIn blocks 1 fun entries =>
        mulIn entries 4 fun indexLen =>
          readExactSeq 0 indexLen "index" fun bytes =>
            addIn HEADER_LEN indexLen fun filePos =>
              inflatePass codec header (parseIndex bytes) (List.range blocks) filePos

/-- The touched blocks in order; of each, what lies in the window. -/
def servePass (header : Header) (index : List Nat) (winStart winEnd first : Nat) :
    List Nat → Program UInt8
  | [] => .done
  | block :: blocks =>
    let bs := header.blockSize.toNat
    match index[block - first]?, index[block - first + 1]? with
    | some entry, some after =>
      shlIn (entry &&& OFFSET_MASK) header.align.toNat fun dataOff =>
        shlIn (after &&& OFFSET_MASK) header.align.toNat fun nextOff =>
          if nextOff < dataOff then .refuse s!"index entry {block} goes backwards"
          else if 2 ^ 32 ≤ nextOff - dataOff then .refuse "block extent too large"
          else
            readExactAt 0 dataOff (nextOff - dataOff) "block extent" fun extent =>
              mulIn block bs fun start =>
                let plainLen := min (header.total.toNat - start) bs
                orRefuse (decodeBlock codec extent (entry &&& STORED_FLAG ≠ 0) plainLen block)
                  fun plain =>
                    let lo := min (winStart - start) plainLen
                    let hi := min (winEnd - start) plainLen
                    let rest := servePass header index winStart winEnd first blocks
                    if lo < hi then .write 0 (slice plain lo (hi - lo)) rest else rest
    | _, _ => .trap false

def serveDecompressedRange (offset len : UInt64) : Program UInt8 :=
  readExactAt 0 0 HEADER_LEN "header" fun bytes =>
    match parseHeader bytes with
    | .error message => .refuse message
    | .ok header =>
      let total := header.total.toNat
      match touchedBlocks total header.blockSize.toNat offset.toNat len.toNat with
      | none => .done
      | some (first, last) =>
        addIn (last - first) 2 fun entries =>
          mulIn first 4 fun skip =>
            addIn HEADER_LEN skip fun indexAt =>
              mulIn entries 4 fun sliceLen =>
                if 2 ^ 32 ≤ sliceLen then .refuse "index slice too large"
                else
                  readExactAt 0 indexAt sliceLen "index slice" fun bytes =>
                    servePass codec header (parseIndex bytes) (min offset.toNat total)
                      (min (min (offset.toNat + len.toNat) (2 ^ 64 - 1)) total) first
                      (List.range' first (last + 1 - first))

end Checked

/-! ## The same program with more checks -/

section Checks

variable {a b x amount : Nat} {next : Nat → Program UInt8} {q : Program UInt8}

theorem checks_addIn (h : a + b < 2 ^ 64 → (next (a + b)).Checks q) :
    (Checked.addIn a b next).Checks q := by
  unfold Checked.addIn
  split
  · rename_i hfits
    exact h hfits
  · exact .trap _ _

theorem checks_mulIn (h : a * b < 2 ^ 64 → (next (a * b)).Checks q) :
    (Checked.mulIn a b next).Checks q := by
  unfold Checked.mulIn
  split
  · rename_i hfits
    exact h hfits
  · exact .trap _ _

theorem checks_shlIn (h : amount < 64 → (next (wrap64 (x <<< amount))).Checks q) :
    (Checked.shlIn x amount next).Checks q := by
  unfold Checked.shlIn
  split
  · rename_i hfits
    exact h hfits
  · exact .trap _ _

variable {n offset : Nat} {what : String} {more more' : Bytes → Program UInt8}

section

variable (h : ∀ bytes, (more bytes).Checks (more' bytes))

include h

theorem checks_readExactSeq :
    (readExactSeq 0 n what more).Checks (readExactSeq 0 n what more') := by
  unfold readExactSeq
  split
  · exact .refuse _
  · refine .read _ _ fun bytes => ?_
    split
    · exact .refuse _
    · exact h bytes

theorem checks_readExactAt :
    (readExactAt 0 offset n what more).Checks (readExactAt 0 offset n what more') := by
  refine .readAt _ _ _ fun bytes => ?_
  split
  · exact .refuse _
  · exact h bytes

theorem checks_orRefuse {result : Except String Bytes} :
    (orRefuse result more).Checks (orRefuse result more') := by
  cases result with
  | error message => exact .refuse _
  | ok plain => exact h plain

end

variable {codec} {header : Header} {index : List Nat}

theorem checks_inflatePass {blocks : List Nat} {filePos : Nat} :
    (Checked.inflatePass codec header index blocks filePos).Checks
      (inflatePass codec header.align index (blocks.map fun i =>
        (min (header.total.toNat - i * header.blockSize.toNat) header.blockSize.toNat, i))
        filePos) := by
  induction blocks generalizing filePos with
  | nil => exact .done
  | cons i rest ih =>
    rw [List.map_cons, Checked.inflatePass, inflatePass]
    refine checks_mulIn fun _ => ?_
    cases hentry : index[i]? with
    | none => exact .trap _ _
    | some entry =>
      cases hafter : index[i + 1]? with
      | none => exact .trap _ _
      | some after =>
        refine checks_shlIn fun halign => checks_shlIn fun _ => ?_
        simp only [entryOffset, Nat.mod_eq_of_lt halign]
        split
        · exact .refuse _
        · have hblock : ∀ plainLen n nextOff,
              (readExactSeq 0 n "block extent" fun extent =>
                orRefuse (decodeBlock codec extent (entry &&& STORED_FLAG ≠ 0) plainLen i)
                  fun plain => .write 0 plain
                    (Checked.inflatePass codec header index rest nextOff)).Checks
                (readExactSeq 0 n "block extent" fun extent =>
                  orRefuse (decodeBlock codec extent (entry &&& STORED_FLAG ≠ 0) plainLen i)
                    fun plain => .write 0 plain (inflatePass codec header.align index
                      (rest.map fun i => (min (header.total.toNat -
                        i * header.blockSize.toNat) header.blockSize.toNat, i)) nextOff)) :=
            fun plainLen n nextOff => checks_readExactSeq fun bytes =>
              checks_orRefuse fun plain => .write _ _ ih
          split
          · exact checks_readExactSeq fun _ => hblock _ _ _
          · exact hblock _ _ _

theorem checks_servePass {winStart winEnd first : Nat} {blocks : List Nat} :
    (Checked.servePass codec header index winStart winEnd first blocks).Checks
      (servePass codec header index winStart winEnd first blocks) := by
  induction blocks with
  | nil => exact .done
  | cons block rest ih =>
    rw [Checked.servePass, servePass]
    cases hentry : index[block - first]? with
    | none => exact .trap _ _
    | some entry =>
      cases hafter : index[block - first + 1]? with
      | none => exact .trap _ _
      | some after =>
        refine checks_shlIn fun halign => checks_shlIn fun _ => ?_
        simp only [entryOffset, Nat.mod_eq_of_lt halign]
        split
        · exact .refuse _
        · split
          · exact .refuse _
          · refine checks_readExactAt fun bytes => checks_mulIn fun _ => ?_
            refine checks_orRefuse fun plain => ?_
            split
            · exact .write _ _ ih
            · exact ih

theorem checks_decompress : (Checked.decompress codec).Checks (decompress codec) := by
  refine checks_readExactSeq fun bytes => ?_
  cases hparse : parseHeader bytes with
  | error message => exact .refuse _
  | ok header =>
    refine checks_addIn fun _ => checks_mulIn fun hindex => ?_
    simp only [wrap64, Nat.mod_eq_of_lt hindex]
    refine checks_readExactSeq fun bytes => checks_addIn fun hpos => ?_
    simp only [Nat.mod_eq_of_lt hpos, zipIdx_lens]
    exact checks_inflatePass

theorem checks_serve (offset len : UInt64) :
    (Checked.serveDecompressedRange codec offset len).Checks
      (serveDecompressedRange codec offset len) := by
  refine checks_readExactAt fun bytes => ?_
  cases hparse : parseHeader bytes with
  | error message => exact .refuse _
  | ok header =>
    simp only
    cases htouched : touchedBlocks header.total.toNat header.blockSize.toNat offset.toNat
        len.toNat with
    | none => exact .done
    | some blocks =>
      obtain ⟨first, last⟩ := blocks
      refine checks_addIn fun _ => checks_mulIn fun _ => checks_addIn fun hat => ?_
      refine checks_mulIn fun hlen => ?_
      simp only [wrap64, Nat.mod_eq_of_lt hat, Nat.mod_eq_of_lt hlen]
      split
      · exact .refuse _
      · exact checks_readExactAt fun bytes => checks_servePass

end Checks

/-! ## Where the checks hold -/

section Panics

variable {items written : Bytes} {a b x amount n offset consumed : Nat} {what : String}
variable {next : Nat → Program UInt8} {more : Bytes → Program UInt8}
variable {host : Guest.Ports IoError UInt8}

theorem not_panics_addIn (hfits : a + b < 2 ^ 64) (h : ¬ (next (a + b)).Panics maxRead host) :
    ¬ (Checked.addIn a b next).Panics maxRead host := by
  rw [Checked.addIn, if_pos hfits]
  exact h

theorem not_panics_mulIn (hfits : a * b < 2 ^ 64) (h : ¬ (next (a * b)).Panics maxRead host) :
    ¬ (Checked.mulIn a b next).Panics maxRead host := by
  rw [Checked.mulIn, if_pos hfits]
  exact h

theorem not_panics_shlIn (hfits : amount < 64)
    (h : ¬ (next (wrap64 (x <<< amount))).Panics maxRead host) :
    ¬ (Checked.shlIn x amount next).Panics maxRead host := by
  rw [Checked.shlIn, if_pos hfits]
  exact h

theorem not_panics_orRefuse {result : Except String Bytes}
    (h : ∀ plain, result = .ok plain → ¬ (more plain).Panics maxRead host) :
    ¬ (orRefuse result more).Panics maxRead host := by
  cases result with
  | error message => exact not_false
  | ok plain => exact h plain rfl

/-- What follows a full read decides. -/
theorem not_panics_readExactSeq (hin : consumed ≤ items.length)
    (h : n ≤ maxRead → consumed + n ≤ items.length → (slice items consumed n).length = n →
      ¬ (more (slice items consumed n)).Panics maxRead
        (ports (.sequential (.feed items (consumed + n))) written)) :
    ¬ (readExactSeq 0 n what more).Panics maxRead
      (ports (.sequential (.feed items consumed)) written) := by
  unfold readExactSeq
  split
  · exact not_false
  · by_cases hmax : n ≤ maxRead
    · rw [Program.panics_read_feed_upTo rfl hmax hin]
      split
      · exact not_false
      · rename_i hfull
        rw [ne_eq, not_not] at hfull
        have hfits : consumed + n ≤ items.length := by
          rw [Reader.length_slice] at hfull
          omega
        rw [Nat.min_eq_left hfits]
        exact h hmax hfits hfull
    · exact Program.not_panics_read_long rfl (Nat.lt_of_not_le hmax)

theorem panics_readExactAt (hmax : n ≤ maxRead) (hfull : (slice items offset n).length = n) :
    (readExactAt 0 offset n what more).Panics maxRead
        (ports (.randomAccess (.ofList items)) written) ↔
      (more (slice items offset n)).Panics maxRead
        (ports (.randomAccess (.ofList items)) written) := by
  rw [readExactAt, Program.panics_readAt_ofList rfl hmax, if_neg (not_not.mpr hfull)]

theorem not_panics_readExactAt
    (h : n ≤ maxRead → (slice items offset n).length = n →
      ¬ (more (slice items offset n)).Panics maxRead
        (ports (.randomAccess (.ofList items)) written)) :
    ¬ (readExactAt 0 offset n what more).Panics maxRead
      (ports (.randomAccess (.ofList items)) written) := by
  by_cases hmax : n ≤ maxRead
  · by_cases hfull : (slice items offset n).length = n
    · rw [panics_readExactAt hmax hfull]
      exact h hmax hfull
    · rw [readExactAt, Program.panics_readAt_ofList rfl hmax, if_pos hfull]
      exact not_false
  · exact Program.not_panics_readAt_long rfl (Nat.lt_of_not_le hmax)

theorem not_panics_write {input : Guest.Input IoError UInt8} {chunk : Bytes}
    {after : Program UInt8} (h : ¬ after.Panics maxRead (ports input (written ++ chunk))) :
    ¬ (Program.write 0 chunk after).Panics maxRead (ports input written) := by
  rw [Program.panics_write_open rfl]
  exact h

end Panics

section Total

variable {codec} {cso written : Bytes} {header : Header} {index : List Nat}

theorem parseHeader_length {bytes : Bytes} (hparse : parseHeader bytes = .ok header) :
    bytes.length = HEADER_LEN := by
  unfold parseHeader at hparse
  split at hparse
  · cases hparse
  · rename_i hlen
    exact not_not.mp hlen

/-- The window of the last byte. -/
theorem touchedBlocks_last {total bs : Nat} (hpos : 0 < total) (htotal : total < 2 ^ 64) :
    touchedBlocks total bs (total - 1) 1 = some ((total - 1) / bs, (total - 1) / bs) := by
  have hstop : min (min (total - 1 + 1) (2 ^ 64 - 1)) total = total := by omega
  rw [touchedBlocks, hstop, if_neg (by omega), Nat.min_eq_left (Nat.sub_le _ _)]

/-- The window of the first byte. -/
theorem touchedBlocks_first {total bs : Nat} (hpos : 0 < total) :
    touchedBlocks total bs 0 1 = some (0, 0) := by
  have hstop : min (min (0 + 1) (2 ^ 64 - 1)) total = 1 := by omega
  rw [touchedBlocks, hstop, if_neg (by omega), Nat.zero_min, Nat.sub_self, Nat.zero_div]

theorem not_panics_inflatePass {blocks : List Nat} {filePos consumed : Nat}
    (hin : consumed ≤ cso.length) (halign : blocks ≠ [] → header.align.toNat < 64)
    (hblocks : ∀ i ∈ blocks, i * header.blockSize.toNat < 2 ^ 64 ∧ i + 1 < index.length) :
    ¬ (Checked.inflatePass codec header index blocks filePos).Panics maxRead
      (ports (.sequential (.feed cso consumed)) written) := by
  induction blocks generalizing filePos consumed written with
  | nil => exact not_false
  | cons i rest ih =>
    obtain ⟨hstart, hafter⟩ := hblocks i List.mem_cons_self
    have hshift := halign (List.cons_ne_nil _ _)
    have hblock : ∀ nextOff n plainLen flag at', at' ≤ cso.length →
        ¬ (readExactSeq 0 n "block extent" fun extent =>
          orRefuse (decodeBlock codec extent flag plainLen i) fun plain => .write 0 plain
            (Checked.inflatePass codec header index rest nextOff)).Panics maxRead
          (ports (.sequential (.feed cso at')) written) := by
      intro nextOff n plainLen flag at' hat
      refine not_panics_readExactSeq hat fun _ hread _ => not_panics_orRefuse fun plain _ => ?_
      exact not_panics_write (ih hread (fun _ => hshift)
        fun j hj => hblocks j (List.mem_cons_of_mem _ hj))
    rw [Checked.inflatePass]
    refine not_panics_mulIn hstart ?_
    simp only [List.getElem?_eq_getElem hafter,
      List.getElem?_eq_getElem (Nat.lt_of_succ_lt hafter)]
    refine not_panics_shlIn hshift (not_panics_shlIn hshift ?_)
    split
    · exact not_false
    · split
      · exact not_panics_readExactSeq hin fun _ hread _ => hblock _ _ _ _ _ hread
      · exact hblock _ _ _ _ _ hin

theorem not_panics_decompress (hfits : Fits cso) :
    ¬ (Checked.decompress codec).Panics maxRead (ports (.sequential (.feed cso 0)) written) := by
  refine not_panics_readExactSeq (Nat.zero_le _) fun _ hhead _ => ?_
  cases hparse : parseHeader (slice cso 0 HEADER_LEN) with
  | error message => exact not_false
  | ok header =>
    have hbs := blockSize_pos hparse
    have htotal := header.total.toNat_lt
    simp only
    have hfit := hfits header hparse
    generalize hcount : divCeil header.total.toNat header.blockSize.toNat = count at hfit ⊢
    have hsmall : count * 4 + 20 < 2 ^ 64 := by
      rcases hfit with hzero | hfit
      · have hnone : ¬ 0 < count := by
          rw [← hcount, lt_divCeil_iff hbs]
          omega
        omega
      · exact hfit.1
    refine not_panics_addIn (by omega) (not_panics_mulIn (by omega) ?_)
    refine not_panics_readExactSeq hhead fun hmax hindex hfull => not_panics_addIn ?_ ?_
    · have hlimit : maxRead = 2 ^ 24 := rfl
      have hheader : HEADER_LEN = 24 := rfl
      omega
    · refine not_panics_inflatePass hindex (fun hsome => ?_) fun i hi => ?_
      · have hpos : 0 < count := by
          rcases Nat.eq_zero_or_pos count with hzero | hpos
          · rw [hzero] at hsome
            exact absurd rfl hsome
          · exact hpos
        rcases hfit with hzero | ⟨-, halign | hshort⟩
        · rw [← hcount, lt_divCeil_iff hbs] at hpos
          omega
        · exact halign
        · have hheader : HEADER_LEN = 24 := rfl
          omega
      · rw [List.mem_range] at hi
        rw [length_parseIndex, hfull, Nat.mul_div_cancel _ (by decide)]
        rw [← hcount, lt_divCeil_iff hbs] at hi
        constructor
        · omega
        · rw [← lt_divCeil_iff hbs, hcount] at hi
          omega

theorem not_panics_servePass {blocks : List Nat} {winStart winEnd first : Nat}
    (halign : header.align.toNat < 64)
    (hblocks : ∀ b ∈ blocks, b * header.blockSize.toNat < 2 ^ 64 ∧ b - first + 1 < index.length) :
    ¬ (Checked.servePass codec header index winStart winEnd first blocks).Panics maxRead
      (ports (.randomAccess (.ofList cso)) written) := by
  induction blocks generalizing written with
  | nil => exact not_false
  | cons b rest ih =>
    obtain ⟨hstart, hafter⟩ := hblocks b List.mem_cons_self
    have hrest : ∀ b ∈ rest, b * header.blockSize.toNat < 2 ^ 64 ∧ b - first + 1 < index.length :=
      fun b hb => hblocks b (List.mem_cons_of_mem _ hb)
    rw [Checked.servePass]
    simp only [List.getElem?_eq_getElem hafter,
      List.getElem?_eq_getElem (Nat.lt_of_succ_lt hafter)]
    refine not_panics_shlIn halign (not_panics_shlIn halign ?_)
    split
    · exact not_false
    · split
      · exact not_false
      · refine not_panics_readExactAt fun _ _ => not_panics_mulIn hstart ?_
        refine not_panics_orRefuse fun plain _ => ?_
        split
        · exact not_panics_write (ih hrest)
        · exact ih hrest

theorem not_panics_serve (hfits : Fits cso) (offset len : UInt64) :
    ¬ (Checked.serveDecompressedRange codec offset len).Panics maxRead
      (ports (.randomAccess (.ofList cso)) written) := by
  refine not_panics_readExactAt fun _ hhead => ?_
  cases hparse : parseHeader (slice cso 0 HEADER_LEN) with
  | error message => exact not_false
  | ok header =>
    have hbs := blockSize_pos hparse
    have htotal := header.total.toNat_lt
    simp only
    cases htouched : touchedBlocks header.total.toNat header.blockSize.toNat offset.toNat
        len.toNat with
    | none => exact not_false
    | some blocks =>
      obtain ⟨first, last⟩ := blocks
      obtain ⟨hwindow, -, -, hle, hlast⟩ := touchedBlocks_eq_some hbs htouched
      have hfit := (hfits header hparse).resolve_left (by omega)
      have hheader : HEADER_LEN = 24 := rfl
      have hbound : ∀ b, b ≤ last → b * header.blockSize.toNat < 2 ^ 64 := by
        intro b hb
        have hin := (lt_divCeil_iff hbs).mp (Nat.lt_of_le_of_lt hb hlast)
        omega
      refine not_panics_addIn (by omega) (not_panics_mulIn (by omega) ?_)
      refine not_panics_addIn (by omega) (not_panics_mulIn (by omega) ?_)
      split
      · exact not_false
      · refine not_panics_readExactAt fun _ hfull => not_panics_servePass ?_ fun b hb => ?_
        · rcases hfit.2 with halign | hshort
          · exact halign
          · -- A file this short has no two entries.
            rw [Reader.length_slice] at hfull
            omega
        · rw [List.mem_range'_1] at hb
          rw [length_parseIndex, hfull, Nat.mul_div_cancel _ (by decide)]
          exact ⟨hbound b (by omega), by omega⟩

/-- Where the file does not fit, some window overflows. -/
theorem exists_panics_of_not_fits (hfits : ¬ Fits cso) : ∃ offset len : UInt64,
    (Checked.serveDecompressedRange codec offset len).Panics maxRead
      (ports (.randomAccess (.ofList cso)) written) := by
  simp only [Fits, not_forall] at hfits
  obtain ⟨header, hparse, hnot⟩ := hfits
  have hbs := blockSize_pos hparse
  have hlen := parseHeader_length hparse
  have htotal := header.total.toNat_lt
  have hheader : HEADER_LEN = 24 := rfl
  obtain ⟨hpos, hrest⟩ := not_or.mp hnot
  have hceil : divCeil header.total.toNat header.blockSize.toNat =
      (header.total.toNat - 1) / header.blockSize.toNat + 1 := by
    rw [divCeil, show header.total.toNat + header.blockSize.toNat - 1 =
      header.total.toNat - 1 + header.blockSize.toNat by omega, Nat.add_div_right _ hbs]
  by_cases hsmall : divCeil header.total.toNat header.blockSize.toNat * 4 + 20 < 2 ^ 64
  · obtain ⟨halign, hlong⟩ := not_or.mp fun h => hrest ⟨hsmall, h⟩
    have htouched : touchedBlocks header.total.toNat header.blockSize.toNat (0 : UInt64).toNat
        (1 : UInt64).toNat = some (0, 0) := touchedBlocks_first (Nat.pos_of_ne_zero hpos)
    refine ⟨0, 1, ?_⟩
    rw [Checked.serveDecompressedRange, panics_readExactAt (by decide) hlen]
    simp only [hparse, htouched]
    rw [Checked.addIn, if_pos (by decide), Checked.mulIn, if_pos (by decide), Checked.addIn,
      if_pos (by decide), Checked.mulIn, if_pos (by decide), if_neg (by decide)]
    have hfull : (slice cso (HEADER_LEN + 0 * 4) ((0 - 0 + 2) * 4)).length = (0 - 0 + 2) * 4 := by
      rw [Reader.length_slice]
      omega
    rw [panics_readExactAt (by decide) hfull]
    have hindex : (parseIndex (slice cso (HEADER_LEN + 0 * 4) ((0 - 0 + 2) * 4))).length = 2 := by
      rw [length_parseIndex, hfull]
    obtain ⟨entry, after, heq⟩ := List.length_eq_two.mp hindex
    rw [heq]
    change (Checked.servePass codec header [entry, after] _ _ 0 [0]).Panics _ _
    rw [Checked.servePass]
    simp only [Nat.sub_self, List.getElem?_cons_zero, Nat.zero_add, List.getElem?_cons_succ]
    rw [Checked.shlIn, if_neg (by omega)]
    trivial
  · have hlastVal : (UInt64.ofNat (header.total.toNat - 1)).toNat = header.total.toNat - 1 := by
      rw [UInt64.toNat_ofNat', Nat.mod_eq_of_lt (by omega)]
    have hwindow := @touchedBlocks_last header.total.toNat header.blockSize.toNat
      (Nat.pos_of_ne_zero hpos) htotal
    generalize hlast : (header.total.toNat - 1) / header.blockSize.toNat = last at hceil
    have htouched : touchedBlocks header.total.toNat header.blockSize.toNat
        (UInt64.ofNat (header.total.toNat - 1)).toNat (1 : UInt64).toNat = some (last, last) := by
      rw [hlastVal, ← hlast]
      exact hwindow
    refine ⟨UInt64.ofNat (header.total.toNat - 1), 1, ?_⟩
    rw [Checked.serveDecompressedRange, panics_readExactAt (by decide) hlen]
    simp only [hparse, htouched]
    rw [Checked.addIn, if_pos (by omega), Checked.mulIn]
    split
    · rw [Checked.addIn, if_neg (by omega)]
      trivial
    · trivial

end Total

section Agree

variable {codec} {cso : Bytes}

/-- What decoding a file is to be: no check fails on either path, and they agree. -/
structure Total (codec : Codec) (cso : Bytes) : Prop where
  decompress : ¬ (Checked.decompress codec).Panics maxRead
    (ports (.sequential (.feed cso 0)) [])
  serve : ∀ offset len : UInt64, ¬ (Checked.serveDecompressedRange codec offset len).Panics maxRead
    (ports (.randomAccess (.ofList cso)) [])
  agrees : Agrees codec cso

/-- Decoding is total and its two paths agree exactly on the files that fit. -/
theorem total_iff (codec : Codec) (cso : Bytes) : Total codec cso ↔ Fits cso := by
  constructor
  · intro htotal
    by_contra hfits
    obtain ⟨offset, len, hpanics⟩ := exists_panics_of_not_fits hfits
    exact htotal.serve offset len hpanics
  · intro hfits
    exact ⟨not_panics_decompress hfits, not_panics_serve hfits, agrees_of_fits hfits⟩

end Agree

/-- A header alone, of more blocks than there are numbers. -/
def endlessHeader : Header where
  total := 0xFFFFFFFFFFFFFFFF
  blockSize := 1
  align := 0

/-- The number of entries is cut to zero, and the first entry is looked up in no bytes. -/
theorem endless_panics :
    (decompress storedCodec).Panics maxRead
      (ports (.sequential (.feed (encodeHeader endlessHeader) 0)) []) ∧
      ¬ Total storedCodec (encodeHeader endlessHeader) := by
  have hparse : parseHeader (slice (encodeHeader endlessHeader) 0 HEADER_LEN) =
      .ok endlessHeader := by decide +kernel
  have hlen : (encodeHeader endlessHeader).length = HEADER_LEN := length_encodeHeader _
  refine ⟨?_, fun htotal => ?_⟩
  · have hfull : (slice (encodeHeader endlessHeader) 0 HEADER_LEN).length = HEADER_LEN := by
      rw [Reader.length_slice, hlen]
      rfl
    rw [decompress, readExactSeq, if_neg (by decide),
      Program.panics_read_feed_upTo rfl (by decide) (Nat.zero_le _), if_neg (not_not.mpr hfull)]
    simp only [hparse]
    have hcount : divCeil endlessHeader.total.toNat endlessHeader.blockSize.toNat =
        18446744073709551614 + 1 := by decide +kernel
    have hwrap : wrap64 ((18446744073709551614 + 1 + 1) * 4) = 0 := by decide +kernel
    rw [zipIdx_lens, hcount, hwrap, readExactSeq, if_neg (by decide),
      Program.panics_read_feed_upTo rfl (by decide) (by rw [hlen]; decide),
      Reader.slice_zero_right, if_neg (by decide), List.range_succ_eq_map, List.map_cons,
      inflatePass]
    trivial
  · obtain ⟨offset, len, hpanics⟩ := @exists_panics_of_not_fits storedCodec
      (encodeHeader endlessHeader) [] fun hfits => by
        rcases hfits _ hparse with hzero | ⟨hsmall, -⟩
        · exact absurd hzero (by decide)
        · exact absurd hsmall (by decide +kernel)
    exact htotal.serve offset len hpanics

end Datboi.Cso
