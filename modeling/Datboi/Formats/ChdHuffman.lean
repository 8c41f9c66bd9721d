import Datboi.Formats.ChdBits
import Datboi.Formats.ChdHeader
import Datboi.Lib.CanonicalCode
import Mathlib.Logic.Function.Basic

/-!
# Huffman trees of compressed discs

A tree is a list of code lengths, spelled in one of two ways. The codes are canonical with the
longest first, and a table with one entry for each word of the greatest length decodes them.
-/

namespace Datboi

namespace Chd

open Bits (number)
open Outcome (demand ensure ofOption)

structure Huffman where
  numCodes : Nat
  maxBits : Nat
  lengths : List Nat
  codes : List Nat
  lookup : List Nat
  deriving DecidableEq, Repr

namespace Huffman

/-! ## Codes -/

/-- The walk from the longest codes to the shortest, which leaves the first code of each length
in place of its count. -/
def walk (histo : Nat → Nat) : Nat → Nat → Decode (Nat → Nat)
  | 0, _ => .ok histo
  | codelen + 1, curstart =>
    let total := curstart + histo (codelen + 1)
    let nextstart := total >>> 1
    if codelen + 1 ≠ 1 ∧ nextstart * 2 ≠ total then
      malformed "CHD huffman tree is not a valid canonical code"
    else walk (Function.update histo (codelen + 1) curstart) codelen nextstart

/-- The codes of the remaining symbols, given the next code of each length. -/
def assign : List Nat → (Nat → Nat) → List Nat
  | [], _ => []
  | len :: lengths, next =>
    if 0 < len then
      next len :: assign lengths (Function.update next len (next len + 1))
    else 0 :: assign lengths next

def assignCanonicalCodes (lengths : List Nat) (maxBits : Nat) : Decode (List Nat) := do
  ensure (∀ len ∈ lengths, len ≤ maxBits) (.malformed "CHD huffman tree has an over-long code")
  let starts ← walk (fun len => lengths.count len) 32 0
  pure (assign lengths starts)

/-! ## Table -/

/-- A run of equal entries. -/
def fill (table : List Nat) (start count value : Nat) : List Nat :=
  table.take start ++ List.replicate count value ++ table.drop (start + count)

/-- The entries of one symbol. A run past the end of the table is out of bounds. -/
def fillSymbol (lengths codes : List Nat) (maxBits : Nat) (table : List Nat) (i : Nat) :
    Decode (List Nat) :=
  let len := lengths.getD i 0
  if len = 0 then .ok table
  else
    let value := (i <<< 5) ||| len
    let shift := maxBits - len
    let start := (codes.getD i 0 <<< shift) % 2 ^ 32
    if start + 1 <<< shift ≤ table.length then .ok (fill table start (1 <<< shift) value)
    else .panic

def buildLookupTable (lengths codes : List Nat) (maxBits : Nat) : Decode (List Nat) :=
  (List.range lengths.length).foldlM (fillSymbol lengths codes maxBits)
    (List.replicate (1 <<< maxBits) 0)

def fromLengths (lengths : List Nat) (maxBits : Nat) : Decode Huffman := do
  let codes ← assignCanonicalCodes lengths maxBits
  let lookup ← buildLookupTable lengths codes maxBits
  pure { numCodes := lengths.length, maxBits, lengths, codes, lookup }

def decodeOne (huff : Huffman) (bits : BitReader) : Decode (Nat × BitReader) := do
  let (peeked, bits) := bits.peek huff.maxBits
  let entry ← ofOption huff.lookup[peeked]?
  pure (entry >>> 5, bits.remove (entry &&& 0x1F))

/-! ## The two spellings -/

def overruns : String := "CHD huffman RLE tree overruns its symbol count"

def treeTruncated : String := "CHD huffman tree is truncated"

/-- The lengths so far and the rest of them; each round adds one length at least. -/
def readRle (numbits numCodes : Nat) : Nat → List Nat → BitReader → Decode (List Nat × BitReader)
  | rounds, lengths, bits =>
    if numCodes ≤ lengths.length then .ok (lengths, bits)
    else
      match rounds with
      | 0 => .panic
      | rounds + 1 =>
        let (nodebits, bits) := bits.read numbits
        if nodebits ≠ 1 then readRle numbits numCodes rounds (lengths ++ [nodebits]) bits
        else
          let (nodebits, bits) := bits.read numbits
          if nodebits = 1 then readRle numbits numCodes rounds (lengths ++ [1]) bits
          else
            let (more, bits) := bits.read numbits
            if numCodes < lengths.length + (more + 3) then malformed overruns
            else
              readRle numbits numCodes rounds
                (lengths ++ List.replicate (more + 3) nodebits) bits

def rleWidth (maxBits : Nat) : Nat := if 16 ≤ maxBits then 5 else if 8 ≤ maxBits then 4 else 3

/-- The lengths that a tree in runs spells. -/
def rleLengths (numCodes maxBits : Nat) (bits : BitReader) : Decode (List Nat × BitReader) := do
  let (lengths, bits) ← readRle (rleWidth maxBits) numCodes numCodes [] bits
  ensure (bits.overflowed = false) (.malformed treeTruncated)
  pure (lengths, bits)

def importTreeRle (numCodes maxBits : Nat) (bits : BitReader) : Decode (Huffman × BitReader) := do
  let (lengths, bits) ← rleLengths numCodes maxBits bits
  let huff ← fromLengths lengths maxBits
  pure (huff, bits)

/-- The lengths of the small tree from an index on. A seven is an unused symbol, and after it all
symbols are unused. -/
def readSmall (start : Nat) : Nat → Nat → Nat → BitReader → List Nat × BitReader
  | 0, _, _, bits => ([], bits)
  | left + 1, index, count, bits =>
    if index < start ∨ count = 7 then
      let (lengths, bits) := readSmall start left (index + 1) count bits
      (0 :: lengths, bits)
    else
      let (count, bits) := bits.read 3
      let (lengths, bits) := readSmall start left (index + 1) count bits
      ((if count = 7 then 0 else count) :: lengths, bits)

def smallLengths (bits : BitReader) : List Nat × BitReader :=
  let (first, bits) := bits.read 3
  let (start, bits) := bits.read 3
  let (lengths, bits) := readSmall (start + 1) 23 1 0 bits
  (first :: lengths, bits)

/-- The number of halvings that empty a number. -/
def rlefullbits (numCodes : Nat) : Nat :=
  let temp := numCodes - 9
  if temp = 0 then 0 else temp.log2 + 1

/-- The lengths so far and the rest of them, coded by the small tree; each round adds one at
least. -/
def readCoded (small : Huffman) (numCodes : Nat) :
    Nat → Nat → List Nat → BitReader → Decode (List Nat × BitReader)
  | rounds, last, lengths, bits =>
    if numCodes ≤ lengths.length then .ok (lengths, bits)
    else
      match rounds with
      | 0 => .panic
      | rounds + 1 => do
          let (value, bits) ← small.decodeOne bits
          if value ≠ 0 then
            demand (value - 1 < 256)
            ensure (bits.overflowed = false) (.malformed treeTruncated)
            readCoded small numCodes rounds (value - 1) (lengths ++ [value - 1]) bits
          else
            let (few, bits) := bits.read 3
            let (many, bits) :=
              if few + 2 = 7 + 2 then bits.read (rlefullbits numCodes) else (0, bits)
            ensure (bits.overflowed = false) (.malformed treeTruncated)
            readCoded small numCodes rounds last
              (lengths ++
                List.replicate (min (few + 2 + many) (numCodes - lengths.length)) last) bits

/-- The lengths that a small tree codes. -/
def codedLengths (numCodes : Nat) (bits : BitReader) : Decode (List Nat × BitReader) := do
  let (lengths, bits) := smallLengths bits
  let small ← fromLengths lengths 6
  demand (9 ≤ numCodes)
  readCoded small numCodes numCodes 0 [] bits

def importTreeHuffman (numCodes maxBits : Nat) (bits : BitReader) :
    Decode (Huffman × BitReader) := do
  let (lengths, bits) ← codedLengths numCodes bits
  let huff ← fromLengths lengths maxBits
  pure (huff, bits)

/-! ## What the codes are -/

open CanonicalCode (Halves code first nodes words)

section Codes

variable {lengths codes : List Nat} {maxBits : Nat}

/-- The walk ends with the first code of each length, unless a node is left over. -/
theorem walk_spec {histo : Nat → Nat} {codelen curstart : Nat} (hcodelen : codelen ≤ 32)
    (hhisto : ∀ len, 0 < len → len ≤ codelen → histo len = lengths.count len)
    (hstart : curstart = first lengths 32 codelen)
    (hdone : ∀ len, codelen < len → len ≤ 32 → histo len = first lengths 32 len) :
    (∃ starts, walk histo codelen curstart = .ok starts ∧
        (∀ len, 0 < len → len ≤ 32 → starts len = first lengths 32 len) ∧
        ∀ len, 1 < len → len ≤ codelen → nodes lengths 32 len % 2 = 0) ∨
      (∃ e, walk histo codelen curstart = .error e) ∧
        ¬ ∀ len, 1 < len → len ≤ codelen → nodes lengths 32 len % 2 = 0 := by
  induction codelen generalizing histo curstart with
  | zero => exact Or.inl ⟨histo, rfl, hdone, fun len _ _ => by omega⟩
  | succ codelen ih =>
    have htotal : curstart + histo (codelen + 1) = nodes lengths 32 (codelen + 1) := by
      rw [nodes, hstart, hhisto _ (Nat.succ_pos _) (Nat.le_refl _)]
    rw [walk]
    simp only [htotal]
    split
    · rename_i hodd
      refine Or.inr ⟨⟨_, rfl⟩, fun heven => ?_⟩
      have hhalf := heven (codelen + 1) (by omega) (Nat.le_refl _)
      omega
    · rename_i heven
      have hhisto' : ∀ len, 0 < len → len ≤ codelen →
          Function.update histo (codelen + 1) curstart len = lengths.count len := by
        intro len hpos hle
        rw [Function.update_of_ne (by omega)]
        exact hhisto len hpos (by omega)
      have hdone' : ∀ len, codelen < len → len ≤ 32 →
          Function.update histo (codelen + 1) curstart len = first lengths 32 len := by
        intro len hlt hle
        by_cases heq : len = codelen + 1
        · rw [heq, Function.update_self, hstart]
        · rw [Function.update_of_ne heq]
          exact hdone len (by omega) hle
      have hstart' := (@CanonicalCode.first_of_lt lengths 32 codelen (by omega)).symm
      rcases ih (by omega) hhisto' hstart' hdone' with
        ⟨starts, hwalk, hstarts, hhalves⟩ | ⟨hwalk, hodd⟩
      · refine Or.inl ⟨starts, hwalk, hstarts, fun len hpos hle => ?_⟩
        by_cases heq : len = codelen + 1
        · subst heq
          omega
        · exact hhalves len hpos (by omega)
      · exact Or.inr ⟨hwalk, fun hall => hodd fun len hpos hle => hall len hpos (by omega)⟩

/-- Codes of one length follow each other. -/
theorem assign_getD (lengths : List Nat) (next : Nat → Nat) (i : Nat) (hi : i < lengths.length)
    (hpos : 0 < lengths.getD i 0) :
    (assign lengths next).getD i 0 =
      next (lengths.getD i 0) + (lengths.take i).count (lengths.getD i 0) := by
  induction lengths generalizing next i with
  | nil => exact absurd hi (Nat.not_lt_zero i)
  | cons len lengths ih =>
    rw [assign]
    cases i with
    | zero =>
      have hlen : 0 < len := hpos
      rw [if_pos hlen]
      simp
    | succ i =>
      have hi' : i < lengths.length := Nat.lt_of_succ_lt_succ hi
      rw [List.getD_cons_succ] at hpos ⊢
      rw [List.take_succ_cons]
      split
      · rw [List.getD_cons_succ, ih _ i hi' hpos]
        by_cases hsame : lengths.getD i 0 = len
        · rw [hsame, Function.update_self, List.count_cons_self]
          omega
        · rw [Function.update_of_ne hsame, List.count_cons_of_ne (Ne.symm hsame)]
      · rename_i hzero
        rw [List.getD_cons_succ, ih _ i hi' hpos, List.count_cons_of_ne (by omega)]

/-- The codes of an accepted list of lengths. -/
structure Assigned (lengths codes : List Nat) (maxBits : Nat) : Prop where
  hmax : ∀ len ∈ lengths, len ≤ maxBits
  hhalves : Halves lengths 32
  hcodes : ∀ i < lengths.length, 0 < lengths.getD i 0 → codes.getD i 0 = code lengths 32 i

theorem assignCanonicalCodes_spec (lengths : List Nat) (hmaxBits : maxBits ≤ 32) :
    (∃ codes, assignCanonicalCodes lengths maxBits = .ok codes ∧
        Assigned lengths codes maxBits) ∨
      (∃ e, assignCanonicalCodes lengths maxBits = .error e) ∧
        ¬ ((∀ len ∈ lengths, len ≤ maxBits) ∧ Halves lengths 32) := by
  by_cases hmax : ∀ len ∈ lengths, len ≤ maxBits
  · have hensure : (ensure (∀ len ∈ lengths, len ≤ maxBits)
        (.malformed "CHD huffman tree has an over-long code") : Decode Unit) = .ok () :=
      Outcome.ensure_eq_ok.mpr hmax
    have hfirst := (CanonicalCode.first_top lengths 32).symm
    rcases @walk_spec lengths _ 32 0 (Nat.le_refl 32) (fun _ _ _ => rfl) hfirst
      (fun len hlt hle => by omega) with ⟨starts, hwalk, hstarts, hhalves⟩ | ⟨⟨e, hwalk⟩, hodd⟩
    · refine Or.inl ⟨assign lengths starts, ?_, hmax, hhalves, fun i hi hpos => ?_⟩
      · rw [assignCanonicalCodes, hensure, Outcome.ok_bind, hwalk]
        rfl
      · have hle : lengths.getD i 0 ≤ 32 := by
          rw [List.getD_eq_getElem _ _ hi]
          exact (hmax _ (List.getElem_mem hi)).trans hmaxBits
        rw [assign_getD lengths starts i hi hpos, hstarts _ hpos hle]
        rfl
    · refine Or.inr ⟨⟨e, ?_⟩, fun hall => hodd hall.2⟩
      rw [assignCanonicalCodes, hensure, Outcome.ok_bind, hwalk]
      rfl
  · refine Or.inr ⟨⟨.malformed "CHD huffman tree has an over-long code", ?_⟩,
      fun hall => hmax hall.1⟩
    rw [assignCanonicalCodes, Outcome.ensure, if_neg hmax]
    rfl

end Codes

/-! ## What the table holds -/

section Table

variable {lengths codes table : List Nat} {maxBits : Nat}

/-- The entry of a symbol. -/
def entry (lengths : List Nat) (i : Nat) : Nat := (i <<< 5) ||| lengths.getD i 0

/-- The table after the first symbols. -/
structure Filled (lengths codes : List Nat) (maxBits n : Nat) (table : List Nat) : Prop where
  hlength : table.length = 2 ^ maxBits
  hentries : ∀ e ∈ table, e = 0 ∨ ∃ i < n, 0 < lengths.getD i 0 ∧ e = entry lengths i
  hfound : ∀ i < n, 0 < lengths.getD i 0 → ∀ s < 2 ^ maxBits,
    s / 2 ^ (maxBits - lengths.getD i 0) = codes.getD i 0 → table.getD s 0 = entry lengths i

theorem length_fill {start count value : Nat} (hin : start + count ≤ table.length) :
    (fill table start count value).length = table.length := by
  rw [fill, List.length_append, List.length_append, List.length_take, List.length_replicate,
    List.length_drop]
  omega

theorem getD_fill {start count value s : Nat} (hin : start + count ≤ table.length) :
    (fill table start count value).getD s 0 =
      if start ≤ s ∧ s < start + count then value else table.getD s 0 := by
  have htake : (table.take start).length = start := by
    rw [List.length_take]
    omega
  rw [fill, List.append_assoc]
  by_cases hbefore : s < start
  · rw [List.getD_append _ _ _ _ (by omega), if_neg (by omega), List.getD_eq_getElem?_getD,
      List.getElem?_take_of_lt hbefore, List.getD_eq_getElem?_getD]
  · rw [List.getD_append_right _ _ _ _ (by omega), htake]
    by_cases hrun : s < start + count
    · rw [List.getD_append _ _ _ _ (by rw [List.length_replicate]; omega), if_pos (by omega),
        List.getD_replicate _ (by omega)]
    · rw [List.getD_append_right _ _ _ _ (by rw [List.length_replicate]; omega),
        List.length_replicate, if_neg (by omega), List.getD_eq_getElem?_getD,
        List.getElem?_drop, List.getD_eq_getElem?_getD]
      congr 2
      omega

theorem mem_fill {start count value e : Nat} (he : e ∈ fill table start count value) :
    e ∈ table ∨ e = value := by
  rw [fill, List.mem_append, List.mem_append] at he
  rcases he with (htake | hrun) | hdrop
  · exact Or.inl (List.mem_of_mem_take htake)
  · exact Or.inr (List.eq_of_mem_replicate hrun)
  · exact Or.inl (List.mem_of_mem_drop hdrop)

/-- A symbol's run lies in the table exactly if its code fits its length. -/
theorem run_in_table_iff {len : Nat} (hle : len ≤ maxBits) (code : Nat) :
    code * 2 ^ (maxBits - len) + 2 ^ (maxBits - len) ≤ 2 ^ maxBits ↔ code < 2 ^ len := by
  have hpow : 2 ^ maxBits = 2 ^ len * 2 ^ (maxBits - len) := by
    rw [← Nat.pow_add]
    congr 1
    omega
  rw [← Nat.succ_mul, hpow, Nat.mul_le_mul_right_iff (Nat.two_pow_pos _)]
  exact Iff.rfl

variable (h : Assigned lengths codes maxBits)
  (hroom : lengths.length * 2 ^ maxBits < 2 ^ 32) (hbits : maxBits < 32)

include h hroom hbits

/-- A code at the greatest length still fits a word. -/
theorem start_eq {i : Nat} (hi : i < lengths.length) (hpos : 0 < lengths.getD i 0) :
    lengths.getD i 0 ≤ maxBits ∧
      (codes.getD i 0 <<< (maxBits - lengths.getD i 0)) % 2 ^ 32 =
        codes.getD i 0 * 2 ^ (maxBits - lengths.getD i 0) := by
  have hle : lengths.getD i 0 ≤ maxBits := by
    rw [List.getD_eq_getElem _ _ hi]
    exact h.hmax _ (List.getElem_mem hi)
  have hcode : codes.getD i 0 < lengths.length := by
    rw [h.hcodes i hi hpos]
    exact (CanonicalCode.code_lt_nodes hi).trans_le (CanonicalCode.nodes_le_length (by omega))
  refine ⟨hle, ?_⟩
  rw [Nat.shiftLeft_eq]
  refine Nat.mod_eq_of_lt (lt_of_le_of_lt ?_ hroom)
  exact Nat.mul_le_mul hcode.le (Nat.pow_le_pow_right (by decide) (Nat.sub_le _ _))

/-- Adding one symbol. -/
theorem fillSymbol_spec {n : Nat} (hn : n < lengths.length)
    (hfilled : Filled lengths codes maxBits n table) :
    if 0 < lengths.getD n 0 → codes.getD n 0 < 2 ^ lengths.getD n 0 then
      ∃ table', fillSymbol lengths codes maxBits table n = .ok table' ∧
        Filled lengths codes maxBits (n + 1) table'
    else fillSymbol lengths codes maxBits table n = .panic := by
  unfold fillSymbol
  by_cases hzero : lengths.getD n 0 = 0
  · have hnone : ¬ 0 < lengths.getD n 0 := by omega
    rw [if_pos fun hpos => absurd hpos hnone]
    simp only [if_pos hzero]
    refine ⟨table, rfl, hfilled.hlength, fun e he => ?_, fun i hi hpos s hs hcode => ?_⟩
    · rcases hfilled.hentries e he with hempty | ⟨i, hi, hfound⟩
      · exact Or.inl hempty
      · exact Or.inr ⟨i, by omega, hfound⟩
    · by_cases heq : i = n
      · rw [heq] at hpos
        exact absurd hpos hnone
      · exact hfilled.hfound i (by omega) hpos s hs hcode
  · have hpos : 0 < lengths.getD n 0 := Nat.pos_of_ne_zero hzero
    obtain ⟨hle, hstart⟩ := start_eq h hroom hbits hn hpos
    have hrun := run_in_table_iff hle (codes.getD n 0)
    simp only [if_neg hzero, hstart, Nat.one_shiftLeft, hfilled.hlength]
    by_cases hfits : codes.getD n 0 < 2 ^ lengths.getD n 0
    · have hin := hrun.mpr hfits
      rw [if_pos fun _ => hfits, if_pos hin]
      rw [← hfilled.hlength] at hin
      refine ⟨_, rfl, (length_fill hin).trans hfilled.hlength, fun e he => ?_,
        fun i hi hipos s hs hcode => ?_⟩
      · rcases mem_fill he with hold | hnew
        · rcases hfilled.hentries e hold with hempty | ⟨i, hi, hfound⟩
          · exact Or.inl hempty
          · exact Or.inr ⟨i, by omega, hfound⟩
        · exact Or.inr ⟨n, by omega, hpos, hnew⟩
      · rw [getD_fill hin]
        -- a word is in the run of a symbol exactly if it begins with the symbol's code
        have hword : (codes.getD n 0 * 2 ^ (maxBits - lengths.getD n 0) ≤ s ∧
            s < codes.getD n 0 * 2 ^ (maxBits - lengths.getD n 0) +
              2 ^ (maxBits - lengths.getD n 0)) ↔
              s / 2 ^ (maxBits - lengths.getD n 0) = codes.getD n 0 := by
          rw [Nat.div_eq_iff (Nat.two_pow_pos _), ← Nat.succ_mul, Nat.succ_mul]
          have hpow := Nat.two_pow_pos (maxBits - lengths.getD n 0)
          omega
        by_cases heq : i = n
        · rw [if_pos (hword.mpr (heq ▸ hcode)), heq]
          rfl
        · rw [if_neg]
          · exact hfilled.hfound i (by omega) hipos s hs hcode
          · intro hboth
            have hother := hword.mp hboth
            have hi' : i < lengths.length := by omega
            have hile := (start_eq h hroom hbits hi' hipos).1
            have htop : ∀ len ∈ lengths, len ≤ 32 := fun len hlen =>
              (h.hmax len hlen).trans hbits.le
            rw [h.hcodes n hn hpos] at hother
            rw [h.hcodes i hi' hipos] at hcode
            rcases Nat.le_total (lengths.getD i 0) (lengths.getD n 0) with hless | hless
            · refine CanonicalCode.code_prefix_free h.hhalves htop hi' hn heq hipos hless ?_
              rw [← hother, ← hcode, Nat.div_div_eq_div_mul, ← Nat.pow_add]
              congr 2
              omega
            · refine CanonicalCode.code_prefix_free h.hhalves htop hn hi' (Ne.symm heq) hpos
                hless ?_
              rw [← hother, ← hcode, Nat.div_div_eq_div_mul, ← Nat.pow_add]
              congr 2
              omega
    · rw [if_neg (fun hall => hfits (hall hpos)), if_neg (fun hin => hfits (hrun.mp hin))]

/-- The table is built unless a code does not fit its length. -/
theorem buildLookupTable_spec :
    if ∀ i < lengths.length, 0 < lengths.getD i 0 → codes.getD i 0 < 2 ^ lengths.getD i 0 then
      ∃ table, buildLookupTable lengths codes maxBits = .ok table ∧
        Filled lengths codes maxBits lengths.length table
    else buildLookupTable lengths codes maxBits = .panic := by
  suffices hprefix : ∀ n ≤ lengths.length,
      if ∀ i < n, 0 < lengths.getD i 0 → codes.getD i 0 < 2 ^ lengths.getD i 0 then
        ∃ table, (List.range n).foldlM (fillSymbol lengths codes maxBits)
            (List.replicate (1 <<< maxBits) 0) = .ok table ∧
          Filled lengths codes maxBits n table
      else (List.range n).foldlM (fillSymbol lengths codes maxBits)
        (List.replicate (1 <<< maxBits) 0) = .panic from hprefix _ (Nat.le_refl _)
  intro n hn
  induction n with
  | zero =>
    rw [if_pos fun i hi => absurd hi (Nat.not_lt_zero i)]
    refine ⟨_, rfl, ?_, fun e he => ?_, fun i hi => absurd hi (Nat.not_lt_zero i)⟩
    · rw [List.length_replicate, Nat.one_shiftLeft]
    · exact Or.inl (List.eq_of_mem_replicate he)
  | succ n ih =>
    have hprev := ih (by omega)
    rw [List.range_succ, List.foldlM_append]
    by_cases hall : ∀ i < n, 0 < lengths.getD i 0 → codes.getD i 0 < 2 ^ lengths.getD i 0
    · rw [if_pos hall] at hprev
      obtain ⟨table, hfold, hfilled⟩ := hprev
      have hstep := fillSymbol_spec h hroom hbits (show n < lengths.length by omega) hfilled
      rw [hfold, Outcome.ok_bind, List.foldlM_cons]
      by_cases hfits : 0 < lengths.getD n 0 → codes.getD n 0 < 2 ^ lengths.getD n 0
      · rw [if_pos hfits] at hstep
        obtain ⟨table', hfill, hfilled'⟩ := hstep
        have hmore : ∀ i < n + 1, 0 < lengths.getD i 0 →
            codes.getD i 0 < 2 ^ lengths.getD i 0 := by
          intro i hi
          rcases Nat.lt_succ_iff_lt_or_eq.mp hi with hlt | rfl
          · exact hall i hlt
          · exact hfits
        rw [if_pos hmore, hfill]
        exact ⟨table', rfl, hfilled'⟩
      · rw [if_neg hfits] at hstep
        rw [if_neg fun hmore => hfits (hmore n (by omega)), hstep]
        rfl
    · rw [if_neg hall] at hprev
      rw [if_neg fun hmore => hall fun i hi => hmore i (by omega), hprev]
      rfl

end Table

/-! ## Trees -/

/-- A tree that is not rejected for its lengths has room for all of its codes. -/
def Fair (lengths : List Nat) (maxBits : Nat) : Prop :=
  (∀ len ∈ lengths, len ≤ maxBits) → Halves lengths 32 → words lengths maxBits ≤ 2 ^ maxBits

/-- The codes are prefix-free and fit their lengths, and the table decodes them. -/
structure Sound (huff : Huffman) : Prop where
  hfits : ∀ i < huff.numCodes, 0 < huff.lengths.getD i 0 →
    huff.codes.getD i 0 < 2 ^ huff.lengths.getD i 0
  hprefix : ∀ i < huff.numCodes, ∀ j < huff.numCodes, i ≠ j → 0 < huff.lengths.getD i 0 →
    huff.lengths.getD i 0 ≤ huff.lengths.getD j 0 →
    huff.codes.getD j 0 / 2 ^ (huff.lengths.getD j 0 - huff.lengths.getD i 0) ≠
      huff.codes.getD i 0
  hdecodes : ∀ (bits : BitReader) (start i : Nat), bits.Holds start → i < huff.numCodes →
    0 < huff.lengths.getD i 0 →
    number bits.data start (huff.lengths.getD i 0) = huff.codes.getD i 0 →
    ∃ bits', huff.decodeOne bits = .ok (i, bits') ∧
      bits'.Holds (start + huff.lengths.getD i 0) ∧ bits'.data = bits.data
  htotal : ∀ bits : BitReader, bits.Live →
    ∃ symbol bits', huff.decodeOne bits = .ok (symbol, bits') ∧ bits'.Live ∧
      bits'.data = bits.data ∧ (symbol = 0 ∨ symbol < huff.numCodes)

section Trees

variable {lengths codes lookup : List Nat} {maxBits : Nat}

/-- All codes fit their lengths exactly if the lengths meet Kraft's inequality. -/
theorem codes_fit_iff (h : Assigned lengths codes maxBits) (hpos : 0 < maxBits)
    (hbits : maxBits < 32) :
    (∀ i < lengths.length, 0 < lengths.getD i 0 → codes.getD i 0 < 2 ^ lengths.getD i 0) ↔
      words lengths maxBits ≤ 2 ^ maxBits := by
  rw [← CanonicalCode.nodes_one_le_iff h.hhalves h.hmax hpos hbits]
  constructor
  · intro hfit
    refine CanonicalCode.nodes_le_of_codes (fun i hi hlen => ?_) Nat.one_pos (by decide)
    rw [← h.hcodes i hi hlen]
    exact hfit i hi hlen
  · intro hone i hi hlen
    have hle : lengths.getD i 0 ≤ 32 := by
      rw [List.getD_eq_getElem _ _ hi]
      exact (h.hmax _ (List.getElem_mem hi)).trans hbits.le
    rw [h.hcodes i hi hlen]
    exact (CanonicalCode.code_lt_nodes hi).trans_le
      (CanonicalCode.nodes_le_pow h.hhalves hone hlen hle)

theorem entry_len {i : Nat} (hlen : lengths.getD i 0 < 32) :
    entry lengths i &&& 0x1F = lengths.getD i 0 ∧ entry lengths i >>> 5 = i := by
  have hentry : entry lengths i = i * 32 + lengths.getD i 0 := by
    have hor := Nat.two_pow_add_eq_or_of_lt (i := 5) hlen i
    rw [entry, Nat.shiftLeft_eq, Nat.mul_comm, ← hor]
  rw [hentry, show (0x1F : Nat) = 2 ^ 5 - 1 by rfl, Nat.and_two_pow_sub_one_eq_mod,
    Nat.shiftRight_eq_div_pow]
  omega

/-- Whatever the bits are, some entry is met. -/
theorem decodeOne_total (h : Assigned lengths codes maxBits) (hbits : maxBits < 32)
    (hfilled : Filled lengths codes maxBits lengths.length lookup) {bits : BitReader}
    (hlive : bits.Live) :
    ∃ symbol bits',
      decodeOne { numCodes := lengths.length, maxBits, lengths, codes, lookup } bits =
          .ok (symbol, bits') ∧ bits'.Live ∧ bits'.data = bits.data ∧
        (symbol = 0 ∨ symbol < lengths.length) := by
  obtain ⟨hlt, hpeeked⟩ := hlive.peek (n := maxBits) hbits.le
  have hin : (bits.peek maxBits).1 < lookup.length := by
    rw [hfilled.hlength]
    exact hlt
  obtain ⟨found, hfound, hmem⟩ : ∃ found, lookup[(bits.peek maxBits).1]? = some found ∧
      found ∈ lookup := ⟨_, List.getElem?_eq_getElem hin, List.getElem_mem hin⟩
  refine ⟨found >>> 5, (bits.peek maxBits).2.remove (found &&& 0x1F), ?_,
    hpeeked.remove _, BitReader.peek_data bits maxBits, ?_⟩
  · simp only [decodeOne]
    rw [hfound]
    rfl
  · rcases hfilled.hentries found hmem with hempty | ⟨i, hi, hlen, hentry⟩
    · rw [hempty]
      exact Or.inl rfl
    · have hle : lengths.getD i 0 < 32 := by
        rw [List.getD_eq_getElem _ _ hi]
        exact (h.hmax _ (List.getElem_mem hi)).trans_lt hbits
      rw [hentry, (entry_len hle).2]
      exact Or.inr hi

/-- The next bits are a code, and so the table gives its symbol. -/
theorem decodeOne_code (h : Assigned lengths codes maxBits) (hbits : maxBits ≤ 25)
    (hfilled : Filled lengths codes maxBits lengths.length lookup) {bits : BitReader}
    {start i : Nat} (hheld : bits.Holds start) (hi : i < lengths.length)
    (hlen : 0 < lengths.getD i 0)
    (hnumber : number bits.data start (lengths.getD i 0) = codes.getD i 0) :
    ∃ bits', decodeOne { numCodes := lengths.length, maxBits, lengths, codes, lookup } bits =
        .ok (i, bits') ∧ bits'.Holds (start + lengths.getD i 0) ∧ bits'.data = bits.data := by
  have hle : lengths.getD i 0 ≤ maxBits := by
    rw [List.getD_eq_getElem _ _ hi]
    exact h.hmax _ (List.getElem_mem hi)
  obtain ⟨hpeeked, -, hwindow⟩ := hheld.peek maxBits
  have hroom : maxBits ≤ (bits.peek maxBits).2.bits := by
    unfold BitReader.window at hwindow
    omega
  have hvalue := hheld.peek_value (n := maxBits) (by omega)
  rw [Nat.min_eq_left hroom, Nat.sub_eq_zero_of_le hroom, Nat.pow_zero, Nat.mul_one] at hvalue
  have hdiv : (bits.peek maxBits).1 / 2 ^ (maxBits - lengths.getD i 0) = codes.getD i 0 := by
    rw [← hnumber, hvalue]
    have hsplit := Bits.number_div bits.data start (lengths.getD i 0)
      (maxBits - lengths.getD i 0)
    rwa [show lengths.getD i 0 + (maxBits - lengths.getD i 0) = maxBits by omega] at hsplit
  have hlt : (bits.peek maxBits).1 < 2 ^ maxBits := by
    rw [hvalue]
    exact Bits.number_lt _ _ _
  have hfound := hfilled.hfound i hi hlen _ hlt hdiv
  have hin : (bits.peek maxBits).1 < lookup.length := by
    rw [hfilled.hlength]
    exact hlt
  rw [List.getD_eq_getElem _ _ hin] at hfound
  obtain ⟨hmask, hshift⟩ := entry_len (i := i) (show lengths.getD i 0 < 32 by omega)
  refine ⟨(bits.peek maxBits).2.remove (lengths.getD i 0), ?_,
    hpeeked.remove (hle.trans hroom), BitReader.peek_data bits maxBits⟩
  simp only [decodeOne]
  rw [List.getElem?_eq_getElem hin, hfound]
  simp only [ofOption, Outcome.ok_bind, hmask, hshift]
  rfl

/-- A fair tree is built or rejected, and any other one panics. -/
theorem fromLengths_spec (lengths : List Nat) (hpos : 0 < maxBits) (hbits : maxBits ≤ 25)
    (hroom : lengths.length * 2 ^ maxBits < 2 ^ 32) :
    (Fair lengths maxBits → fromLengths lengths maxBits ≠ .panic) ∧
      (¬ Fair lengths maxBits → fromLengths lengths maxBits = .panic) ∧
      ∀ huff, fromLengths lengths maxBits = .ok huff →
        huff.Sound ∧ huff.numCodes = lengths.length := by
  have hlt : maxBits < 32 := by omega
  rcases assignCanonicalCodes_spec lengths hlt.le with ⟨codes, hassign, h⟩ | ⟨⟨e, hassign⟩, hbad⟩
  · have htable := buildLookupTable_spec h hroom hlt
    have hiff := codes_fit_iff h hpos hlt
    have hfair : Fair lengths maxBits ↔ words lengths maxBits ≤ 2 ^ maxBits :=
      ⟨fun hfair => hfair h.hmax h.hhalves, fun hwords _ _ => hwords⟩
    rw [fromLengths, hassign, Outcome.ok_bind]
    by_cases hfit : ∀ i < lengths.length, 0 < lengths.getD i 0 →
        codes.getD i 0 < 2 ^ lengths.getD i 0
    · rw [if_pos hfit] at htable
      obtain ⟨table, hbuild, hfilled⟩ := htable
      rw [hbuild]
      refine ⟨fun _ hpanic => (by cases hpanic),
        fun hunfair => absurd (hfair.mpr (hiff.mp hfit)) hunfair, fun huff hhuff => ?_⟩
      obtain rfl := Outcome.ok.inj hhuff
      refine ⟨⟨hfit, fun i hi j hj hne hlen hle => ?_, fun bits start i hheld hi hlen hnumber => ?_,
        fun bits hlive => decodeOne_total h hlt hfilled hlive⟩, rfl⟩
      · have hjlen : 0 < lengths.getD j 0 := hlen.trans_le hle
        have htop : ∀ len ∈ lengths, len ≤ 32 := fun len hmem => (h.hmax len hmem).trans hlt.le
        have hcode := CanonicalCode.code_prefix_free h.hhalves htop hi hj hne hlen hle
        rw [← h.hcodes i hi hlen, ← h.hcodes j hj hjlen] at hcode
        exact hcode
      · exact decodeOne_code h hbits hfilled hheld hi hlen hnumber
    · rw [if_neg hfit] at htable
      rw [htable]
      refine ⟨fun hok => absurd (hiff.mpr (hfair.mp hok)) hfit, fun _ => rfl, fun huff hhuff => ?_⟩
      cases hhuff
  · rw [fromLengths, hassign]
    refine ⟨fun _ hpanic => (by cases hpanic),
      fun hunfair => absurd (fun hmax hhalves => absurd ⟨hmax, hhalves⟩ hbad) hunfair,
      fun huff hhuff => by cases hhuff⟩

end Trees

/-! ## Lengths that are spelled in runs -/

section Imports

variable {numbits numCodes maxBits rounds : Nat} {lengths : List Nat} {bits : BitReader}

/-- The loop ends within its rounds, with as many lengths as there are symbols. -/
theorem readRle_spec (hnumbits : numbits ≤ 32) (hlive : bits.Live)
    (hlength : lengths.length ≤ numCodes) (hrounds : numCodes ≤ lengths.length + rounds) :
    readRle numbits numCodes rounds lengths bits ≠ .panic ∧
      ∀ lengths' bits', readRle numbits numCodes rounds lengths bits = .ok (lengths', bits') →
        lengths'.length = numCodes ∧ bits'.Live := by
  induction rounds generalizing lengths bits with
  | zero =>
    rw [readRle, if_pos (by omega)]
    refine ⟨fun h => (by cases h), fun lengths' bits' h => ?_⟩
    cases h
    exact ⟨by omega, hlive⟩
  | succ rounds ih =>
    rw [readRle]
    split
    · refine ⟨fun h => (by cases h), fun lengths' bits' h => ?_⟩
      cases h
      exact ⟨by omega, hlive⟩
    · rename_i hmore
      have hfirst := hlive.read hnumbits
      have hsecond := hfirst.2.read hnumbits
      have hthird := hsecond.2.read hnumbits
      simp only
      split
      · exact ih hfirst.2 (by simp; omega) (by simp; omega)
      · split
        · exact ih hsecond.2 (by simp; omega) (by simp; omega)
        · split
          · exact ⟨fun h => (by cases h), fun lengths' bits' h => by cases h⟩
          · refine ih hthird.2 ?_ ?_
            · rw [List.length_append, List.length_replicate]
              omega
            · rw [List.length_append, List.length_replicate]
              omega

theorem rleWidth_le (maxBits : Nat) : rleWidth maxBits ≤ 32 := by
  unfold rleWidth
  split
  · decide
  · split <;> decide

theorem rleLengths_spec (numCodes maxBits : Nat) (hlive : bits.Live) :
    rleLengths numCodes maxBits bits ≠ .panic ∧
      ∀ lengths bits', rleLengths numCodes maxBits bits = .ok (lengths, bits') →
        lengths.length = numCodes ∧ bits'.Live := by
  obtain ⟨hsafe, hread⟩ := @readRle_spec (rleWidth maxBits) numCodes numCodes [] bits
    (rleWidth_le maxBits) hlive (Nat.zero_le _) (by simp)
  refine ⟨Outcome.bind_ne_panic.mpr ⟨hsafe, fun out _ => ?_⟩, fun lengths bits' hrun => ?_⟩
  · exact Outcome.bind_ne_panic.mpr ⟨Outcome.ensure_ne_panic, fun _ _ h => by cases h⟩
  · obtain ⟨out, hout, hrun⟩ := Outcome.bind_eq_ok.mp hrun
    obtain ⟨_, _, hrun⟩ := Outcome.bind_eq_ok.mp hrun
    cases hrun
    exact hread _ _ hout

/-! ## Lengths that are coded themselves -/

theorem readSmall_spec (start left index count : Nat) (hlive : bits.Live) :
    (readSmall start left index count bits).1.length = left ∧
      (readSmall start left index count bits).2.Live := by
  induction left generalizing index count bits with
  | zero => exact ⟨rfl, hlive⟩
  | succ left ih =>
    rw [readSmall]
    split
    · obtain ⟨hlength, hrest⟩ := ih (index + 1) count hlive
      exact ⟨congrArg (· + 1) hlength, hrest⟩
    · obtain ⟨hlength, hrest⟩ := ih (index + 1) (bits.read 3).1
        (hlive.read (n := 3) (by decide)).2
      exact ⟨congrArg (· + 1) hlength, hrest⟩

theorem smallLengths_spec (hlive : bits.Live) :
    (smallLengths bits).1.length = 24 ∧ (smallLengths bits).2.Live := by
  have hfirst := (hlive.read (n := 3) (by decide)).2
  have hsecond := (hfirst.read (n := 3) (by decide)).2
  obtain ⟨hlength, hrest⟩ := readSmall_spec
    (((bits.read 3).2.read 3).1 + 1) 23 1 0 hsecond
  exact ⟨congrArg (· + 1) hlength, hrest⟩

theorem rlefullbits_le (hcodes : numCodes < 2 ^ 32) : rlefullbits numCodes ≤ 32 := by
  unfold rlefullbits
  simp only
  split
  · exact Nat.zero_le _
  · rename_i hzero
    have hlog := (Nat.log2_lt hzero).mpr (show numCodes - 9 < 2 ^ 32 by omega)
    omega

/-- A count of repetitions, in one or two fields. -/
theorem count_live {few width : Nat} (hwidth : width ≤ 32) (hlive : bits.Live) :
    (if few + 2 = 7 + 2 then bits.read width else (0, bits)).2.Live := by
  split
  · exact (hlive.read hwidth).2
  · exact hlive

theorem readCoded_spec {small : Huffman} (hsound : small.Sound) (hsmall : small.numCodes = 24)
    (hcodes : numCodes < 2 ^ 32) {last : Nat} (hlive : bits.Live)
    (hlength : lengths.length ≤ numCodes) (hrounds : numCodes ≤ lengths.length + rounds) :
    readCoded small numCodes rounds last lengths bits ≠ .panic ∧
      ∀ lengths' bits', readCoded small numCodes rounds last lengths bits = .ok (lengths', bits') →
        lengths'.length = numCodes ∧ bits'.Live := by
  induction rounds generalizing last lengths bits with
  | zero =>
    rw [readCoded, if_pos (by omega)]
    refine ⟨fun h => (by cases h), fun lengths' bits' h => ?_⟩
    cases h
    exact ⟨by omega, hlive⟩
  | succ rounds ih =>
    rw [readCoded]
    split
    · refine ⟨fun h => (by cases h), fun lengths' bits' h => ?_⟩
      cases h
      exact ⟨by omega, hlive⟩
    · rename_i hmore
      obtain ⟨value, bits₁, hdecode, hlive₁, -, hvalue⟩ := hsound.htotal bits hlive
      have hbyte : value - 1 < 256 := by omega
      rw [hdecode, Outcome.ok_bind]
      simp only
      split
      · have hdemand : (demand (value - 1 < 256) : Decode Unit) = .ok () :=
          Outcome.demand_eq_ok.mpr hbyte
        rw [hdemand, Outcome.ok_bind]
        have hrest := @ih (lengths ++ [value - 1]) bits₁ (value - 1) hlive₁
          (by simp; omega) (by simp; omega)
        refine ⟨Outcome.bind_ne_panic.mpr ⟨Outcome.ensure_ne_panic, fun _ _ => hrest.1⟩,
          fun lengths' bits' hrun => ?_⟩
        obtain ⟨_, _, hrun⟩ := Outcome.bind_eq_ok.mp hrun
        exact hrest.2 lengths' bits' hrun
      · have hlive₂ := (hlive₁.read (n := 3) (by decide)).2
        have hlive₃ := @count_live _ (bits₁.read 3).1 _ (rlefullbits_le hcodes) hlive₂
        have hadded : ∀ many, 0 < min ((bits₁.read 3).1 + 2 + many) (numCodes - lengths.length) :=
          fun many => by omega
        have hrest := fun many => @ih
          (lengths ++ List.replicate (min ((bits₁.read 3).1 + 2 + many)
            (numCodes - lengths.length)) last) _ last hlive₃
          (by rw [List.length_append, List.length_replicate]; omega)
          (by
            have hone := hadded many
            rw [List.length_append, List.length_replicate]
            omega)
        refine ⟨Outcome.bind_ne_panic.mpr ⟨Outcome.ensure_ne_panic, fun _ _ => (hrest _).1⟩,
          fun lengths' bits' hrun => ?_⟩
        obtain ⟨_, _, hrun⟩ := Outcome.bind_eq_ok.mp hrun
        exact (hrest _).2 lengths' bits' hrun

theorem codedLengths_spec (hlive : bits.Live) (hnine : 9 ≤ numCodes) (hcodes : numCodes < 2 ^ 32) :
    (Fair (smallLengths bits).1 6 → codedLengths numCodes bits ≠ .panic) ∧
      (¬ Fair (smallLengths bits).1 6 → codedLengths numCodes bits = .panic) ∧
      ∀ lengths bits', codedLengths numCodes bits = .ok (lengths, bits') →
        lengths.length = numCodes ∧ bits'.Live := by
  obtain ⟨hsmall, hrest⟩ := smallLengths_spec hlive
  obtain ⟨hfair, hunfair, hbuilt⟩ := fromLengths_spec (smallLengths bits).1
    (show 0 < 6 by decide) (by decide) (by rw [hsmall]; decide)
  have hdemand : (demand (9 ≤ numCodes) : Decode Unit) = .ok () := Outcome.demand_eq_ok.mpr hnine
  have hread : ∀ small, fromLengths (smallLengths bits).1 6 = .ok small → _ := fun small hbuild =>
    @readCoded_spec numCodes numCodes [] _ small (hbuilt small hbuild).1
      ((hbuilt small hbuild).2.trans hsmall) hcodes 0 hrest (Nat.zero_le _) (by simp)
  refine ⟨fun hok => ?_, fun hbad => ?_, fun lengths bits' hrun => ?_⟩
  · refine Outcome.bind_ne_panic.mpr ⟨hfair hok, fun small hbuild => ?_⟩
    rw [hdemand, Outcome.ok_bind]
    exact (hread small hbuild).1
  · simp only [codedLengths]
    rw [hunfair hbad]
    rfl
  · obtain ⟨small, hbuild, hrun⟩ := Outcome.bind_eq_ok.mp hrun
    rw [hdemand, Outcome.ok_bind] at hrun
    exact (hread small hbuild).2 lengths bits' hrun

/-- The tree of the lengths that a parser spells. -/
theorem built_iff (spelled : Decode (List Nat × BitReader)) (build : Decode (Huffman × BitReader))
    (hbuild : build = spelled >>= fun out => fromLengths out.1 maxBits >>= fun huff =>
      pure (huff, out.2))
    (hpos : 0 < maxBits) (hbits : maxBits ≤ 25) (hroom : numCodes * 2 ^ maxBits < 2 ^ 32)
    (hspelled : ∀ lengths bits', spelled = .ok (lengths, bits') → lengths.length = numCodes) :
    (build ≠ .panic ∧ ∀ huff bits', build = .ok (huff, bits') → huff.Sound) ↔
      spelled ≠ .panic ∧
        ∀ lengths bits', spelled = .ok (lengths, bits') → Fair lengths maxBits := by
  have htree := fun lengths bits' (hok : spelled = .ok (lengths, bits')) =>
    fromLengths_spec lengths hpos hbits (by rw [hspelled lengths bits' hok]; exact hroom)
  rw [hbuild]
  constructor
  · rintro ⟨hsafe, -⟩
    obtain ⟨hspell, hnext⟩ := Outcome.bind_ne_panic.mp hsafe
    refine ⟨hspell, fun lengths bits' hok => ?_⟩
    by_contra hunfair
    exact (Outcome.bind_ne_panic.mp (hnext _ hok)).1 ((htree lengths bits' hok).2.1 hunfair)
  · rintro ⟨hspell, hfair⟩
    refine ⟨Outcome.bind_ne_panic.mpr ⟨hspell, fun out hout => ?_⟩, fun huff bits' hrun => ?_⟩
    · exact Outcome.bind_ne_panic.mpr
        ⟨(htree _ _ hout).1 (hfair _ _ hout), fun _ _ h => by cases h⟩
    · obtain ⟨out, hout, hrun⟩ := Outcome.bind_eq_ok.mp hrun
      obtain ⟨huff', hhuff, hrun⟩ := Outcome.bind_eq_ok.mp hrun
      cases hrun
      exact ((htree _ _ hout).2.2 _ hhuff).1

end Imports

end Huffman

end Chd

open Chd (BitReader Huffman)
open Chd.Huffman (Fair Sound codedLengths importTreeHuffman importTreeRle rleLengths smallLengths)

/-- Importing a tree from any bits gives a sound tree or an error exactly if the lengths that the
bits spell do not ask for more codes than there is room for; of two trees, both must do. -/
theorem importTree_sound_iff (numCodes maxBits : Nat) (bits : BitReader) (hlive : bits.Live)
    (hnine : 9 ≤ numCodes) (hpos : 0 < maxBits) (hbits : maxBits ≤ 25)
    (hroom : numCodes * 2 ^ maxBits < 2 ^ 32) :
    ((importTreeRle numCodes maxBits bits ≠ .panic ∧
        ∀ huff bits', importTreeRle numCodes maxBits bits = .ok (huff, bits') → huff.Sound) ↔
      ∀ lengths bits', rleLengths numCodes maxBits bits = .ok (lengths, bits') →
        Fair lengths maxBits) ∧
      ((importTreeHuffman numCodes maxBits bits ≠ .panic ∧
          ∀ huff bits', importTreeHuffman numCodes maxBits bits = .ok (huff, bits') →
            huff.Sound) ↔
        Fair (smallLengths bits).1 6 ∧
          ∀ lengths bits', codedLengths numCodes bits = .ok (lengths, bits') →
            Fair lengths maxBits) := by
  have hcodes : numCodes < 2 ^ 32 :=
    lt_of_le_of_lt (Nat.le_mul_of_pos_right numCodes (Nat.two_pow_pos maxBits)) hroom
  obtain ⟨hrle, hrleLength⟩ := Huffman.rleLengths_spec numCodes maxBits hlive
  obtain ⟨hfair, hunfair, hcodedLength⟩ := Huffman.codedLengths_spec hlive hnine hcodes
  constructor
  · rw [Huffman.built_iff (rleLengths numCodes maxBits bits) (importTreeRle numCodes maxBits bits)
      rfl hpos hbits hroom
      fun lengths bits' hok => (hrleLength lengths bits' hok).1]
    exact and_iff_right hrle
  · rw [Huffman.built_iff (codedLengths numCodes bits) (importTreeHuffman numCodes maxBits bits)
      rfl hpos hbits hroom
      fun lengths bits' hok => (hcodedLength lengths bits' hok).1]
    refine and_congr_left fun _ => ⟨fun hsafe => ?_, hfair⟩
    by_contra hbad
    exact hsafe (hunfair hbad)

theorem importTree_sound_iff_empty :
    ((importTreeRle 16 8 (.new []) ≠ .panic ∧
        ∀ huff bits', importTreeRle 16 8 (.new []) = .ok (huff, bits') → huff.Sound) ↔
      ∀ lengths bits', rleLengths 16 8 (.new []) = .ok (lengths, bits') → Fair lengths 8) ∧
      ((importTreeHuffman 16 8 (.new []) ≠ .panic ∧
          ∀ huff bits', importTreeHuffman 16 8 (.new []) = .ok (huff, bits') → huff.Sound) ↔
        Fair (smallLengths (.new [])).1 6 ∧
          ∀ lengths bits', codedLengths 16 (.new []) = .ok (lengths, bits') → Fair lengths 8) :=
  importTree_sound_iff 16 8 (.new []) ⟨0, BitReader.holds_new []⟩ (by decide) (by decide)
    (by decide) (by decide)

/-- Three codes of one bit. -/
theorem threeShortCodes_panic :
    importTreeRle 16 8 (.new [0x11, 0x11, 0x11, 0x10, 0xA0]) = .panic := by decide +kernel

end Datboi
