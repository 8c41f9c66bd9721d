import Datboi.Formats.ChdEcc
import Datboi.Lib.ByteField
import Datboi.Lib.Crc
import Datboi.Xf.Ecm
import Mathlib.Data.List.GetD

/-!
# Parity over the field of bytes

The two tables of the parity generator are multiplication by the generator of the field, and
division by one plus the generator. So a pass writes the two check items that make a codeword
out of every column, or diagonal, of a sector.
-/

namespace Datboi.Ecm

open ByteField (Codeword double gen ofByte ofByte_double ofByte_xor)
open Finset (range sum_congr sum_range_succ sum_range_succ')
open Reader (slice length_slice)
open Xf (copyAt length_copyAt slice_copyAt take_copyAt)

/-! ## The tables -/

/-- The low byte that the first table holds for an index. -/
def lutByte (i : Nat) : Nat := ((i <<< 1) ^^^ (if i &&& 0x80 ≠ 0 then 0x11D else 0)) &&& 0xFF

/-- A round of filling the tables. -/
def lutRound (luts : Array UInt8 × Array UInt8) (i : Nat) : Array UInt8 × Array UInt8 :=
  (luts.1.setIfInBounds i (.ofNat (lutByte i)),
    luts.2.setIfInBounds (i ^^^ lutByte i) (.ofNat i))

def lutRounds (n : Nat) : Array UInt8 × Array UInt8 :=
  (List.range n).foldl lutRound (Array.replicate 256 0, Array.replicate 256 0)

theorem eccLuts_eq : eccLuts = lutRounds 256 := rfl

/-- The byte of which an index of the second table is the sum with its double. -/
def half (y : Nat) : Nat :=
  let parity := (List.range 8).foldl (fun odd i => odd ^^ y.testBit i) false
  let z := y ^^^ (if parity then 0x1D else 0)
  ((List.range 8).foldl (fun x i => x ^^^ (z <<< i)) 0) % 256

theorem half_lutByte : ∀ i < 256, i ^^^ lutByte i < 256 ∧ half (i ^^^ lutByte i) = i := by
  decide +kernel

theorem lutByte_half : ∀ y < 256, half y < 256 ∧ half y ^^^ lutByte (half y) = y := by
  decide +kernel

theorem double_ofNat : ∀ i < 256, double (.ofNat i) = .ofNat (lutByte i) := by
  decide +kernel

theorem getD_setIfInBounds {bytes : Array UInt8} {i j : Nat} (hi : i < bytes.size) (b : UInt8) :
    (bytes.setIfInBounds i b).getD j 0 = if i = j then b else bytes.getD j 0 := by
  rw [Array.getD_eq_getD_getElem?, Array.getElem?_setIfInBounds, Array.getD_eq_getD_getElem?]
  split_ifs <;> rfl

/-- The entries of the second table do not collide. -/
theorem lutRounds_spec {n : Nat} (hn : n ≤ 256) :
    (lutRounds n).1.size = 256 ∧ (lutRounds n).2.size = 256 ∧ ∀ i < n,
      (lutRounds n).1.getD i 0 = .ofNat (lutByte i) ∧
        (lutRounds n).2.getD (i ^^^ lutByte i) 0 = .ofNat i := by
  induction n with
  | zero => exact ⟨Array.size_replicate, Array.size_replicate, fun i hi => absurd hi (Nat.not_lt_zero i)⟩
  | succ n ih =>
    obtain ⟨hfirst, hsecond, hentries⟩ := ih (by omega)
    have hround : lutRounds (n + 1) = lutRound (lutRounds n) n := by
      rw [lutRounds, List.range_succ, List.foldl_concat, ← lutRounds]
    obtain ⟨hindex, hhalf⟩ := half_lutByte n hn
    rw [hround, lutRound]
    refine ⟨by rw [Array.size_setIfInBounds, hfirst], by rw [Array.size_setIfInBounds, hsecond],
      fun i hi => ⟨?_, ?_⟩⟩
    · rw [getD_setIfInBounds (by omega)]
      split_ifs with heq
      · rw [heq]
      · exact (hentries i (by omega)).1
    · rw [getD_setIfInBounds (by omega)]
      split_ifs with heq
      · have hsame : n = i := by rw [← hhalf, heq, (half_lutByte i (by omega)).2]
        rw [hsame]
      · have hne : i ≠ n := by
          rintro rfl
          exact heq rfl
        exact (hentries i (by omega)).2

theorem lut_double (b : UInt8) : eccLuts.1.getD b.toNat 0 = double b := by
  have hdouble := double_ofNat b.toNat b.toNat_lt
  rw [UInt8.ofNat_toNat] at hdouble
  rw [eccLuts_eq, ((lutRounds_spec (Nat.le_refl 256)).2.2 b.toNat b.toNat_lt).1, hdouble]

/-- The second table divides by one plus the generator. -/
theorem lut_half (b : UInt8) :
    (1 + gen) * ofByte (eccLuts.2.getD b.toNat 0) = ofByte b := by
  obtain ⟨hhalf, hsum⟩ := lutByte_half b.toNat b.toNat_lt
  have hentry := ((lutRounds_spec (Nat.le_refl 256)).2.2 (half b.toNat) hhalf).2
  rw [hsum] at hentry
  have hb : b = .ofNat (half b.toNat) ^^^ double (.ofNat (half b.toNat)) := by
    have hlt : lutByte (half b.toNat) < 256 := Nat.lt_of_le_of_lt Nat.and_le_right (by decide)
    rw [double_ofNat _ hhalf, ← UInt8.toNat_inj, UInt8.toNat_xor, UInt8.toNat_ofNat_of_lt' hhalf,
      UInt8.toNat_ofNat_of_lt' hlt, hsum]
  rw [eccLuts_eq, hentry]
  conv_rhs => rw [hb, ofByte_xor, ofByte_double]
  ring

/-! ## Passes -/

/-- The bytes of a region; with its address taken as zeros, if the mode says so. -/
def headed (zeroAddress : Bool) (src : Bytes) (i : Nat) : UInt8 :=
  if zeroAddress ∧ i < 4 then 0 else src.getD i 0

/-- A walk adds up its bytes, weighted and plainly. -/
theorem eccWalk_spec (src : Bytes) (zeroAddress : Bool) {size minorInc minor index : Nat}
    (hindex : index < size) (hinc : minorInc ≤ size) (a b : UInt8) :
    ofByte (eccWalk src zeroAddress size minorInc minor index a b).1 =
        gen ^ minor * ofByte a + ∑ j ∈ range minor,
          gen ^ (minor - j) * ofByte (headed zeroAddress src ((index + j * minorInc) % size)) ∧
      ofByte (eccWalk src zeroAddress size minorInc minor index a b).2 =
        ofByte b + ∑ j ∈ range minor,
          ofByte (headed zeroAddress src ((index + j * minorInc) % size)) := by
  induction minor generalizing index a b with
  | zero => simp [eccWalk]
  | succ minor ih =>
    have hwrap : (if size ≤ index + minorInc then index + minorInc - size else index + minorInc) =
        (index + minorInc) % size := by
      split_ifs with hle
      · rw [Nat.mod_eq_sub_mod hle, Nat.mod_eq_of_lt (by omega)]
      · rw [Nat.mod_eq_of_lt (by omega)]
    have hhead : (if zeroAddress ∧ index < 4 then (0 : UInt8) else src.getD index 0) =
        headed zeroAddress src ((index + 0 * minorInc) % size) := by
      rw [Nat.zero_mul, Nat.add_zero, Nat.mod_eq_of_lt hindex, headed]
    have hshift : ∀ j, ((index + minorInc) % size + j * minorInc) % size =
        (index + (j + 1) * minorInc) % size := by
      intro j
      rw [Nat.mod_add_mod, Nat.succ_mul]
      congr 1
      omega
    obtain ⟨hfirst, hsecond⟩ := @ih ((index + minorInc) % size)
      (Nat.mod_lt _ (Nat.zero_lt_of_lt hindex))
      (eccLuts.1.getD (a ^^^ headed zeroAddress src ((index + 0 * minorInc) % size)).toNat 0)
      (b ^^^ headed zeroAddress src ((index + 0 * minorInc) % size))
    simp only [hshift] at hfirst hsecond
    rw [eccWalk]
    simp only [hwrap, hhead]
    rw [hfirst, hsecond, lut_double, ofByte_double, ofByte_xor, ofByte_xor]
    constructor
    · rw [sum_range_succ' _ minor]
      simp only [Nat.add_sub_add_right, Nat.sub_zero, pow_succ]
      ring
    · rw [sum_range_succ' _ minor]
      ring

section Pass

variable {src : Bytes} {zeroAddress : Bool} {majorCount minorCount majorMult minorInc : Nat}

theorem length_eccPass :
    (eccPass src zeroAddress majorCount minorCount majorMult minorInc).length = 2 * majorCount := by
  simp only [eccPass, List.length_append, List.length_map, List.length_range]
  omega

/-- The parity of a column: both bytes, as they solve the two checks. -/
theorem eccPass_spec (hinc : minorInc ≤ majorCount * minorCount) {major : Nat}
    (hmajor : major < majorCount)
    (hstart : major / 2 * majorMult + major % 2 < majorCount * minorCount) :
    let parity := eccPass src zeroAddress majorCount minorCount majorMult minorInc
    let item := fun j => ofByte (headed zeroAddress src
      ((major / 2 * majorMult + major % 2 + j * minorInc) % (majorCount * minorCount)))
    (1 + gen) * ofByte (parity.getD major 0) =
        ∑ j ∈ range minorCount, gen ^ (minorCount + 1 - j) * item j +
          ∑ j ∈ range minorCount, item j ∧
      ofByte (parity.getD (majorCount + major) 0) =
        ∑ j ∈ range minorCount, item j + ofByte (parity.getD major 0) := by
  obtain ⟨hfirst, hsecond⟩ := @eccWalk_spec src zeroAddress _ minorInc minorCount _ hstart hinc 0 0
  rw [ByteField.ofByte_zero, zero_add] at hsecond
  rw [ByteField.ofByte_zero, mul_zero, zero_add] at hfirst
  generalize hwalk : eccWalk src zeroAddress (majorCount * minorCount) minorInc minorCount
    (major / 2 * majorMult + major % 2) 0 0 = walk at hfirst hsecond
  have hparity : (eccPass src zeroAddress majorCount minorCount majorMult minorInc).getD major 0 =
      eccLuts.2.getD (eccLuts.1.getD walk.1.toNat 0 ^^^ walk.2).toNat 0 := by
    rw [eccPass, List.getD_append _ _ _ _ (by simpa using hmajor), List.getD_eq_getElem?_getD,
      List.getElem?_map, List.getElem?_map, List.getElem?_range hmajor, Option.map_some,
      Option.map_some, Option.getD_some]
    rw [hwalk]
  have hcheck : (eccPass src zeroAddress majorCount minorCount majorMult minorInc).getD
      (majorCount + major) 0 =
      eccLuts.2.getD (eccLuts.1.getD walk.1.toNat 0 ^^^ walk.2).toNat 0 ^^^ walk.2 := by
    rw [eccPass, List.getD_append_right _ _ _ _ (by simp), List.getD_eq_getElem?_getD,
      List.length_map, List.length_map, List.length_range, Nat.add_sub_cancel_left,
      List.getElem?_map, List.getElem?_map, List.getElem?_range hmajor, Option.map_some,
      Option.map_some, Option.getD_some]
    rw [hwalk]
  constructor
  · rw [hparity, lut_half, ofByte_xor, lut_double, ofByte_double, hfirst, hsecond, Finset.mul_sum]
    congr 1
    refine sum_congr rfl fun j hj => ?_
    have hj : j < minorCount := Finset.mem_range.mp hj
    have hpow : minorCount + 1 - j = minorCount - j + 1 := by omega
    rw [hpow, pow_succ]
    ring
  · rw [hcheck, ofByte_xor, hsecond, hparity, add_comm]

end Pass

/-! ## Columns and diagonals -/

/-- Where the bytes of a column lie, the check bytes last. -/
def columnIndex (column j : Nat) : Nat := column + 86 * j

/-- Where the bytes of a diagonal lie, the check bytes last. -/
def diagonalIndex (diagonal j : Nat) : Nat :=
  if j < 43 then (diagonal / 2 * 86 + diagonal % 2 + 88 * j) % 2236
  else 2236 + diagonal + 52 * (j - 43)

section Regions

variable {zeroAddress : Bool} {d p q : Bytes}

theorem headed_left {front : Bytes} (back : Bytes) {i : Nat} (hi : i < front.length) :
    headed zeroAddress (front ++ back) i = headed zeroAddress front i := by
  rw [headed, headed, List.getD_append _ _ _ _ hi]

theorem headed_right {front : Bytes} (back : Bytes) {i : Nat} (hfront : 4 ≤ front.length) :
    headed zeroAddress (front ++ back) (front.length + i) = back.getD i 0 := by
  rw [headed, if_neg (by omega), List.getD_append_right _ _ _ _ (Nat.le_add_right _ _),
    Nat.add_sub_cancel_left]

theorem column_codeword (hd : d.length = 2064) (hp : p = eccPass d zeroAddress 86 24 2 86)
    {column : Nat} (hcolumn : column < 86) :
    Codeword 26 fun j => ofByte (headed zeroAddress (d ++ (p ++ q)) (columnIndex column j)) := by
  have hstart : column / 2 * 2 + column % 2 = column := by omega
  have hlen : p.length = 172 := by rw [hp, length_eccPass]
  obtain ⟨hfirst, hsecond⟩ := @eccPass_spec d zeroAddress 86 24 2 86 (by decide) column hcolumn
    (by omega)
  rw [← hp] at hfirst hsecond
  beta_reduce at hfirst hsecond
  have hitem : ∀ j ∈ range 24, ofByte (headed zeroAddress d
      ((column / 2 * 2 + column % 2 + j * 86) % (86 * 24))) =
      ofByte (headed zeroAddress (d ++ (p ++ q)) (columnIndex column j)) := by
    intro j hj
    have hj : j < 24 := Finset.mem_range.mp hj
    have hindex : (column / 2 * 2 + column % 2 + j * 86) % (86 * 24) = columnIndex column j := by
      rw [hstart, columnIndex, Nat.mod_eq_of_lt (by omega), Nat.mul_comm]
    rw [hindex, headed_left _ (by rw [columnIndex]; omega)]
  have hparity : ∀ k < 172, headed zeroAddress (d ++ (p ++ q)) (2064 + k) = p.getD k 0 := by
    intro k hk
    rw [← hd, headed_right _ (by omega), List.getD_append _ _ _ _ (by omega)]
  have hcheck : columnIndex column 24 = 2064 + column := by
    rw [columnIndex]
    omega
  have hlast : columnIndex column (24 + 1) = 2064 + (86 + column) := by
    rw [columnIndex]
    omega
  refine ByteField.codeword_of_checks ?_ ?_
  · rw [hcheck, hparity column (by omega), hfirst]
    exact congrArg₂ (· + ·) (sum_congr rfl fun j hj => by rw [hitem j hj]) (sum_congr rfl hitem)
  · rw [hlast, hparity _ (by omega), hsecond, hcheck, hparity column (by omega)]
    exact congrArg (· + _) (sum_congr rfl hitem)

theorem diagonal_codeword {front : Bytes} (hfront : front.length = 2236)
    (hq : q = eccPass front zeroAddress 52 43 86 88) {diagonal : Nat} (hdiagonal : diagonal < 52) :
    Codeword 45 fun j => ofByte (headed zeroAddress (front ++ q) (diagonalIndex diagonal j)) := by
  obtain ⟨hfirst, hsecond⟩ := @eccPass_spec front zeroAddress 52 43 86 88 (by decide) diagonal
    hdiagonal (by omega)
  rw [← hq] at hfirst hsecond
  beta_reduce at hfirst hsecond
  have hitem : ∀ j ∈ range 43, ofByte (headed zeroAddress front
      ((diagonal / 2 * 86 + diagonal % 2 + j * 88) % (52 * 43))) =
      ofByte (headed zeroAddress (front ++ q) (diagonalIndex diagonal j)) := by
    intro j hj
    have hj : j < 43 := Finset.mem_range.mp hj
    have hindex : (diagonal / 2 * 86 + diagonal % 2 + j * 88) % (52 * 43) =
        diagonalIndex diagonal j := by
      rw [diagonalIndex, if_pos hj, Nat.mul_comm j]
    have hlt : diagonalIndex diagonal j < 2236 := by
      rw [diagonalIndex, if_pos hj]
      exact Nat.mod_lt _ (by decide)
    rw [hindex, headed_left _ (by omega)]
  have hparity : ∀ k, headed zeroAddress (front ++ q) (2236 + k) = q.getD k 0 := by
    intro k
    rw [← hfront, headed_right _ (by omega)]
  have hcheck : diagonalIndex diagonal 43 = 2236 + diagonal := by
    rw [diagonalIndex, if_neg (by omega)]
    omega
  have hlast : diagonalIndex diagonal (43 + 1) = 2236 + (52 + diagonal) := by
    rw [diagonalIndex, if_neg (by omega)]
    omega
  refine ByteField.codeword_of_checks ?_ ?_
  · rw [hcheck, hparity, hfirst]
    exact congrArg₂ (· + ·) (sum_congr rfl fun j hj => by rw [hitem j hj]) (sum_congr rfl hitem)
  · rw [hlast, hparity, hsecond, hcheck, hparity]
    exact congrArg (· + _) (sum_congr rfl hitem)

end Regions

/-! ## Sectors -/

/-- The parity depends on what is before it, and replaces what is behind. -/
theorem eccGenerate_eq {sector : Bytes} (hlen : sector.length = SECTOR) (zeroAddress : Bool) :
    ∃ p q, eccGenerate sector zeroAddress = sector.take 2076 ++ (p ++ q) ∧
      p = eccPass (slice sector 12 2064) zeroAddress 86 24 2 86 ∧
      q = eccPass (slice sector 12 2064 ++ p) zeroAddress 52 43 86 88 := by
  have hp : (eccPass (slice sector 12 2064) zeroAddress 86 24 2 86).length = 172 := length_eccPass
  refine ⟨_, _, ?_, rfl, rfl⟩
  rw [eccGenerate]
  generalize eccPass (slice sector 12 2064) zeroAddress 86 24 2 86 = p at hp
  have hfront : (sector.take 2076 ++ p).length = 2248 := by
    rw [List.length_append, List.length_take, hlen, hp]
    rfl
  have hregion : slice (copyAt sector 2076 p) 12 2236 = slice sector 12 2064 ++ p := by
    have htake : (sector.take 2076).length = 2076 := by rw [List.length_take, hlen]; rfl
    rw [copyAt, Chunks.slice_append_left (by omega), slice, List.drop_append_of_le_length (by omega),
      List.drop_take, slice, List.take_of_length_le]
    rw [List.length_append, List.length_take, List.length_drop, hlen, hp]
    decide
  have hq : (eccPass (slice sector 12 2064 ++ p) zeroAddress 52 43 86 88).length = 104 :=
    length_eccPass
  rw [hregion]
  generalize eccPass (slice sector 12 2064 ++ p) zeroAddress 52 43 86 88 = q at hq
  have hsame : (copyAt sector 2076 p).length = SECTOR := by
    rw [length_copyAt (by rw [hp, hlen]; decide), hlen]
  have hend : (copyAt sector 2076 p).drop (2248 + q.length) = [] := by
    refine List.drop_eq_nil_of_le ?_
    rw [hsame, hq]
  have htake : (copyAt sector 2076 p).take 2248 = sector.take 2076 ++ p := by
    rw [copyAt, List.take_append_of_le_length (by omega), List.take_of_length_le (by omega)]
  rw [copyAt, htake, hend, List.append_nil, List.append_assoc]

/-- A sector that only lacks its parity: sync pattern, mode, and a checksum of what lies between
two offsets. -/
structure Framed (mode : UInt8) (start stop : Nat) (sector : Bytes) : Prop where
  length : sector.length = SECTOR
  sync : sector.take 12 = SYNC
  mode : sector.getD 15 0 = mode
  checksum : slice sector stop 4 = edcBytes (slice sector start (stop - start))

/-- Writing the checksum completes the frame. -/
theorem framed_edc {sector : Bytes} {mode : UInt8} {start stop : Nat}
    (hlen : sector.length = SECTOR) (hsync : sector.take 12 = SYNC)
    (hmode : sector.getD 15 0 = mode) (hlow : 16 ≤ stop)
    (hstop : stop + 4 ≤ SECTOR) :
    Framed mode start stop
      (copyAt sector stop (edcBytes (slice sector start (stop - start)))) := by
  have hedc : (edcBytes (slice sector start (stop - start))).length = 4 := Wire.length_toLe _ _
  generalize hbytes : edcBytes (slice sector start (stop - start)) = bytes at hedc
  have htake : ∀ n ≤ stop, (copyAt sector stop bytes).take n = sector.take n :=
    fun n hn => take_copyAt hn (by omega)
  refine ⟨?_, ?_, ?_, ?_⟩
  · rw [length_copyAt (by omega), hlen]
  · rw [htake 12 (by omega), hsync]
  · have hget := congrArg (fun bytes : Bytes => bytes.getD 15 0) (htake 16 hlow)
    simp only [List.getD_eq_getElem?_getD, List.getElem?_take, show 15 < 16 by decide, if_true]
      at hget hmode
    rw [List.getD_eq_getElem?_getD, hget, hmode]
  · have hslice : slice (copyAt sector stop bytes) start (stop - start) =
        slice sector start (stop - start) := by
      have hboth := congrArg (List.drop start) (htake stop (Nat.le_refl stop))
      rwa [List.drop_take, List.drop_take] at hboth
    have hown := @slice_copyAt sector bytes stop (by omega)
    rw [hedc] at hown
    rw [hown, hslice, hbytes]

/-- Writing behind the header leaves a sector's sync pattern and mode. -/
theorem header_kept {sector bytes : Bytes} {mode : UInt8} {offset : Nat} (hlow : 16 ≤ offset)
    (hin : offset ≤ sector.length) (hsync : sector.take 12 = SYNC)
    (hmode : sector.getD 15 0 = mode) :
    (copyAt sector offset bytes).take 12 = SYNC ∧
      (copyAt sector offset bytes).getD 15 0 = mode := by
  refine ⟨?_, ?_⟩
  · rw [take_copyAt (by omega) hin, hsync]
  · have hget := congrArg (fun bytes : Bytes => bytes.getD 15 0)
      (@take_copyAt sector bytes offset 16 hlow hin)
    simp only [List.getD_eq_getElem?_getD, List.getElem?_take, show 15 < 16 by decide, if_true]
      at hget hmode
    rw [List.getD_eq_getElem?_getD, hget, hmode]

/-- The sync pattern, the address and the mode. -/
def headerOf (mode : UInt8) (stripped : Bytes) : Bytes :=
  (copyAt (copyAt (List.replicate SECTOR 0) 0 SYNC) 12 (stripped.take 3)).set 15 mode

theorem headerOf_spec {mode : UInt8} {stripped : Bytes} (hlen : 3 ≤ stripped.length) :
    (headerOf mode stripped).length = SECTOR ∧ (headerOf mode stripped).take 12 = SYNC ∧
      (headerOf mode stripped).getD 15 0 = mode := by
  have hzeros : (List.replicate SECTOR (0 : UInt8)).length = SECTOR := List.length_replicate
  have hsynced : (copyAt (List.replicate SECTOR 0) 0 SYNC).length = SECTOR := by
    rw [length_copyAt (by rw [hzeros]; decide), hzeros]
  have haddress : (stripped.take 3).length = 3 := List.length_take_of_le hlen
  have hwhole : (copyAt (copyAt (List.replicate SECTOR 0) 0 SYNC) 12 (stripped.take 3)).length =
      SECTOR := by
    rw [length_copyAt (by rw [hsynced, haddress]; decide), hsynced]
  refine ⟨?_, ?_, ?_⟩
  · rw [headerOf, List.length_set, hwhole]
  · have hfront : ((copyAt (copyAt (List.replicate SECTOR 0) 0 SYNC) 12
        (stripped.take 3)).take 12).length ≤ 15 := by
      rw [List.length_take]
      omega
    rw [headerOf, List.take_set, List.set_eq_of_length_le hfront, take_copyAt (Nat.le_refl _)
      (by rw [hsynced]; decide)]
    have hown := @slice_copyAt (List.replicate SECTOR 0) SYNC 0 (Nat.zero_le _)
    exact hown
  · have hlt : 15 < SECTOR := by decide
    rw [headerOf, List.getD_eq_getElem?_getD, List.getElem?_set_self (by omega), Option.getD_some]

theorem framed_mode1 {stripped : Bytes} (hlen : strippedLen 1 = some stripped.length) :
    ∃ sector, rebuildSector 1 stripped = eccGenerate sector false ∧ Framed 1 0 2064 sector := by
  have hlen : 3 + 2048 = stripped.length := Option.some.inj hlen
  obtain ⟨hheader, hsync, hmode⟩ := @headerOf_spec 1 stripped (by omega)
  have hdrop : (stripped.drop 3).length = 2048 := by rw [List.length_drop]; omega
  have hbody : (copyAt (headerOf 1 stripped) 16 (stripped.drop 3)).length = SECTOR := by
    rw [length_copyAt (by rw [hheader, hdrop]; decide), hheader]
  obtain ⟨hsync, hmode⟩ := @header_kept _ (stripped.drop 3) _ 16 (Nat.le_refl _)
    (by rw [hheader]; decide) hsync hmode
  have hframed := @framed_edc _ _ 0 2064 hbody hsync hmode (by decide) (by decide)
  refine ⟨_, ?_, hframed⟩
  rw [rebuildSector, if_pos rfl]
  rfl

theorem framed_mode2 {stripped : Bytes} (hlen : strippedLen 2 = some stripped.length) :
    ∃ sector, rebuildSector 2 stripped = eccGenerate sector true ∧ Framed 2 16 2072 sector := by
  have hlen : 3 + 8 + 2048 = stripped.length := Option.some.inj hlen
  obtain ⟨hheader, hsync, hmode⟩ := @headerOf_spec 2 stripped (by omega)
  have hslice : (slice stripped 3 8).length = 8 := by rw [length_slice]; omega
  have hdrop : (stripped.drop 11).length = 2048 := by rw [List.length_drop]; omega
  have hsub : (copyAt (headerOf 2 stripped) 16 (slice stripped 3 8)).length = SECTOR := by
    rw [length_copyAt (by rw [hheader, hslice]; decide), hheader]
  have hbody : (copyAt (copyAt (headerOf 2 stripped) 16 (slice stripped 3 8)) 24
      (stripped.drop 11)).length = SECTOR := by
    rw [length_copyAt (by rw [hsub, hdrop]; decide), hsub]
  obtain ⟨hsync, hmode⟩ := @header_kept _ (slice stripped 3 8) _ 16 (Nat.le_refl _)
    (by rw [hheader]; decide) hsync hmode
  obtain ⟨hsync, hmode⟩ := @header_kept _ (stripped.drop 11) _ 24 (by decide)
    (by rw [hsub]; decide) hsync hmode
  have hframed := @framed_edc _ _ 16 2072 hbody hsync hmode (by decide) (by decide)
  refine ⟨_, ?_, hframed⟩
  rw [rebuildSector, if_neg (by decide), if_pos rfl]
  rfl

/-! ## The checksum -/

theorem edcEntry_eq (i : UInt32) : edcEntry i = (Crc.bit 0xD8018001)^[8] i := by
  have hloop : ∀ n, (List.range n).foldl
      (fun (v : UInt32) _ => (v >>> 1) ^^^ (0xD8018001 * (v &&& 1))) i =
      (Crc.bit 0xD8018001)^[n] i := by
    intro n
    induction n with
    | zero => rfl
    | succ n ih =>
      rw [List.range_succ, List.foldl_concat, ih, Function.iterate_succ_apply', Crc.bit_eq]
  exact hloop 8

/-- The table computes the bitwise checksum. -/
theorem edc_eq_checksum (bytes : Bytes) : edc bytes = Crc.checksum 0xD8018001 bytes := by
  rw [edc, Crc.checksum]
  congr 1
  funext e b
  rw [Crc.byte_eq_table, edcEntry_eq]

/-! ## The decoder's copy -/

theorem chd_eccWalk_eq (src : Bytes) (zeroAddress : Bool) (size minorInc minor index : Nat)
    (a b : UInt8) :
    Chd.eccWalk src zeroAddress size minorInc minor index a b =
      eccWalk src zeroAddress size minorInc minor index a b := by
  induction minor generalizing index a b with
  | zero => rfl
  | succ minor ih =>
    rw [Chd.eccWalk, eccWalk]
    exact ih _ _ _

theorem chd_eccPass_eq (src : Bytes) (zeroAddress : Bool)
    (majorCount minorCount majorMult minorInc : Nat) :
    Chd.eccPass src zeroAddress majorCount minorCount majorMult minorInc =
      eccPass src zeroAddress majorCount minorCount majorMult minorInc := by
  simp only [Chd.eccPass, eccPass, chd_eccWalk_eq]
  rfl

theorem chd_eccGenerate_eq (sector : Bytes) :
    Chd.eccGenerate sector = eccGenerate sector (sector.getD 15 0 == 2) := by
  simp only [Chd.eccGenerate, eccGenerate, chd_eccPass_eq]

/-! ## Regenerated sectors -/

/-- What the parity of a sector promises: columns and diagonals are codewords, the checksum is
the bitwise one, and the decoder of compressed discs restores the sector from any that has the
bytes between the sync pattern and the parity. -/
structure Regenerated (mode : UInt8) (start stop : Nat) (sector : Bytes) : Prop where
  length : sector.length = SECTOR
  column (c : Nat) : c < 86 → Codeword 26 fun j =>
    ofByte (headed (mode == 2) (sector.drop 12) (columnIndex c j))
  diagonal (d : Nat) : d < 52 → Codeword 45 fun j =>
    ofByte (headed (mode == 2) (sector.drop 12) (diagonalIndex d j))
  checksum : slice sector stop 4 =
    Wire.toLe 4 (Crc.checksum 0xD8018001 (slice sector start (stop - start))).toNat
  restored (scratch : Bytes) : scratch.length = SECTOR →
    slice scratch 12 2064 = slice sector 12 2064 → Chd.restoreSector scratch = sector

/-- Parity completes a frame. -/
theorem regenerated_of_framed {mode : UInt8} {start stop : Nat} {sector : Bytes}
    (hframed : Framed mode start stop sector) (hstop : stop + 4 ≤ 2076) (hstart : start ≤ stop) :
    Regenerated mode start stop (eccGenerate sector (mode == 2)) := by
  obtain ⟨hlen, hsync, hmode, hedc⟩ := hframed
  obtain ⟨p, q, heq, hp, hq⟩ := eccGenerate_eq hlen (mode == 2)
  have hplen : p.length = 172 := by rw [hp, length_eccPass]
  have hqlen : q.length = 104 := by rw [hq, length_eccPass]
  have htake : (sector.take 2076).length = 2076 := by rw [List.length_take, hlen]; rfl
  have hd : (slice sector 12 2064).length = 2064 := by rw [length_slice, hlen]; rfl
  have hregion : (eccGenerate sector (mode == 2)).drop 12 = slice sector 12 2064 ++ (p ++ q) := by
    rw [heq, List.drop_append_of_le_length (by omega), List.drop_take]
    rfl
  have hslice : ∀ o n, o + n ≤ 2076 →
      slice (eccGenerate sector (mode == 2)) o n = slice sector o n := by
    intro o n hin
    rw [heq, Chunks.slice_append_left (by omega), slice, slice, List.drop_take, List.take_take]
    congr 1
    omega
  refine ⟨?_, fun c hc => ?_, fun d hdiagonal => ?_, ?_, fun scratch hscratch hsame => ?_⟩
  · rw [heq, List.length_append, List.length_append, htake, hplen, hqlen]
  · rw [hregion]
    exact column_codeword hd hp hc
  · have hfront : (slice sector 12 2064 ++ p).length = 2236 := by
      rw [List.length_append, hd, hplen]
    rw [hregion, ← List.append_assoc]
    exact diagonal_codeword hfront hq hdiagonal
  · rw [hslice stop 4 hstop, hslice start (stop - start) (by omega), hedc, edcBytes,
      edc_eq_checksum]
  · -- The scratch sector has the same bytes before the parity.
    have hsynclen : Chd.CD_SYNC_HEADER.length = 12 := rfl
    have hrestored : (copyAt scratch 0 Chd.CD_SYNC_HEADER).length = SECTOR := by
      rw [length_copyAt (by rw [hscratch, hsynclen]; decide), hscratch]
    have hbefore : (copyAt scratch 0 Chd.CD_SYNC_HEADER).take 2076 = sector.take 2076 := by
      have hsplit : sector.take 2076 = sector.take 12 ++ slice sector 12 2064 := by
        rw [slice, ← List.take_add]
      have hcopy : copyAt scratch 0 Chd.CD_SYNC_HEADER = Chd.CD_SYNC_HEADER ++ scratch.drop 12 := by
        rw [copyAt, hsynclen, List.take_zero, List.nil_append, Nat.zero_add]
      rw [hslice 12 2064 (by decide)] at hsame
      rw [hcopy, hsplit, hsync, List.take_append, hsynclen, List.take_of_length_le (by decide),
        ← hsame]
      rfl
    have hmid : slice (copyAt scratch 0 Chd.CD_SYNC_HEADER) 12 2064 = slice sector 12 2064 := by
      have hboth := congrArg (List.drop 12) hbefore
      rwa [List.drop_take, List.drop_take] at hboth
    have hzero : (copyAt scratch 0 Chd.CD_SYNC_HEADER).getD 15 0 = mode := by
      have hget := congrArg (fun bytes : Bytes => bytes.getD 15 0) hbefore
      simp only [List.getD_eq_getElem?_getD, List.getElem?_take, show 15 < 2076 by decide, if_true]
        at hget hmode
      rw [List.getD_eq_getElem?_getD, hget, hmode]
    obtain ⟨p', q', heq', hp', hq'⟩ := eccGenerate_eq hrestored (mode == 2)
    rw [hmid, ← hp] at hp'
    rw [hmid, hp', ← hq] at hq'
    rw [Chd.restoreSector, chd_eccGenerate_eq, hzero, heq', heq, hp', hq', hbefore]

/-- The parity of every rebuilt sector that has one is a codeword of the field of bytes, and its
checksum and parity are the ones that are checked elsewhere. -/
theorem rebuildSector_regenerated :
    Irreducible ByteField.modulus ∧
    (∀ stripped, strippedLen 1 = some stripped.length →
      Regenerated 1 0 2064 (rebuildSector 1 stripped)) ∧
    ∀ stripped, strippedLen 2 = some stripped.length →
      Regenerated 2 16 2072 (rebuildSector 2 stripped) := by
  refine ⟨ByteField.irreducible_modulus, fun stripped hlen => ?_, fun stripped hlen => ?_⟩
  · obtain ⟨sector, heq, hframed⟩ := framed_mode1 hlen
    rw [heq]
    exact regenerated_of_framed hframed (by decide) (by decide)
  · obtain ⟨sector, heq, hframed⟩ := framed_mode2 hlen
    rw [heq]
    exact regenerated_of_framed hframed (by decide) (by decide)

theorem rebuildSector_regenerated_zeros :
    Regenerated 1 0 2064 (rebuildSector 1 (List.replicate 2051 0)) :=
  rebuildSector_regenerated.2.1 _ (by rw [List.length_replicate]; rfl)

end Datboi.Ecm
