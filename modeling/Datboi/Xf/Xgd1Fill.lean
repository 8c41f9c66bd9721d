import Datboi.Xf.Params
import Datboi.Xf.Xgd1Field
import Mathlib.FieldTheory.Finite.Basic
import Mathlib.NumberTheory.LucasPrimality
import Mathlib.Tactic.NormNum.Prime

/-!
# Filler streams

The generator is set to the start of a filler sector in one step, by the closed form of an
affine recurrence over the prime field. Running it from the start of the stream leads to the
same state, so a window of the stream can be served from the sectors it touches.
-/

namespace Datboi.Xgd1

open Guest (Program)
open Reader (slice)
open Xf (collect)

/-! ## The field -/

namespace Fp

/-- Two generates the units. -/
def TWO : Fp := ⟨2, by decide⟩

theorem pow_toZ (a : Fp) {e : Nat} (he : e < 2 ^ 64) :
    a.toZ ^ e = (a.pow (.ofNat e)).toZ := by
  rw [toZ_pow, UInt64.toNat_ofNat_of_lt' he]

theorem toZ_ne_one {a : Fp} (hne : a ≠ ONE) : a.toZ ≠ 1 := by
  rw [← toZ_one]
  exact fun heq => hne (toZ_inj heq)

end Fp

theorem prime_P : Nat.Prime P := by
  have hfactor : Nat.Prime 22605091 := by norm_num
  have hprod : P - 1 = 2 * 5 * 19 * 22605091 := rfl
  refine lucas_primality P Fp.TWO.toZ ?_ fun q hq hdvd => ?_
  · have hone : Fp.TWO.pow (.ofNat (P - 1)) = .ONE := by decide +kernel
    rw [Fp.pow_toZ _ (by decide), hone, Fp.toZ_one]
  · rw [Fp.pow_toZ _ (lt_of_le_of_lt (Nat.div_le_self _ q) (by decide))]
    apply Fp.toZ_ne_one
    rw [hprod, hq.dvd_mul, hq.dvd_mul, hq.dvd_mul, Nat.prime_dvd_prime_iff_eq hq Nat.prime_two,
      Nat.prime_dvd_prime_iff_eq hq Nat.prime_five,
      Nat.prime_dvd_prime_iff_eq hq (show Nat.Prime 19 by norm_num),
      Nat.prime_dvd_prime_iff_eq hq hfactor] at hdvd
    rcases hdvd with ((rfl | rfl) | rfl) | rfl <;> decide +kernel

/-! ## Overflow -/

/-- A result of so many bits, as builds that check for overflow compute it. -/
def fits (bits n : Nat) : Option Nat := if n < 2 ^ bits then some n else none

/-- A difference of unsigned numbers, as those builds compute it. -/
def less (a b : Nat) : Option Nat := if b ≤ a then some (a - b) else none

theorem fits_of_lt {bits n : Nat} (hn : n < 2 ^ bits) : fits bits n = some n := if_pos hn

theorem less_of_le {a b : Nat} (hle : b ≤ a) : less a b = some (a - b) := if_pos hle

namespace Fp

/-- `reduce` with its overflow checks; the sum of the halves is meant to wrap. -/
def reduceChecked (x : UInt64) : Option Nat := do
  let high ← fits 64 (x.toNat / 2 ^ 32 * 5)
  let t ← fits 64 (high + x.toNat % 2 ^ 32)
  let hi ← fits 32 (t / 2 ^ 32 * 5)
  let s := (t % 2 ^ 32 + hi) % 2 ^ 32
  if 2 ^ 32 ≤ t % 2 ^ 32 + hi then fits 32 (s + 5) else if P ≤ s then less s P else some s

def addChecked (a b : Fp) : Option Nat :=
  let s := (a.val + b.val) % 2 ^ 32
  if 2 ^ 32 ≤ a.val + b.val then fits 32 (s + 5) else if P ≤ s then less s P else some s

def subChecked (a b : Fp) : Option Nat :=
  if b.val ≤ a.val then less a.val b.val else do
    let borrow ← less b.val a.val
    less P borrow

def mulChecked (a b : Fp) : Option Nat := do
  let product ← fits 64 (a.val * b.val)
  reduceChecked (.ofNat product)

/-- A wrapped sum is corrected without another overflow. -/
theorem correct_checked {r : Nat} (hr : r < 2 ^ 33 - 5) :
    (if 2 ^ 32 ≤ r then fits 32 (r % 2 ^ 32 + 5)
      else if P ≤ r % 2 ^ 32 then less (r % 2 ^ 32) P else some (r % 2 ^ 32)) =
      some (if 2 ^ 32 ≤ r then r % 2 ^ 32 + 5
        else if P ≤ r % 2 ^ 32 then r % 2 ^ 32 - P else r % 2 ^ 32) := by
  by_cases hcarry : 2 ^ 32 ≤ r
  · rw [if_pos hcarry, if_pos hcarry, fits_of_lt (by omega)]
  · rw [if_neg hcarry, if_neg hcarry]
    by_cases hle : P ≤ r % 2 ^ 32
    · rw [if_pos hle, if_pos hle, less_of_le hle]
    · rw [if_neg hle, if_neg hle]

theorem reduceChecked_eq (x : UInt64) : reduceChecked x = some (reduce x).val := by
  have hx := x.toNat_lt
  have hhigh : fits 64 (x.toNat / 2 ^ 32 * 5) = some (x.toNat / 2 ^ 32 * 5) :=
    fits_of_lt (by omega)
  have ht : fits 64 (x.toNat / 2 ^ 32 * 5 + x.toNat % 2 ^ 32) =
      some (x.toNat / 2 ^ 32 * 5 + x.toNat % 2 ^ 32) := fits_of_lt (by omega)
  rw [reduceChecked, hhigh, Option.bind_eq_bind, Option.bind_some, ht, Option.bind_some]
  generalize hsum : x.toNat / 2 ^ 32 * 5 + x.toNat % 2 ^ 32 = t
  have hbound : t < 6 * 2 ^ 32 := by omega
  rw [fits_of_lt (show t / 2 ^ 32 * 5 < 2 ^ 32 by omega), Option.bind_some,
    correct_checked (by omega)]
  simp only [reduce, hsum]

theorem addChecked_eq (a b : Fp) : addChecked a b = some (a.add b).val := by
  have ha := a.lt
  have hb := b.lt
  exact correct_checked (by simp only [P] at ha hb; omega)

theorem subChecked_eq (a b : Fp) : subChecked a b = some (a.sub b).val := by
  have hb := b.lt
  by_cases hle : b.val ≤ a.val
  · rw [subChecked, if_pos hle, less_of_le hle]
    simp only [sub, if_pos hle]
  · rw [subChecked, if_neg hle, less_of_le (by omega), Option.bind_eq_bind, Option.bind_some,
      less_of_le (by omega)]
    simp only [sub, if_neg hle]

theorem mul_val_lt (a b : Fp) : a.val * b.val < 2 ^ 64 := by
  have hle : a.val * b.val ≤ (2 ^ 32 - 1) * (2 ^ 32 - 1) := Nat.mul_le_mul
    (by have := a.lt; simp only [P] at this; omega) (by have := b.lt; simp only [P] at this; omega)
  omega

theorem mulChecked_eq (a b : Fp) : mulChecked a b = some (a.mul b).val := by
  rw [mulChecked, fits_of_lt (mul_val_lt a b), Option.bind_eq_bind, Option.bind_some,
    reduceChecked_eq]
  rfl

theorem sub_val (a b : Fp) : (a.sub b).val = (a.val + P - b.val) % P := by
  have ha := a.lt
  have hb := b.lt
  simp only [sub]
  by_cases hle : b.val ≤ a.val
  · have hsplit : a.val + P - b.val = a.val - b.val + P := by omega
    rw [if_pos hle, hsplit, Nat.add_mod_right, Nat.mod_eq_of_lt (by omega)]
  · rw [if_neg hle, Nat.mod_eq_of_lt (by omega)]
    omega

theorem mul_val (a b : Fp) : (a.mul b).val = a.val * b.val % P := by
  rw [mul, reduce_val, UInt64.toNat_ofNat_of_lt' (mul_val_lt a b)]

theorem pow_val (a : Fp) (e : UInt64) : (a.pow e).val = a.val ^ e.toNat % P := by
  have hresidue := toZ_pow a e
  rw [toZ, toZ, ← Nat.cast_pow, ZMod.natCast_eq_natCast_iff', Nat.mod_eq_of_lt (a.pow e).lt]
    at hresidue
  exact hresidue

/-- What is not zero has its inverse. -/
theorem mul_inv_val {a : Fp} (hne : a ≠ ZERO) : a.val * a.inv.val % P = 1 := by
  have hprime : Fact (Nat.Prime P) := ⟨prime_P⟩
  have hunit : a.toZ ≠ 0 := by
    rw [← toZ_zero]
    exact fun heq => hne (toZ_inj heq)
  have hexponent : (UInt64.ofNat (P - 2)).toNat + 1 = P - 1 := rfl
  have hprod : (a.mul a.inv) = ONE := by
    apply toZ_inj
    rw [toZ_mul, inv, toZ_pow, ← pow_succ', hexponent, ZMod.pow_card_sub_one_eq_one hunit, toZ_one]
  rw [← mul_val, hprod]
  rfl

/-- The operations compute in the integers modulo a prime, on values below it, and none of
them overflows. -/
structure Exact : Prop where
  prime : Nat.Prime P
  lt (a : Fp) : a.val < P
  reduce (x : UInt64) :
    reduceChecked x = some (Fp.reduce x).val ∧ (Fp.reduce x).val = x.toNat % P
  add (a b : Fp) : addChecked a b = some (a.add b).val ∧ (a.add b).val = (a.val + b.val) % P
  sub (a b : Fp) : subChecked a b = some (a.sub b).val ∧ (a.sub b).val = (a.val + P - b.val) % P
  mul (a b : Fp) : mulChecked a b = some (a.mul b).val ∧ (a.mul b).val = a.val * b.val % P
  pow (a : Fp) (e : UInt64) : (a.pow e).val = a.val ^ e.toNat % P
  inv (a : Fp) : a ≠ ZERO → a.val * a.inv.val % P = 1

theorem exact : Exact where
  prime := prime_P
  lt a := a.lt
  reduce x := ⟨reduceChecked_eq x, reduce_val x⟩
  add a b := ⟨addChecked_eq a b, add_val a b⟩
  sub a b := ⟨subChecked_eq a b, sub_val a b⟩
  mul a b := ⟨mulChecked_eq a b, mul_val a b⟩
  pow := pow_val
  inv _ := mul_inv_val

end Fp

/-! ## Jumping ahead -/

namespace Prng

/-- The generator after so many words. -/
def advance : Nat → Prng → Prng
  | 0, g => g
  | words + 1, g => advance words g.nextWord.2

theorem advance_add (m n : Nat) (g : Prng) : advance (m + n) g = advance n (advance m g) := by
  induction m generalizing g with
  | zero => rw [Nat.zero_add, advance]
  | succ m ih => rw [Nat.succ_add, advance, ih, advance]

/-- The closed form of the state after so many words. -/
def jump (seed : UInt32) (words : UInt64) : Prng where
  a := (stateOf seed).val
  b := multiplier (lowBits seed)
  c := ((affinePow (multiplier (lowBits seed)) words).1.mul (stateOf seed)).add
    (affinePow (multiplier (lowBits seed)) words).2

theorem nextWord_jump (seed : UInt32) {m n : UInt64} (hn : n.toNat = m.toNat + 1) :
    (jump seed m).nextWord.2 = jump seed n := by
  have hnext := affinePow_succ (lowBits seed) hn (stateOf seed)
  simp only [nextWord, jump, hnext]

/-- Word by word, the generator reaches the closed form. -/
theorem advance_jump (seed : UInt32) {words : Nat} (hwords : words < 2 ^ 64) :
    advance words (jump seed 0) = jump seed (.ofNat words) := by
  induction words with
  | zero => rfl
  | succ words ih =>
    rw [advance_add, ih (by omega), advance, advance]
    refine nextWord_jump seed ?_
    rw [UInt64.toNat_ofNat_of_lt' hwords, UInt64.toNat_ofNat_of_lt' (Nat.lt_of_succ_lt hwords)]

theorem skipped_lt (n : UInt32) : WORDS_PER_SECTOR * n.toNat < 2 ^ 64 := by
  have hn := n.toNat_lt
  simp only [WORDS_PER_SECTOR, SECTOR_LEN]
  omega

/-- Positioning at a sector is running the generator over all the words before it. -/
theorem new_eq_advance (seed n : UInt32) :
    new seed n = advance (n.toNat * WORDS_PER_SECTOR) (new seed 0) := by
  have hstart : new seed 0 = jump seed 0 := rfl
  rw [hstart, Nat.mul_comm, advance_jump seed (skipped_lt n)]
  rfl

theorem length_fillLoop (words : Nat) (g : Prng) : (fillLoop words g).length = 2 * words := by
  induction words generalizing g with
  | zero => rfl
  | succ words ih =>
    rw [fillLoop, List.length_cons, List.length_cons, ih]
    omega

@[simp] theorem length_fillSector (g : Prng) : g.fillSector.length = SECTOR_LEN :=
  length_fillLoop WORDS_PER_SECTOR g

end Prng

/-! ## The component -/

/-- Sectors generated for one write. -/
abbrev SECTORS_PER_WRITE : Nat := 64

/-- Sectors of a window of `count`, the first without its head and the last up to its tail,
and the generator after them. -/
def fillBatch (count skipHead keepTail : Nat) : Nat → Nat → Prng → Bytes × Prng
  | 0, _, prng => ([], prng)
  | batch + 1, index, prng =>
    let a := if index = 0 then skipHead else 0
    let b := if index = count - 1 then keepTail else SECTOR_LEN
    let rest := fillBatch count skipHead keepTail batch (index + 1)
      (prng.advance WORDS_PER_SECTOR)
    (slice prng.fillSector a (b - a) ++ rest.1, rest.2)

/-- Every round writes at least one of the remaining sectors. -/
def writeLoop (count skipHead keepTail : Nat) : Nat → Nat → Nat → Prng → Program UInt8
  | 0, _, _, _ => .trap true
  | fuel + 1, remaining, index, prng =>
    if remaining = 0 then .done
    else
      let batch := min remaining SECTORS_PER_WRITE
      let filled := fillBatch count skipHead keepTail batch index prng
      .write 0 filled.1
        (writeLoop count skipHead keepTail fuel (remaining - batch) (index + batch) filled.2)

/-- The parameters bound the sector index. -/
def writeSectors (seed : UInt32) (first count skipHead keepTail : Nat) : Program UInt8 :=
  if 2 ^ 32 ≤ first then .trap false
  else
    writeLoop count skipHead keepTail (count + 1) count 0 (.new seed (.ofNat first))

def runParams (p : Params) : Program UInt8 :=
  if p.sectors = 0 then
    .refuse "fill of zero sectors has no output (the empty blob needs no recipe)"
  else writeSectors p.seed 0 p.sectors.toNat 0 SECTOR_LEN

def serveParams (offset len : UInt64) (p : Params) : Program UInt8 :=
  let (start, stop) := Xf.window offset len (p.sectors.toNat * SECTOR_LEN)
  if stop ≤ start then .done
  else
    let first := start / SECTOR_LEN
    let last := (stop - 1) / SECTOR_LEN
    writeSectors p.seed first (last - first + 1) (start - first * SECTOR_LEN)
      (stop - last * SECTOR_LEN)

def run (op : String) (params : Bytes) (inputs : List Xf.Shape) (outputs : Nat) :
    Program UInt8 :=
  Xf.runFill Params.decode runParams op params inputs outputs

def serveRange (op : String) (params : Bytes) (inputs : List Xf.Shape) (outputIx : Nat)
    (offset len : UInt64) : Program UInt8 :=
  Xf.serveFill Params.decode (serveParams offset len) op params inputs outputIx

/-- What the host gets for parameters. -/
def filled (params : Bytes) : Option Bytes :=
  collect ((run "fill" params [] 1).run maxRead (Xf.fillPorts []))

def served (params : Bytes) (offset len : UInt64) : Option Bytes :=
  collect ((serveRange "fill" params [] 0 offset len).run maxRead (Xf.fillPorts []))

/-! ## Windows of the stream -/

/-- The sector of the stream that so many sectors precede. -/
def streamSector (seed : UInt32) (i : Nat) : Bytes :=
  ((Prng.new seed 0).advance (i * WORDS_PER_SECTOR)).fillSector

@[simp] theorem length_streamSector (seed : UInt32) (i : Nat) :
    (streamSector seed i).length = SECTOR_LEN :=
  Prng.length_fillSector _

/-- The first sectors of the stream. -/
def stream (seed : UInt32) (sectors : Nat) : Bytes :=
  (List.range sectors).flatMap (streamSector seed)

theorem length_stream (seed : UInt32) (sectors : Nat) :
    (stream seed sectors).length = sectors * SECTOR_LEN :=
  Chunks.length_flatMap_range fun i _ => length_streamSector seed i

section Sectors

variable {seed : UInt32} {count skipHead keepTail first : Nat}

/-- A sector as a batch has it. -/
def trimmed (seed : UInt32) (first count skipHead keepTail i : Nat) : Bytes :=
  let a := if i = 0 then skipHead else 0
  let b := if i = count - 1 then keepTail else SECTOR_LEN
  slice (streamSector seed (first + i)) a (b - a)

theorem fillBatch_eq (batch index : Nat) :
    fillBatch count skipHead keepTail batch index
        ((Prng.new seed 0).advance ((first + index) * WORDS_PER_SECTOR)) =
      ((List.range batch).flatMap fun j => trimmed seed first count skipHead keepTail (index + j),
        (Prng.new seed 0).advance ((first + (index + batch)) * WORDS_PER_SECTOR)) := by
  induction batch generalizing index with
  | zero => rfl
  | succ batch ih =>
    have hnext : ((Prng.new seed 0).advance ((first + index) * WORDS_PER_SECTOR)).advance
        WORDS_PER_SECTOR =
        (Prng.new seed 0).advance ((first + (index + 1)) * WORDS_PER_SECTOR) := by
      rw [← Prng.advance_add, ← Nat.succ_mul]
      rfl
    rw [fillBatch, hnext, ih (index + 1), Nat.add_comm batch 1, Chunks.flatMap_range_add]
    simp only [List.range_one, List.flatMap_singleton, Nat.add_zero, Nat.add_assoc, trimmed,
      streamSector]

/-- The batches are the sectors in order. -/
theorem run_writeLoop {fuel remaining index : Nat} (hfuel : remaining < fuel) {written : Bytes} :
    collect ((writeLoop count skipHead keepTail fuel remaining index
        ((Prng.new seed 0).advance ((first + index) * WORDS_PER_SECTOR))).run maxRead
        (Xf.fillPorts written)) =
      some (written ++ (List.range remaining).flatMap fun j =>
        trimmed seed first count skipHead keepTail (index + j)) := by
  induction fuel generalizing remaining index written with
  | zero => omega
  | succ fuel ih =>
    rw [writeLoop]
    by_cases hzero : remaining = 0
    · rw [if_pos hzero, hzero, List.range_zero, List.flatMap_nil, List.append_nil]
      exact Xf.collect_done_fillPorts written
    · obtain ⟨rest, hrest⟩ :=
        Nat.exists_eq_add_of_le (Nat.min_le_left remaining SECTORS_PER_WRITE)
      have hleft : remaining - min remaining SECTORS_PER_WRITE = rest := by omega
      have hsmaller : rest < fuel := by
        simp only [SECTORS_PER_WRITE] at hrest
        omega
      have hsplit := Chunks.flatMap_range_add (min remaining SECTORS_PER_WRITE) rest fun j =>
        trimmed seed first count skipHead keepTail (index + j)
      rw [← hrest] at hsplit
      rw [if_neg hzero]
      simp only [fillBatch_eq, hleft]
      rw [Xf.run_write_fillPorts, ih hsmaller, hsplit, List.append_assoc]
      simp only [Nat.add_assoc]

/-- A sector of a window has what the window has of it. -/
theorem trimmed_eq_part {start stop j : Nat} (hwindow : start < stop)
    (hj : j < (stop - 1) / SECTOR_LEN - start / SECTOR_LEN + 1) :
    trimmed seed (start / SECTOR_LEN) ((stop - 1) / SECTOR_LEN - start / SECTOR_LEN + 1)
        (start - start / SECTOR_LEN * SECTOR_LEN)
        (stop - (stop - 1) / SECTOR_LEN * SECTOR_LEN) j =
      Chunks.part (streamSector seed (start / SECTOR_LEN + j))
        ((start / SECTOR_LEN + j) * SECTOR_LEN) start stop := by
  have hlen := length_streamSector seed (start / SECTOR_LEN + j)
  have hle : start / SECTOR_LEN ≤ (stop - 1) / SECTOR_LEN := Nat.div_le_div_right (by omega)
  have hhead : (if j = 0 then start - start / SECTOR_LEN * SECTOR_LEN else 0) =
      start - (start / SECTOR_LEN + j) * SECTOR_LEN := by
    simp only [SECTOR_LEN] at hj hle ⊢
    split_ifs with hzero
    · rw [hzero, Nat.add_zero]
    · omega
  have htail : min (if j = (stop - 1) / SECTOR_LEN - start / SECTOR_LEN + 1 - 1 then
      stop - (stop - 1) / SECTOR_LEN * SECTOR_LEN else SECTOR_LEN) SECTOR_LEN =
      min (stop - (start / SECTOR_LEN + j) * SECTOR_LEN) SECTOR_LEN := by
    simp only [SECTOR_LEN] at hj hle ⊢
    split_ifs with hlast
    · have hindex : start / 2048 + j = (stop - 1) / 2048 := by omega
      rw [hindex]
    · omega
  simp only [trimmed, Chunks.part, hhead]
  rw [slice, slice, List.take_eq_take_iff, List.length_drop, hlen]
  omega

theorem run_writeSectors {sectors start stop : Nat} (hsectors : sectors < 2 ^ 32)
    (hwindow : start < stop) (hstop : stop ≤ sectors * SECTOR_LEN) :
    collect ((writeSectors seed (start / SECTOR_LEN)
        ((stop - 1) / SECTOR_LEN - start / SECTOR_LEN + 1)
        (start - start / SECTOR_LEN * SECTOR_LEN)
        (stop - (stop - 1) / SECTOR_LEN * SECTOR_LEN)).run maxRead (Xf.fillPorts [])) =
      some (slice (stream seed sectors) start (stop - start)) := by
  have hfirst : start / SECTOR_LEN < 2 ^ 32 := by
    simp only [SECTOR_LEN] at hstop ⊢
    omega
  have hposition : Prng.new seed (.ofNat (start / SECTOR_LEN)) =
      (Prng.new seed 0).advance ((start / SECTOR_LEN + 0) * WORDS_PER_SECTOR) := by
    rw [Prng.new_eq_advance, UInt32.toNat_ofNat_of_lt' hfirst, Nat.add_zero]
  rw [writeSectors, if_neg (Nat.not_le_of_lt hfirst), hposition,
    run_writeLoop (Nat.lt_succ_self _), List.nil_append, stream,
    ← Chunks.flatMap_part_touched (fun i _ => length_streamSector seed i) hwindow hstop]
  refine congrArg some (List.flatMap_congr fun j hj => ?_)
  rw [Nat.zero_add]
  exact trimmed_eq_part hwindow (List.mem_range.mp hj)

end Sectors

/-! ## The two operations -/

variable {params : Bytes} {p : Params}

theorem filled_eq (hparams : Params.decode params = .ok p) (hsome : p.sectors ≠ 0) :
    filled params = some (stream p.seed p.sectors.toNat) := by
  obtain ⟨hrange, -⟩ := Params.decode_eq_ok.mp hparams
  have hpos : 0 < p.sectors.toNat := by
    rw [Nat.pos_iff_ne_zero]
    exact fun hzero => hsome (UInt64.toNat_inj.mp hzero)
  have hwhole := @run_writeSectors p.seed p.sectors.toNat 0 (p.sectors.toNat * SECTOR_LEN) hrange
    (Nat.mul_pos hpos (by decide)) (Nat.le_refl _)
  have hlast : (p.sectors.toNat * SECTOR_LEN - 1) / SECTOR_LEN = p.sectors.toNat - 1 := by
    simp only [SECTOR_LEN]
    omega
  have htail : p.sectors.toNat * SECTOR_LEN - (p.sectors.toNat - 1) * SECTOR_LEN = SECTOR_LEN := by
    simp only [SECTOR_LEN]
    omega
  rw [Nat.zero_div, hlast, Nat.sub_zero, Nat.sub_add_cancel hpos, htail, Nat.zero_mul,
    Nat.sub_zero, Nat.sub_zero, ← length_stream p.seed, Reader.slice_zero_length] at hwhole
  simp only [filled, run, Xf.runFill, Xf.fillParams, hparams, runParams, if_neg hsome,
    ne_eq, not_true_eq_false, if_false]
  exact hwhole

theorem served_eq (hparams : Params.decode params = .ok p) (offset len : UInt64) :
    served params offset len =
      some (slice (stream p.seed p.sectors.toNat) offset.toNat len.toNat) := by
  obtain ⟨hrange, -⟩ := Params.decode_eq_ok.mp hparams
  have hrange : p.sectors.toNat < 2 ^ 32 := hrange
  have hlen := length_stream p.seed p.sectors.toNat
  have hslice := @Xf.slice_window (stream p.seed p.sectors.toNat) (by
    rw [hlen]
    simp only [SECTOR_LEN]
    omega) offset len
  rw [hlen] at hslice
  have hle := Xf.window_le offset len (p.sectors.toNat * SECTOR_LEN)
  simp only [served, serveRange, Xf.serveFill, Xf.fillParams, hparams, serveParams,
    ne_eq, not_true_eq_false, if_false]
  rw [← hslice]
  generalize Xf.window offset len (p.sectors.toNat * SECTOR_LEN) = bounds at hle ⊢
  split_ifs with hempty
  · have hnone : bounds.2 - bounds.1 = 0 := Nat.sub_eq_zero_of_le hempty
    rw [hnone, Reader.slice_zero_right]
    exact Xf.collect_done_fillPorts []
  · exact run_writeSectors hrange (Nat.lt_of_not_le hempty) hle

/-- The field is exact, positioning the generator is running it, and so a window of a filler
stream is served as the slice of the stream that it asks for. -/
theorem jumpAhead_exact :
    Fp.Exact ∧
    (∀ seed n : UInt32, Prng.new seed n = (Prng.new seed 0).advance (n.toNat * 1024)) ∧
    ∀ params p, Params.decode params = .ok p →
      (p.sectors ≠ 0 → (filled params).isSome) ∧
      ∀ out, filled params = some out → ∀ offset len,
        served params offset len = some (slice out offset.toNat len.toNat) := by
  refine ⟨Fp.exact, Prng.new_eq_advance, fun params p hparams => ⟨fun hsome => ?_, ?_⟩⟩
  · rw [filled_eq hparams hsome]
    rfl
  · intro out hout offset len
    by_cases hzero : p.sectors = 0
    · -- Without sectors the run refuses.
      have hrefused : filled params = none := by
        simp only [filled, run, Xf.runFill, Xf.fillParams, hparams, runParams, if_pos hzero,
          ne_eq, not_true_eq_false, if_false]
        rfl
      rw [hrefused] at hout
      cases hout
    · rw [filled_eq hparams hzero, Option.some.injEq] at hout
      rw [served_eq hparams, hout]

theorem jumpAhead_exact_two : ∃ out, filled (Params.encode ⟨5, 2⟩) = some out ∧
    served (Params.encode ⟨5, 2⟩) 2047 2 = some (slice out 2047 2) := by
  obtain ⟨hsome, hserved⟩ := jumpAhead_exact.2.2 (Params.encode ⟨5, 2⟩) ⟨5, 2⟩
    (Params.decode_eq_ok.mpr ⟨show (2 : UInt64).toNat < 2 ^ 32 by decide, rfl⟩)
  obtain ⟨out, hout⟩ := Option.isSome_iff_exists.mp (hsome (by decide))
  exact ⟨out, hout, hserved out hout 2047 2⟩

end Datboi.Xgd1
