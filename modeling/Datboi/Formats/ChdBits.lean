import Datboi.Core.Object
import Datboi.Lib.Bits

/-!
# Bits of compressed discs

The reader holds a window of at most 32 bits that it refills by whole bytes, and it reads zeros
behind the end. The window is exact as long as no field reaches over the 32 bits that begin with
the byte in which the field begins.
-/

namespace Datboi

namespace Chd

open Bits (number)

/-! ## The reader -/

/-- The top `bits` bits of the buffer are live. -/
structure BitReader where
  data : Bytes
  pos : Nat
  buffer : Nat
  bits : Nat
  deriving DecidableEq, Repr

namespace BitReader

def new (data : Bytes) : BitReader := { data, pos := 0, buffer := 0, bits := 0 }

def bytePosition (r : BitReader) : Nat := r.pos - r.bits / 8

def overflowed (r : BitReader) : Bool := r.data.length < r.bytePosition

/-- The loop of a refill. From any state, four rounds fill the window. -/
def refill : Nat → BitReader → BitReader
  | 0, r => r
  | rounds + 1, r =>
    if r.bits ≤ 24 then
      refill rounds
        { r with
          buffer :=
            if r.pos < r.data.length then
              r.buffer ||| (r.data.getD r.pos 0).toNat <<< (24 - r.bits)
            else r.buffer
          pos := r.pos + 1
          bits := r.bits + 8 }
    else r

def peek (r : BitReader) (numbits : Nat) : Nat × BitReader :=
  if numbits = 0 then (0, r)
  else
    let r := if r.bits < numbits then r.refill 4 else r
    (r.buffer >>> (32 - numbits), r)

def remove (r : BitReader) (numbits : Nat) : BitReader :=
  { r with
    buffer := if 32 ≤ numbits then 0 else (r.buffer <<< numbits) % 2 ^ 32
    bits := r.bits - numbits }

def read (r : BitReader) (numbits : Nat) : Nat × BitReader :=
  let (v, r) := r.peek numbits
  (v, r.remove numbits)

/-- The rest of the count, which may grow by `left`. -/
def unaryFrom : Nat → Nat → BitReader → Option Nat × BitReader
  | left, n, r =>
    let (bit, r) := r.read 1
    if bit ≠ 0 then (some n, r)
    else
      match left with
      | 0 => (none, r)
      | left + 1 => if r.overflowed then (none, r) else unaryFrom left (n + 1) r

def readUnary (r : BitReader) (limit : Nat) : Option Nat × BitReader := unaryFrom limit 0 r

def alignToByte (r : BitReader) : BitReader := r.remove (r.bits % 8)

/-! ## What the window holds -/

/-- The live bits are those that follow a position. -/
structure Holds (r : BitReader) (start : Nat) : Prop where
  hbits : r.bits ≤ 32
  hpos : start + r.bits = 8 * r.pos
  hbuffer : r.buffer = number r.data start r.bits * 2 ^ (32 - r.bits)

/-- How many bits a full window has. -/
def window (start : Nat) : Nat := 32 - start % 8

variable {r : BitReader} {start n : Nat}

theorem holds_new (data : Bytes) : (new data).Holds 0 where
  hbits := Nat.zero_le _
  hpos := rfl
  hbuffer := (Nat.zero_mul _).symm

theorem Holds.bits_le_window (h : r.Holds start) : r.bits ≤ window start := by
  have hbits := h.hbits
  have hpos := h.hpos
  unfold window
  omega

theorem Holds.bytePosition (h : r.Holds start) : r.bytePosition = (start + 7) / 8 := by
  have hpos := h.hpos
  unfold BitReader.bytePosition
  omega

theorem Holds.overflowed (h : r.Holds start) :
    r.overflowed = true ↔ 8 * r.data.length < start := by
  rw [BitReader.overflowed, decide_eq_true_iff, h.bytePosition]
  omega

/-- Under the live bits there is room for a byte. -/
theorem or_byte {live byte bits : Nat} (hbits : bits ≤ 24) (hbyte : byte < 2 ^ 8) :
    live * 2 ^ (32 - bits) ||| byte <<< (24 - bits) =
      (live * 2 ^ 8 + byte) * 2 ^ (32 - (bits + 8)) := by
  have hlow : byte <<< (24 - bits) < 2 ^ (32 - bits) := by
    rw [Nat.shiftLeft_eq, show 32 - bits = 8 + (24 - bits) by omega, Nat.pow_add]
    exact Nat.mul_lt_mul_of_pos_right hbyte (Nat.two_pow_pos _)
  rw [Nat.mul_comm live, ← Nat.two_pow_add_eq_or_of_lt hlow, Nat.shiftLeft_eq,
    show 32 - bits = 8 + (24 - bits) by omega, show 32 - (bits + 8) = 24 - bits by omega,
    Nat.pow_add]
  ring

/-- Pulling a byte in keeps what the window holds. -/
theorem Holds.pull (h : r.Holds start) (hroom : r.bits ≤ 24) :
    Holds
      { r with
        buffer :=
          if r.pos < r.data.length then
            r.buffer ||| (r.data.getD r.pos 0).toNat <<< (24 - r.bits)
          else r.buffer
        pos := r.pos + 1
        bits := r.bits + 8 } start where
  hbits := by
    have hbits : r.bits + 8 ≤ 32 := by omega
    exact hbits
  hpos := by
    have hpos : start + (r.bits + 8) = 8 * (r.pos + 1) := by
      rw [← Nat.add_assoc, h.hpos]
      ring
    exact hpos
  hbuffer := by
    have hnumber : number r.data start (r.bits + 8) =
        number r.data start r.bits * 2 ^ 8 + (r.data.getD r.pos 0).toNat := by
      rw [Bits.number_add, h.hpos, Bits.number_byte]
      rfl
    have hor := @or_byte (number r.data start r.bits) _ _ hroom
      (UInt8.toNat_lt (r.data.getD r.pos 0))
    simp only [hnumber, ← hor, ← h.hbuffer]
    split
    · rfl
    · rename_i hpast
      have hzero : r.data.getD r.pos 0 = 0 := List.getD_eq_default _ _ (by omega)
      rw [hzero]
      simp

theorem Holds.refill (h : r.Holds start) (rounds : Nat) : (r.refill rounds).Holds start := by
  induction rounds generalizing r with
  | zero => exact h
  | succ rounds ih =>
    unfold BitReader.refill
    split
    · rename_i hroom
      exact ih (h.pull hroom)
    · exact h

@[simp] theorem refill_data (r : BitReader) (rounds : Nat) : (r.refill rounds).data = r.data := by
  induction rounds generalizing r with
  | zero => rfl
  | succ rounds ih =>
    unfold BitReader.refill
    split
    · rw [ih]
    · rfl

theorem refill_full (r : BitReader) (rounds : Nat) (hrounds : 24 < r.bits + 8 * rounds) :
    24 < (r.refill rounds).bits := by
  induction rounds generalizing r with
  | zero => exact hrounds
  | succ rounds ih =>
    unfold BitReader.refill
    split
    · exact ih _ (by
        have hmore : 24 < r.bits + 8 + 8 * rounds := by omega
        exact hmore)
    · omega

theorem Holds.refill_bits (h : r.Holds start) : (r.refill 4).bits = window start := by
  have hle := (h.refill 4).hbits
  have hpos := (h.refill 4).hpos
  have hfull := refill_full r 4 (by omega)
  unfold window
  omega

/-- What a peek leaves in the window. -/
theorem Holds.peek (h : r.Holds start) (n : Nat) :
    (r.peek n).2.Holds start ∧ (r.peek n).2.data = r.data ∧
      (n ≤ (r.peek n).2.bits ∨ window start < n ∧ (r.peek n).2.bits = window start) := by
  unfold BitReader.peek
  split
  · rename_i hzero
    exact ⟨h, rfl, Or.inl (by omega)⟩
  · simp only
    split
    · refine ⟨h.refill 4, refill_data r 4, ?_⟩
      rw [h.refill_bits]
      omega
    · exact ⟨h, rfl, Or.inl (by omega)⟩

/-- The value is cut at the end of the window. -/
theorem Holds.peek_value (h : r.Holds start) (hn : n ≤ 32) :
    (r.peek n).1 =
      number r.data start (min n (r.peek n).2.bits) * 2 ^ (n - (r.peek n).2.bits) := by
  by_cases hzero : n = 0
  · simp [BitReader.peek, hzero]
  · obtain ⟨hheld, hdata, -⟩ := h.peek n
    have hvalue : (r.peek n).1 = (r.peek n).2.buffer >>> (32 - n) := by
      rw [BitReader.peek, if_neg hzero]
    have hbits := hheld.hbits
    rw [hvalue, hheld.hbuffer, hdata, Nat.shiftRight_eq_div_pow]
    generalize (r.peek n).2.bits = live at hbits
    by_cases hin : n ≤ live
    · obtain ⟨more, rfl⟩ := Nat.exists_eq_add_of_le hin
      rw [Nat.min_eq_left hin, show 32 - n = 32 - (n + more) + more by omega, Nat.pow_add,
        ← Nat.div_div_eq_div_mul, Nat.mul_div_cancel _ (Nat.two_pow_pos _), Bits.number_div,
        Nat.sub_eq_zero_of_le hin, Nat.pow_zero, Nat.mul_one]
    · rw [Nat.min_eq_right (by omega), show 32 - live = (n - live) + (32 - n) by omega,
        Nat.pow_add, ← Nat.mul_assoc, Nat.mul_div_cancel _ (Nat.two_pow_pos _)]

/-- Removing bits that are in the window. -/
theorem Holds.remove (h : r.Holds start) (hn : n ≤ r.bits) : (r.remove n).Holds (start + n) where
  hbits := (Nat.sub_le _ _).trans h.hbits
  hpos := by
    have hpos := h.hpos
    have hlive : start + n + (r.bits - n) = 8 * r.pos := by omega
    exact hlive
  hbuffer := by
    have hbits := h.hbits
    obtain ⟨more, hmore⟩ := Nat.exists_eq_add_of_le hn
    have hmod : number r.data start r.bits % 2 ^ more = number r.data (start + n) more := by
      rw [hmore, Bits.number_mod]
    have hleft : (r.remove n).buffer = (r.buffer * 2 ^ n) % 2 ^ 32 := by
      unfold BitReader.remove
      simp only
      split
      · have hfull : n = 32 := by omega
        rw [hfull, Nat.mul_mod_left]
      · rw [Nat.shiftLeft_eq]
    have hsub : (r.remove n).bits = more := by
      have hsub : r.bits - n = more := by omega
      exact hsub
    have hpow : (2 : Nat) ^ 32 = 2 ^ more * 2 ^ (32 - more) := by
      rw [← Nat.pow_add]
      congr 1
      omega
    rw [hleft, hsub, h.hbuffer, Nat.mul_assoc, ← Nat.pow_add,
      show 32 - r.bits + n = 32 - more by omega, hpow, Nat.mul_mod_mul_right, hmod]
    rfl

/-- Whatever is removed, live bits remain live. -/
theorem Holds.remove_min (h : r.Holds start) (n : Nat) :
    (r.remove n).Holds (start + min n r.bits) := by
  by_cases hin : n ≤ r.bits
  · rw [Nat.min_eq_left hin]
    exact h.remove hin
  · rw [Nat.min_eq_right (by omega)]
    have hbits := h.hbits
    have hpos := h.hpos
    have hnone : (r.remove n).bits = 0 := by
      have hsub : r.bits - n = 0 := by omega
      exact hsub
    have hempty : (r.remove n).buffer = 0 := by
      unfold BitReader.remove
      simp only
      split
      · rfl
      · rw [h.hbuffer, Nat.shiftLeft_eq, Nat.mul_assoc, ← Nat.pow_add,
          show 32 - r.bits + n = (n - r.bits) + 32 by omega, Nat.pow_add, ← Nat.mul_assoc,
          Nat.mul_mod_left]
    exact
      { hbits := by
          rw [hnone]
          exact Nat.zero_le _
        hpos := by
          rw [hnone]
          exact hpos
        hbuffer := by rw [hnone, hempty, Bits.number_zero, Nat.zero_mul] }

/-- The window holds the bits from some position on. -/
def Live (r : BitReader) : Prop := ∃ start, r.Holds start

theorem Live.remove (h : r.Live) (n : Nat) : (r.remove n).Live := by
  obtain ⟨start, hheld⟩ := h
  exact ⟨_, hheld.remove_min n⟩

theorem Live.peek (h : r.Live) (hn : n ≤ 32) : (r.peek n).1 < 2 ^ n ∧ (r.peek n).2.Live := by
  obtain ⟨start, hheld⟩ := h
  refine ⟨?_, start, (hheld.peek n).1⟩
  rw [hheld.peek_value hn]
  have hlt := Bits.number_lt r.data start (min n (r.peek n).2.bits)
  have hpow : 2 ^ min n (r.peek n).2.bits * 2 ^ (n - (r.peek n).2.bits) = 2 ^ n := by
    rw [← Nat.pow_add]
    congr 1
    omega
  rw [← hpow]
  exact Nat.mul_lt_mul_of_pos_right hlt (Nat.two_pow_pos _)

theorem Live.read (h : r.Live) (hn : n ≤ 32) : (r.read n).1 < 2 ^ n ∧ (r.read n).2.Live :=
  ⟨(h.peek hn).1, (h.peek hn).2.remove n⟩

/-- Removing more empties the window, and the rest is not counted. -/
theorem Holds.remove_past (h : r.Holds start) (hn : r.bits < n) :
    (r.remove n).bytePosition = (start + r.bits + 7) / 8 := by
  have hpos := h.hpos
  have hbits : (r.remove n).bits = 0 := by
    have hsub : r.bits - n = 0 := by omega
    exact hsub
  have hsame : (r.remove n).pos = r.pos := rfl
  rw [BitReader.bytePosition, hbits, hsame]
  omega

@[simp] theorem peek_data (r : BitReader) (n : Nat) : (r.peek n).2.data = r.data := by
  unfold BitReader.peek
  split
  · rfl
  · simp only
    split
    · exact refill_data r 4
    · rfl

@[simp] theorem read_data (r : BitReader) (n : Nat) : (r.read n).2.data = r.data := peek_data r n

/-- A field within the window is read exactly. -/
theorem Holds.read (h : r.Holds start) (hn : start % 8 + n ≤ 32) :
    (r.read n).1 = number r.data start n ∧ (r.read n).2.Holds (start + n) := by
  obtain ⟨hheld, -, hfits⟩ := h.peek n
  have hin : n ≤ (r.peek n).2.bits := by
    unfold window at hfits
    omega
  refine ⟨?_, hheld.remove hin⟩
  have hvalue := h.peek_value (n := n) (by omega)
  rw [Nat.min_eq_left hin, Nat.sub_eq_zero_of_le hin, Nat.pow_zero, Nat.mul_one] at hvalue
  exact hvalue

/-- Over the end of the window, the low bits are lost. -/
theorem Holds.peek_cut (h : r.Holds start) (hwidth : n ≤ 32) (hn : 32 < start % 8 + n) :
    (r.peek n).1 = number r.data start (window start) * 2 ^ (n - window start) := by
  obtain ⟨hheld, -, hfits⟩ := h.peek n
  have hle := hheld.bits_le_window
  have hvalue := h.peek_value hwidth
  have hbits : (r.peek n).2.bits = window start := by
    unfold window at hle hfits ⊢
    omega
  rw [hvalue, hbits, Nat.min_eq_right (by unfold window; omega)]

/-! ## Sequences of calls -/

inductive Call where
  | peek (numbits : Nat)
  | remove (numbits : Nat)
  | read (numbits : Nat)
  deriving DecidableEq, Repr

namespace Call

def width : Call → Nat
  | peek n | remove n | read n => n

/-- How far the call moves in the data. -/
def consumes : Call → Nat
  | peek _ => 0
  | remove n | read n => n

/-- What the call returns, if anything, and the reader after it. -/
def run : Call → BitReader → Option Nat × BitReader
  | peek n, r => ((r.peek n).1, (r.peek n).2)
  | remove n, r => (none, r.remove n)
  | read n, r => ((r.read n).1, (r.read n).2)

/-- What is promised of a call at a position. -/
structure Right (call : Call) (data : Bytes) (start : Nat) (out : Option Nat × BitReader) :
    Prop where
  value : ∀ v ∈ out.1, v = number data start call.width
  position : out.2.bytePosition = (start + call.consumes + 7) / 8
  overflow : out.2.overflowed = true ↔ 8 * data.length < start + call.consumes

/-- A read ends within the window, a removal takes live bits only, and what a peek cannot see
is zero. -/
def Fits (call : Call) (r : BitReader) (start : Nat) : Prop :=
  match call with
  | read n => start % 8 + n ≤ 32
  | remove n => n ≤ r.bits
  | peek n => start % 8 + n ≤ 32 ∨ number r.data (start + window start) (n - window start) = 0

@[simp] theorem run_data (call : Call) (r : BitReader) : (call.run r).2.data = r.data := by
  cases call with
  | peek n => exact peek_data r n
  | remove n => rfl
  | read n => exact read_data r n

theorem Right.of_holds {call : Call} {r' : BitReader} {v : Option Nat}
    (h : r'.Holds (start + call.consumes)) (hdata : r'.data = r.data)
    (hvalue : ∀ w ∈ v, w = number r.data start call.width) : call.Right r.data start (v, r') where
  value := hvalue
  position := h.bytePosition
  overflow := by
    rw [← hdata]
    exact h.overflowed

variable {call : Call}

/-- The only step that matters: a call is right exactly if it fits, and then the window holds
what comes next. -/
theorem right_iff (h : r.Holds start) (hwidth : call.width ≤ 32) :
    (call.Right r.data start (call.run r) ↔ call.Fits r start) ∧
      (call.Fits r start → (call.run r).2.Holds (start + call.consumes)) := by
  cases call with
  | peek n =>
    have hle : n ≤ 32 := hwidth
    obtain ⟨hheld, hdata, -⟩ := h.peek n
    refine ⟨⟨fun hright => ?_, fun hfits => ?_⟩, fun _ => hheld⟩
    · by_cases hin : start % 8 + n ≤ 32
      · exact Or.inl hin
      · have hvalue := (hright.value _ rfl).symm
        have hsplit := Bits.number_add r.data start (window start) (n - window start)
        rw [h.peek_cut hle (by omega)] at hvalue
        rw [show window start + (n - window start) = n by unfold window; omega] at hsplit
        rw [← hvalue] at hsplit
        exact Or.inr (Nat.left_eq_add.mp hsplit)
    · refine Right.of_holds hheld hdata ?_
      intro v hv
      obtain rfl : (r.peek n).1 = v := Option.some.inj hv
      by_cases hin : start % 8 + n ≤ 32
      · exact (h.read hin).1
      · have hzero := hfits.resolve_left hin
        have hsplit := Bits.number_add r.data start (window start) (n - window start)
        rw [show window start + (n - window start) = n by unfold window; omega] at hsplit
        rw [h.peek_cut hle (by omega)]
        have hsame : number r.data start n =
            number r.data start (window start) * 2 ^ (n - window start) := by omega
        exact hsame.symm
  | remove n =>
    refine ⟨⟨fun hright => ?_, fun hfits => ?_⟩, fun hfits => h.remove hfits⟩
    · by_contra hout
      have hpast : r.bits < n := Nat.lt_of_not_le hout
      have hposition : (r.remove n).bytePosition = (start + n + 7) / 8 := hright.position
      have hpos := h.hpos
      rw [h.remove_past hpast] at hposition
      omega
    · exact Right.of_holds (h.remove hfits) rfl (fun v hv => by cases hv)
  | read n =>
    refine ⟨⟨fun hright => ?_, fun hfits => ?_⟩, fun hfits => (h.read hfits).2⟩
    · by_contra hout
      have hover : 32 < start % 8 + n := Nat.lt_of_not_le hout
      obtain ⟨hheld, -, hwindow⟩ := h.peek n
      have hle := hheld.bits_le_window
      have hbits : (r.peek n).2.bits = window start := by
        unfold window at hle hwindow ⊢
        omega
      have hposition : ((r.peek n).2.remove n).bytePosition = (start + n + 7) / 8 :=
        hright.position
      rw [hheld.remove_past (by rw [hbits]; unfold window; omega), hbits] at hposition
      unfold window at hposition
      omega
    · refine Right.of_holds (h.read hfits).2 (read_data r n) ?_
      intro v hv
      obtain rfl : (r.read n).1 = v := Option.some.inj hv
      exact (h.read hfits).1

end Call

/-- Every call of a sequence is right. -/
def Exact (data : Bytes) : BitReader → Nat → List Call → Prop
  | _, _, [] => True
  | r, start, call :: calls =>
    call.Right data start (call.run r) ∧ Exact data (call.run r).2 (start + call.consumes) calls

/-- Every call of a sequence fits. -/
def AllFit : BitReader → Nat → List Call → Prop
  | _, _, [] => True
  | r, start, call :: calls =>
    call.Fits r start ∧ AllFit (call.run r).2 (start + call.consumes) calls

theorem exact_iff_allFit {calls : List Call} (h : r.Holds start)
    (hwidth : ∀ call ∈ calls, call.width ≤ 32) :
    Exact r.data r start calls ↔ AllFit r start calls := by
  induction calls generalizing r start with
  | nil => exact Iff.rfl
  | cons call calls ih =>
    obtain ⟨hiff, hnext⟩ := Call.right_iff h (hwidth call List.mem_cons_self)
    rw [Exact, AllFit, hiff]
    refine and_congr_right fun hfits => ?_
    have hrest := ih (hnext hfits) (fun c hc => hwidth c (List.mem_cons_of_mem _ hc))
    rw [Call.run_data] at hrest
    exact hrest

end BitReader

/-! ## The writer -/

structure BitWriter where
  out : Bytes
  acc : Nat
  bits : Nat
  deriving DecidableEq, Repr

namespace BitWriter

def new : BitWriter := { out := [], acc := 0, bits := 0 }

/-- One round of the loop of a write. -/
def writeBit (w : BitWriter) (bit : Nat) : BitWriter :=
  let acc := (w.acc <<< 1) ||| bit
  if w.bits + 1 = 8 then { out := w.out ++ [UInt8.ofNat (acc &&& 0xFF)], acc := 0, bits := 0 }
  else { w with acc, bits := w.bits + 1 }

def write (w : BitWriter) (value : Nat) : Nat → BitWriter
  | 0 => w
  | i + 1 => (w.writeBit ((value >>> i) &&& 1)).write value i

def alignToByte (w : BitWriter) : BitWriter := if 0 < w.bits then w.write 0 (8 - w.bits) else w

def finish (w : BitWriter) : Bytes := w.alignToByte.out

/-- The writer has written `n` bits, which make the number `v`. -/
structure Wrote (w : BitWriter) (n v : Nat) : Prop where
  hbits : w.bits < 8
  hlength : 8 * w.out.length + w.bits = n
  hacc : w.acc < 2 ^ w.bits
  hvalue : number w.out 0 (8 * w.out.length) * 2 ^ w.bits + w.acc = v

variable {w : BitWriter} {n v : Nat}

theorem wrote_new : new.Wrote 0 0 where
  hbits := by decide
  hlength := rfl
  hacc := by decide
  hvalue := rfl

theorem number_push (out : Bytes) (b : UInt8) :
    number (out ++ [b]) 0 (8 * (out ++ [b]).length) =
      number out 0 (8 * out.length) * 2 ^ 8 + b.toNat := by
  have hlast : Bits.byteAt (out ++ [b]) out.length = b.toNat := by
    rw [Bits.byteAt, List.getD_append_right _ _ _ _ (Nat.le_refl _), Nat.sub_self]
    rfl
  rw [List.length_append, List.length_singleton, Nat.mul_add, Bits.number_add,
    Bits.number_append out [b] (by omega), Nat.zero_add, Bits.number_byte, hlast]

theorem Wrote.writeBit (h : w.Wrote n v) {bit : Nat} (hbit : bit < 2) :
    (w.writeBit bit).Wrote (n + 1) (v * 2 + bit) := by
  have hbits := h.hbits
  have hacc := h.hacc
  have hor : (w.acc <<< 1) ||| bit = w.acc * 2 + bit := by
    have hadd := Nat.two_pow_add_eq_or_of_lt (i := 1) hbit w.acc
    rw [Nat.shiftLeft_eq, Nat.mul_comm, ← hadd]
  have hlt : w.acc * 2 + bit < 2 ^ (w.bits + 1) := by
    rw [Nat.pow_succ]
    omega
  have hlength := h.hlength
  have hvalue := h.hvalue
  unfold BitWriter.writeBit
  rw [hor]
  simp only
  split
  · rename_i hfull
    have hbyte : w.acc * 2 + bit < 2 ^ 8 := by rw [← hfull]; exact hlt
    have hmask : (w.acc * 2 + bit) &&& 0xFF = w.acc * 2 + bit := by
      rw [show (0xFF : Nat) = 2 ^ 8 - 1 by rfl, Nat.and_two_pow_sub_one_eq_mod,
        Nat.mod_eq_of_lt hbyte]
    refine
      { hbits := Nat.zero_lt_succ 7
        hlength := ?_
        hacc := Nat.zero_lt_one
        hvalue := ?_ }
    · simp only [List.length_append, List.length_singleton]
      omega
    · rw [number_push, hmask, UInt8.toNat_ofNat', Nat.mod_eq_of_lt hbyte, ← hvalue]
      have hseven : w.bits = 7 := by omega
      rw [hseven]
      ring
  · refine
      { hbits := ?_
        hlength := ?_
        hacc := hlt
        hvalue := ?_ }
    · have hroom : w.bits + 1 < 8 := by omega
      exact hroom
    · have hmore : 8 * w.out.length + (w.bits + 1) = n + 1 := by omega
      exact hmore
    · rw [Nat.pow_succ, ← hvalue]
      ring

theorem Wrote.write (h : w.Wrote n v) (value k : Nat) :
    (w.write value k).Wrote (n + k) (v * 2 ^ k + value % 2 ^ k) := by
  induction k generalizing w n v with
  | zero =>
    rw [Nat.pow_zero, Nat.mod_one, Nat.mul_one]
    exact h
  | succ k ih =>
    have hbit : (value >>> k) &&& 1 = value / 2 ^ k % 2 := by
      rw [Nat.and_one_is_mod, Nat.shiftRight_eq_div_pow]
    have hlow : (value >>> k) &&& 1 < 2 := by
      rw [hbit]
      exact Nat.mod_lt _ (by decide)
    have hstep := h.writeBit hlow
    have hrest := ih hstep
    have hmod : value % 2 ^ (k + 1) = 2 ^ k * (value / 2 ^ k % 2) + value % 2 ^ k := by
      rw [Nat.pow_succ, Nat.mod_mul, Nat.add_comm]
    have hvalue : (v * 2 + ((value >>> k) &&& 1)) * 2 ^ k + value % 2 ^ k =
        v * 2 ^ (k + 1) + value % 2 ^ (k + 1) := by
      rw [hmod, hbit, Nat.pow_succ]
      ring
    rw [hvalue, Nat.add_assoc n 1 k, Nat.add_comm 1 k] at hrest
    exact hrest

/-- The finished bytes begin with what was written. -/
theorem Wrote.finish (h : w.Wrote n v) : number w.finish 0 n = v := by
  have haligned : ∃ m pad, w.alignToByte.Wrote (n + pad) (v * 2 ^ pad) ∧ n + pad = 8 * m := by
    have hbits := h.hbits
    have hlength := h.hlength
    unfold BitWriter.alignToByte
    split
    · have hwrite := h.write 0 (8 - w.bits)
      rw [Nat.zero_mod, Nat.add_zero] at hwrite
      exact ⟨w.out.length + 1, 8 - w.bits, hwrite, by omega⟩
    · rw [← Nat.mul_one v, ← Nat.pow_zero 2, ← Nat.add_zero n] at h
      exact ⟨w.out.length, 0, by simpa using h, by omega⟩
  obtain ⟨m, pad, hwrote, hwhole⟩ := haligned
  have hnone : w.alignToByte.bits = 0 := by
    have hbits := hwrote.hbits
    have hlength := hwrote.hlength
    omega
  have hacc := hwrote.hacc
  have hvalue := hwrote.hvalue
  have hlength := hwrote.hlength
  rw [hnone] at hacc hvalue hlength
  have hall : number w.finish 0 (n + pad) = v * 2 ^ pad + 0 := by
    rw [← hlength, ← hvalue, Nat.pow_zero, Nat.mul_one]
    have hzero : w.alignToByte.acc = 0 := Nat.lt_one_iff.mp hacc
    rw [hzero]
    rfl
  exact (Bits.number_split (Nat.two_pow_pos pad) hall).1

end BitWriter

/-! ## Fields written and read -/

/-- Each field is a value and its width. -/
def writeFields (w : BitWriter) : List (Nat × Nat) → BitWriter
  | [] => w
  | (value, width) :: fields => writeFields (w.write value width) fields

def readFields (r : BitReader) : List Nat → List Nat
  | [] => []
  | width :: widths => (r.read width).1 :: readFields (r.read width).2 widths

/-- Every list of values of these widths is read back as it was written. -/
def RoundTrips (widths : List Nat) : Prop :=
  ∀ fields : List (Nat × Nat), fields.map Prod.snd = widths →
    (∀ field ∈ fields, field.1 < 2 ^ field.2) →
      readFields (.new (writeFields .new fields).finish) widths = fields.map Prod.fst

/-- Every field ends within the window. -/
def WidthsFit : Nat → List Nat → Prop
  | _, [] => True
  | start, width :: widths => start % 8 + width ≤ 32 ∧ WidthsFit (start + width) widths

/-- The fields as one number. -/
def packed : List (Nat × Nat) → Nat
  | [] => 0
  | (value, _) :: fields => value * 2 ^ (fields.map Prod.snd).sum + packed fields

section Fields

open BitReader

variable {fields : List (Nat × Nat)} {r : BitReader} {start : Nat}

theorem packed_lt (hfields : ∀ field ∈ fields, field.1 < 2 ^ field.2) :
    packed fields < 2 ^ (fields.map Prod.snd).sum := by
  induction fields with
  | nil => exact Nat.zero_lt_one
  | cons field fields ih =>
    have hrest := ih (fun f hf => hfields f (List.mem_cons_of_mem _ hf))
    have hfirst := hfields field List.mem_cons_self
    rw [packed, List.map_cons, List.sum_cons, Nat.pow_add]
    calc field.1 * 2 ^ (fields.map Prod.snd).sum + packed fields
        < field.1 * 2 ^ (fields.map Prod.snd).sum + 2 ^ (fields.map Prod.snd).sum :=
          Nat.add_lt_add_left hrest _
      _ = (field.1 + 1) * 2 ^ (fields.map Prod.snd).sum := by ring
      _ ≤ 2 ^ field.2 * 2 ^ (fields.map Prod.snd).sum := Nat.mul_le_mul_right _ hfirst

theorem wrote_writeFields {w : BitWriter} {n v : Nat} (h : w.Wrote n v)
    (hfields : ∀ field ∈ fields, field.1 < 2 ^ field.2) :
    (writeFields w fields).Wrote (n + (fields.map Prod.snd).sum)
      (v * 2 ^ (fields.map Prod.snd).sum + packed fields) := by
  induction fields generalizing w n v with
  | nil =>
    rw [writeFields, packed, List.map_nil, List.sum_nil, Nat.pow_zero, Nat.mul_one]
    exact h
  | cons field fields ih =>
    have hrest := ih (h.write field.1 field.2) (fun f hf => hfields f (List.mem_cons_of_mem _ hf))
    rw [Nat.mod_eq_of_lt (hfields field List.mem_cons_self)] at hrest
    rw [writeFields, packed, List.map_cons, List.sum_cons, Nat.pow_add, ← Nat.add_assoc]
    convert hrest using 1
    ring

/-- The first field of a number of several. -/
theorem number_cons {data : Bytes} {field : Nat × Nat}
    (hfields : ∀ f ∈ fields, f.1 < 2 ^ f.2)
    (hnumber : number data start ((field :: fields).map Prod.snd).sum = packed (field :: fields)) :
    number data start field.2 = field.1 ∧
      number data (start + field.2) (fields.map Prod.snd).sum = packed fields := by
  rw [List.map_cons, List.sum_cons, packed] at hnumber
  exact Bits.number_split (packed_lt hfields) hnumber

theorem readFields_eq (h : r.Holds start) (hfields : ∀ field ∈ fields, field.1 < 2 ^ field.2)
    (hnumber : number r.data start (fields.map Prod.snd).sum = packed fields)
    (hfit : WidthsFit start (fields.map Prod.snd)) :
    readFields r (fields.map Prod.snd) = fields.map Prod.fst := by
  induction fields generalizing r start with
  | nil => rfl
  | cons field fields ih =>
    have hrest : ∀ f ∈ fields, f.1 < 2 ^ f.2 := fun f hf => hfields f (List.mem_cons_of_mem _ hf)
    obtain ⟨hfirst, hmore⟩ := number_cons hrest hnumber
    obtain ⟨hvalue, hheld⟩ := h.read hfit.1
    rw [List.map_cons, readFields, List.map_cons, hvalue, hfirst,
      ih hheld hrest (by rw [read_data]; exact hmore) hfit.2]

/-- Fields of ones show a cut. -/
theorem widthsFit_of_ones {widths : List Nat} (h : r.Holds start)
    (hwidths : ∀ width ∈ widths, width ≤ 32)
    (hread : readFields r widths = widths.map fun width => 2 ^ width - 1) :
    WidthsFit start widths := by
  induction widths generalizing r start with
  | nil => exact trivial
  | cons width widths ih =>
    rw [readFields, List.map_cons] at hread
    obtain ⟨hfirst, hrest⟩ := List.cons.inj hread
    have hin : start % 8 + width ≤ 32 := by
      by_contra hout
      have hcut : (r.peek width).1 = 2 ^ width - 1 := hfirst
      rw [h.peek_cut (hwidths width List.mem_cons_self) (Nat.lt_of_not_le hout)] at hcut
      obtain ⟨more, hmore⟩ : ∃ more, width - window start = more + 1 :=
        ⟨width - window start - 1, by unfold window; omega⟩
      obtain ⟨less, hless⟩ : ∃ less, width = less + 1 := ⟨width - 1, by omega⟩
      rw [hmore, Nat.pow_succ, ← Nat.mul_assoc, hless, Nat.pow_succ] at hcut
      have hpos := Nat.two_pow_pos less
      omega
    exact ⟨hin, ih (h.read hin).2 (fun w hw => hwidths w (List.mem_cons_of_mem _ hw)) hrest⟩

theorem roundTrips_iff {widths : List Nat} (hwidths : ∀ width ∈ widths, width ≤ 32) :
    RoundTrips widths ↔ WidthsFit 0 widths := by
  constructor
  · intro htrips
    have hones := htrips (widths.map fun width => (2 ^ width - 1, width))
      (by rw [List.map_map]; exact List.map_id _)
      (by
        intro field hfield
        obtain ⟨width, -, rfl⟩ := List.mem_map.mp hfield
        exact Nat.sub_lt (Nat.two_pow_pos _) Nat.one_pos)
    rw [List.map_map] at hones
    exact widthsFit_of_ones (holds_new _) hwidths hones
  · rintro hfit fields rfl hfields
    have hwrote := wrote_writeFields BitWriter.wrote_new hfields
    rw [Nat.zero_add, Nat.zero_mul, Nat.zero_add] at hwrote
    exact readFields_eq (holds_new _) hfields hwrote.finish hfit

end Fields

end Chd

open Chd (BitReader RoundTrips WidthsFit)
open Chd.BitReader (Exact AllFit)

/-- Reads, peeks and removals are exact, position and end included, in exactly those sequences
whose every call fits; and fields are read back as they were written exactly if all of them end
within the window. -/
theorem bitReader_exact_iff (data : Bytes) (calls : List BitReader.Call) (widths : List Nat)
    (hcalls : ∀ call ∈ calls, call.width ≤ 32) (hwidths : ∀ width ∈ widths, width ≤ 32) :
    (Exact data (.new data) 0 calls ↔ AllFit (.new data) 0 calls) ∧
      (RoundTrips widths ↔ WidthsFit 0 widths) :=
  ⟨BitReader.exact_iff_allFit (BitReader.holds_new data) hcalls, Chd.roundTrips_iff hwidths⟩

theorem bitReader_exact_iff_small :
    (Exact [0xB2, 0xFF] (.new [0xB2, 0xFF]) 0 [.peek 4, .remove 4, .read 12] ↔
        AllFit (.new [0xB2, 0xFF]) 0 [.peek 4, .remove 4, .read 12]) ∧
      (RoundTrips [3, 13] ↔ WidthsFit 0 [3, 13]) :=
  bitReader_exact_iff [0xB2, 0xFF] [.peek 4, .remove 4, .read 12] [3, 13]
    (by decide) (by decide)

/-- A field of 32 bits behind a single bit loses its last bit, and the position with it. -/
theorem wideRead_cut :
    ¬ Exact [0xFF, 0xFF, 0xFF, 0xFF, 0xFF] (.new [0xFF, 0xFF, 0xFF, 0xFF, 0xFF]) 0
      [.read 1, .read 32] :=
  fun hexact => absurd hexact.2.1.position (by decide)

end Datboi
