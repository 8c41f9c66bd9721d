import Mathlib.Data.List.Basic
import Mathlib.Data.List.GetD
import Mathlib.Tactic.Ring

/-!
# Numbers in a list of bytes

A list of bytes is read as bits, the most significant bit of each byte first, and behind its end
as zeros. A field is a number of some width at some position.
-/

namespace Bits

variable {data : List UInt8}

/-- The byte at an index, zero behind the end. -/
def byteAt (data : List UInt8) (i : Nat) : Nat := (data.getD i 0).toNat

def bitAt (data : List UInt8) (i : Nat) : Nat := byteAt data (i / 8) / 2 ^ (7 - i % 8) % 2

/-- The field at a position. -/
def number (data : List UInt8) (start : Nat) : Nat → Nat
  | 0 => 0
  | width + 1 => number data start width * 2 + bitAt data (start + width)

theorem byteAt_lt (data : List UInt8) (i : Nat) : byteAt data i < 256 := UInt8.toNat_lt _

theorem bitAt_lt (data : List UInt8) (i : Nat) : bitAt data i < 2 := Nat.mod_lt _ (by decide)

@[simp] theorem number_zero (data : List UInt8) (start : Nat) : number data start 0 = 0 := rfl

theorem number_lt (data : List UInt8) (start width : Nat) : number data start width < 2 ^ width := by
  induction width with
  | zero => exact Nat.zero_lt_one
  | succ width ih =>
    have hbit := bitAt_lt data (start + width)
    rw [number, Nat.pow_succ]
    omega

/-- A field in two parts. -/
theorem number_add (data : List UInt8) (start m n : Nat) :
    number data start (m + n) = number data start m * 2 ^ n + number data (start + m) n := by
  induction n with
  | zero => simp
  | succ n ih =>
    rw [← Nat.add_assoc, number, ih, number, Nat.add_assoc start m n, Nat.pow_succ]
    ring

theorem number_div (data : List UInt8) (start m n : Nat) :
    number data start (m + n) / 2 ^ n = number data start m := by
  rw [number_add, Nat.add_comm, Nat.add_mul_div_right _ _ (Nat.two_pow_pos n),
    Nat.div_eq_of_lt (number_lt data (start + m) n), Nat.zero_add]

theorem number_mod (data : List UInt8) (start m n : Nat) :
    number data start (m + n) % 2 ^ n = number data (start + m) n := by
  rw [number_add, Nat.mul_add_mod_self_right, Nat.mod_eq_of_lt (number_lt data (start + m) n)]

/-- The parts of a field, given what it is. -/
theorem number_split {start m n high low : Nat} (hlow : low < 2 ^ n)
    (hnumber : number data start (m + n) = high * 2 ^ n + low) :
    number data start m = high ∧ number data (start + m) n = low := by
  rw [← number_div data start m n, ← number_mod data start m n, hnumber]
  refine ⟨?_, by rw [Nat.mul_add_mod_self_right, Nat.mod_eq_of_lt hlow]⟩
  rw [Nat.add_comm, Nat.add_mul_div_right _ _ (Nat.two_pow_pos n), Nat.div_eq_of_lt hlow,
    Nat.zero_add]

/-- The high bits of a byte at its boundary. -/
theorem number_byte_high (data : List UInt8) (i : Nat) {width : Nat} (hwidth : width ≤ 8) :
    number data (8 * i) width = byteAt data i / 2 ^ (8 - width) := by
  induction width with
  | zero => exact (Nat.div_eq_of_lt (byteAt_lt data i)).symm
  | succ width ih =>
    have hdiv : (8 * i + width) / 8 = i := by omega
    have hmod : (8 * i + width) % 8 = width := by omega
    rw [number, ih (by omega), bitAt, hdiv, hmod, show 8 - width = 7 - width + 1 by omega,
      show 8 - (width + 1) = 7 - width by omega, Nat.pow_succ, ← Nat.div_div_eq_div_mul]
    omega

theorem number_byte (data : List UInt8) (i : Nat) : number data (8 * i) 8 = byteAt data i := by
  rw [number_byte_high data i (Nat.le_refl 8), Nat.pow_zero, Nat.div_one]

/-- A field depends on the bytes that it lies in. -/
theorem number_append (front back : List UInt8) {start width : Nat}
    (hin : start + width ≤ 8 * front.length) :
    number (front ++ back) start width = number front start width := by
  induction width with
  | zero => rfl
  | succ width ih =>
    rw [number, number, ih (by omega), bitAt, bitAt, byteAt, byteAt,
      List.getD_append _ _ _ _ (by omega)]

end Bits
