import Mathlib.Algebra.Order.Ring.Nat
import Mathlib.Logic.Function.Iterate
import Mathlib.Tactic.Ring

/-!
# Checksums by division

A checksum is the remainder of a division of polynomials, one bit after another, the least
significant one first. Dividing by whole bytes with a table gives the same remainder, since a
step of the division is additive and does nothing but shift while the low bits are clear.
-/

namespace Crc

variable (poly : UInt32)

/-- One bit of the division. -/
def bit (e : UInt32) : UInt32 := if e &&& 1 = 1 then (e >>> 1) ^^^ poly else e >>> 1

def byte (e : UInt32) (b : UInt8) : UInt32 := (bit poly)^[8] (e ^^^ b.toUInt32)

/-- The checksum of a list of bytes. -/
def checksum (bytes : List UInt8) : UInt32 := bytes.foldl (byte poly) 0

variable {poly}

theorem and_one_eq (e : UInt32) : e &&& 1 = 0 ∨ e &&& 1 = 1 := by
  have hmod : (e &&& 1).toNat = e.toNat % 2 := by
    rw [UInt32.toNat_and]
    exact Nat.and_one_is_mod e.toNat
  rcases Nat.mod_two_eq_zero_or_one e.toNat with hbit | hbit
  · exact Or.inl (UInt32.toNat_inj.mp (hmod.trans hbit))
  · exact Or.inr (UInt32.toNat_inj.mp (hmod.trans hbit))

/-- The step, without a case distinction. -/
theorem bit_eq (e : UInt32) : bit poly e = (e >>> 1) ^^^ (poly * (e &&& 1)) := by
  rcases and_one_eq e with hbit | hbit
  · rw [bit, hbit, if_neg (by decide), UInt32.mul_zero, UInt32.xor_zero]
  · rw [bit, hbit, if_pos rfl, UInt32.mul_one]

theorem bit_xor (a b : UInt32) : bit poly (a ^^^ b) = bit poly a ^^^ bit poly b := by
  have hand : (a ^^^ b) &&& 1 = (a &&& 1) ^^^ (b &&& 1) := by
    apply UInt32.toNat_inj.mp
    simp only [UInt32.toNat_and, UInt32.toNat_xor]
    exact Nat.and_xor_distrib_right
  have hmul : poly * ((a &&& 1) ^^^ (b &&& 1)) = (poly * (a &&& 1)) ^^^ (poly * (b &&& 1)) := by
    rcases and_one_eq a with ha | ha <;> rcases and_one_eq b with hb | hb <;> simp [ha, hb]
  rw [bit_eq, bit_eq, bit_eq, hand, hmul, UInt32.shiftRight_xor, UInt32.xor_assoc, UInt32.xor_assoc,
    ← UInt32.xor_assoc (b >>> 1), UInt32.xor_comm (b >>> 1), UInt32.xor_assoc]

theorem iterate_bit_xor (n : Nat) (a b : UInt32) :
    (bit poly)^[n] (a ^^^ b) = (bit poly)^[n] a ^^^ (bit poly)^[n] b := by
  induction n generalizing a b with
  | zero => rfl
  | succ n ih => rw [Function.iterate_succ_apply, bit_xor, ih]; rfl

/-- While the low bits are clear, the division shifts. -/
theorem iterate_bit_shift {n h : Nat} {e : UInt32} (he : e.toNat = 2 ^ n * h) :
    ((bit poly)^[n] e).toNat = h := by
  induction n generalizing e with
  | zero => rw [Function.iterate_zero, id_eq, he, pow_zero, one_mul]
  | succ n ih =>
    have hhalf : e.toNat = 2 * (2 ^ n * h) := by rw [he, pow_succ]; ring
    have heven : e &&& 1 = 0 := by
      apply UInt32.toNat_inj.mp
      rw [UInt32.toNat_and]
      have hmod := Nat.and_one_is_mod e.toNat
      rw [hhalf, Nat.mul_mod_right] at hmod
      rw [hhalf]
      exact hmod
    rw [Function.iterate_succ_apply, bit, heven, if_neg (by decide)]
    refine ih ?_
    rw [UInt32.toNat_shiftRight, hhalf]
    change (2 * (2 ^ n * h)) >>> 1 = _
    rw [Nat.shiftRight_eq_div_pow, pow_one, Nat.mul_div_cancel_left _ (by decide)]

/-- A word is its low byte and what is above it. -/
theorem split_low (x : UInt32) : ((x >>> 8) <<< 8) ^^^ (x &&& 0xFF) = x := by
  have hx := x.toNat_lt
  apply UInt32.toNat_inj.mp
  rw [UInt32.toNat_xor, UInt32.toNat_shiftLeft, UInt32.toNat_shiftRight, UInt32.toNat_and]
  change ((x.toNat >>> 8) <<< 8 % 2 ^ 32) ^^^ (x.toNat &&& (2 ^ 8 - 1)) = x.toNat
  apply Nat.eq_of_testBit_eq
  intro i
  rw [Nat.testBit_xor, Nat.testBit_mod_two_pow, Nat.testBit_shiftLeft, Nat.testBit_shiftRight,
    Nat.testBit_and, Nat.testBit_two_pow_sub_one]
  by_cases hlow : i < 8
  · have hnot : ¬ 8 ≤ i := by omega
    simp [hlow, hnot]
  · by_cases hhigh : i < 32
    · have hle : 8 ≤ i := by omega
      simp [hlow, hhigh, hle]
    · have hbit : x.toNat.testBit i = false :=
        Nat.testBit_lt_two_pow (Nat.lt_of_lt_of_le hx (Nat.pow_le_pow_right (by decide) (by omega)))
      simp [hlow, hhigh, hbit]

/-- Eight bits at once: the low byte looks up what it adds to the others. -/
theorem byte_eq_table (e : UInt32) (b : UInt8) :
    byte poly e b = (e >>> 8) ^^^ (bit poly)^[8] ((e ^^^ b.toUInt32) &&& 0xFF) := by
  have hb := b.toNat_lt
  have hhigh : (bit poly)^[8] (((e ^^^ b.toUInt32) >>> 8) <<< 8) = (e ^^^ b.toUInt32) >>> 8 := by
    apply UInt32.toNat_inj.mp
    apply iterate_bit_shift
    have hlt := (e ^^^ b.toUInt32).toNat_lt
    rw [UInt32.toNat_shiftLeft, UInt32.toNat_shiftRight]
    change ((e ^^^ b.toUInt32).toNat >>> 8) <<< 8 % 2 ^ 32 =
      2 ^ 8 * ((e ^^^ b.toUInt32).toNat >>> 8)
    rw [Nat.shiftLeft_eq, Nat.shiftRight_eq_div_pow, Nat.mul_comm]
    omega
  have hbyte : b.toUInt32 >>> 8 = 0 := by
    apply UInt32.toNat_inj.mp
    rw [UInt32.toNat_shiftRight, UInt8.toNat_toUInt32]
    change b.toNat >>> 8 = 0
    rw [Nat.shiftRight_eq_div_pow]
    omega
  rw [byte]
  conv_lhs => rw [← split_low (e ^^^ b.toUInt32)]
  rw [iterate_bit_xor, hhigh, UInt32.shiftRight_xor, hbyte, UInt32.xor_zero]

end Crc
