import Mathlib.Algebra.BigOperators.Intervals
import Mathlib.Algebra.Field.ZMod
import Mathlib.RingTheory.AdjoinRoot
import Mathlib.RingTheory.PrincipalIdealDomain
import Mathlib.Tactic.LinearCombination
import Mathlib.Tactic.Ring

/-!
# The field of bytes

A byte is a polynomial over the integers modulo two of degree below eight. Modulo a primitive
polynomial of degree eight these make a field; its addition is the exclusive or of bytes, and
multiplication by the generator is a shift with a correction.

A word over a ring with two check items at its end is a codeword if its items add up to zero,
plainly and weighted by descending powers of the generator.
-/

namespace ByteField

open Finset Polynomial

/-- The polynomial whose coefficients are the bits of `0x11D`. -/
noncomputable def modulus : (ZMod 2)[X] := X ^ 8 + X ^ 4 + X ^ 3 + X ^ 2 + 1

/-- Polynomials modulo the modulus. -/
abbrev GF256 := AdjoinRoot modulus

/-- The generator. -/
noncomputable def gen : GF256 := AdjoinRoot.root modulus

/-- A byte as an element of the field. -/
noncomputable def ofByte (b : UInt8) : GF256 :=
  ∑ i ∈ range 8, if b.toNat.testBit i then gen ^ i else 0

/-- The shift of a byte, corrected by the modulus. -/
def double (b : UInt8) : UInt8 := (b <<< 1) ^^^ (if b.toNat.testBit 7 then 0x1D else 0)

theorem two_eq_zero : (2 : GF256) = 0 := by
  have hmap : algebraMap (ZMod 2) GF256 2 = 2 := map_ofNat _ 2
  rw [← hmap, show (2 : ZMod 2) = 0 from rfl, map_zero]

theorem add_self (x : GF256) : x + x = 0 := by
  linear_combination x * two_eq_zero

theorem gen_pow_eight : gen ^ 8 = gen ^ 4 + gen ^ 3 + gen ^ 2 + 1 := by
  have hroot : gen ^ 8 + gen ^ 4 + gen ^ 3 + gen ^ 2 + 1 = 0 := by
    -- The modulus stays folded in the type of the class.
    have hself : AdjoinRoot.mk modulus (X ^ 8 + X ^ 4 + X ^ 3 + X ^ 2 + 1) = 0 :=
      AdjoinRoot.mk_self
    simpa only [gen, map_add, map_pow, map_one, AdjoinRoot.mk_X] using hself
  linear_combination hroot - (gen ^ 4 + gen ^ 3 + gen ^ 2 + 1) * two_eq_zero

@[simp] theorem ofByte_zero : ofByte 0 = 0 := by
  simp [ofByte]

@[simp] theorem ofByte_one : ofByte 1 = 1 := by
  rw [ofByte, sum_eq_single 0]
  · simp
  · intro i _ hi
    have hbit : Nat.testBit 1 i = false := by
      rw [Nat.testBit_one_eq_true_iff_self_eq_zero.not.mpr hi |> Bool.eq_false_of_not_eq_true]
    rw [UInt8.toNat_one, hbit]
    rfl
  · simp

/-- Addition is the exclusive or. -/
theorem ofByte_xor (a b : UInt8) : ofByte (a ^^^ b) = ofByte a + ofByte b := by
  rw [ofByte, ofByte, ofByte, ← sum_add_distrib]
  refine sum_congr rfl fun i _ => ?_
  rw [UInt8.toNat_xor, Nat.testBit_xor]
  cases a.toNat.testBit i <;> cases b.toNat.testBit i <;> simp [add_self]

theorem testBit_shift (b : UInt8) (i : Nat) :
    (b <<< 1).toNat.testBit i = (decide (i < 8) && (decide (1 ≤ i) && b.toNat.testBit (i - 1))) := by
  rw [UInt8.toNat_shiftLeft, show (1 : UInt8).toNat % 8 = 1 from rfl, Nat.testBit_mod_two_pow,
    Nat.testBit_shiftLeft]

/-- Doubling is multiplication by the generator. -/
theorem ofByte_double (b : UInt8) : ofByte (double b) = gen * ofByte b := by
  have hshift : ofByte (b <<< 1) =
      gen * ∑ i ∈ range 7, if b.toNat.testBit i then gen ^ i else 0 := by
    rw [ofByte, sum_range_succ', testBit_shift]
    simp only [Nat.le_zero_eq, one_ne_zero, decide_false, Bool.false_and, Bool.and_false,
      Bool.false_eq_true, if_false, add_zero, mul_sum]
    refine sum_congr rfl fun i hi => ?_
    have hi : i + 1 < 8 := by
      rw [mem_range] at hi
      omega
    rw [testBit_shift, decide_eq_true hi, decide_eq_true (Nat.le_add_left 1 i), Nat.add_sub_cancel,
      Bool.true_and, Bool.true_and, pow_succ']
    split_ifs <;> simp
  have hcorrection : ofByte 0x1D = gen ^ 8 := by
    rw [gen_pow_eight, ofByte]
    have hbits : ∀ i ∈ range 8, (if (0x1D : UInt8).toNat.testBit i then gen ^ i else 0) =
        if i = 0 ∨ i = 2 ∨ i = 3 ∨ i = 4 then gen ^ i else 0 := by
      intro i hi
      have hbit : ∀ i < 8, (0x1D : UInt8).toNat.testBit i = decide (i = 0 ∨ i = 2 ∨ i = 3 ∨ i = 4) := by
        decide
      rw [hbit i (mem_range.mp hi)]
      simp only [decide_eq_true_eq]
    rw [sum_congr rfl hbits]
    simp only [sum_range_succ, range_zero, sum_empty]
    norm_num
    ring
  have htop : ofByte b = (∑ i ∈ range 7, if b.toNat.testBit i then gen ^ i else 0) +
      if b.toNat.testBit 7 then gen ^ 7 else 0 := sum_range_succ _ 7
  rw [double, ofByte_xor, hshift, htop, mul_add]
  split_ifs
  · rw [hcorrection, ← pow_succ']
  · rw [ofByte_zero, mul_zero]

/-! ## Inverses -/

/-- Every element is that of a byte. -/
theorem exists_ofByte (x : GF256) : ∃ b, ofByte b = x := by
  induction x using AdjoinRoot.induction_on with
  | ih p =>
    induction p using Polynomial.induction_on with
    | C a =>
      have hbit : ∀ a : ZMod 2, a = 0 ∨ a = 1 := by decide
      rcases hbit a with rfl | rfl
      · exact ⟨0, by rw [ofByte_zero, map_zero, map_zero]⟩
      · exact ⟨1, by rw [ofByte_one, map_one, map_one]⟩
    | add p q hp hq =>
      obtain ⟨a, ha⟩ := hp
      obtain ⟨b, hb⟩ := hq
      exact ⟨a ^^^ b, by rw [ofByte_xor, ha, hb, map_add]⟩
    | monomial n a hn =>
      obtain ⟨b, hb⟩ := hn
      refine ⟨double b, ?_⟩
      rw [ofByte_double, hb, pow_succ, ← mul_assoc, map_mul _ _ X, AdjoinRoot.mk_X, mul_comm, gen]

theorem ofByte_iterate_double (n : Nat) : ofByte (double^[n] 1) = gen ^ n := by
  induction n with
  | zero => exact ofByte_one
  | succ n ih => rw [Function.iterate_succ_apply', ofByte_double, ih, pow_succ']

/-- A set of bytes, as the bits of a number. -/
def bitset (bytes : List UInt8) : Nat := bytes.foldr (fun b set => set ||| 2 ^ b.toNat) 0

theorem mem_of_testBit {bytes : List UInt8} {b : UInt8}
    (hbit : (bitset bytes).testBit b.toNat = true) : b ∈ bytes := by
  induction bytes with
  | nil => simp [bitset] at hbit
  | cons first bytes ih =>
    rw [bitset, List.foldr_cons, ← bitset, Nat.testBit_or, Bool.or_eq_true,
      Nat.testBit_two_pow, decide_eq_true_eq] at hbit
    rcases hbit with hrest | hfirst
    · exact List.mem_cons_of_mem _ (ih hrest)
    · rw [UInt8.toNat_inj] at hfirst
      rw [hfirst]
      exact List.mem_cons_self

/-- The generator runs through every byte but zero. -/
theorem mem_orbit {b : UInt8} (hb : b ≠ 0) : b ∈ List.iterate double 1 255 := by
  have horbit : bitset (List.iterate double 1 255) = 2 ^ 256 - 2 := by decide +kernel
  have hall : ∀ n < 256, n ≠ 0 → (2 ^ 256 - 2).testBit n = true := by decide +kernel
  apply mem_of_testBit
  rw [horbit]
  exact hall b.toNat b.toNat_lt fun hzero => hb (UInt8.toNat_inj.mp hzero)

theorem gen_pow_order : gen ^ 255 = 1 := by
  have horder : double^[255] 1 = 1 := by decide +kernel
  rw [← ofByte_iterate_double, horder, ofByte_one]

theorem isField : IsField GF256 where
  exists_pair_ne := by
    have hdegree : modulus.degree ≠ 0 := by
      have hmodulus : modulus.degree = 8 := by
        rw [modulus]
        compute_degree!
      rw [hmodulus]
      decide
    have hnontrivial := AdjoinRoot.nontrivial modulus hdegree
    exact hnontrivial.exists_pair_ne
  mul_comm := mul_comm
  mul_inv_cancel := by
    intro x hx
    obtain ⟨b, rfl⟩ := exists_ofByte x
    have hb : b ≠ 0 := by
      rintro rfl
      exact hx ofByte_zero
    obtain ⟨n, hn, rfl⟩ := List.mem_iterate.mp (mem_orbit hb)
    refine ⟨gen ^ (255 - n), ?_⟩
    rw [ofByte_iterate_double, ← pow_add, Nat.add_sub_cancel' (Nat.le_of_lt hn), gen_pow_order]

theorem irreducible_modulus : Irreducible modulus := by
  have hmaximal : (Ideal.span {modulus}).IsMaximal := Ideal.Quotient.maximal_of_isField _ isField
  have hne : modulus ≠ 0 := by
    have hmonic : modulus.Monic := by
      rw [modulus]
      monicity!
    exact hmonic.ne_zero
  exact ((Ideal.span_singleton_prime hne).mp hmaximal.isPrime).irreducible

/-! ## Two checks -/

/-- The first `n` items of a word add up to zero, and so they do when each is weighted by the
generator, the last one by one. -/
def Codeword (n : Nat) (word : Nat → GF256) : Prop :=
  ∑ i ∈ range n, word i = 0 ∧ ∑ i ∈ range n, gen ^ (n - 1 - i) * word i = 0

/-- The two items that complete a word: what the weighted sum and the plain sum leave, divided
by the sum of one and the generator, and the plain sum of everything before. -/
theorem codeword_of_checks {m : Nat} {word : Nat → GF256}
    (hfirst : (1 + gen) * word m =
      ∑ i ∈ range m, gen ^ (m + 1 - i) * word i + ∑ i ∈ range m, word i)
    (hsecond : word (m + 1) = ∑ i ∈ range m, word i + word m) : Codeword (m + 2) word := by
  constructor
  · rw [sum_range_succ, sum_range_succ, hsecond]
    linear_combination (∑ i ∈ range m, word i + word m) * two_eq_zero
  · have hlast : m + 2 - 1 - (m + 1) = 0 := by omega
    have hbefore : m + 2 - 1 - m = 1 := by omega
    have hweight : m + 2 - 1 = m + 1 := rfl
    rw [sum_range_succ, sum_range_succ, hlast, hbefore, hsecond, hweight, pow_zero, pow_one]
    linear_combination hfirst + (∑ i ∈ range m, gen ^ (m + 1 - i) * word i +
      ∑ i ∈ range m, word i) * two_eq_zero

end ByteField
