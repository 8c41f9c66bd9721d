import Datboi.Xf.Xgd1

/-!
# The generator over the integers modulo the field's prime

Field elements are residues, and the operations without a division compute in the ring
of residues. The generator's state after any number of words is affine in its first.
-/

namespace Datboi.Xgd1

namespace Fp

/-- The residue a field element stands for. -/
def toZ (a : Fp) : ZMod P := (a.val : ZMod P)

theorem toZ_inj {a b : Fp} (heq : a.toZ = b.toZ) : a = b := by
  rw [toZ, toZ, ZMod.natCast_eq_natCast_iff', Nat.mod_eq_of_lt a.lt, Nat.mod_eq_of_lt b.lt] at heq
  cases a
  cases b
  simpa using heq

/-- Folding the high half keeps the residue. -/
theorem fold_mod (x : Nat) : (x / 2 ^ 32 * 5 + x % 2 ^ 32) % P = x % P := by
  have hsplit : x = P * (x / 2 ^ 32) + (x / 2 ^ 32 * 5 + x % 2 ^ 32) := by
    simp only [P]
    omega
  rw [← Nat.mul_add_mod P (x / 2 ^ 32), ← hsplit]

theorem reduce_val (x : UInt64) : (reduce x).val = x.toNat % P := by
  have hx := x.toNat_lt
  have hbound : x.toNat / 2 ^ 32 * 5 + x.toNat % 2 ^ 32 < 6 * 2 ^ 32 := by omega
  rw [← fold_mod x.toNat]
  generalize ht : x.toNat / 2 ^ 32 * 5 + x.toNat % 2 ^ 32 = t at hbound
  have hrest : t % 2 ^ 32 + t / 2 ^ 32 * 5 < 2 ^ 32 + 25 := by omega
  rw [← fold_mod t, Nat.add_comm (t / 2 ^ 32 * 5)]
  simp only [reduce, ht]
  generalize t % 2 ^ 32 + t / 2 ^ 32 * 5 = r at hrest
  simp only [P]
  split_ifs <;> omega

theorem add_val (a b : Fp) : (a.add b).val = (a.val + b.val) % P := by
  have ha := a.lt
  have hb := b.lt
  simp only [add, P] at *
  split_ifs <;> omega

@[simp] theorem toZ_reduce (x : UInt64) : (reduce x).toZ = (x.toNat : ZMod P) := by
  rw [toZ, reduce_val, ZMod.natCast_mod]

@[simp] theorem toZ_zero : ZERO.toZ = 0 := Nat.cast_zero

@[simp] theorem toZ_one : ONE.toZ = 1 := Nat.cast_one

@[simp] theorem toZ_add (a b : Fp) : (a.add b).toZ = a.toZ + b.toZ := by
  rw [toZ, add_val, ZMod.natCast_mod, Nat.cast_add, toZ, toZ]

@[simp] theorem toZ_sub (a b : Fp) : (a.sub b).toZ = a.toZ - b.toZ := by
  have hb := b.lt
  rw [toZ, toZ, toZ, sub]
  by_cases hle : b.val ≤ a.val
  · simp only [if_pos hle]
    rw [Nat.cast_sub hle]
  · have hfits : b.val - a.val ≤ P := by omega
    simp only [if_neg hle]
    rw [Nat.cast_sub hfits, Nat.cast_sub (by omega), ZMod.natCast_self]
    ring

@[simp] theorem toZ_mul (a b : Fp) : (a.mul b).toZ = a.toZ * b.toZ := by
  have hprod : a.val * b.val < 2 ^ 64 := by
    have hle : a.val * b.val ≤ (2 ^ 32 - 1) * (2 ^ 32 - 1) := Nat.mul_le_mul
      (by have := a.lt; simp only [P] at this; omega) (by have := b.lt; simp only [P] at this; omega)
    omega
  rw [mul, toZ_reduce, UInt64.toNat_ofNat_of_lt' hprod, Nat.cast_mul, toZ, toZ]

theorem toZ_powLoop {rounds : Nat} (base acc : Fp) {e : Nat} (he : e < 2 ^ rounds) :
    (powLoop rounds base acc e).toZ = acc.toZ * base.toZ ^ e := by
  induction rounds generalizing base acc e with
  | zero =>
    obtain rfl : e = 0 := by omega
    rw [powLoop, pow_zero, mul_one]
  | succ rounds ih =>
    rw [powLoop]
    by_cases hzero : e = 0
    · rw [if_pos hzero, hzero, pow_zero, mul_one]
    · rw [if_neg hzero, ih _ _ (by omega), toZ_mul]
      -- The lowest bit of the exponent is spent on `acc`.
      have hsplit : base.toZ ^ e = (base.toZ * base.toZ) ^ (e / 2) * base.toZ ^ (e % 2) := by
        rw [← pow_two, ← pow_mul, ← pow_add, Nat.div_add_mod]
      rcases Nat.mod_two_eq_zero_or_one e with hbit | hbit
      · rw [hsplit, hbit, if_neg (by decide), pow_zero, mul_one]
      · rw [hsplit, hbit, if_pos rfl, toZ_mul, pow_one]
        ring

@[simp] theorem toZ_pow (a : Fp) (e : UInt64) : (a.pow e).toZ = a.toZ ^ e.toNat := by
  rw [pow, toZ_powLoop _ _ e.toNat_lt, toZ_one, one_mul]

end Fp

/-! ## The multipliers -/

/-- Every multiplier has the inverse the solvers use. -/
theorem multiplier_mul_inv (i : Fin 8) :
    (multiplier i).toZ * (multiplier i).inv.toZ = 1 := by
  have hinv : ∀ i, (multiplier i).mul (multiplier i).inv = .ONE := by decide +kernel
  rw [← Fp.toZ_mul, hinv, Fp.toZ_one]

/-- No multiplier is one, and the difference has an inverse. -/
theorem multiplier_sub_one_mul_inv (i : Fin 8) :
    ((multiplier i).toZ - 1) * ((multiplier i).sub .ONE).inv.toZ = 1 := by
  have hinv : ∀ i, ((multiplier i).sub .ONE).mul ((multiplier i).sub .ONE).inv = .ONE := by
    decide +kernel
  rw [← Fp.toZ_one, ← Fp.toZ_sub, ← Fp.toZ_mul, hinv]

/-- One more word multiplies the coefficients once more. -/
theorem affinePow_succ (i : Fin 8) {m n : UInt64} (hn : n.toNat = m.toNat + 1) (u : Fp) :
    (((((affinePow (multiplier i) m).1.mul u).add (affinePow (multiplier i) m).2).add .ONE).mul
      (multiplier i)) =
    ((affinePow (multiplier i) n).1.mul u).add (affinePow (multiplier i) n).2 := by
  apply Fp.toZ_inj
  have hone := multiplier_sub_one_mul_inv i
  simp only [affinePow, Fp.toZ_mul, Fp.toZ_add, Fp.toZ_one, Fp.toZ_pow, Fp.toZ_sub, hn]
  linear_combination ((multiplier i).toZ) * (-1 : ZMod P) * hone

/-! ## Seeds and states -/

/-- The state after seeding. -/
def stateOf (seed : UInt32) : Fp :=
  ((Fp.reduce seed.toUInt64).add .ONE).mul (multiplier (lowBits seed))

/-- The seed is known from the state up to the field's modulus. -/
theorem seed_of_state (seed : UInt32) :
    ((stateOf seed).mul (multiplier (lowBits seed)).inv).sub .ONE = .reduce seed.toUInt64 := by
  apply Fp.toZ_inj
  have hinv := multiplier_mul_inv (lowBits seed)
  simp only [stateOf, Fp.toZ_sub, Fp.toZ_mul, Fp.toZ_add, Fp.toZ_one]
  linear_combination ((Fp.reduce seed.toUInt64).toZ + 1) * hinv

/-! ## Regenerating a sector -/

theorem nextWord_lt (g : Prng) : g.nextWord.1 < 2 ^ 16 := by
  rw [Prng.nextWord]
  exact Nat.lt_of_le_of_lt Nat.and_le_right (by decide)

/-- A word is its two bytes. -/
theorem word_of_bytes {w : Nat} (hw : w < 2 ^ 16) :
    (UInt8.ofNat (w &&& 0xFF)).toNat ||| (UInt8.ofNat (w >>> 8)).toNat <<< 8 = w := by
  have hlow : w &&& 0xFF = w % 2 ^ 8 := Nat.and_two_pow_sub_one_eq_mod w 8
  have hhigh : w >>> 8 = w / 2 ^ 8 := Nat.shiftRight_eq_div_pow w 8
  have hlt : w % 2 ^ 8 < 2 ^ 8 := Nat.mod_lt _ (by decide)
  have hdiv : w / 2 ^ 8 < 2 ^ 8 := by omega
  rw [hlow, hhigh, UInt8.toNat_ofNat_of_lt' hlt, UInt8.toNat_ofNat_of_lt' hdiv,
    Nat.or_comm, ← Nat.shiftLeft_add_eq_or_of_lt hlt, Nat.shiftLeft_eq]
  omega

/-- Comparing with the words to come is comparing with what they fill a sector with. -/
theorem verifyLoop_iff {words : Nat} {bytes : List UInt8} {g : Prng}
    (hlen : bytes.length = 2 * words) :
    verifyLoop bytes g = true ↔ g.fillLoop words = bytes := by
  induction words generalizing bytes g with
  | zero =>
    rw [List.eq_nil_of_length_eq_zero hlen]
    simp [verifyLoop, Prng.fillLoop]
  | succ words ih =>
    match bytes, hlen with
    | low :: high :: rest, hlen =>
      rw [verifyLoop, Prng.fillLoop]
      simp only [List.cons.injEq]
      split
      · rename_i hne
        refine iff_of_false Bool.false_ne_true fun heq => ?_
        rcases hne with hlow | hhigh
        · exact hlow heq.1.symm
        · exact hhigh heq.2.1.symm
      · rename_i heq
        obtain ⟨hlow, hhigh⟩ := not_or.mp heq
        rw [not_not] at hlow hhigh
        rw [ih (by simp only [List.length_cons] at hlen; omega), hlow, hhigh]
        simp

/-- Verification is exactly that the seed generates the sector. -/
theorem verify_iff (seed streamSector : UInt32) (sector : Sector) :
    verify seed streamSector sector = true ↔
      (Prng.new seed streamSector).fillSector = sector.toList :=
  verifyLoop_iff sector.toList_length

end Datboi.Xgd1
