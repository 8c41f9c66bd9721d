import Mathlib.Data.Fin.VecNotation
import Mathlib.Data.Vector.Basic
import Mathlib.Data.ZMod.Basic
import Mathlib.Tactic.LinearCombination
import Mathlib.Tactic.Ring

/-!
# The filler generator of early discs

Filler sectors are a stream of 16-bit words out of a generator over the integers
modulo the largest 32-bit prime. Field elements are reduced by construction; the
modulus is never divided by, since `2 ^ 32` is congruent to `5`.
-/

namespace Datboi.Xgd1

/-- Field modulus. -/
abbrev P : Nat := 0xFFFFFFFB

/-- The eight multipliers, selected by the low three bits of the seed. -/
def B_SEEDS : Fin 8 → UInt32 :=
  ![0x52F690D5, 0x534D7DDE, 0x5B71A70F, 0x66793320, 0x9B7E5ED5, 0xA465265E, 0xA53F1D11, 0xB154430F]

/-- Bytes per disc sector. -/
abbrev SECTOR_LEN : Nat := 2048

/-- Words per filler sector, two bytes each. -/
abbrev WORDS_PER_SECTOR : Nat := SECTOR_LEN / 2

abbrev Sector := List.Vector UInt8 SECTOR_LEN

/-! ## Field arithmetic -/

/-- A reduced field element. -/
structure Fp where
  val : Nat
  lt : val < P
  deriving DecidableEq

namespace Fp

def ZERO : Fp := ⟨0, by decide⟩

def ONE : Fp := ⟨1, by decide⟩

/-- Reduce a 64-bit value, folding the high half twice. -/
def reduce (x : UInt64) : Fp :=
  let t := x.toNat / 2 ^ 32 * 5 + x.toNat % 2 ^ 32
  let lo := t % 2 ^ 32
  let hi := t / 2 ^ 32
  let s := (lo + hi * 5) % 2 ^ 32
  let carry := 2 ^ 32 ≤ lo + hi * 5
  ⟨if carry then s + 5 else if P ≤ s then s - P else s, by
    have hx := x.toNat_lt
    simp only [P]
    split_ifs <;> omega⟩

def add (a b : Fp) : Fp :=
  let s := (a.val + b.val) % 2 ^ 32
  let carry := 2 ^ 32 ≤ a.val + b.val
  ⟨if carry then s + 5 else if P ≤ s then s - P else s, by
    have ha := a.lt
    have hb := b.lt
    simp only [P] at *
    split_ifs <;> omega⟩

def sub (a b : Fp) : Fp :=
  ⟨if b.val ≤ a.val then a.val - b.val else P - (b.val - a.val), by
    have ha := a.lt
    have hb := b.lt
    split_ifs <;> omega⟩

def mul (a b : Fp) : Fp := reduce (UInt64.ofNat (a.val * b.val))

/-- One round a bit of the exponent. -/
def powLoop : Nat → Fp → Fp → Nat → Fp
  | 0, _, acc, _ => acc
  | rounds + 1, base, acc, e =>
    if e = 0 then acc
    else powLoop rounds (base.mul base) (if e % 2 = 1 then acc.mul base else acc) (e / 2)

/-- Exponentiation by squaring. -/
def pow (a : Fp) (e : UInt64) : Fp := powLoop 64 a ONE e.toNat

/-- Multiplicative inverse by the little theorem. -/
def inv (a : Fp) : Fp := a.pow (UInt64.ofNat (P - 2))

end Fp

/-- The coefficients of the `m`-fold composition of `x ↦ b * x + b`. -/
def affinePow (b : Fp) (m : UInt64) : Fp × Fp :=
  let alpha := b.pow m
  (alpha, (b.mul (alpha.sub .ONE)).mul (b.sub .ONE).inv)

/-- The multiplier of the seeds with these low bits. -/
def multiplier (i : Fin 8) : Fp := .reduce (B_SEEDS i).toUInt64

/-- The low three bits of a seed. -/
def lowBits (seed : UInt32) : Fin 8 := ⟨seed.toNat % 8, Nat.mod_lt _ (by decide)⟩

/-! ## The generator -/

structure Prng where
  a : Nat
  b : Fp
  c : Fp

namespace Prng

/-- The words before a filler sector. -/
def skipped (streamSector : UInt32) : UInt64 :=
  UInt64.ofNat (WORDS_PER_SECTOR * streamSector.toNat)

/-- Seed the generator and position it at the start of a filler sector. -/
def new (seed streamSector : UInt32) : Prng :=
  let b := multiplier (lowBits seed)
  let u := ((Fp.reduce seed.toUInt64).add .ONE).mul b
  let ⟨alpha, beta⟩ := affinePow b (skipped streamSector)
  { a := u.val, b, c := (alpha.mul u).add beta }

/-- Advance, and the next 16-bit word. -/
def nextWord (g : Prng) : Nat × Prng :=
  let c := (g.c.add .ONE).mul g.b
  ((c.val ^^^ g.a) >>> 8 &&& 0xFFFF, { g with c })

def fillLoop : Nat → Prng → List UInt8
  | 0, _ => []
  | words + 1, g =>
    let w := g.nextWord.1
    UInt8.ofNat (w &&& 0xFF) :: UInt8.ofNat (w >>> 8) :: fillLoop words g.nextWord.2

/-- The bytes of one sector. -/
def fillSector (g : Prng) : List UInt8 := fillLoop WORDS_PER_SECTOR g

end Prng

/-- Compare pairs of bytes with the words to come. -/
def verifyLoop : List UInt8 → Prng → Bool
  | low :: high :: rest, g =>
    let w := g.nextWord.1
    if low ≠ UInt8.ofNat (w &&& 0xFF) ∨ high ≠ UInt8.ofNat (w >>> 8) then false
    else verifyLoop rest g.nextWord.2
  | _, _ => true

/-- Regenerate a filler sector and compare. -/
def verify (seed streamSector : UInt32) (sector : Sector) : Bool :=
  verifyLoop sector.toList (.new seed streamSector)

/-! ## The solvers' common parameters -/

/-- Width of the window that holds every solution, modulo `2 ^ 24`. -/
abbrev WINDOW : Nat := 261

abbrev MASK24 : Nat := 0x00FFFFFF

/-- `a.wrapping_sub(b)` on 32-bit values. -/
def wrappingSub (a b : Nat) : Nat := (a + (2 ^ 32 - b)) % 2 ^ 32

end Datboi.Xgd1
