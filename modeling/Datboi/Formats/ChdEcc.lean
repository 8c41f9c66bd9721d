import Datboi.Xf.Ecm

/-!
# Parity in compressed discs

The decoder of compressed discs regenerates the parity that the compressor dropped. It has its
own copy of the generator that the sector component is pinned to.
-/

namespace Datboi.Chd

open Reader (slice)
open Xf (copyAt)

/-- Bytes of a sector without its subcode. -/
abbrev CD_MAX_SECTOR_DATA : Nat := 2352

def CD_SYNC_HEADER : Bytes :=
  [0, 0xFF, 0xFF, 0xFF, 0xFF, 0xFF, 0xFF, 0xFF, 0xFF, 0xFF, 0xFF, 0]

def eccLuts : Array UInt8 × Array UInt8 :=
  (List.range 256).foldl (fun (f, b) i =>
    let j := (i <<< 1) ^^^ (if i &&& 0x80 ≠ 0 then 0x11D else 0)
    (f.setIfInBounds i (UInt8.ofNat (j &&& 0xFF)),
      b.setIfInBounds (i ^^^ (j &&& 0xFF)) (UInt8.ofNat i)))
    (Array.replicate 256 0, Array.replicate 256 0)

/-- The inner loop of a pass. -/
def eccWalk (src : Bytes) (zeroAddress : Bool) (size minorInc : Nat) :
    Nat → Nat → UInt8 → UInt8 → UInt8 × UInt8
  | 0, _, eccA, eccB => (eccA, eccB)
  | minor + 1, index, eccA, eccB =>
    let temp := if zeroAddress ∧ index < 4 then 0 else src.getD index 0
    let next := index + minorInc
    eccWalk src zeroAddress size minorInc minor (if size ≤ next then next - size else next)
      (eccLuts.1.getD (eccA ^^^ temp).toNat 0) (eccB ^^^ temp)

def eccPass (src : Bytes) (zeroAddress : Bool) (majorCount minorCount majorMult minorInc : Nat) :
    Bytes :=
  let size := majorCount * minorCount
  let pairs := (List.range majorCount).map fun major =>
    let (eccA, eccB) := eccWalk src zeroAddress size minorInc minorCount
      (major / 2 * majorMult + major % 2) 0 0
    let eccA := eccLuts.2.getD (eccLuts.1.getD eccA.toNat 0 ^^^ eccB).toNat 0
    (eccA, eccA ^^^ eccB)
  pairs.map Prod.fst ++ pairs.map Prod.snd

/-- Both kinds of parity; mode 2 takes the header as zeros. -/
def eccGenerate (sector : Bytes) : Bytes :=
  let zeroAddress : Bool := sector.getD 15 0 == 2
  let p := eccPass (slice sector 12 2064) zeroAddress 86 24 2 86
  let sector := copyAt sector 2076 p
  let q := eccPass (slice sector 12 2236) zeroAddress 52 43 86 88
  copyAt sector 2248 q

/-- What the decoder does with a sector that is flagged as regenerable. -/
def restoreSector (sector : Bytes) : Bytes := eccGenerate (copyAt sector 0 CD_SYNC_HEADER)

end Datboi.Chd
