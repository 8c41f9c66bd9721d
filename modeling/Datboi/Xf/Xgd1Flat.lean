import Datboi.Lib.BucketSort
import Datboi.Xf.Xgd1

/-!
# The flat seed solver

Every word is the sum of a part that depends on the high half of the state and one that
depends on the low half, so that a seed is found by a join: the low halves are sorted
into buckets by their part, and each high half asks for the buckets its window touches.
An index out of range, a count below zero or a parameter refused by the assertion is
`none`.
-/

namespace Datboi.Xgd1

namespace Flat

open BucketSort (bump accumulate place)

/-- Scratch tables, reused from call to call: bucket boundaries and packed entries. -/
structure Workspace where
  cnt : Vector Nat 65537
  slots : Vector Nat 65536

/-! ## Geometry -/

section Geometry

variable (logSpan : Nat)

def nbuckets : Nat := 1 <<< (24 - logSpan)

def bucketMask : Nat := nbuckets logSpan - 1

def spanMask : Nat := (1 <<< logSpan) - 1

/-- Bits of an entry left for a prefix of the second word's key. -/
def fbits : Nat := 16 - logSpan

def fshift : Nat := 24 - fbits logSpan

def fmask : Nat := if fbits logSpan = 0 then 0 else (1 <<< fbits logSpan) - 1

def flow : Nat := (1 <<< fshift logSpan) - 1

def eshift : Nat := 16 + logSpan

end Geometry

/-! ## One multiplier -/

/-- What the join for one multiplier works on. -/
structure Join where
  logSpan : Nat
  sector : Sector
  streamSector : UInt32
  /-- The first two observed words. -/
  obs0 : Nat
  obs1 : Nat
  i : Fin 8
  b : Fp
  alpha : Fp
  beta : Fp
  alpha2 : Fp
  beta2 : Fp
  binv : Fp

/-- The 16-bit word at a byte of the sector. -/
def observed (sector : Sector) (first : Fin 2047) : Nat :=
  (sector.get first.castSucc).toNat ||| (sector.get first.succ).toNat <<< 8

/-- The index of the sector's first word. -/
def wordIndex (streamSector : UInt32) : UInt64 :=
  UInt64.ofNat (1 + WORDS_PER_SECTOR * streamSector.toNat)

def Join.new (logSpan : Nat) (sector : Sector) (streamSector : UInt32) (i : Fin 8) : Join :=
  let b := multiplier i
  let ⟨alpha, beta⟩ := affinePow b (wordIndex streamSector)
  { logSpan, sector, streamSector, i, b, alpha, beta
    obs0 := observed sector 0
    obs1 := observed sector 2
    alpha2 := alpha.mul b
    beta2 := (beta.mul b).add b
    binv := b.inv }

namespace Join

variable (join : Join)

/-- The low halves in order, as their high and low byte. -/
def lowHalves : List (Nat × Nat) :=
  (List.range 256).flatMap fun uhi => (List.range 256).map fun ulo => (uhi, ulo)

/-- The key of a low half, out of the running value of its affine part. -/
def buildKey (obs : Nat) (g : Fp) (uhi : Nat) : Nat :=
  wrappingSub g.val (((obs &&& 0xFF) ^^^ uhi) <<< 8) &&& MASK24

def countStep (state : Fp × Vector Nat 65537) (half : Nat × Nat) :
    Option (Fp × Vector Nat 65537) := do
  let cnt ← bump state.2 (buildKey join.obs0 state.1 half.1 >>> join.logSpan)
  return (state.1.add join.alpha, cnt)

/-- A packed entry: a prefix of the second key, the low bits of the first and the low
half itself. -/
def entry (bv bv2 ul : Nat) : Nat :=
  let fpart := if fbits join.logSpan = 0 then 0
    else (bv2 >>> fshift join.logSpan) <<< eshift join.logSpan
  fpart ||| (bv &&& spanMask join.logSpan) <<< 16 ||| ul

def fillStep (state : (Fp × Fp) × Vector Nat 65537 × Vector Nat 65536) (half : Nat × Nat) :
    Option ((Fp × Fp) × Vector Nat 65537 × Vector Nat 65536) := do
  let ((g, g2), tables) := state
  let bv := buildKey join.obs0 g half.1
  let bv2 := buildKey join.obs1 g2 half.1
  let tables ← place tables (bv >>> join.logSpan) (join.entry bv bv2 (half.1 <<< 8 ||| half.2))
  return ((g.add join.alpha, g2.add join.alpha2), tables)

/-- `cnt[..=nbuckets].fill(0)` -/
def clear (cnt : Vector Nat 65537) : Option (Vector Nat 65537) :=
  if nbuckets join.logSpan < 65537 then
    some (cnt.mapIdx fun j c => if j ≤ nbuckets join.logSpan then 0 else c)
  else none

/-- Sort the low halves into buckets. -/
def build (ws : Workspace) : Option Workspace := do
  let cnt ← join.clear ws.cnt
  let (_, cnt) ← lowHalves.foldlM join.countStep (join.beta, cnt)
  let cnt ← (List.range' 1 (nbuckets join.logSpan - 1)).foldlM accumulate cnt
  if nbuckets join.logSpan < 65537 then
    let cnt := cnt.setIfInBounds (nbuckets join.logSpan) 65536
    let (_, cnt, slots) ← lowHalves.foldlM join.fillStep ((join.beta, join.beta2), cnt, ws.slots)
    return { cnt, slots }
  else none

/-- The seeds that a state can come from, out of the smaller one. -/
def seedOf (s0 : Nat) : Option UInt32 :=
  [s0, (s0 + P) % 2 ^ 32].findSome? fun cand =>
    if cand < s0 then none
    else if cand &&& 7 ≠ join.i then none
    else if verify (UInt32.ofNat cand) join.streamSector join.sector then some (UInt32.ofNat cand)
    else none

/-- The exact check of one state, on the first word, on the second, and in full. -/
def exact (uh ul : Nat) : Option UInt32 :=
  let u := uh <<< 16 ||| ul
  if P ≤ u then none
  else
    let ufp := Fp.reduce (UInt64.ofNat u)
    let c := (join.alpha.mul ufp).add join.beta
    if c.val >>> 8 &&& 0xFFFF ≠ join.obs0 ^^^ (u >>> 8 &&& 0xFFFF) then none
    else
      let c2 := (c.add .ONE).mul join.b
      if c2.val >>> 8 &&& 0xFFFF ≠ join.obs1 ^^^ (u >>> 8 &&& 0xFFFF) then none
      else join.seedOf ((ufp.mul join.binv).sub .ONE).val

/-- Where the window of a high half starts, out of the running value of its part. -/
def windowStart (obs : Nat) (f : Fp) (uh : Nat) : Nat :=
  let key := wrappingSub f.val (((obs >>> 8 &&& 0xFF) ^^^ (uh &&& 0xFF)) <<< 16) &&& MASK24
  wrappingSub (wrappingSub 0 key) 5 &&& MASK24

/-- Is an entry of bucket `j` outside one of the two windows? -/
def rejected (lo lo2 j e : Nat) : Bool :=
  let bv := j <<< join.logSpan ||| (e >>> 16 &&& spanMask join.logSpan)
  let tf := lo2 >>> fshift join.logSpan
  let nfv := ((lo2 &&& flow join.logSpan) + (WINDOW - 1)) >>> fshift join.logSpan + 1
  WINDOW ≤ wrappingSub bv lo &&& MASK24 ∨
    (fbits join.logSpan ≠ 0 ∧
      nfv ≤ wrappingSub (e >>> eshift join.logSpan) tf &&& fmask join.logSpan)

def scanBucket (ws : Workspace) (uh lo lo2 j : Nat) : Option (Option UInt32) := do
  let start ← ws.cnt[j]?
  let stop ← ws.cnt[j + 1]?
  (List.range' start (stop - start)).findSomeM? fun s => do
    let e ← ws.slots[s &&& 0xFFFF]?
    return if join.rejected lo lo2 j e then none else join.exact uh (e &&& 0xFFFF)

/-- All buckets that the window of a high half touches. -/
def probe (ws : Workspace) (uh : Nat) (f f2 : Fp) : Option (Option UInt32) :=
  let lo := windowStart join.obs0 f uh
  let lo2 := windowStart join.obs1 f2 uh
  let touched := ((lo &&& spanMask join.logSpan) + (WINDOW - 1)) >>> join.logSpan + 1
  (List.range touched).findSomeM? fun t =>
    join.scanBucket ws uh lo lo2 (lo >>> join.logSpan + t &&& bucketMask join.logSpan)

/-- The high halves from `uh` on. -/
def probeLoop (ws : Workspace) (fStep f2Step : Fp) : Nat → Nat → Fp → Fp →
    Option (Option UInt32)
  | 0, _, _, _ => some none
  | rest + 1, uh, f, f2 => do
      match ← join.probe ws uh f f2 with
      | some seed => some (some seed)
      | none => probeLoop ws fStep f2Step rest (uh + 1) (f.add fStep) (f2.add f2Step)

def probes (ws : Workspace) : Option (Option UInt32) :=
  let fStep := join.alpha.mul (.reduce 65536)
  let f2Step := join.alpha2.mul (.reduce 65536)
  join.probeLoop ws fStep f2Step 65536 0 .ZERO .ZERO

end Join

/-! ## All multipliers -/

def recoverLoop (logSpan : Nat) (sector : Sector) (streamSector : UInt32) :
    List (Fin 8) → Workspace → Option (Option UInt32 × Workspace)
  | [], ws => some (none, ws)
  | i :: is, ws => do
      let join := Join.new logSpan sector streamSector i
      let ws ← join.build ws
      match ← join.probes ws with
      | some seed => some (some seed, ws)
      | none => recoverLoop logSpan sector streamSector is ws

/-- Recover the seed that generates a sector, if there is one. -/
def recover (logSpan : Nat) (ws : Workspace) (sector : Sector) (streamSector : UInt32) :
    Option (Option UInt32 × Workspace) :=
  if 8 ≤ logSpan ∧ logSpan ≤ 16 then
    recoverLoop logSpan sector streamSector (List.finRange 8) ws
  else none

end Flat

end Datboi.Xgd1
