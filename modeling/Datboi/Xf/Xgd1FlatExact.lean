import Datboi.Lib.Chunks
import Datboi.Xf.Xgd1Field
import Datboi.Xf.Xgd1Flat

/-!
# The flat solver finds a seed exactly when there is one

Splitting the state into halves splits each observed word's key into a part per half, up
to the carry of one addition modulo the prime. So the key of the low half lies in the
window of the high half, and the join visits every pair that can be a solution. What it
returns was verified.
-/

namespace Datboi.Xgd1

namespace Flat

open BucketSort (bump accumulate place start)

/-! ## Windows -/

theorem and_mask24 (x : Nat) : x &&& MASK24 = x % 2 ^ 24 := Nat.and_two_pow_sub_one_eq_mod x 24

theorem and_byte (x : Nat) : x &&& 0xFF = x % 2 ^ 8 := Nat.and_two_pow_sub_one_eq_mod x 8

theorem and_half (x : Nat) : x &&& 0xFFFF = x % 2 ^ 16 := Nat.and_two_pow_sub_one_eq_mod x 16

theorem buildKey_lt (obs : Nat) (g : Fp) (uhi : Nat) : Join.buildKey obs g uhi < 2 ^ 24 := by
  rw [Join.buildKey, and_mask24]
  exact Nat.mod_lt _ (by decide)

theorem windowStart_lt (obs : Nat) (f : Fp) (uh : Nat) : Join.windowStart obs f uh < 2 ^ 24 := by
  rw [Join.windowStart, and_mask24]
  exact Nat.mod_lt _ (by decide)

/-- The word observed at a state, split into its two bytes. -/
theorem observed_bytes {c u obs : Nat} (hobs : obs = (c ^^^ u) >>> 8 &&& 0xFFFF) :
    (obs &&& 0xFF) ^^^ (u / 2 ^ 8 % 2 ^ 8) = c / 2 ^ 8 % 2 ^ 8 ∧
      (obs >>> 8 &&& 0xFF) ^^^ (u / 2 ^ 16 % 2 ^ 8) = c / 2 ^ 16 % 2 ^ 8 := by
  have hsplit : obs = (c / 2 ^ 8 % 2 ^ 16) ^^^ (u / 2 ^ 8 % 2 ^ 16) := by
    rw [hobs, and_half, Nat.shiftRight_xor_distrib, Nat.xor_mod_two_pow, Nat.shiftRight_eq_div_pow,
      Nat.shiftRight_eq_div_pow]
  constructor
  · rw [and_byte, hsplit, Nat.xor_mod_two_pow, Nat.mod_mod_of_dvd _ (by decide),
      Nat.mod_mod_of_dvd _ (by decide), Nat.xor_assoc, Nat.xor_self, Nat.xor_zero]
  · have hhigh : ∀ x : Nat, x / 2 ^ 8 % 2 ^ 16 / 2 ^ 8 % 2 ^ 8 = x / 2 ^ 16 % 2 ^ 8 := by
      intro x
      omega
    rw [and_byte, hsplit, Nat.shiftRight_xor_distrib, Nat.xor_mod_two_pow,
      Nat.shiftRight_eq_div_pow, Nat.shiftRight_eq_div_pow, hhigh, hhigh, Nat.xor_assoc,
      Nat.xor_self, Nat.xor_zero]

theorem cast_two_pow_32 : ((2 ^ 32 : Nat) : ZMod (2 ^ 24)) = 0 :=
  (ZMod.natCast_eq_zero_iff _ _).mpr (Nat.pow_dvd_pow 2 (by decide))

/-- Wrapping subtraction, as keys see it. -/
theorem cast_wrappingSub (a : Nat) {b : Nat} (hb : b ≤ 2 ^ 32) :
    ((wrappingSub a b : Nat) : ZMod (2 ^ 24)) = a - b := by
  have hdvd : 2 ^ 24 ∣ 2 ^ 32 := Nat.pow_dvd_pow 2 (by decide)
  rw [wrappingSub, ← ZMod.natCast_mod _ (2 ^ 24), Nat.mod_mod_of_dvd _ hdvd, ZMod.natCast_mod,
    Nat.cast_add, Nat.cast_sub hb, cast_two_pow_32]
  ring

theorem byte_shifted_le (x : Nat) {k : Nat} (hk : k ≤ 16) : x % 2 ^ 8 * 2 ^ k ≤ 2 ^ 32 := by
  have hbyte : x % 2 ^ 8 ≤ 2 ^ 8 := Nat.le_of_lt (Nat.mod_lt _ (by decide))
  have hshift : 2 ^ k ≤ 2 ^ 16 := Nat.pow_le_pow_right (by decide) hk
  exact Nat.le_trans (Nat.mul_le_mul hbyte hshift) (by norm_num)

/-- The carry of one addition modulo the prime moves the key of the low half by no more
than the window allows for. -/
theorem key_in_window {c f g : Fp} (hc : c = f.add g) {obs uhi uh : Nat}
    (hlow : (obs &&& 0xFF) ^^^ uhi = c.val / 2 ^ 8 % 2 ^ 8)
    (hhigh : (obs >>> 8 &&& 0xFF) ^^^ (uh &&& 0xFF) = c.val / 2 ^ 16 % 2 ^ 8) :
    wrappingSub (Join.buildKey obs g uhi) (Join.windowStart obs f uh) &&& MASK24 < WINDOW := by
  have hval : c.val = (f.val + g.val) % P := by rw [hc, Fp.add_val]
  have hf := f.lt
  have hg := g.lt
  have hlowLt : c.val / 2 ^ 8 % 2 ^ 8 * 2 ^ 8 ≤ 2 ^ 32 := byte_shifted_le _ (by decide)
  have hhighLt : c.val / 2 ^ 16 % 2 ^ 8 * 2 ^ 16 ≤ 2 ^ 32 := byte_shifted_le _ (by decide)
  -- `2 ^ 32` vanishes, so leaving out the prime is adding `5`.
  obtain ⟨w, hw, hcarry⟩ : ∃ w ≤ 1, ((f.val + g.val + 5 * w : Nat) : ZMod (2 ^ 24)) = c.val := by
    simp only [P] at hf hg hval
    rcases Nat.lt_or_ge (f.val + g.val) P with hno | hyes
    · exact ⟨0, by omega, by rw [hval, Nat.mul_zero, Nat.add_zero, Nat.mod_eq_of_lt hno]⟩
    · refine ⟨1, by omega, ?_⟩
      simp only [P] at hyes
      have hsum : f.val + g.val + 5 * 1 = c.val + 2 ^ 32 := by omega
      rw [hsum, Nat.cast_add, cast_two_pow_32, add_zero]
  have hbytes : (c.val : ZMod (2 ^ 24)) = ((c.val / 2 ^ 16 % 2 ^ 8 * 2 ^ 16 +
      c.val / 2 ^ 8 % 2 ^ 8 * 2 ^ 8 + c.val % 2 ^ 8 : Nat) : ZMod (2 ^ 24)) := by
    rw [ZMod.natCast_eq_natCast_iff']
    omega
  have hstart := windowStart_lt obs f uh
  have hdistance : ((wrappingSub (Join.buildKey obs g uhi) (Join.windowStart obs f uh) :
      Nat) : ZMod (2 ^ 24)) = ((c.val % 2 ^ 8 + 5 - 5 * w : Nat) : ZMod (2 ^ 24)) := by
    have hkeyLt : ∀ x, x % 2 ^ 24 ≤ 2 ^ 32 := fun x => by omega
    rw [cast_wrappingSub _ (by omega), Join.buildKey, Join.windowStart, and_mask24, and_mask24,
      and_mask24, hlow, hhigh, Nat.shiftLeft_eq, Nat.shiftLeft_eq, ZMod.natCast_mod,
      ZMod.natCast_mod, cast_wrappingSub _ hlowLt, cast_wrappingSub _ (by decide),
      cast_wrappingSub _ (hkeyLt _), ZMod.natCast_mod, cast_wrappingSub _ hhighLt,
      Nat.cast_sub (by omega)]
    push_cast at hcarry hbytes ⊢
    linear_combination hcarry + hbytes
  rw [and_mask24]
  rw [ZMod.natCast_eq_natCast_iff'] at hdistance
  rw [hdistance, Nat.mod_eq_of_lt (by omega)]
  simp only [WINDOW]
  omega

/-- A key in the window lies in one of the buckets the window touches. -/
theorem bucket_in_window {lo key span buckets : Nat} (hspan : 0 < span)
    (hall : span * buckets = 2 ^ 24) (hlo : lo < 2 ^ 24) (hkey : key < 2 ^ 24)
    (hwindow : wrappingSub key lo &&& MASK24 < WINDOW) :
    ∃ t ≤ (lo % span + (WINDOW - 1)) / span, key / span = (lo / span + t) % buckets := by
  rw [and_mask24] at hwindow
  generalize hd : wrappingSub key lo % 2 ^ 24 = d at hwindow
  have hsum : key = (lo + d) % 2 ^ 24 := by
    rw [← hd, wrappingSub]
    omega
  refine ⟨(lo % span + d) / span, Nat.div_le_div_right (by omega), ?_⟩
  have hsplit : (lo + d) / span = lo / span + (lo % span + d) / span := by
    conv_lhs => rw [← Nat.mod_add_div lo span, Nat.add_right_comm, Nat.add_mul_div_left _ _ hspan]
    exact Nat.add_comm _ _
  rw [hsum, ← hall, Nat.mod_mul_right_div_self, hsplit]

/-! ## Building -/

/-- A running value: `step` added once for each index passed. -/
def running (first step : Fp) : Nat → Fp
  | 0 => first
  | k + 1 => (running first step k).add step

theorem toZ_running (first step : Fp) (k : Nat) :
    (running first step k).toZ = first.toZ + k * step.toZ := by
  induction k with
  | zero => simp [running]
  | succ k ih =>
    rw [running, Fp.toZ_add, ih]
    push_cast
    ring

/-- A loop that also advances running values is the loop over their values. -/
theorem foldlM_running {γ τ : Type} {advance : γ → γ} {value : Nat → γ}
    (hvalue : ∀ k, value (k + 1) = advance (value k)) (body : γ → Nat → τ → Option τ)
    (n k : Nat) (t : τ) :
    (List.range' k n).foldlM (fun (state : γ × τ) x => do
        let t ← body state.1 x state.2
        return (advance state.1, t)) (value k, t) =
      ((List.range' k n).foldlM (fun t x => body (value x) x t) t).map fun t =>
        (value (k + n), t) := by
  induction n generalizing k t with
  | zero => rfl
  | succ n ih =>
    rw [List.range'_succ, List.foldlM_cons, List.foldlM_cons]
    cases hbody : body (value k) k t with
    | none => simp
    | some after =>
      have hrest := ih (k + 1) after
      rw [hvalue k, Nat.add_right_comm, Nat.add_assoc] at hrest
      simpa using hrest

theorem lowHalves_eq :
    Join.lowHalves = (List.range' 0 65536).map fun ul => (ul / 256, ul % 256) := by
  have hgroups := Chunks.flatMap_range_groups (fun ul => [(ul / 256, ul % 256)]) 65536 256 256
  rw [← List.range_eq_range', List.map_eq_flatMap, ← Nat.min_self 65536]
  refine Eq.trans ?_ hgroups
  refine List.flatMap_congr fun uhi huhi => ?_
  rw [List.mem_range] at huhi
  have hcount : min (65536 - uhi * 256) 256 = 256 := by omega
  rw [hcount, List.map_eq_flatMap]
  refine List.flatMap_congr fun ulo hulo => ?_
  rw [List.mem_range] at hulo
  have hdiv : (uhi * 256 + ulo) / 256 = uhi := by omega
  have hmod : (uhi * 256 + ulo) % 256 = ulo := by omega
  rw [hdiv, hmod]

namespace Join

variable (join : Join)

/-- The keys of a low half for the two observed words. -/
def key (ul : Nat) : Nat := buildKey join.obs0 (running join.beta join.alpha ul) (ul / 256)

def key2 (ul : Nat) : Nat := buildKey join.obs1 (running join.beta2 join.alpha2 ul) (ul / 256)

def bucketOf (ul : Nat) : Nat := join.key ul >>> join.logSpan

def packed (ul : Nat) : Nat :=
  join.entry (join.key ul) (join.key2 ul) ((ul / 256) <<< 8 ||| ul % 256)

theorem countStep_foldlM (cnt : Vector Nat 65537) :
    lowHalves.foldlM join.countStep (join.beta, cnt) =
      ((List.range 65536).foldlM (fun cnt ul => bump cnt (join.bucketOf ul)) cnt).map fun cnt =>
        (running join.beta join.alpha 65536, cnt) := by
  rw [lowHalves_eq, List.foldlM_map, List.range_eq_range']
  have hloop := @foldlM_running Fp _ (·.add join.alpha) (running join.beta join.alpha)
    (fun _ => rfl)
    (fun g ul cnt => bump cnt (buildKey join.obs0 g (ul / 256) >>> join.logSpan)) 65536 0 cnt
  rw [Nat.zero_add] at hloop
  exact hloop

theorem fillStep_foldlM (tables : Vector Nat 65537 × Vector Nat 65536) :
    lowHalves.foldlM join.fillStep ((join.beta, join.beta2), tables) =
      ((List.range 65536).foldlM (fun tables ul =>
        place tables (join.bucketOf ul) (join.packed ul)) tables).map fun tables =>
          ((running join.beta join.alpha 65536, running join.beta2 join.alpha2 65536), tables) := by
  rw [lowHalves_eq, List.foldlM_map, List.range_eq_range']
  have hloop := @foldlM_running (Fp × Fp) _
    (fun g => (g.1.add join.alpha, g.2.add join.alpha2))
    (fun k => (running join.beta join.alpha k, running join.beta2 join.alpha2 k)) (fun _ => rfl)
    (fun g ul tables =>
      place tables (buildKey join.obs0 g.1 (ul / 256) >>> join.logSpan)
        (join.entry (buildKey join.obs0 g.1 (ul / 256)) (buildKey join.obs1 g.2 (ul / 256))
          ((ul / 256) <<< 8 ||| ul % 256)))
    65536 0 tables
  rw [Nat.zero_add] at hloop
  exact hloop

end Join

/-! ## Geometry -/

theorem nbuckets_eq (logSpan : Nat) : nbuckets logSpan = 2 ^ (24 - logSpan) := by
  rw [nbuckets, Nat.one_shiftLeft]

theorem span_mul_nbuckets {logSpan : Nat} (hhigh : logSpan ≤ 16) :
    2 ^ logSpan * nbuckets logSpan = 2 ^ 24 := by
  rw [nbuckets_eq, ← pow_add]
  congr 1
  omega

theorem nbuckets_pos (logSpan : Nat) : 0 < nbuckets logSpan := by
  rw [nbuckets_eq]
  exact Nat.two_pow_pos _

theorem nbuckets_le {logSpan : Nat} (hlow : 8 ≤ logSpan) : nbuckets logSpan ≤ 65536 := by
  have hpow : 2 ^ (24 - logSpan) ≤ 2 ^ 16 := Nat.pow_le_pow_right (by decide) (by omega)
  rw [nbuckets_eq]
  exact hpow

theorem and_spanMask (logSpan x : Nat) : x &&& spanMask logSpan = x % 2 ^ logSpan := by
  rw [spanMask, Nat.one_shiftLeft, Nat.and_two_pow_sub_one_eq_mod]

theorem and_bucketMask (logSpan x : Nat) :
    x &&& bucketMask logSpan = x % nbuckets logSpan := by
  rw [bucketMask, nbuckets_eq, Nat.and_two_pow_sub_one_eq_mod]

namespace Join

variable {join : Join}

theorem key_lt (ul : Nat) : join.key ul < 2 ^ 24 := buildKey_lt _ _ _

theorem key2_lt (ul : Nat) : join.key2 ul < 2 ^ 24 := buildKey_lt _ _ _

theorem bucketOf_eq (ul : Nat) : join.bucketOf ul = join.key ul / 2 ^ join.logSpan :=
  Nat.shiftRight_eq_div_pow _ _

theorem bucketOf_lt (hhigh : join.logSpan ≤ 16) (ul : Nat) :
    join.bucketOf ul < nbuckets join.logSpan := by
  rw [bucketOf_eq, Nat.div_lt_iff_lt_mul (Nat.two_pow_pos _), Nat.mul_comm,
    span_mul_nbuckets hhigh]
  exact key_lt ul

/-- The low halves are sorted into their buckets. -/
structure Built (join : Join) (ws : Workspace) : Prop where
  cnt : ∀ j (hj : j < 65537), j ≤ nbuckets join.logSpan →
    ws.cnt[j] = start join.bucketOf (List.range 65536) j
  slots : ∀ ul < 65536, ∃ s, ∃ hs : s < 65536,
    start join.bucketOf (List.range 65536) (join.bucketOf ul) ≤ s ∧
      s < start join.bucketOf (List.range 65536) (join.bucketOf ul + 1) ∧
      ws.slots[s] = join.packed ul

/-- Building goes through, whatever the tables held before. -/
theorem build_built (hlow : 8 ≤ join.logSpan) (hhigh : join.logSpan ≤ 16) (ws : Workspace) :
    ∃ built, join.build ws = some built ∧ join.Built built := by
  have hnb := nbuckets_le hlow
  have hpos := nbuckets_pos join.logSpan
  have hbucket : ∀ ul ∈ List.range 65536, join.bucketOf ul < nbuckets join.logSpan :=
    fun ul _ => bucketOf_lt hhigh ul
  obtain ⟨counted, hcounted, hcounts⟩ := BucketSort.bump_foldlM
    (ws.cnt.mapIdx fun j c => if j ≤ nbuckets join.logSpan then 0 else c)
    fun ul hul => Nat.lt_trans (hbucket ul hul) (Nat.lt_of_le_of_lt hnb (by decide))
  obtain ⟨ended, hended, hends⟩ := BucketSort.accumulate_foldlM
    (k := nbuckets join.logSpan - 1) counted (by omega) (fun j hj hle => by
      rw [hcounts j hj, Vector.getElem_mapIdx, if_pos (by omega), Nat.zero_add])
  have hlen : (List.range 65536).length = 65536 := List.length_range
  obtain ⟨placed, hplaced, hstarts, hslots⟩ := @BucketSort.place_foldlM Nat Nat 65537 65536
    join.bucketOf join.packed (List.range 65536) (nbuckets join.logSpan)
    (ended.setIfInBounds (nbuckets join.logSpan) 65536, ws.slots) (by omega)
    (fun j hj hlt => by
      rw [Vector.getElem_setIfInBounds hj, if_neg (by omega)]
      exact hends j hj (by omega))
    (by rw [Vector.getElem_setIfInBounds (by omega), if_pos rfl, hlen])
    hbucket (by rw [hlen])
  refine ⟨⟨placed.1, placed.2⟩, ?_, hstarts, fun ul hul => hslots ul (List.mem_range.mpr hul)⟩
  have hfits : nbuckets join.logSpan < 65537 := by omega
  -- the generators that the two passes end with do not matter
  obtain ⟨g, hcount⟩ : ∃ g, lowHalves.foldlM join.countStep
      (join.beta, ws.cnt.mapIdx fun j c => if j ≤ nbuckets join.logSpan then 0 else c) =
        some (g, counted) :=
    ⟨_, by rw [countStep_foldlM, hcounted, Option.map_some]⟩
  obtain ⟨g', hfill⟩ : ∃ g', lowHalves.foldlM join.fillStep ((join.beta, join.beta2),
      ended.setIfInBounds (nbuckets join.logSpan) 65536, ws.slots) = some (g', placed) :=
    ⟨_, by rw [fillStep_foldlM, hplaced, Option.map_some]⟩
  rw [build, clear, if_pos hfits]
  simp only [Option.bind_eq_bind, Option.bind_some, hcount, hended, if_pos hfits, hfill]
  rfl

/-! ## Entries -/

variable {ul : Nat}

/-- An entry is three fields side by side. -/
theorem entry_eq (bv bv2 : Nat) (hul : ul < 2 ^ 16) :
    join.entry bv bv2 ul =
      ((if fbits join.logSpan = 0 then 0 else bv2 / 2 ^ fshift join.logSpan) * 2 ^ join.logSpan +
        bv % 2 ^ join.logSpan) * 2 ^ 16 + ul := by
  have hfield : bv % 2 ^ join.logSpan * 2 ^ 16 < 2 ^ eshift join.logSpan := by
    rw [eshift, Nat.add_comm, pow_add]
    exact Nat.mul_lt_mul_of_pos_right (Nat.mod_lt _ (Nat.two_pow_pos _)) (by decide)
  have hfpart : (if fbits join.logSpan = 0 then 0
      else (bv2 >>> fshift join.logSpan) <<< eshift join.logSpan) =
      (if fbits join.logSpan = 0 then 0 else bv2 / 2 ^ fshift join.logSpan) <<<
        eshift join.logSpan := by
    split_ifs with hzero
    · rw [Nat.zero_shiftLeft]
    · rw [Nat.shiftRight_eq_div_pow]
  simp only [entry]
  rw [hfpart, and_spanMask, Nat.shiftLeft_eq (bv % 2 ^ join.logSpan),
    ← Nat.shiftLeft_add_eq_or_of_lt hfield, Nat.shiftLeft_eq, eshift, Nat.add_comm 16, pow_add,
    ← Nat.mul_assoc, ← Nat.add_mul, ← Nat.shiftLeft_eq _ 16, ← Nat.shiftLeft_add_eq_or_of_lt hul]

theorem packed_eq (hul : ul < 2 ^ 16) :
    join.packed ul =
      ((if fbits join.logSpan = 0 then 0 else join.key2 ul / 2 ^ fshift join.logSpan) *
        2 ^ join.logSpan + join.key ul % 2 ^ join.logSpan) * 2 ^ 16 + ul := by
  have hlow : ul % 256 < 2 ^ 8 := Nat.mod_lt _ (by decide)
  have hhalf : (ul / 256) <<< 8 ||| ul % 256 = ul := by
    rw [← Nat.shiftLeft_add_eq_or_of_lt hlow, Nat.shiftLeft_eq]
    omega
  rw [packed, hhalf, entry_eq _ _ hul]

theorem packed_low (hul : ul < 2 ^ 16) : join.packed ul &&& 0xFFFF = ul := by
  rw [packed_eq hul, and_half, Nat.mul_add_mod_self_right, Nat.mod_eq_of_lt hul]

theorem packed_middle (hul : ul < 2 ^ 16) :
    join.packed ul >>> 16 &&& spanMask join.logSpan = join.key ul % 2 ^ join.logSpan := by
  rw [packed_eq hul, and_spanMask, Nat.shiftRight_eq_div_pow, Nat.add_comm,
    Nat.add_mul_div_right _ _ (by decide), Nat.div_eq_of_lt hul, Nat.zero_add,
    Nat.mul_add_mod_self_right, Nat.mod_mod]

theorem packed_high (hul : ul < 2 ^ 16) (hfbits : fbits join.logSpan ≠ 0) :
    join.packed ul >>> eshift join.logSpan = join.key2 ul / 2 ^ fshift join.logSpan := by
  rw [packed_eq hul, if_neg hfbits, Nat.shiftRight_eq_div_pow, eshift, pow_add,
    ← Nat.div_div_eq_div_mul, Nat.add_comm, Nat.add_mul_div_right _ _ (by decide),
    Nat.div_eq_of_lt hul, Nat.zero_add, Nat.add_comm,
    Nat.add_mul_div_right _ _ (Nat.two_pow_pos _),
    Nat.div_eq_of_lt (Nat.mod_lt _ (Nat.two_pow_pos _)), Nat.zero_add]

/-- An entry whose keys lie in both windows is kept. -/
theorem not_rejected (hhigh : join.logSpan ≤ 16) {lo lo2 : Nat} (hul : ul < 65536)
    (hlo2 : lo2 < 2 ^ 24) (hwindow : wrappingSub (join.key ul) lo &&& MASK24 < WINDOW)
    (hwindow2 : wrappingSub (join.key2 ul) lo2 &&& MASK24 < WINDOW) :
    join.rejected lo lo2 (join.bucketOf ul) (join.packed ul) = false := by
  have hkey : join.bucketOf ul <<< join.logSpan |||
      (join.packed ul >>> 16 &&& spanMask join.logSpan) = join.key ul := by
    rw [packed_middle hul, ← Nat.shiftLeft_add_eq_or_of_lt (Nat.mod_lt _ (Nat.two_pow_pos _)),
      Nat.shiftLeft_eq, bucketOf_eq, Nat.div_add_mod']
  rw [rejected, hkey]
  refine decide_eq_false (not_or.mpr ⟨Nat.not_le.mpr hwindow, fun hboth => ?_⟩)
  obtain ⟨hfbits, hprefix⟩ := hboth
  have hspan : 2 ^ fshift join.logSpan * 2 ^ fbits join.logSpan = 2 ^ 24 := by
    rw [← pow_add, fshift, fbits]
    congr 1
    omega
  obtain ⟨t, ht, hbucket⟩ := bucket_in_window (Nat.two_pow_pos _) hspan hlo2 (key2_lt ul) hwindow2
  have hdvd : 2 ^ fbits join.logSpan ∣ 2 ^ 32 := Nat.pow_dvd_pow 2 (by rw [fbits]; omega)
  have hflow : lo2 &&& flow join.logSpan = lo2 % 2 ^ fshift join.logSpan := by
    rw [flow, Nat.one_shiftLeft, Nat.and_two_pow_sub_one_eq_mod]
  have hfmask : ∀ x, x &&& fmask join.logSpan = x % 2 ^ fbits join.logSpan := by
    intro x
    rw [fmask, if_neg hfbits, Nat.one_shiftLeft, Nat.and_two_pow_sub_one_eq_mod]
  have htf : lo2 / 2 ^ fshift join.logSpan ≤ 2 ^ 32 :=
    Nat.le_trans (Nat.div_le_self _ _) (by omega)
  -- The distance between the two prefixes is `t`, modulo the number of prefixes.
  have hdistance : (wrappingSub (join.key2 ul / 2 ^ fshift join.logSpan)
      (lo2 / 2 ^ fshift join.logSpan)) % 2 ^ fbits join.logSpan = t % 2 ^ fbits join.logSpan := by
    have hsum : lo2 / 2 ^ fshift join.logSpan + t + (2 ^ 32 - lo2 / 2 ^ fshift join.logSpan) =
        t + 2 ^ 32 := by omega
    rw [wrappingSub, Nat.mod_mod_of_dvd _ hdvd, hbucket, Nat.mod_add_mod, hsum, Nat.add_mod,
      Nat.mod_eq_zero_of_dvd hdvd, Nat.add_zero, Nat.mod_mod]
  rw [packed_high hul hfbits, hfmask, Nat.shiftRight_eq_div_pow, Nat.shiftRight_eq_div_pow,
    hdistance, hflow] at hprefix
  have hmod := Nat.mod_le t (2 ^ fbits join.logSpan)
  omega

/-! ## The exact check -/

theorem verify_of_seedOf {s0 : Nat} {seed : UInt32} (hseed : join.seedOf s0 = some seed) :
    verify seed join.streamSector join.sector = true := by
  obtain ⟨cand, -, hcand⟩ := List.exists_of_findSome?_eq_some hseed
  split_ifs at hcand with hwrapped hbits hverify
  rw [Option.some.injEq] at hcand
  rwa [← hcand]

/-- Whatever the exact check returns was verified. -/
theorem verify_of_exact {uh : Nat} {seed : UInt32} (hseed : join.exact uh ul = some seed) :
    verify seed join.streamSector join.sector = true := by
  rw [exact] at hseed
  simp only at hseed
  split_ifs at hseed
  exact verify_of_seedOf hseed

/-- A seed that verifies is among the candidates of its residue. -/
theorem seedOf_isSome {seed : UInt32} (hi : join.i = lowBits seed)
    (hverify : verify seed join.streamSector join.sector = true) :
    join.seedOf (Fp.reduce seed.toUInt64).val ≠ none := by
  have hval : (Fp.reduce seed.toUInt64).val = seed.toNat % P := by
    rw [Fp.reduce_val, UInt32.toNat_toUInt64]
  have hlt := seed.toNat_lt
  have hbits : seed.toNat &&& 7 = join.i := by
    rw [hi, Nat.and_two_pow_sub_one_eq_mod seed.toNat 3]
    rfl
  intro hnone
  rw [seedOf, List.findSome?_eq_none_iff] at hnone
  have hcand : seed.toNat ∈ [(Fp.reduce seed.toUInt64).val,
      ((Fp.reduce seed.toUInt64).val + P) % 2 ^ 32] := by
    rw [hval]
    simp only [P, List.mem_cons, List.not_mem_nil, or_false]
    omega
  have hle : ¬ seed.toNat < (Fp.reduce seed.toUInt64).val := by
    rw [hval]
    exact Nat.not_lt.mpr (Nat.mod_le _ _)
  have hfound := hnone _ hcand
  rw [if_neg hle, if_neg (by rw [hbits]; simp), UInt32.ofNat_toNat, if_pos hverify] at hfound
  cases hfound

end Join

/-! ## The words of a state -/

section Words

variable (logSpan : Nat) {sector : Sector} {streamSector seed : UInt32}

/-- The join for the multiplier of a seed. -/
abbrev joinOf (logSpan : Nat) (sector : Sector) (streamSector seed : UInt32) : Join :=
  .new logSpan sector streamSector (lowBits seed)

/-- The state the first word of the sector is made of. -/
def firstWord (join : Join) (u : Fp) : Fp := (join.alpha.mul u).add join.beta

def secondWord (join : Join) (u : Fp) : Fp := ((firstWord join u).add .ONE).mul join.b

theorem skipped_succ (streamSector : UInt32) :
    (wordIndex streamSector).toNat = (Prng.skipped streamSector).toNat + 1 := by
  have hlt := streamSector.toNat_lt
  have hfits : 1 + WORDS_PER_SECTOR * streamSector.toNat < UInt64.size := by
    simp only [UInt64.size, WORDS_PER_SECTOR, SECTOR_LEN]
    omega
  rw [wordIndex, Prng.skipped, UInt64.toNat_ofNat_of_lt' hfits,
    UInt64.toNat_ofNat_of_lt' (by omega), Nat.add_comm]

theorem nextWord_new :
    (Prng.new seed streamSector).nextWord =
      (((firstWord (joinOf logSpan sector streamSector seed) (stateOf seed)).val ^^^
          (stateOf seed).val) >>> 8 &&& 0xFFFF,
        { a := (stateOf seed).val
          b := multiplier (lowBits seed)
          c := firstWord (joinOf logSpan sector streamSector seed) (stateOf seed) }) := by
  have hword : ((Prng.new seed streamSector).c.add .ONE).mul (Prng.new seed streamSector).b =
      firstWord (joinOf logSpan sector streamSector seed) (stateOf seed) :=
    affinePow_succ (lowBits seed) (skipped_succ streamSector) (stateOf seed)
  rw [Prng.nextWord]
  simp only [hword]
  rfl

/-- The two words observed in a sector that a seed generates. -/
theorem observed_words
    (hgenerates : (Prng.new seed streamSector).fillSector = sector.toList) :
    observed sector 0 =
        ((firstWord (joinOf logSpan sector streamSector seed) (stateOf seed)).val ^^^
          (stateOf seed).val) >>> 8 &&& 0xFFFF ∧
      observed sector 2 =
        ((secondWord (joinOf logSpan sector streamSector seed) (stateOf seed)).val ^^^
          (stateOf seed).val) >>> 8 &&& 0xFFFF := by
  have hget : ∀ i : Fin 2048, sector.get i = sector.toList.getD i 0 := by
    intro i
    have hi : i.val < sector.toList.length := by
      rw [sector.toList_length]
      exact i.isLt
    rw [List.getD_eq_getElem?_getD, List.getElem?_eq_getElem hi, List.Vector.get_eq_get_toList]
    rfl
  have hfill : sector.toList =
      UInt8.ofNat ((Prng.new seed streamSector).nextWord.1 &&& 0xFF) ::
        UInt8.ofNat ((Prng.new seed streamSector).nextWord.1 >>> 8) ::
        UInt8.ofNat ((Prng.new seed streamSector).nextWord.2.nextWord.1 &&& 0xFF) ::
        UInt8.ofNat ((Prng.new seed streamSector).nextWord.2.nextWord.1 >>> 8) ::
        Prng.fillLoop 1022 (Prng.new seed streamSector).nextWord.2.nextWord.2 := by
    rw [← hgenerates]
    rfl
  have hfirst : observed sector 0 = (Prng.new seed streamSector).nextWord.1 := by
    rw [observed, hget, hget, hfill]
    exact word_of_bytes (nextWord_lt _)
  have hsecond : observed sector 2 = (Prng.new seed streamSector).nextWord.2.nextWord.1 := by
    rw [observed, hget, hget, hfill]
    exact word_of_bytes (nextWord_lt _)
  rw [hfirst, hsecond, @nextWord_new logSpan sector]
  exact ⟨rfl, rfl⟩

/-- The observed word and the state's bits give the word's own bits. -/
theorem word_bits {c u obs : Nat} (hobs : obs = (c ^^^ u) >>> 8 &&& 0xFFFF) :
    c >>> 8 &&& 0xFFFF = obs ^^^ (u >>> 8 &&& 0xFFFF) := by
  rw [hobs, Nat.shiftRight_xor_distrib, and_half, and_half, and_half, Nat.xor_mod_two_pow,
    Nat.xor_assoc, Nat.xor_self, Nat.xor_zero]

/-- The exact check accepts the state of a seed that verifies. -/
theorem exact_isSome (hverify : verify seed streamSector sector = true) :
    (joinOf logSpan sector streamSector seed).exact ((stateOf seed).val / 65536)
      ((stateOf seed).val % 65536) ≠ none := by
  obtain ⟨hfirst, hsecond⟩ := observed_words logSpan ((verify_iff _ _ _).mp hverify)
  have hlow : (stateOf seed).val % 65536 < 2 ^ 16 := Nat.mod_lt _ (by decide)
  have hstate : ((stateOf seed).val / 65536) <<< 16 ||| (stateOf seed).val % 65536 =
      (stateOf seed).val := by
    rw [← Nat.shiftLeft_add_eq_or_of_lt hlow, Nat.shiftLeft_eq]
    exact Nat.div_add_mod' _ _
  have hfits : (stateOf seed).val < UInt64.size :=
    Nat.lt_of_lt_of_le (stateOf seed).lt (by decide)
  have hreduce : Fp.reduce (UInt64.ofNat (stateOf seed).val) = stateOf seed := by
    apply Fp.toZ_inj
    rw [Fp.toZ_reduce, UInt64.toNat_ofNat_of_lt' hfits, Fp.toZ]
  have hbits0 : (((joinOf logSpan sector streamSector seed).alpha.mul (stateOf seed)).add
      (joinOf logSpan sector streamSector seed).beta).val >>> 8 &&& 0xFFFF =
      (joinOf logSpan sector streamSector seed).obs0 ^^^ ((stateOf seed).val >>> 8 &&& 0xFFFF) :=
    word_bits hfirst
  have hbits1 : (((((joinOf logSpan sector streamSector seed).alpha.mul (stateOf seed)).add
      (joinOf logSpan sector streamSector seed).beta).add .ONE).mul
      (joinOf logSpan sector streamSector seed).b).val >>> 8 &&& 0xFFFF =
      (joinOf logSpan sector streamSector seed).obs1 ^^^ ((stateOf seed).val >>> 8 &&& 0xFFFF) :=
    word_bits hsecond
  rw [Join.exact]
  simp only [hstate, hreduce]
  rw [if_neg (Nat.not_le.mpr (stateOf seed).lt), if_neg (not_not.mpr hbits0),
    if_neg (not_not.mpr hbits1)]
  have hs0 : (((stateOf seed).mul (joinOf logSpan sector streamSector seed).binv).sub .ONE) =
      Fp.reduce seed.toUInt64 := seed_of_state seed
  rw [hs0]
  exact Join.seedOf_isSome rfl hverify

/-- The state's halves. -/
theorem toZ_halves (u : Fp) :
    u.toZ = ((u.val / 65536 : Nat) : ZMod P) * 65536 + ((u.val % 65536 : Nat) : ZMod P) := by
  have hsplit : u.val = u.val / 65536 * 65536 + u.val % 65536 := (Nat.div_add_mod' _ _).symm
  rw [Fp.toZ]
  conv_lhs => rw [hsplit]
  push_cast
  ring

theorem toZ_fStep (alpha : Fp) : (alpha.mul (.reduce 65536)).toZ = alpha.toZ * 65536 := by
  rw [Fp.toZ_mul, Fp.toZ_reduce]
  rfl

/-- Each word is the sum of the running values of the two halves. -/
theorem firstWord_eq (join : Join) (u : Fp) :
    firstWord join u =
      (running .ZERO (join.alpha.mul (.reduce 65536)) (u.val / 65536)).add
        (running join.beta join.alpha (u.val % 65536)) := by
  apply Fp.toZ_inj
  rw [firstWord, Fp.toZ_add, Fp.toZ_mul, Fp.toZ_add, toZ_running, toZ_running, toZ_fStep,
    Fp.toZ_zero, toZ_halves u]
  ring

theorem secondWord_eq (u : Fp) :
    secondWord (joinOf logSpan sector streamSector seed) u =
      (running .ZERO ((joinOf logSpan sector streamSector seed).alpha2.mul (.reduce 65536))
        (u.val / 65536)).add
        (running (joinOf logSpan sector streamSector seed).beta2
          (joinOf logSpan sector streamSector seed).alpha2 (u.val % 65536)) := by
  have halpha : (joinOf logSpan sector streamSector seed).alpha2.toZ =
      (joinOf logSpan sector streamSector seed).alpha.toZ *
        (joinOf logSpan sector streamSector seed).b.toZ := Fp.toZ_mul _ _
  have hbeta : (joinOf logSpan sector streamSector seed).beta2.toZ =
      (joinOf logSpan sector streamSector seed).beta.toZ *
        (joinOf logSpan sector streamSector seed).b.toZ +
        (joinOf logSpan sector streamSector seed).b.toZ := by
    rw [← Fp.toZ_mul, ← Fp.toZ_add]
    rfl
  apply Fp.toZ_inj
  rw [secondWord, firstWord, Fp.toZ_mul, Fp.toZ_add, Fp.toZ_add, Fp.toZ_mul, Fp.toZ_add,
    toZ_running, toZ_running, toZ_fStep, Fp.toZ_zero, Fp.toZ_one, toZ_halves u, halpha, hbeta]
  ring

/-- A word observed at a state puts the key of the low half into the window of the high
half. -/
theorem window_of_word {c f g u : Fp} {obs : Nat} (hc : c = f.add g)
    (hobs : obs = (c.val ^^^ u.val) >>> 8 &&& 0xFFFF) :
    wrappingSub (Join.buildKey obs g (u.val % 65536 / 256))
      (Join.windowStart obs f (u.val / 65536)) &&& MASK24 < WINDOW := by
  obtain ⟨hlow, hhigh⟩ := observed_bytes hobs
  have huhi : u.val / 2 ^ 8 % 2 ^ 8 = u.val % 65536 / 256 := by omega
  have hub : u.val / 2 ^ 16 % 2 ^ 8 = u.val / 65536 &&& 0xFF := (and_byte _).symm
  rw [huhi] at hlow
  rw [hub] at hhigh
  exact key_in_window hc hlow hhigh

end Words

/-! ## The search -/

/-- A search whose steps all go through: what it finds some step found, and if it finds
nothing no step does. -/
theorem findSomeM?_spec {α β : Type} (xs : List α) {f : α → Option (Option β)}
    (hf : ∀ x ∈ xs, ∃ found, f x = some found) :
    ∃ found, xs.findSomeM? f = some found ∧
      (∀ b, found = some b → ∃ x ∈ xs, f x = some (some b)) ∧
      (found = none → ∀ x ∈ xs, f x = some none) := by
  induction xs with
  | nil =>
    exact ⟨none, rfl, fun b hb => (nomatch hb), fun _ x hx => absurd hx List.not_mem_nil⟩
  | cons x xs ih =>
    obtain ⟨first, hfirst⟩ := hf x (List.mem_cons_self ..)
    obtain ⟨found, hfound, hsome, hnone⟩ := ih fun y hy => hf y (List.mem_cons_of_mem x hy)
    cases first with
    | some b =>
      refine ⟨some b, by rw [List.findSomeM?, hfirst]; rfl, fun b' hb => ?_,
        fun hnone => by cases hnone⟩
      exact ⟨x, List.mem_cons_self .., hb ▸ hfirst⟩
    | none =>
      refine ⟨found, by rw [List.findSomeM?, hfirst]; exact hfound, fun b hb => ?_,
        fun hempty y hy => ?_⟩
      · obtain ⟨y, hy, hyb⟩ := hsome b hb
        exact ⟨y, List.mem_cons_of_mem x hy, hyb⟩
      · rcases List.mem_cons.mp hy with rfl | hy
        · exact hfirst
        · exact hnone hempty y hy

/-- A verdict of part of the search: what was found was verified. -/
def Verified (sector : Sector) (streamSector : UInt32) (found : Option UInt32) : Prop :=
  ∀ seed, found = some seed → verify seed streamSector sector = true

namespace Join

variable {join : Join} {ws : Workspace}

theorem scanBucket_eq {uh lo lo2 j first stop : Nat} (hfirst : ws.cnt[j]? = some first)
    (hstop : ws.cnt[j + 1]? = some stop) :
    join.scanBucket ws uh lo lo2 j = (List.range' first (stop - first)).findSomeM? fun s => do
      let e ← ws.slots[s &&& 0xFFFF]?
      return if join.rejected lo lo2 j e then none else join.exact uh (e &&& 0xFFFF) := by
  rw [scanBucket, hfirst, hstop]
  simp only [Option.bind_eq_bind, Option.bind_some]

/-- A bucket is scanned without leaving the tables; if nothing is found in it, no kept
entry passed the exact check. -/
theorem scanBucket_spec (hlow : 8 ≤ join.logSpan) (hbuilt : join.Built ws) (uh lo lo2 : Nat)
    {j : Nat} (hj : j < nbuckets join.logSpan) :
    ∃ found, join.scanBucket ws uh lo lo2 j = some found ∧
      Verified join.sector join.streamSector found ∧
      (found = none → ∀ ul < 65536, join.bucketOf ul = j →
        join.rejected lo lo2 j (join.packed ul) = false →
        join.exact uh (join.packed ul &&& 0xFFFF) = none) := by
  have hnb := nbuckets_le hlow
  have hj0 : j < 65537 := by omega
  have hj1 : j + 1 < 65537 := by omega
  have hstart := hbuilt.cnt j hj0 (by omega)
  have hstop := hbuilt.cnt (j + 1) hj1 (by omega)
  have hread : ∀ s, ∃ e, ws.slots[s &&& 0xFFFF]? = some e := by
    intro s
    have hs : s &&& 0xFFFF < 65536 := by
      rw [and_half]
      exact Nat.mod_lt _ (by decide)
    exact ⟨_, Vector.getElem?_eq_getElem hs⟩
  obtain ⟨found, hfound, hsome, hnone⟩ := findSomeM?_spec
    (List.range' (start join.bucketOf (List.range 65536) j)
      (start join.bucketOf (List.range 65536) (j + 1) -
        start join.bucketOf (List.range 65536) j))
    (f := fun s => do
      let e ← ws.slots[s &&& 0xFFFF]?
      return if join.rejected lo lo2 j e then none else join.exact uh (e &&& 0xFFFF))
    (fun s _ => by
      obtain ⟨e, he⟩ := hread s
      rw [he]
      exact ⟨_, rfl⟩)
  refine ⟨found, ?_, fun seed hseed => ?_, fun hempty ul hul hbucket hkept => ?_⟩
  · rw [scanBucket_eq ((Vector.getElem?_eq_getElem hj0).trans (congrArg some hstart))
      ((Vector.getElem?_eq_getElem hj1).trans (congrArg some hstop))]
    exact hfound
  · obtain ⟨s, -, hs⟩ := hsome seed hseed
    obtain ⟨e, he⟩ := hread s
    rw [he] at hs
    simp only [Option.bind_eq_bind, Option.bind_some, Option.pure_def, Option.some.injEq] at hs
    split_ifs at hs
    exact verify_of_exact hs
  · obtain ⟨s, hs, hfrom, hto, hslot⟩ := hbuilt.slots ul hul
    rw [hbucket] at hfrom hto
    have hmem : s ∈ List.range' (start join.bucketOf (List.range 65536) j)
        (start join.bucketOf (List.range 65536) (j + 1) -
          start join.bucketOf (List.range 65536) j) := by
      rw [List.mem_range'_1]
      omega
    have hmask : s &&& 0xFFFF = s := by
      rw [and_half]
      exact Nat.mod_eq_of_lt hs
    have hstep := hnone hempty s hmem
    rw [hmask, Vector.getElem?_eq_getElem hs, hslot] at hstep
    simpa [hkept] using hstep

/-- All buckets of a window: if nothing is found, no low half whose keys lie in both
windows passes the exact check. -/
theorem probe_spec (hlow : 8 ≤ join.logSpan) (hhigh : join.logSpan ≤ 16)
    (hbuilt : join.Built ws) (uh : Nat) (f f2 : Fp) :
    ∃ found, join.probe ws uh f f2 = some found ∧
      Verified join.sector join.streamSector found ∧
      (found = none → ∀ ul < 65536,
        wrappingSub (join.key ul) (windowStart join.obs0 f uh) &&& MASK24 < WINDOW →
        wrappingSub (join.key2 ul) (windowStart join.obs1 f2 uh) &&& MASK24 < WINDOW →
        join.exact uh ul = none) := by
  have hbucket : ∀ t, windowStart join.obs0 f uh >>> join.logSpan + t &&&
      bucketMask join.logSpan < nbuckets join.logSpan := by
    intro t
    rw [and_bucketMask]
    exact Nat.mod_lt _ (nbuckets_pos _)
  obtain ⟨found, hfound, hsome, hnone⟩ := findSomeM?_spec
    (List.range (((windowStart join.obs0 f uh &&& spanMask join.logSpan) + (WINDOW - 1)) >>>
      join.logSpan + 1))
    (f := fun t => join.scanBucket ws uh (windowStart join.obs0 f uh)
      (windowStart join.obs1 f2 uh)
      (windowStart join.obs0 f uh >>> join.logSpan + t &&& bucketMask join.logSpan))
    (fun t _ => by
      obtain ⟨found, hfound, -⟩ := scanBucket_spec hlow hbuilt uh (windowStart join.obs0 f uh)
        (windowStart join.obs1 f2 uh) (hbucket t)
      exact ⟨found, hfound⟩)
  refine ⟨found, hfound, fun seed hseed => ?_, fun hempty ul hul hwindow hwindow2 => ?_⟩
  · obtain ⟨t, -, ht⟩ := hsome seed hseed
    obtain ⟨other, hother, hverified, -⟩ := scanBucket_spec hlow hbuilt uh
      (windowStart join.obs0 f uh) (windowStart join.obs1 f2 uh) (hbucket t)
    rw [hother, Option.some.injEq] at ht
    exact hverified seed ht
  · obtain ⟨t, ht, hkey⟩ := bucket_in_window (Nat.two_pow_pos _) (span_mul_nbuckets hhigh)
      (windowStart_lt join.obs0 f uh) (key_lt ul) hwindow
    have hj : windowStart join.obs0 f uh >>> join.logSpan + t &&& bucketMask join.logSpan =
        join.bucketOf ul := by
      rw [and_bucketMask, Nat.shiftRight_eq_div_pow, ← hkey, bucketOf_eq]
    have hmem : t ∈ List.range (((windowStart join.obs0 f uh &&& spanMask join.logSpan) +
        (WINDOW - 1)) >>> join.logSpan + 1) := by
      rw [List.mem_range, and_spanMask, Nat.shiftRight_eq_div_pow]
      omega
    have hscan := hnone hempty t hmem
    obtain ⟨other, hother, -, hexact⟩ := scanBucket_spec hlow hbuilt uh
      (windowStart join.obs0 f uh) (windowStart join.obs1 f2 uh) (hbucket t)
    rw [hother, Option.some.injEq] at hscan
    have hkept := hexact hscan ul hul hj.symm (by
      rw [hj]
      exact not_rejected hhigh hul (windowStart_lt _ _ _) hwindow hwindow2)
    rwa [packed_low hul] at hkept

/-- The high halves from one on. -/
theorem probeLoop_spec (hlow : 8 ≤ join.logSpan) (hhigh : join.logSpan ≤ 16)
    (hbuilt : join.Built ws) (fStep f2Step : Fp) (rest uh : Nat) :
    ∃ found, join.probeLoop ws fStep f2Step rest uh (running .ZERO fStep uh)
        (running .ZERO f2Step uh) = some found ∧
      Verified join.sector join.streamSector found ∧
      (found = none → ∀ h, uh ≤ h → h < uh + rest →
        join.probe ws h (running .ZERO fStep h) (running .ZERO f2Step h) = some none) := by
  induction rest generalizing uh with
  | zero => exact ⟨none, rfl, fun seed hseed => (nomatch hseed), fun _ h hle hlt => by omega⟩
  | succ rest ih =>
    obtain ⟨first, hfirst, hverified, -⟩ := probe_spec hlow hhigh hbuilt uh
      (running .ZERO fStep uh) (running .ZERO f2Step uh)
    rw [probeLoop]
    simp only [hfirst, Option.bind_eq_bind, Option.bind_some]
    cases first with
    | some seed => exact ⟨some seed, rfl, hverified, fun hnone => by cases hnone⟩
    | none =>
      obtain ⟨found, hfound, hverifiedRest, hnone⟩ := ih (uh + 1)
      refine ⟨found, hfound, hverifiedRest, fun hempty h hle hlt => ?_⟩
      rcases Nat.lt_or_eq_of_le hle with hlater | rfl
      · exact hnone hempty h hlater (by omega)
      · exact hfirst

/-- The join for one multiplier: if it finds nothing, no seed with these low bits
verifies. -/
theorem probes_spec {logSpan : Nat} (hlow : 8 ≤ logSpan) (hhigh : logSpan ≤ 16)
    (sector : Sector) (streamSector : UInt32) (i : Fin 8)
    (hbuilt : (Join.new logSpan sector streamSector i).Built ws) :
    ∃ found, (Join.new logSpan sector streamSector i).probes ws = some found ∧
      Verified sector streamSector found ∧
      (found = none → ∀ seed, lowBits seed = i → verify seed streamSector sector = false) := by
  obtain ⟨found, hfound, hverified, hnone⟩ := @probeLoop_spec
    (Join.new logSpan sector streamSector i) ws hlow hhigh hbuilt
    ((Join.new logSpan sector streamSector i).alpha.mul (.reduce 65536))
    ((Join.new logSpan sector streamSector i).alpha2.mul (.reduce 65536)) 65536 0
  refine ⟨found, hfound, hverified, fun hempty seed hseed => ?_⟩
  subst hseed
  by_contra hne
  have hverify : verify seed streamSector sector = true := Bool.eq_true_of_not_eq_false hne
  obtain ⟨hfirst, hsecond⟩ := observed_words logSpan ((verify_iff _ _ _).mp hverify)
  have hlt := (stateOf seed).lt
  have huh : (stateOf seed).val / 65536 < 0 + 65536 := by
    simp only [P] at hlt
    omega
  have hprobe := hnone hempty _ (Nat.zero_le _) huh
  obtain ⟨other, hother, -, hexact⟩ := @probe_spec
    (Join.new logSpan sector streamSector (lowBits seed)) ws hlow hhigh hbuilt
    ((stateOf seed).val / 65536)
    (running .ZERO ((Join.new logSpan sector streamSector (lowBits seed)).alpha.mul
      (.reduce 65536)) ((stateOf seed).val / 65536))
    (running .ZERO ((Join.new logSpan sector streamSector (lowBits seed)).alpha2.mul
      (.reduce 65536)) ((stateOf seed).val / 65536))
  rw [hprobe, Option.some.injEq] at hother
  exact exact_isSome logSpan hverify (hexact hother.symm _ (Nat.mod_lt _ (by decide))
    (window_of_word (firstWord_eq _ _) hfirst) (window_of_word (secondWord_eq _ _) hsecond))

end Join

theorem recoverLoop_cons (logSpan : Nat) (sector : Sector) (streamSector : UInt32) (i : Fin 8)
    (is : List (Fin 8)) (ws : Workspace) :
    recoverLoop logSpan sector streamSector (i :: is) ws =
      ((Join.new logSpan sector streamSector i).build ws).bind fun ws =>
        ((Join.new logSpan sector streamSector i).probes ws).bind fun found =>
          match found with
          | some seed => some (some seed, ws)
          | none => recoverLoop logSpan sector streamSector is ws := rfl

/-- All multipliers of a list. -/
theorem recoverLoop_spec {logSpan : Nat} (hlow : 8 ≤ logSpan) (hhigh : logSpan ≤ 16)
    (sector : Sector) (streamSector : UInt32) (is : List (Fin 8)) (ws : Workspace) :
    ∃ found after, recoverLoop logSpan sector streamSector is ws = some (found, after) ∧
      Verified sector streamSector found ∧
      (found = none → ∀ seed, lowBits seed ∈ is → verify seed streamSector sector = false) := by
  induction is generalizing ws with
  | nil =>
    exact ⟨none, ws, rfl, fun seed hseed => (nomatch hseed),
      fun _ seed hseed => absurd hseed List.not_mem_nil⟩
  | cons i is ih =>
    obtain ⟨built, hbuild, hbuilt⟩ :=
      @Join.build_built (Join.new logSpan sector streamSector i) hlow hhigh ws
    obtain ⟨first, hfirst, hverified, hnone⟩ :=
      Join.probes_spec hlow hhigh sector streamSector i hbuilt
    cases first with
    | some seed =>
      refine ⟨some seed, built, ?_, hverified, fun hnone => by cases hnone⟩
      rw [recoverLoop_cons, hbuild, Option.bind_some, hfirst, Option.bind_some]
    | none =>
      obtain ⟨found, after, hrest, hverifiedRest, hnoneRest⟩ := ih built
      refine ⟨found, after, ?_, hverifiedRest, fun hempty seed hseed => ?_⟩
      · rw [recoverLoop_cons, hbuild, Option.bind_some, hfirst, Option.bind_some, hrest]
      rcases List.mem_cons.mp hseed with heq | hmem
      · exact hnone rfl seed heq
      · exact hnoneRest hempty seed hmem

/-- The solver goes through on every sector, whatever its tables held before. It returns a
seed that generates the sector when some seed does, and nothing otherwise. -/
theorem recover_exact {logSpan : Nat} (hlow : 8 ≤ logSpan) (hhigh : logSpan ≤ 16)
    (ws : Workspace) (sector : Sector) (streamSector : UInt32) :
    ∃ found after, recover logSpan ws sector streamSector = some (found, after) ∧
      (∀ seed, found = some seed → verify seed streamSector sector = true ∧
        (Prng.new seed streamSector).fillSector = sector.toList) ∧
      (found = none ↔ ∀ seed, (Prng.new seed streamSector).fillSector ≠ sector.toList) := by
  obtain ⟨found, after, hloop, hverified, hnone⟩ :=
    recoverLoop_spec hlow hhigh sector streamSector (List.finRange 8) ws
  refine ⟨found, after, ?_, fun seed hseed => ?_, fun hempty seed hgenerates => ?_,
    fun hall => ?_⟩
  · rw [recover, if_pos ⟨hlow, hhigh⟩, hloop]
  · exact ⟨hverified seed hseed, (verify_iff _ _ _).mp (hverified seed hseed)⟩
  · have hfalse := hnone hempty seed (List.mem_finRange _)
    rw [(verify_iff _ _ _).mpr hgenerates] at hfalse
    cases hfalse
  · cases found with
    | none => rfl
    | some seed => exact absurd ((verify_iff _ _ _).mp (hverified seed rfl)) (hall seed)

theorem recover_exact_zeros :
    ∃ found after, recover 8 ⟨.replicate 65537 0, .replicate 65536 0⟩
        (List.Vector.replicate SECTOR_LEN 0) 0 = some (found, after) ∧
      (found = none ↔
        ∀ seed, (Prng.new seed 0).fillSector ≠ (List.Vector.replicate SECTOR_LEN 0).toList) := by
  obtain ⟨found, after, hrun, -, hnone⟩ := recover_exact (Nat.le_refl 8) (by decide)
    ⟨.replicate 65537 0, .replicate 65536 0⟩ (List.Vector.replicate SECTOR_LEN 0) 0
  exact ⟨found, after, hrun, hnone⟩

end Flat

end Datboi.Xgd1
