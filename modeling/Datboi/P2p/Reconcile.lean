import Datboi.P2p.RibltDecode
import Mathlib.Data.Finset.Powerset

/-!
# What a reconciliation recovers

A decoder primed with one set and fed any number of another set's cells refuses nothing and
recovers only symbols of the difference, each once and on its own side. When every received
cell is decoded, and at least one was received, it has recovered the whole difference.
-/

open scoped symmDiff

namespace Datboi.Riblt

variable {w : Nat}

theorem reconcile_recovers_difference {codec : Codec w} {set prior : List (BitVec w)} {k : Nat}
    (hinc : ∀ x ∈ set ++ prior, Increasing codec k (codec.hashSymbol x))
    (hcollisionless : Collisionless codec set.toFinset prior.toFinset) {fuel : Nat}
    (hfuel : set.length + prior.length + k < fuel) :
    ∃ encoder decoder, reconcile codec fuel set prior k = some (encoder, decoder) ∧
      decoder.isMalformed = false ∧
      decoder.remote.Nodup ∧ (∀ x ∈ decoder.remote, x ∈ set ∧ x ∉ prior) ∧
      decoder.local_.Nodup ∧ (∀ x ∈ decoder.local_, x ∈ prior ∧ x ∉ set) ∧
      (0 < k → decoder.decoded →
        (∀ x, x ∈ decoder.remote ↔ x ∈ set ∧ x ∉ prior) ∧
        (∀ x, x ∈ decoder.local_ ↔ x ∈ prior ∧ x ∉ set)) := by
  have hinc' : ∀ x ∈ set.toFinset ∪ prior.toFinset,
      Increasing codec k (codec.hashSymbol x) := by
    intro x hx
    rw [← List.toFinset_append] at hx
    exact hinc x (List.mem_toFinset.mp hx)
  obtain ⟨encoder, decoder, hrun, hreconciled⟩ :=
    exists_reconciled hcollisionless hinc' hfuel k le_rfl
  have hpeeling := hreconciled.peeling
  refine ⟨encoder, decoder, hrun, hpeeling.malformed, hpeeling.remoteWindow.nodup, ?_,
    hpeeling.localWindow.nodup, ?_, ?_⟩
  · intro x hx
    simpa using hpeeling.remoteWindow.sub x hx
  · intro x hx
    simpa using hpeeling.localWindow.sub x hx
  · intro hpos hdecoded
    have hexact := hpeeling.exact_of_decoded (by rw [hreconciled.received]; exact hpos) hdecoded
    simpa using hexact

/-! ## Three symbols, and two that share a checksum -/

/-- The checksums of the 32-byte symbols 1, 3 and 5 (little-endian) and of two symbols that
share one, and the steps their generators take before index 3. -/
def sampleCodec : Codec 256 where
  hashSymbol x :=
    if x = 1 then 0x4e0d209a344a5227
    else if x = 3 then 0x173e5ec2c28e35a0
    else if x = 5 then 0x194f9c2fdc1a0e0d
    else 0xd6fefc920f6ad041
  step prng _ := if prng = 0x52f2625b3c1aea20 ∨ prng = 0x53acea4bb29bcda5 then 2 else 1

theorem increasing_of_reaches {codec : Codec w} {hash : BitVec 64} {bound : Nat} (n : Nat)
    (hreaches : bound ≤ (mappingAt codec hash n).lastIndex)
    (hbefore : ∀ p < n,
      (mappingAt codec hash p).lastIndex < (mappingAt codec hash (p + 1)).lastIndex) :
    Increasing codec bound hash := by
  intro p hp
  by_cases hpn : p < n
  · exact hbefore p hpn
  · have hmono : (mappingAt codec hash n).lastIndex ≤ (mappingAt codec hash p).lastIndex :=
      lastIndex_mappingAt_mono codec hash (Nat.le_of_not_lt hpn)
    omega

/-- The subsets of a pair. -/
theorem forall_mem_powerset_pair {α : Type*} [DecidableEq α] {a b : α} {P : Finset α → Prop}
    (hempty : P ∅) (hleft : P {a}) (hright : P {b}) (hboth : P {a, b}) :
    ∀ d ∈ ({a, b} : Finset α).powerset, P d := by
  intro d hd
  rw [Finset.powerset_insert, Finset.mem_union, Finset.mem_image] at hd
  simp only [Finset.mem_powerset, Finset.subset_singleton_iff] at hd
  rcases hd with (rfl | rfl) | ⟨d, rfl | rfl, rfl⟩
  · exact hempty
  · exact hright
  · exact hleft
  · exact hboth

theorem sample_collisionless :
    Collisionless sampleCodec [5, 1].toFinset [5, 3].toFinset := by
  have hdiff : ([5, 1] : List (BitVec 256)).toFinset ∆ [5, 3].toFinset = {1, 3} := by decide
  have hpure : ∀ d ∈ ({1, 3} : Finset (BitVec 256)).powerset,
      Decoder.looksPure sampleCodec (coded sampleCodec [5, 1].toFinset d) → d.card = 1 := by
    apply forall_mem_powerset_pair <;> decide
  have hzero : ∀ d ∈ ({1, 3} : Finset (BitVec 256)).powerset,
      (coded sampleCodec [5, 1].toFinset d).hash = 0 → d = ∅ := by
    apply forall_mem_powerset_pair <;> decide
  constructor
  · intro d hd
    rw [hdiff] at hd
    exact hpure d (Finset.mem_powerset.mpr hd)
  · intro d hd _
    rw [hdiff] at hd
    exact hzero d (Finset.mem_powerset.mpr hd)

theorem sample_increasing {x : BitVec 256} (hx : x ∈ ([5, 1, 3] : List (BitVec 256))) :
    Increasing sampleCodec 2 (sampleCodec.hashSymbol x) := by
  simp only [List.mem_cons, List.not_mem_nil, or_false] at hx
  rcases hx with rfl | rfl | rfl
  · exact increasing_of_reaches 2 (by decide) (by decide)
  · exact increasing_of_reaches 2 (by decide) (by decide)
  · exact increasing_of_reaches 1 (by decide) (by decide)

theorem reconcile_recovers_difference_sample :
    ∃ encoder decoder, reconcile sampleCodec 7 [5, 1] [5, 3] 2 = some (encoder, decoder) ∧
      decoder.isMalformed = false ∧
      decoder.remote.Nodup ∧ (∀ x ∈ decoder.remote, x ∈ [5, 1] ∧ x ∉ [5, 3]) ∧
      decoder.local_.Nodup ∧ (∀ x ∈ decoder.local_, x ∈ [5, 3] ∧ x ∉ [5, 1]) ∧
      (0 < 2 → decoder.decoded →
        (∀ x, x ∈ decoder.remote ↔ x ∈ [5, 1] ∧ x ∉ [5, 3]) ∧
        (∀ x, x ∈ decoder.local_ ↔ x ∈ [5, 3] ∧ x ∉ [5, 1])) :=
  reconcile_recovers_difference
    (fun x hx => sample_increasing (by
      simp only [List.cons_append, List.nil_append, List.mem_cons, List.not_mem_nil,
        or_false] at hx ⊢
      tauto))
    sample_collisionless (by decide)

/-- Nothing received counts as decoded whatever the difference, and so do two symbols that
share a checksum, although only singletons of the difference look pure there and no other
set than the empty one has a zero sum of symbols and of checksums. -/
theorem decoded_before_difference :
    ((reconcile sampleCodec 7 [5, 1] [5, 3] 0).map fun run => (run.2.decoded, run.2.remote)) =
        some (true, []) ∧
      ((1 : BitVec 256) ∈ [5, 1] ∧ (1 : BitVec 256) ∉ [5, 3]) ∧
      ((∀ d ∈ (([0xc2ffacda696de165] : List (BitVec 256)).toFinset ∆
            [0x61d047cfde6b48d0].toFinset).powerset,
          (Decoder.looksPure sampleCodec (coded sampleCodec [0xc2ffacda696de165].toFinset d) →
            d.card = 1) ∧
          ((coded sampleCodec [0xc2ffacda696de165].toFinset d).symbol = 0 →
            (coded sampleCodec [0xc2ffacda696de165].toFinset d).hash = 0 → d = ∅)) ∧
        ((reconcile sampleCodec 4 [0xc2ffacda696de165] [0x61d047cfde6b48d0] 1).map fun run =>
          (run.2.decoded, run.2.remote)) = some (true, [])) := by
  have hdiff : ([0xc2ffacda696de165] : List (BitVec 256)).toFinset ∆
      [0x61d047cfde6b48d0].toFinset = {0xc2ffacda696de165, 0x61d047cfde6b48d0} := by decide
  refine ⟨by decide, by decide, ?_, by decide⟩
  rw [hdiff]
  apply forall_mem_powerset_pair <;> decide

end Datboi.Riblt
