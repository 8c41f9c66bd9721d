import Datboi.P2p.RibltWindow
import Mathlib.Algebra.BigOperators.Group.Finset.Basic
import Mathlib.Data.Finset.SymmDiff
import Mathlib.Data.Int.Order.Basic
import Mathlib.Data.List.GetD
import Mathlib.Tactic.Abel

/-!
# The decoder recovers the difference

Throughout a reconciliation of a set `a` with a prior `b`, a received cell is the signed
sum of those symbols of the difference that are mapped to it and not yet recovered. A
cell is decodable when at most one such symbol is left. Peeling takes a symbol out of
every cell it is in, so cells stay what they are said to be and only become easier.
-/

open scoped symmDiff

namespace Datboi.Riblt

variable {w : Nat}

/-! ## Signed sums -/

/-- The side of the difference a symbol is on. -/
def side (a : Finset (BitVec w)) (x : BitVec w) : Int := if x ∈ a then 1 else -1

/-- The cell of a set of symbols of the difference. -/
def coded (codec : Codec w) (a d : Finset (BitVec w)) : CodedSymbol w :=
  ∑ x ∈ d, side a x • (HashedSymbol.new codec x).cell

/-- Among sets of symbols of the difference, only singletons look pure, and only the empty
set has a zero count and a zero sum of checksums. -/
structure Collisionless (codec : Codec w) (a b : Finset (BitVec w)) : Prop where
  pure : ∀ d ⊆ a ∆ b, Decoder.looksPure codec (coded codec a d) → d.card = 1
  zero : ∀ d ⊆ a ∆ b, (coded codec a d).count = 0 → (coded codec a d).hash = 0 → d = ∅

theorem side_eq (a : Finset (BitVec w)) (x : BitVec w) : side a x = 1 ∨ side a x = -1 := by
  unfold side
  split
  · exact Or.inl rfl
  · exact Or.inr rfl

@[simp] theorem coded_empty (codec : Codec w) (a : Finset (BitVec w)) : coded codec a ∅ = 0 :=
  Finset.sum_empty

theorem side_smul_cell (codec : Codec w) (a : Finset (BitVec w)) (x : BitVec w) :
    side a x • (HashedSymbol.new codec x).cell = ⟨x, codec.hashSymbol x, BitVec.ofInt 64 (side a x)⟩ := by
  rcases side_eq a x with hside | hside
  · rw [hside, one_zsmul]
    rfl
  · rw [hside, neg_one_zsmul]
    rfl

@[simp] theorem coded_singleton (codec : Codec w) (a : Finset (BitVec w)) (x : BitVec w) :
    coded codec a {x} = ⟨x, codec.hashSymbol x, BitVec.ofInt 64 (side a x)⟩ := by
  rw [coded, Finset.sum_singleton, side_smul_cell]

theorem coded_erase (codec : Codec w) (a : Finset (BitVec w)) {d : Finset (BitVec w)} {x : BitVec w}
    (hx : x ∈ d) :
    coded codec a (d.erase x) = coded codec a d + (-side a x) • (HashedSymbol.new codec x).cell := by
  have hsplit := Finset.add_sum_erase d (fun x => side a x • (HashedSymbol.new codec x).cell) hx
  rw [coded, coded, ← hsplit, neg_zsmul]
  abel

namespace Collisionless

variable {codec : Codec w} {a b d : Finset (BitVec w)}

theorem looksPure_iff (hcollisionless : Collisionless codec a b) (hd : d ⊆ a ∆ b) :
    Decoder.looksPure codec (coded codec a d) ↔ d.card = 1 := by
  refine ⟨hcollisionless.pure d hd, fun hcard => ?_⟩
  obtain ⟨x, rfl⟩ := Finset.card_eq_one.mp hcard
  rw [coded_singleton]
  rcases side_eq a x with hside | hside
  · simp [Decoder.looksPure, hside]
  · simp [Decoder.looksPure, hside]

theorem zero_iff (hcollisionless : Collisionless codec a b) (hd : d ⊆ a ∆ b) :
    (coded codec a d).count = 0 ∧ (coded codec a d).hash = 0 ↔ d = ∅ := by
  constructor
  · rintro ⟨hcount, hhash⟩
    exact hcollisionless.zero d hd hcount hhash
  · rintro rfl
    simp

end Collisionless

open Classical in
/-- The symbols of a set that take part in the cell at an index. -/
noncomputable def members (codec : Codec w) (d : Finset (BitVec w)) (i : Nat) : Finset (BitVec w) :=
  d.filter fun x => Mapped codec (codec.hashSymbol x) i

section Members

variable {codec : Codec w} {a d : Finset (BitVec w)} {x : BitVec w} {i : Nat}

theorem mem_members : x ∈ members codec d i ↔ x ∈ d ∧ Mapped codec (codec.hashSymbol x) i := by
  simp [members]

theorem members_subset : members codec d i ⊆ d := by
  classical
  exact Finset.filter_subset _ _

theorem members_zero : members codec d 0 = d := by
  ext x
  simp [mem_members, mapped_zero]

theorem members_erase : members codec (d.erase x) i = (members codec d i).erase x := by
  ext y
  simp only [mem_members, Finset.mem_erase]
  tauto

theorem coded_members (codec : Codec w) (a d : Finset (BitVec w)) (i : Nat) :
    coded codec a (members codec d i) = ∑ x ∈ d, side a x • share codec i (.new codec x) := by
  rw [coded, members, Finset.sum_filter]
  refine Finset.sum_congr rfl fun x _ => ?_
  by_cases hmapped : Mapped codec (codec.hashSymbol x) i
  · simp [share, HashedSymbol.new, hmapped]
  · simp [share, HashedSymbol.new, hmapped, zsmul_zero]

/-- Subtracting a symbol's share of a cell leaves the cell of the other symbols. -/
theorem coded_members_erase (hx : x ∈ d) :
    coded codec a (members codec (d.erase x) i) =
      coded codec a (members codec d i) + (-side a x) • share codec i (.new codec x) := by
  rw [members_erase]
  by_cases hmapped : Mapped codec (codec.hashSymbol x) i
  · rw [coded_erase codec a (mem_members.mpr ⟨hx, hmapped⟩)]
    simp [share, HashedSymbol.new, hmapped]
  · rw [Finset.erase_eq_of_notMem fun hmem => hmapped (mem_members.mp hmem).2]
    simp [share, HashedSymbol.new, hmapped, zsmul_zero]

end Members

/-! ## Mapping a recovered symbol onto the received cells -/

/-- What mapping a symbol onto the cells from an index on leaves: each cell with the
symbol's share, and the cells among them that look pure, in order. -/
structure Decoder.Applied (codec : Codec w) (t : HashedSymbol w) (direction : Int) (start : Nat)
    (cs cs' : List (CodedSymbol w)) (pushed : List Nat) : Prop where
  length_eq : cs'.length = cs.length
  cells : ∀ i, start ≤ i → i < cs.length →
    cs'.getD i {} = cs.getD i {} + direction • share codec i t
  frame : ∀ i < start, cs'.getD i {} = cs.getD i {}
  sorted : pushed.Pairwise (· < ·)
  mem_pushed : ∀ i, i ∈ pushed ↔ start ≤ i ∧ i < cs.length ∧ Mapped codec t.hash i ∧
    Decoder.looksPure codec (cs'.getD i {})

theorem Decoder.Applied.of_end {codec : Codec w} {t : HashedSymbol w} {direction : Int} {start : Nat}
    {cs : List (CodedSymbol w)} (hend : cs.length ≤ start) :
    Decoder.Applied codec t direction start cs cs [] where
  length_eq := rfl
  cells := by
    intro i hstart hi
    omega
  frame := fun _ _ => rfl
  sorted := List.Pairwise.nil
  mem_pushed := by
    intro i
    simp only [List.not_mem_nil, false_iff]
    rintro ⟨hstart, hi, -⟩
    omega

/-- Mapping a symbol onto the cell at `start`, and then onto those from its next index. -/
theorem Decoder.Applied.cons {codec : Codec w} {t : HashedSymbol w} {direction : Int}
    {start next : Nat} {cs cs' : List (CodedSymbol w)} {pushed : List Nat}
    (hdirection : direction = add ∨ direction = remove) (hstart : start < cs.length)
    (hnext : start < next) (hmapped : Mapped codec t.hash start)
    (hbetween : ∀ i, start < i → i < next → ¬Mapped codec t.hash i)
    (happlied : Decoder.Applied codec t direction next
      (cs.set start ((cs.getD start {}).apply t direction)) cs' pushed) :
    Decoder.Applied codec t direction start cs cs'
      ((if looksPure codec ((cs.getD start {}).apply t direction) then [start] else []) ++
        pushed) := by
  have hlength : (cs.set start ((cs.getD start {}).apply t direction)).length = cs.length :=
    List.length_set
  have hset : ∀ i, i ≠ start →
      (cs.set start ((cs.getD start {}).apply t direction)).getD i {} = cs.getD i {} := by
    intro i hi
    rw [List.getD_eq_getElem?_getD, List.getElem?_set_ne (Ne.symm hi), ← List.getD_eq_getElem?_getD]
  have hat : cs'.getD start {} = (cs.getD start {}).apply t direction := by
    rw [happlied.frame start hnext, List.getD_eq_getElem?_getD, List.getElem?_set_self hstart]
    rfl
  constructor
  · exact happlied.length_eq.trans hlength
  · intro i hi hilen
    rcases Nat.lt_trichotomy i start with hlt | rfl | hgt
    · omega
    · rw [hat, CodedSymbol.apply_eq _ _ hdirection, share, if_pos hmapped]
    · by_cases hin : i < next
      · rw [happlied.frame i hin, hset i (by omega), share, if_neg (hbetween i hgt hin),
          zsmul_zero, add_zero]
      · rw [happlied.cells i (by omega) (by omega), hset i (by omega)]
  · intro i hi
    rw [happlied.frame i (by omega), hset i (by omega)]
  · refine List.pairwise_append.mpr ⟨?_, happlied.sorted, fun i hi j hj => ?_⟩
    · split
      · exact List.pairwise_singleton _ _
      · exact List.Pairwise.nil
    · have hle := ((happlied.mem_pushed j).mp hj).1
      split at hi
      · rw [List.mem_singleton.mp hi]
        omega
      · exact absurd hi List.not_mem_nil
  · intro i
    rw [List.mem_append, happlied.mem_pushed, hlength]
    rcases Nat.lt_trichotomy i start with hlt | rfl | hgt
    · have hne : i ≠ start := by omega
      constructor
      · rintro (hi | hi)
        · split at hi
          · exact absurd (List.mem_singleton.mp hi) hne
          · exact absurd hi List.not_mem_nil
        · omega
      · intro hi
        omega
    · rw [hat]
      constructor
      · rintro (hi | hi)
        · split at hi
          · rename_i hpure
            exact ⟨le_rfl, hstart, hmapped, hpure⟩
          · exact absurd hi List.not_mem_nil
        · omega
      · rintro ⟨-, -, -, hpure⟩
        rw [if_pos hpure]
        exact Or.inl List.mem_cons_self
    · constructor
      · rintro (hi | ⟨hle, hrest⟩)
        · split at hi
          · rw [List.mem_singleton.mp hi] at hgt
            omega
          · exact absurd hi List.not_mem_nil
        · exact ⟨by omega, hrest⟩
      · rintro ⟨-, hilen, himapped, hpure⟩
        refine Or.inr ⟨?_, hilen, himapped, hpure⟩
        by_contra hin
        exact hbetween i hgt (by omega) himapped

theorem Decoder.applyNewLoop_spec {codec : Codec w} {t : HashedSymbol w} {direction : Int}
    {bound : Nat} (hdirection : direction = add ∨ direction = remove)
    (hinc : Increasing codec bound t.hash) (fuel : Nat) {m : RandomMapping}
    {cs : List (CodedSymbol w)} (decodable : List Nat) (hbound : cs.length ≤ bound)
    (hreached : Reached codec t.hash (min m.lastIndex cs.length) m.lastIndex m)
    (hfuel : cs.length - m.lastIndex < fuel) :
    ∃ m' cs' pushed, applyNewLoop codec t direction fuel m cs decodable =
        some (m', cs', decodable ++ pushed) ∧
      Reached codec t.hash cs.length cs.length m' ∧
      Applied codec t direction m.lastIndex cs cs' pushed := by
  induction fuel generalizing m cs decodable with
  | zero => exact absurd hfuel (Nat.not_lt_zero _)
  | succ fuel ih =>
    unfold applyNewLoop
    split
    · rename_i hnone
      have hend : cs.length ≤ m.lastIndex := List.getElem?_eq_none_iff.mp hnone
      exact ⟨m, cs, [], by rw [List.append_nil], hreached.change (min_le_right _ _) hend,
        .of_end hend⟩
    · rename_i c hsome
      obtain ⟨hlt, -⟩ := List.getElem?_eq_some_iff.mp hsome
      have hc : cs.getD m.lastIndex {} = c := by
        rw [List.getD_eq_getElem?_getD, hsome]
        rfl
      have hself : Reached codec t.hash m.lastIndex m.lastIndex m :=
        hreached.change (min_le_left _ _) le_rfl
      have hpassed := Reached.next hinc (hlt.trans_le hbound)
        (hself.change (Nat.le_succ _) le_rfl) rfl
      have hgrow := hpassed.le_lastIndex
      obtain ⟨m', cs', pushed, hloop, hreached', happlied⟩ :=
        @ih (m.nextIndex codec) (cs.set m.lastIndex (c.apply t direction))
          (if looksPure codec (c.apply t direction) then decodable ++ [m.lastIndex] else decodable)
          (by rwa [List.length_set])
          (hpassed.change (by rw [List.length_set]; omega) le_rfl)
          (by rw [List.length_set]; omega)
      rw [List.length_set] at hreached'
      rw [← hc] at happlied
      refine ⟨m', cs', _, ?_, hreached', .cons hdirection hlt hgrow (hself.mapped_iff.mpr rfl) ?_
        happlied⟩
      · rw [hloop, hc]
        split <;> simp
      · intro i hi hin hmapped
        have hat : Reached codec t.hash i i (m.nextIndex codec) :=
          hpassed.change (by omega) (by omega)
        exact absurd (hat.mapped_iff.mp hmapped) (by omega)

/-! ## Peeling -/

/-- A cell with at most one symbol left. -/
def Settled (codec : Codec w) (d : Finset (BitVec w)) (i : Nat) : Prop :=
  (members codec d i).card ≤ 1

noncomputable instance (codec : Codec w) (d : Finset (BitVec w)) :
    DecidablePred (Settled codec d) := fun i => Nat.decLe (members codec d i).card 1

/-- Cells are the sums of the symbols left in them, and the settled cells are those
counted, which are empty, and those pending, each once. -/
structure Peels (codec : Codec w) (a d : Finset (BitVec w)) (cs : List (CodedSymbol w))
    (pending : List Nat) (count : Nat) : Prop where
  cells : ∀ i < cs.length, cs.getD i {} = coded codec a (members codec d i)
  nodup : pending.Nodup
  settled : ∀ i ∈ pending, i < cs.length ∧ Settled codec d i
  counted : count + pending.length = ((Finset.range cs.length).filter (Settled codec d)).card
  cleared : ∀ i < cs.length, Settled codec d i → i ∉ pending → members codec d i = ∅

namespace Peels

variable {codec : Codec w} {a b d : Finset (BitVec w)} {cs : List (CodedSymbol w)}
  {pending : List Nat} {count : Nat}

theorem empty (codec : Codec w) (a d : Finset (BitVec w)) : Peels codec a d [] [] 0 where
  cells := by simp
  nodup := List.nodup_nil
  settled := by simp
  counted := by simp
  cleared := by simp

theorem count_le (hpeels : Peels codec a d cs pending count) :
    count + pending.length ≤ cs.length := by
  rw [hpeels.counted]
  exact (Finset.card_filter_le _ _).trans_eq (Finset.card_range _)

/-- When every cell is counted nothing is left. -/
theorem eq_empty (hpeels : Peels codec a d cs [] cs.length) (hpos : 0 < cs.length) : d = ∅ := by
  have hall : ∀ i ∈ Finset.range cs.length, Settled codec d i := by
    refine Finset.filter_eq_self.mp (Finset.eq_of_subset_of_card_le (Finset.filter_subset _ _) ?_)
    rw [← hpeels.counted, Finset.card_range]
    exact Nat.le_add_right _ _
  have hzero := hpeels.cleared 0 hpos (hall 0 (Finset.mem_range.mpr hpos)) List.not_mem_nil
  rwa [members_zero] at hzero

/-- A received cell is pending exactly when it is settled. -/
theorem push (hpeels : Peels codec a d cs pending count) {c : CodedSymbol w} {pending' : List Nat}
    (hc : c = coded codec a (members codec d cs.length))
    (hsettled : Settled codec d cs.length → pending' = pending ++ [cs.length])
    (hother : ¬Settled codec d cs.length → pending' = pending) :
    Peels codec a d (cs ++ [c]) pending' count := by
  have hcells : ∀ i < (cs ++ [c]).length, (cs ++ [c]).getD i {} = coded codec a (members codec d i) := by
    intro i hi
    rw [List.length_append, List.length_singleton] at hi
    rcases Nat.lt_succ_iff_lt_or_eq.mp hi with hlt | rfl
    · rw [List.getD_append _ _ _ _ hlt]
      exact hpeels.cells i hlt
    · rw [List.getD_append_right _ _ _ _ le_rfl, Nat.sub_self]
      exact hc
  have hrange : Finset.range (cs ++ [c]).length = insert cs.length (Finset.range cs.length) := by
    rw [List.length_append, List.length_singleton, Finset.range_add_one]
  have hlt : ∀ i ∈ pending, i < cs.length := fun i hi => (hpeels.settled i hi).1
  by_cases hnew : Settled codec d cs.length
  · obtain rfl := hsettled hnew
    refine ⟨hcells, ?_, ?_, ?_, ?_⟩
    · refine hpeels.nodup.append (List.nodup_singleton _) fun i hi hlast => ?_
      exact absurd (List.mem_singleton.mp hlast) (hlt i hi).ne
    · intro i hi
      rcases List.mem_append.mp hi with hold | hlast
      · exact ⟨by simpa using (hlt i hold).le.trans_lt (Nat.lt_succ_self _), (hpeels.settled i hold).2⟩
      · rw [List.mem_singleton.mp hlast]
        exact ⟨by simp, hnew⟩
    · rw [hrange, Finset.filter_insert, if_pos hnew, Finset.card_insert_of_notMem (by simp),
        ← hpeels.counted, List.length_append, List.length_singleton]
      omega
    · intro i hi hsettledi hnot
      rw [List.mem_append, not_or] at hnot
      have hne : i ≠ cs.length := fun heq => hnot.2 (List.mem_singleton.mpr heq)
      rw [List.length_append, List.length_singleton] at hi
      exact hpeels.cleared i (by omega) hsettledi hnot.1
  · obtain rfl := hother hnew
    refine ⟨hcells, hpeels.nodup, ?_, ?_, ?_⟩
    · intro i hi
      exact ⟨by simpa using (hlt i hi).le.trans_lt (Nat.lt_succ_self _), (hpeels.settled i hi).2⟩
    · rw [hrange, Finset.filter_insert, if_neg hnew, hpeels.counted]
    · intro i hi hsettledi hnot
      have hne : i ≠ cs.length := fun heq => hnew (heq ▸ hsettledi)
      rw [List.length_append, List.length_singleton] at hi
      exact hpeels.cleared i (by omega) hsettledi hnot

/-- An empty cell is counted as it is. -/
theorem skip {cidx : Nat} (hpeels : Peels codec a d cs (cidx :: pending) count)
    (hempty : members codec d cidx = ∅) : Peels codec a d cs pending (count + 1) where
  cells := hpeels.cells
  nodup := (List.nodup_cons.mp hpeels.nodup).2
  settled := fun i hi => hpeels.settled i (List.mem_cons_of_mem cidx hi)
  counted := by
    rw [← hpeels.counted, List.length_cons]
    omega
  cleared := by
    intro i hi hsettled hnot
    by_cases hcidx : i = cidx
    · rw [hcidx, hempty]
    · exact hpeels.cleared i hi hsettled (by simp [hcidx, hnot])

theorem settled_erase_iff {x : BitVec w} (hx : x ∈ d) (i : Nat) :
    Settled codec (d.erase x) i ↔ Settled codec d i ∨
      (Mapped codec (codec.hashSymbol x) i ∧ (members codec (d.erase x) i).card = 1) := by
  unfold Settled
  rw [members_erase]
  by_cases hmapped : Mapped codec (codec.hashSymbol x) i
  · have hcard := Finset.card_erase_add_one (mem_members.mpr ⟨hx, hmapped⟩ : x ∈ members codec d i)
    constructor
    · intro hle
      by_cases hone : ((members codec d i).erase x).card = 1
      · exact Or.inr ⟨hmapped, hone⟩
      · left
        omega
    · rintro (hle | ⟨-, hone⟩)
      · omega
      · omega
  · rw [Finset.erase_eq_of_notMem fun hmem => hmapped (mem_members.mp hmem).2]
    simp [hmapped]

/-- Peeling the symbol of a pending cell out of every cell. -/
theorem peel {x : BitVec w} {cidx : Nat} {cs' : List (CodedSymbol w)} {pushed : List Nat}
    (hcollisionless : Collisionless codec a b) (hd : d ⊆ a ∆ b)
    (hpeels : Peels codec a d cs (cidx :: pending) count) (hcell : members codec d cidx = {x})
    (happlied : Decoder.Applied codec (.new codec x) (-side a x) 0 cs cs' pushed) :
    Peels codec a (d.erase x) cs' (pending ++ pushed) (count + 1) := by
  have hx : x ∈ d := members_subset (hcell ▸ Finset.mem_singleton_self x)
  have hd' : ∀ i, members codec (d.erase x) i ⊆ a ∆ b := fun i =>
    members_subset.trans ((Finset.erase_subset x d).trans hd)
  have hcells : ∀ i < cs.length, cs'.getD i {} = coded codec a (members codec (d.erase x) i) := by
    intro i hi
    rw [happlied.cells i (Nat.zero_le i) hi, hpeels.cells i hi, coded_members_erase hx]
  -- the cells pushed are those that become settled
  have hpushed : ∀ i, i ∈ pushed ↔ i < cs.length ∧ Mapped codec (codec.hashSymbol x) i ∧
      (members codec (d.erase x) i).card = 1 := by
    intro i
    rw [happlied.mem_pushed]
    constructor
    · rintro ⟨-, hi, hmapped, hpure⟩
      rw [hcells i hi, hcollisionless.looksPure_iff (hd' i)] at hpure
      exact ⟨hi, hmapped, hpure⟩
    · rintro ⟨hi, hmapped, hone⟩
      refine ⟨Nat.zero_le i, hi, hmapped, ?_⟩
      rw [hcells i hi, hcollisionless.looksPure_iff (hd' i)]
      exact hone
  have hnew : ∀ i ∈ pushed, ¬Settled codec d i := by
    intro i hi hsettled
    obtain ⟨-, hmapped, hone⟩ := (hpushed i).mp hi
    have hcard := Finset.card_erase_add_one (mem_members.mpr ⟨hx, hmapped⟩ : x ∈ members codec d i)
    rw [← members_erase, hone] at hcard
    unfold Settled at hsettled
    omega
  have hnodup : pushed.Nodup := happlied.sorted.imp fun hlt => hlt.ne
  obtain ⟨-, hrest⟩ := List.nodup_cons.mp hpeels.nodup
  have hsettled : ∀ i ∈ pending, i < cs.length ∧ Settled codec d i := fun i hi =>
    hpeels.settled i (List.mem_cons_of_mem cidx hi)
  refine ⟨?_, ?_, ?_, ?_, ?_⟩
  · rw [happlied.length_eq]
    exact hcells
  · exact hrest.append hnodup fun i hi hpush => hnew i hpush (hsettled i hi).2
  · intro i hi
    rw [happlied.length_eq, settled_erase_iff hx]
    rcases List.mem_append.mp hi with hold | hpush
    · exact ⟨(hsettled i hold).1, Or.inl (hsettled i hold).2⟩
    · obtain ⟨hi, hrest⟩ := (hpushed i).mp hpush
      exact ⟨hi, Or.inr hrest⟩
  · have hsplit : (Finset.range cs'.length).filter (Settled codec (d.erase x)) =
        (Finset.range cs.length).filter (Settled codec d) ∪ pushed.toFinset := by
      ext i
      simp only [Finset.mem_filter, Finset.mem_range, Finset.mem_union, List.mem_toFinset,
        settled_erase_iff hx, hpushed, happlied.length_eq]
      tauto
    have hdisjoint : Disjoint ((Finset.range cs.length).filter (Settled codec d))
        pushed.toFinset := by
      refine Finset.disjoint_left.mpr fun i hi hpush => ?_
      exact hnew i (List.mem_toFinset.mp hpush) (Finset.mem_filter.mp hi).2
    rw [hsplit, Finset.card_union_of_disjoint hdisjoint, ← hpeels.counted,
      List.toFinset_card_of_nodup hnodup, List.length_append, List.length_cons]
    omega
  · intro i hi hsettledi hnot
    rw [happlied.length_eq] at hi
    rw [List.mem_append, not_or] at hnot
    rw [members_erase]
    rcases (settled_erase_iff hx i).mp hsettledi with hold | hbecame
    · by_cases hcidx : i = cidx
      · rw [hcidx, hcell]
        exact Finset.erase_singleton x
      · rw [hpeels.cleared i hi hold (by simp [hcidx, hnot.1])]
        exact Finset.erase_empty x
    · exact absurd ((hpushed i).mpr ⟨hi, hbecame⟩) hnot.2

end Peels

/-! ## The decoder -/

theorem sum_symmDiff_side {β : Type*} [AddCommGroup β] (a b : Finset (BitVec w))
    (f : BitVec w → β) : ∑ x ∈ a ∆ b, side a x • f x = ∑ x ∈ a, f x - ∑ x ∈ b, f x := by
  have hleft : ∑ x ∈ a \ b, side a x • f x = ∑ x ∈ a \ b, f x := by
    refine Finset.sum_congr rfl fun x hx => ?_
    rw [side, if_pos (Finset.mem_sdiff.mp hx).1, one_zsmul]
  have hright : ∑ x ∈ b \ a, side a x • f x = -∑ x ∈ b \ a, f x := by
    rw [← Finset.sum_neg_distrib]
    refine Finset.sum_congr rfl fun x hx => ?_
    rw [side, if_neg (Finset.mem_sdiff.mp hx).2, neg_one_zsmul]
  rw [symmDiff_def, Finset.sup_eq_union, Finset.sum_union disjoint_sdiff_sdiff, hleft, hright,
    ← sub_eq_add_neg, Finset.sum_sdiff_sub_sum_sdiff]

namespace Decoder

/-- The symbols of the difference the decoder has not recovered. -/
def unrecovered (a b : Finset (BitVec w)) (decoder : Decoder w) : Finset (BitVec w) :=
  a ∆ b \ (decoder.remote ++ decoder.local_).toFinset

theorem unrecovered_subset (a b : Finset (BitVec w)) (decoder : Decoder w) :
    decoder.unrecovered a b ⊆ a ∆ b := Finset.sdiff_subset

/-- A window of distinct symbols recovered from a set. -/
structure Recovered (codec : Codec w) (s : Finset (BitVec w)) (j : Nat) (window : CodingWindow w) :
    Prop where
  codes : window.Codes codec j (window.symbols.map HashedSymbol.symbol)
  nodup : (window.symbols.map HashedSymbol.symbol).Nodup
  sub : ∀ x ∈ window.symbols.map HashedSymbol.symbol, x ∈ s

theorem map_symbol_add (codec : Codec w) (window : CodingWindow w) (x : BitVec w)
    (m : RandomMapping) :
    (window.addHashedSymbolWithMapping (.new codec x) m).symbols.map HashedSymbol.symbol =
      window.symbols.map HashedSymbol.symbol ++ [x] := by
  simp [CodingWindow.addHashedSymbolWithMapping, HashedSymbol.new]

variable {s : Finset (BitVec w)} {j : Nat} {window : CodingWindow w}

section

variable {codec : Codec w} (hrecovered : Recovered codec s j window)

include hrecovered

theorem Recovered.add {x : BitVec w} {m : RandomMapping}
    (hreached : Reached codec (codec.hashSymbol x) j j m) (hx : x ∈ s)
    (hnew : x ∉ window.symbols.map HashedSymbol.symbol) :
    Recovered codec s j (window.addHashedSymbolWithMapping (.new codec x) m) := by
  constructor
  · rw [map_symbol_add]
    exact hrecovered.codes.addHashedSymbolWithMapping hreached
  · rw [map_symbol_add]
    exact hrecovered.nodup.append (List.nodup_singleton x)
      fun y hy hyx => hnew (List.mem_singleton.mp hyx ▸ hy)
  · rw [map_symbol_add]
    intro y hy
    rcases List.mem_append.mp hy with hold | hlast
    · exact hrecovered.sub y hold
    · rw [List.mem_singleton.mp hlast]
      exact hx

theorem Recovered.length_le : (window.symbols.map HashedSymbol.symbol).length ≤ s.card := by
  rw [← List.toFinset_card_of_nodup hrecovered.nodup]
  exact Finset.card_le_card fun x hx => hrecovered.sub x (List.mem_toFinset.mp hx)

/-- A window advanced past a cell holds the same symbols. -/
theorem Recovered.advance {after : CodingWindow w}
    (hcodes : after.Codes codec (j + 1) (window.symbols.map HashedSymbol.symbol)) :
    Recovered codec s (j + 1) after ∧
      after.symbols.map HashedSymbol.symbol = window.symbols.map HashedSymbol.symbol := by
  have hsame : after.symbols.map HashedSymbol.symbol = window.symbols.map HashedSymbol.symbol := by
    rw [hcodes.symbols, List.map_map]
    exact List.map_id _
  rw [← hsame] at hcodes
  exact ⟨⟨hcodes, hsame ▸ hrecovered.nodup, hsame ▸ hrecovered.sub⟩, hsame⟩

end

/-- The decoder of a set's cells against a prior: the cells are those of the symbols not
recovered, the recovered ones are where they belong, and all windows are at the next
cell. -/
structure Peeling (codec : Codec w) (a b : Finset (BitVec w)) (pending : List Nat)
    (decoder : Decoder w) : Prop where
  peels : Peels codec a (decoder.unrecovered a b) decoder.cs pending decoder.decodedCount
  window : ∃ xs : List (BitVec w), xs.Nodup ∧ xs.toFinset = b ∧
    decoder.window.Codes codec decoder.cs.length xs
  remoteWindow : Recovered codec (a \ b) decoder.cs.length decoder.remoteWindow
  localWindow : Recovered codec (b \ a) decoder.cs.length decoder.localWindow
  malformed : decoder.malformed = false

theorem applyNewSymbol_spec {codec : Codec w} {bound fuel : Nat} {direction : Int}
    (decoder : Decoder w) (t : HashedSymbol w) (hdirection : direction = add ∨ direction = remove)
    (hinc : Increasing codec bound t.hash) (hbound : decoder.cs.length ≤ bound)
    (hfuel : decoder.cs.length < fuel) :
    ∃ m cs' pushed, decoder.applyNewSymbol codec fuel t direction =
        some (m, { decoder with cs := cs', decodable := decoder.decodable ++ pushed }) ∧
      Reached codec t.hash decoder.cs.length decoder.cs.length m ∧
      Applied codec t direction 0 decoder.cs cs' pushed := by
  obtain ⟨m, cs', pushed, hloop, hreached, happlied⟩ := applyNewLoop_spec hdirection hinc fuel
    decoder.decodable hbound (reached_seed codec t.hash _) (by exact hfuel)
  refine ⟨m, cs', pushed, ?_, hreached, happlied⟩
  rw [applyNewSymbol, hloop]
  rfl

section PeelCell

variable {codec : Codec w} {fuel cidx : Nat} {decoder : Decoder w} {t : HashedSymbol w}
  {m : RandomMapping} {cs' : List (CodedSymbol w)} {decodable : List Nat}

theorem peelCell_of_one (hcell : decoder.cs.getD cidx {} = ⟨t.symbol, t.hash, 1⟩)
    (happly : decoder.applyNewSymbol codec fuel t remove =
      some (m, { decoder with cs := cs', decodable := decodable })) :
    decoder.peelCell codec fuel cidx = some { decoder with
      cs := cs'
      decodable := decodable
      remoteWindow := decoder.remoteWindow.addHashedSymbolWithMapping t m
      decodedCount := decoder.decodedCount + 1 } := by
  rw [peelCell, hcell]
  exact congrArg (· >>= _) happly

theorem peelCell_of_neg_one (hcell : decoder.cs.getD cidx {} = ⟨t.symbol, t.hash, -1⟩)
    (happly : decoder.applyNewSymbol codec fuel t Riblt.add =
      some (m, { decoder with cs := cs', decodable := decodable })) :
    decoder.peelCell codec fuel cidx = some { decoder with
      cs := cs'
      decodable := decodable
      localWindow := decoder.localWindow.addHashedSymbolWithMapping t m
      decodedCount := decoder.decodedCount + 1 } := by
  rw [peelCell, hcell]
  exact congrArg (· >>= _) happly

theorem decodeLoop_succ {loopFuel didx : Nat} {next : Decoder w}
    (hcidx : decoder.decodable[didx]? = some cidx)
    (hpeel : decoder.peelCell codec loopFuel cidx = some next) (hmalformed : next.malformed = false) :
    decodeLoop codec loopFuel (fuel + 1) didx decoder =
      decodeLoop codec loopFuel fuel (didx + 1) next := by
  simp [decodeLoop, hcidx, hpeel, hmalformed]

end PeelCell

namespace Peeling

variable {codec : Codec w} {a b : Finset (BitVec w)} {pending : List Nat} {decoder : Decoder w}

theorem mem_of_side {x : BitVec w} (hx : x ∈ decoder.unrecovered a b) :
    (side a x = 1 → x ∈ a \ b) ∧ (side a x = -1 → x ∈ b \ a) := by
  have hdiff := Finset.mem_symmDiff.mp (Finset.mem_sdiff.mp hx).1
  unfold side
  simp only [Finset.mem_sdiff]
  split
  · rename_i hmem
    exact ⟨fun _ => ⟨hmem, by tauto⟩, fun hside => absurd hside (by decide)⟩
  · rename_i hmem
    exact ⟨fun hside => absurd hside (by decide), fun _ => ⟨by tauto, hmem⟩⟩

section Recover

variable {x : BitVec w} {cidx : Nat} {m : RandomMapping} {cs' : List (CodedSymbol w)}
  {pushed : List Nat} (decodable : List Nat) (hcollisionless : Collisionless codec a b)
  (hpeeling : decoder.Peeling codec a b (cidx :: pending))
  (hcell : members codec (decoder.unrecovered a b) cidx = {x})
  (hreached : Reached codec (codec.hashSymbol x) decoder.cs.length decoder.cs.length m)
include hcollisionless hpeeling hcell hreached

/-- Recovering a symbol of the set. -/
theorem recoverRemote (hside : side a x = 1)
    (happlied : Applied codec (.new codec x) remove 0 decoder.cs cs' pushed) :
    Peeling codec a b (pending ++ pushed) { decoder with
      cs := cs'
      decodable := decodable
      remoteWindow := decoder.remoteWindow.addHashedSymbolWithMapping (.new codec x) m
      decodedCount := decoder.decodedCount + 1 } := by
  have hx : x ∈ decoder.unrecovered a b := members_subset (hcell ▸ Finset.mem_singleton_self x)
  have hnot := (Finset.mem_sdiff.mp hx).2
  rw [List.mem_toFinset, List.mem_append, not_or] at hnot
  have hleft : (decoder.unrecovered a b).erase x =
      a ∆ b \ (decoder.remote ++ [x] ++ decoder.local_).toFinset := by
    ext y
    simp only [unrecovered, Finset.mem_sdiff, Finset.mem_erase, List.mem_toFinset, List.mem_append,
      List.mem_singleton]
    tauto
  have hdirection : remove = -side a x := by rw [hside]
  rw [hdirection] at happlied
  have hpeels := hpeeling.peels.peel hcollisionless (unrecovered_subset a b decoder) hcell
    happlied
  rw [hleft, remote, ← map_symbol_add codec _ x m] at hpeels
  have hlength := happlied.length_eq
  obtain ⟨xs, hxs⟩ := hpeeling.window
  exact
    { peels := hpeels
      window := ⟨xs, hlength ▸ hxs⟩
      remoteWindow := hlength ▸
        hpeeling.remoteWindow.add hreached ((mem_of_side hx).1 hside) hnot.1
      localWindow := hlength ▸ hpeeling.localWindow
      malformed := hpeeling.malformed }

/-- Recovering a symbol of the prior. -/
theorem recoverLocal (hside : side a x = -1)
    (happlied : Applied codec (.new codec x) Riblt.add 0 decoder.cs cs' pushed) :
    Peeling codec a b (pending ++ pushed) { decoder with
      cs := cs'
      decodable := decodable
      localWindow := decoder.localWindow.addHashedSymbolWithMapping (.new codec x) m
      decodedCount := decoder.decodedCount + 1 } := by
  have hx : x ∈ decoder.unrecovered a b := members_subset (hcell ▸ Finset.mem_singleton_self x)
  have hnot := (Finset.mem_sdiff.mp hx).2
  rw [List.mem_toFinset, List.mem_append, not_or] at hnot
  have hleft : (decoder.unrecovered a b).erase x =
      a ∆ b \ (decoder.remote ++ (decoder.local_ ++ [x])).toFinset := by
    ext y
    simp only [unrecovered, Finset.mem_sdiff, Finset.mem_erase, List.mem_toFinset, List.mem_append,
      List.mem_singleton]
    tauto
  have hdirection : Riblt.add = -side a x := by
    rw [hside]
    rfl
  rw [hdirection] at happlied
  have hpeels := hpeeling.peels.peel hcollisionless (unrecovered_subset a b decoder) hcell
    happlied
  rw [hleft, local_, ← map_symbol_add codec _ x m] at hpeels
  have hlength := happlied.length_eq
  obtain ⟨xs, hxs⟩ := hpeeling.window
  exact
    { peels := hpeels
      window := ⟨xs, hlength ▸ hxs⟩
      remoteWindow := hlength ▸ hpeeling.remoteWindow
      localWindow := hlength ▸
        hpeeling.localWindow.add hreached ((mem_of_side hx).2 hside) hnot.2
      malformed := hpeeling.malformed }

end Recover

theorem skip {cidx : Nat} (hpeeling : decoder.Peeling codec a b (cidx :: pending))
    (hempty : members codec (decoder.unrecovered a b) cidx = ∅) :
    Peeling codec a b pending { decoder with decodedCount := decoder.decodedCount + 1 } where
  peels := hpeeling.peels.skip hempty
  window := hpeeling.window
  remoteWindow := hpeeling.remoteWindow
  localWindow := hpeeling.localWindow
  malformed := hpeeling.malformed

end Peeling

/-- Walking the pending cells peels each, and ends with none. -/
theorem decodeLoop_spec {codec : Codec w} {a b : Finset (BitVec w)} {bound : Nat} (loopFuel : Nat)
    (hcollisionless : Collisionless codec a b)
    (hinc : ∀ x ∈ a ∆ b, Increasing codec bound (codec.hashSymbol x)) (fuel : Nat) {didx : Nat}
    {pending : List Nat} {decoder : Decoder w} (hpeeling : decoder.Peeling codec a b pending)
    (hpending : decoder.decodable.drop didx = pending) (hbound : decoder.cs.length ≤ bound) (hloopFuel : decoder.cs.length < loopFuel)
    (hfuel : decoder.cs.length < fuel + decoder.decodedCount) :
    ∃ after, decodeLoop codec loopFuel fuel didx decoder = some after ∧
      after.Peeling codec a b [] ∧ after.cs.length = decoder.cs.length := by
  induction fuel generalizing didx pending decoder with
  | zero =>
    have := hpeeling.peels.count_le
    omega
  | succ fuel ih =>
    cases hnext : decoder.decodable[didx]? with
    | none =>
      rw [List.drop_eq_nil_of_le (List.getElem?_eq_none_iff.mp hnext)] at hpending
      subst hpending
      exact ⟨decoder, by simp [decodeLoop, hnext], hpeeling, rfl⟩
    | some cidx =>
      obtain ⟨hdidx, hcidx⟩ := List.getElem?_eq_some_iff.mp hnext
      rw [List.drop_eq_getElem_cons hdidx, hcidx] at hpending
      subst hpending
      obtain ⟨hlt, hsettled⟩ := hpeeling.peels.settled cidx List.mem_cons_self
      have hc := hpeeling.peels.cells cidx hlt
      have hdrop : ∀ pushed : List Nat, (decoder.decodable ++ pushed).drop (didx + 1) =
          decoder.decodable.drop (didx + 1) ++ pushed := fun pushed =>
        List.drop_append_of_le_length (by omega)
      rcases Nat.le_one_iff_eq_zero_or_eq_one.mp hsettled with hzero | hone
      · have hempty := Finset.card_eq_zero.mp hzero
        have hpeel : decoder.peelCell codec loopFuel cidx =
            some { decoder with decodedCount := decoder.decodedCount + 1 } := by
          rw [peelCell, hc, hempty, coded_empty]
          rfl
        rw [decodeLoop_succ hnext hpeel hpeeling.malformed]
        exact ih (hpeeling.skip hempty) rfl hbound hloopFuel (by simp only; omega)
      · obtain ⟨x, hcell⟩ := Finset.card_eq_one.mp hone
        have hx : x ∈ decoder.unrecovered a b :=
          members_subset (hcell ▸ Finset.mem_singleton_self x)
        have hincx := hinc x (unrecovered_subset a b decoder hx)
        rw [hcell, coded_singleton] at hc
        rcases side_eq a x with hside | hside
        · obtain ⟨m, cs', pushed, happly, hreached, happlied⟩ := decoder.applyNewSymbol_spec
            (.new codec x) (Or.inr rfl) hincx hbound hloopFuel
          have hlength := happlied.length_eq
          have hstep := hpeeling.recoverRemote (decoder.decodable ++ pushed) hcollisionless
            hcell hreached hside happlied
          rw [decodeLoop_succ hnext (peelCell_of_one (by rw [hc, hside]; rfl) happly)
            hpeeling.malformed, ← hlength]
          exact ih hstep (hdrop pushed) (by simp only; omega) (by simp only; omega)
            (by simp only; omega)
        · obtain ⟨m, cs', pushed, happly, hreached, happlied⟩ := decoder.applyNewSymbol_spec
            (.new codec x) (Or.inl rfl) hincx hbound hloopFuel
          have hlength := happlied.length_eq
          have hstep := hpeeling.recoverLocal (decoder.decodable ++ pushed) hcollisionless
            hcell hreached hside happlied
          rw [decodeLoop_succ hnext (peelCell_of_neg_one (by rw [hc, hside]; rfl) happly)
            hpeeling.malformed, ← hlength]
          exact ih hstep (hdrop pushed) (by simp only; omega) (by simp only; omega)
            (by simp only; omega)

section Receive

variable {codec : Codec w} {a b : Finset (BitVec w)} {decoder : Decoder w}

section

variable {xs : List (BitVec w)} {pending : List Nat} (hpeeling : decoder.Peeling codec a b pending)
  (hnodup : xs.Nodup) (hxs : xs.toFinset = b)

include hpeeling hnodup hxs

/-- Taking the prior and what was recovered out of a cell of the set leaves the symbols
not recovered. -/
theorem Peeling.cell_eq (i : Nat) :
    ∑ x ∈ a, share codec i (.new codec x) +
          remove • (xs.map fun x => share codec i (.new codec x)).sum +
        remove • (decoder.remote.map fun x => share codec i (.new codec x)).sum +
      Riblt.add • (decoder.local_.map fun x => share codec i (.new codec x)).sum =
    coded codec a (members codec (decoder.unrecovered a b) i) := by
  have hremote : (decoder.remote.map fun x => side a x • share codec i (.new codec x)) =
      decoder.remote.map fun x => share codec i (.new codec x) := by
    refine List.map_congr_left fun x hx => ?_
    have hmem := Finset.mem_sdiff.mp (hpeeling.remoteWindow.sub x hx)
    rw [side, if_pos hmem.1, one_zsmul]
  have hlocal : (decoder.local_.map fun x => side a x • share codec i (.new codec x)).sum =
      -(decoder.local_.map fun x => share codec i (.new codec x)).sum := by
    rw [List.sum_neg, List.map_map]
    refine congrArg List.sum (List.map_congr_left fun x hx => ?_)
    have hmem := Finset.mem_sdiff.mp (hpeeling.localWindow.sub x hx)
    rw [side, if_neg hmem.2, neg_one_zsmul]
    rfl
  have hdisjoint : (decoder.remote ++ decoder.local_).Nodup := by
    refine hpeeling.remoteWindow.nodup.append hpeeling.localWindow.nodup fun x hx hx' => ?_
    exact (Finset.mem_sdiff.mp (hpeeling.localWindow.sub x hx')).2
      (Finset.mem_sdiff.mp (hpeeling.remoteWindow.sub x hx)).1
  have hsub : (decoder.remote ++ decoder.local_).toFinset ⊆ a ∆ b := by
    intro x hx
    rw [Finset.mem_symmDiff]
    rcases List.mem_append.mp (List.mem_toFinset.mp hx) with hx | hx
    · exact Or.inl (Finset.mem_sdiff.mp (hpeeling.remoteWindow.sub x hx))
    · exact Or.inr (Finset.mem_sdiff.mp (hpeeling.localWindow.sub x hx))
  rw [coded_members, unrecovered, Finset.sum_sdiff_eq_sub hsub, sum_symmDiff_side,
    List.sum_toFinset _ hdisjoint, List.map_append, List.sum_append, hremote, hlocal, ← hxs,
    List.sum_toFinset _ hnodup]
  simp only [neg_one_zsmul, one_zsmul]
  abel

/-- A decoder that has received a further cell, when the windows have advanced past it. -/
theorem Peeling.receive {pending' : List Nat} {c : CodedSymbol w}
    {window remoteWindow localWindow : CodingWindow w}
    (hwindow : window.Codes codec (decoder.cs.length + 1) xs)
    (hremote : remoteWindow.Codes codec (decoder.cs.length + 1) decoder.remote)
    (hlocal : localWindow.Codes codec (decoder.cs.length + 1) decoder.local_)
    (hc : c = coded codec a (members codec (decoder.unrecovered a b) decoder.cs.length))
    (hpending : pending' =
      if Settled codec (decoder.unrecovered a b) decoder.cs.length then
        pending ++ [decoder.cs.length]
      else pending) :
    Peeling codec a b pending' { decoder with
      cs := decoder.cs ++ [c]
      window := window
      remoteWindow := remoteWindow
      localWindow := localWindow
      decodable := pending' } := by
  obtain ⟨hremote, hsameRemote⟩ := hpeeling.remoteWindow.advance hremote
  obtain ⟨hlocal, hsameLocal⟩ := hpeeling.localWindow.advance hlocal
  have hlength : (decoder.cs ++ [c]).length = decoder.cs.length + 1 := by simp
  have hpeels : Peels codec a (decoder.unrecovered a b) (decoder.cs ++ [c]) pending'
      decoder.decodedCount :=
    hpeeling.peels.push hc (fun hsettled => by rw [hpending, if_pos hsettled])
      (fun hother => by rw [hpending, if_neg hother])
  rw [unrecovered, remote, local_, ← hsameRemote, ← hsameLocal] at hpeels
  exact
    { peels := hpeels
      window := ⟨xs, hnodup, hxs, hlength ▸ hwindow⟩
      remoteWindow := hlength ▸ hremote
      localWindow := hlength ▸ hlocal
      malformed := hpeeling.malformed }

end

/-- Receiving the set's next cell. -/
theorem addCodedSymbol_spec {bound : Nat} (fuel : Nat) (hcollisionless : Collisionless codec a b)
    (hinc : ∀ x ∈ a ∪ b, Increasing codec bound (codec.hashSymbol x))
    (hpeeling : decoder.Peeling codec a b decoder.decodable) (hbound : decoder.cs.length < bound)
    (hfuel : a.card + b.card < fuel) {c : CodedSymbol w}
    (hc : c = ∑ x ∈ a, share codec decoder.cs.length (.new codec x)) :
    ∃ after, decoder.addCodedSymbol codec fuel c = some after ∧
      after.Peeling codec a b after.decodable ∧ after.cs.length = decoder.cs.length + 1 := by
  obtain ⟨xs, hnodup, hxs, hcodes⟩ := hpeeling.window
  have hxslen : xs.length = b.card := by
    rw [← hxs, List.toFinset_card_of_nodup hnodup]
  have hremotelen := hpeeling.remoteWindow.length_le.trans (Finset.card_le_card Finset.sdiff_subset)
  have hlocallen := hpeeling.localWindow.length_le.trans (Finset.card_le_card Finset.sdiff_subset)
  obtain ⟨window, hwindow, hcodes'⟩ := hcodes.applyWindow (Or.inr rfl)
    (fun x hx => hinc x (Finset.mem_union_right a (hxs ▸ List.mem_toFinset.mpr hx))) hbound c fuel
    (by omega)
  obtain ⟨remoteWindow, hremote, hremote'⟩ := hpeeling.remoteWindow.codes.applyWindow (Or.inr rfl)
    (fun x hx => hinc x (Finset.mem_union_left b
      (Finset.mem_sdiff.mp (hpeeling.remoteWindow.sub x hx)).1)) hbound
    (c + remove • (xs.map fun x => share codec decoder.cs.length (.new codec x)).sum) fuel (by omega)
  obtain ⟨localWindow, hlocal, hlocal'⟩ := hpeeling.localWindow.codes.applyWindow (Or.inl rfl)
    (fun x hx => hinc x (Finset.mem_union_right a
      (Finset.mem_sdiff.mp (hpeeling.localWindow.sub x hx)).1)) hbound
    (c + remove • (xs.map fun x => share codec decoder.cs.length (.new codec x)).sum +
      remove • (decoder.remote.map fun x => share codec decoder.cs.length (.new codec x)).sum) fuel
    (by omega)
  have hcell := hpeeling.cell_eq hnodup hxs decoder.cs.length
  rw [← hc] at hcell
  have hsub : members codec (decoder.unrecovered a b) decoder.cs.length ⊆ a ∆ b :=
    members_subset.trans (unrecovered_subset a b decoder)
  -- the cell is pushed when at most one symbol is left in it
  have hsettled : (looksPure codec (coded codec a (members codec (decoder.unrecovered a b)
          decoder.cs.length)) ∨
        (coded codec a (members codec (decoder.unrecovered a b) decoder.cs.length)).count = 0 ∧
        (coded codec a (members codec (decoder.unrecovered a b) decoder.cs.length)).hash = 0) ↔
      Settled codec (decoder.unrecovered a b) decoder.cs.length := by
    rw [hcollisionless.looksPure_iff hsub, hcollisionless.zero_iff hsub, ← Finset.card_eq_zero,
      Settled, Nat.le_one_iff_eq_zero_or_eq_one]
    exact Or.comm
  have hadd : decoder.addCodedSymbol codec fuel c = some { decoder with
      cs := decoder.cs ++
        [coded codec a (members codec (decoder.unrecovered a b) decoder.cs.length)]
      window := window
      remoteWindow := remoteWindow
      localWindow := localWindow
      decodable := if Settled codec (decoder.unrecovered a b) decoder.cs.length then
          decoder.decodable ++ [decoder.cs.length]
        else decoder.decodable } := by
    rw [addCodedSymbol, hpeeling.malformed, hwindow]
    simp only [Bool.false_eq_true, if_false, Option.bind_eq_bind, Option.bind_some]
    rw [hremote]
    simp only [Option.bind_some]
    rw [← remote, hlocal, ← local_, hcell]
    simp only [Option.bind_some, hsettled]
    rfl
  exact ⟨_, hadd, hpeeling.receive hnodup hxs hcodes' hremote' hlocal' rfl rfl, by simp⟩

end Receive

theorem peeling_new (codec : Codec w) (a : Finset (BitVec w)) (prior : List (BitVec w)) :
    (new codec prior).Peeling codec a prior.toFinset [] where
  peels := Peels.empty codec a _
  window := ⟨dedupLoop [] prior, nodup_dedupLoop prior [], toFinset_dedupLoop prior,
    windowOf_codes codec prior⟩
  remoteWindow := ⟨.empty codec, List.nodup_nil, by simp [new]⟩
  localWindow := ⟨.empty codec, List.nodup_nil, by simp [new]⟩
  malformed := rfl

/-- A decoder with everything counted has recovered the difference. -/
theorem Peeling.exact_of_decoded {codec : Codec w} {a b : Finset (BitVec w)} {decoder : Decoder w}
    (hpeeling : decoder.Peeling codec a b []) (hpos : 0 < decoder.cs.length)
    (hdecoded : decoder.decoded) :
    (∀ x, x ∈ decoder.remote ↔ x ∈ a ∧ x ∉ b) ∧ (∀ x, x ∈ decoder.local_ ↔ x ∈ b ∧ x ∉ a) := by
  have hcount : decoder.decodedCount = decoder.cs.length := by
    simpa [decoded, hpeeling.malformed] using hdecoded
  have hpeels := hpeeling.peels
  rw [hcount] at hpeels
  have hall : ∀ x, x ∈ a ∆ b → x ∈ decoder.remote ∨ x ∈ decoder.local_ := by
    intro x hx
    have hsub := Finset.sdiff_eq_empty_iff_subset.mp (hpeels.eq_empty hpos) hx
    exact List.mem_append.mp (List.mem_toFinset.mp hsub)
  have hremote : ∀ x ∈ decoder.remote, x ∈ a ∧ x ∉ b := fun x hx =>
    Finset.mem_sdiff.mp (hpeeling.remoteWindow.sub x hx)
  have hlocal : ∀ x ∈ decoder.local_, x ∈ b ∧ x ∉ a := fun x hx =>
    Finset.mem_sdiff.mp (hpeeling.localWindow.sub x hx)
  refine ⟨fun x => ⟨hremote x, fun hx => ?_⟩, fun x => ⟨hlocal x, fun hx => ?_⟩⟩
  · rcases hall x (Finset.mem_symmDiff.mpr (Or.inl hx)) with hin | hin
    · exact hin
    · exact absurd hx.1 (hlocal x hin).2
  · rcases hall x (Finset.mem_symmDiff.mpr (Or.inr hx)) with hin | hin
    · exact absurd hx.1 (hremote x hin).2
    · exact hin

end Decoder

/-! ## A reconciliation -/

/-- A decoder has been fed the first `k` cells of an encoder's set. -/
structure Reconciled (codec : Codec w) (a b : Finset (BitVec w)) (k : Nat) (encoder : Encoder w)
    (decoder : Decoder w) : Prop where
  coding : ∃ xs : List (BitVec w), xs.Nodup ∧ xs.toFinset = a ∧ encoder.window.Codes codec k xs
  peeling : decoder.Peeling codec a b []
  idle : decoder.decodable = []
  received : decoder.cs.length = k

theorem Encoder.produceNextCodedSymbol_spec {codec : Codec w} {a : Finset (BitVec w)}
    {bound j : Nat} (fuel : Nat) {encoder : Encoder w} {xs : List (BitVec w)} (hnodup : xs.Nodup)
    (hxs : xs.toFinset = a) (hcodes : encoder.window.Codes codec j xs)
    (hinc : ∀ x ∈ a, Increasing codec bound (codec.hashSymbol x)) (hbound : j < bound)
    (hfuel : a.card < fuel) :
    ∃ next : Encoder w, encoder.produceNextCodedSymbol codec fuel =
        some (∑ x ∈ a, share codec j (.new codec x), next) ∧
      next.window.Codes codec j.succ xs := by
  have hlength : xs.length = a.card := by
    rw [← hxs, List.toFinset_card_of_nodup hnodup]
  obtain ⟨window, happly, hcodes'⟩ := hcodes.applyWindow (Or.inl rfl)
    (fun x hx => hinc x (hxs ▸ List.mem_toFinset.mpr hx)) hbound 0 fuel (by omega)
  refine ⟨⟨window⟩, ?_, hcodes'⟩
  rw [zero_add, one_zsmul, ← List.sum_toFinset _ hnodup, hxs] at happly
  exact congrArg (Option.map _) happly

/-- Every prefix of a set's cells leaves the decoder with what they determine. -/
theorem exists_reconciled {codec : Codec w} {set prior : List (BitVec w)} {bound fuel : Nat}
    (hcollisionless : Collisionless codec set.toFinset prior.toFinset)
    (hinc : ∀ x ∈ set.toFinset ∪ prior.toFinset, Increasing codec bound (codec.hashSymbol x))
    (hfuel : set.length + prior.length + bound < fuel) (k : Nat) (hk : k ≤ bound) :
    ∃ encoder decoder, reconcile codec fuel set prior k = some (encoder, decoder) ∧
      Reconciled codec set.toFinset prior.toFinset k encoder decoder := by
  have hset := List.toFinset_card_le set
  have hprior := List.toFinset_card_le prior
  induction k with
  | zero =>
    exact ⟨_, _, rfl, ⟨dedupLoop [] set, nodup_dedupLoop set [], toFinset_dedupLoop set,
      windowOf_codes codec set⟩, Decoder.peeling_new codec _ prior, rfl, rfl⟩
  | succ k ih =>
    obtain ⟨encoder, decoder, hrun, ⟨xs, hnodup, hxs, hcodes⟩, hpeeling, hdecodable, rfl⟩ :=
      ih (by omega)
    obtain ⟨encoder', hproduce, hcodes'⟩ := Encoder.produceNextCodedSymbol_spec fuel
      hnodup hxs hcodes (fun x hx => hinc x (Finset.mem_union_left _ hx)) (by omega) (by omega)
    rw [← hdecodable] at hpeeling
    obtain ⟨received, hadd, hreceived, hlength⟩ := Decoder.addCodedSymbol_spec fuel
      hcollisionless hinc hpeeling (by omega) (by omega) rfl
    obtain ⟨after, hloop, hafter, hlength'⟩ :=
      Decoder.decodeLoop_spec fuel hcollisionless
        (fun x hx => hinc x (Finset.symmDiff_subset_union hx)) fuel hreceived (List.drop_zero)
        (by omega) (by omega) (by omega)
    refine ⟨encoder', { after with decodable := [] }, ?_, ⟨xs, hnodup, hxs, hcodes'⟩,
      ⟨hafter.peels, hafter.window, hafter.remoteWindow, hafter.localWindow, hafter.malformed⟩,
      rfl, by simp only; omega⟩
    rw [reconcile, hrun]
    simp only [Option.bind_eq_bind, Option.bind_some, hproduce, hadd, Decoder.tryDecode,
      hreceived.malformed, Bool.false_eq_true, if_false, hloop]
    rfl

end Datboi.Riblt
