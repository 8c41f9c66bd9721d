import Datboi.P2p.Reconcile

/-!
# Blocks of cells

The cell of a set at an index is the sum of its symbols' shares. The encoder's window and a
pass over the set that replays every symbol's indices both compute that sum, so blocks cut
anywhere join to the encoder's sequence, whatever the order of the set.
-/

namespace Datboi.Riblt

variable {w : Nat}

/-- The cell of a set at an index. -/
noncomputable def cellOf (codec : Codec w) (a : Finset (BitVec w)) (i : Nat) : CodedSymbol w :=
  ∑ x ∈ a, share codec i (.new codec x)

/-! ## One symbol over a block -/

variable {codec : Codec w} {bound start fuel : Nat} {set : List (BitVec w)}

/-- Applying a symbol adds its share to every cell of the block from its pending index on. -/
theorem encodeSymbol_spec {hs : HashedSymbol w} (hinc : Increasing codec bound hs.hash)
    (fuel : Nat) {m : RandomMapping} {out : List (CodedSymbol w)}
    (hbound : start + out.length ≤ bound)
    (hreached : Reached codec hs.hash m.lastIndex m.lastIndex m)
    (hfuel : start + out.length - m.lastIndex < fuel) :
    ∃ out', encodeSymbol codec start hs fuel m out = some out' ∧ out'.length = out.length ∧
      ∀ i < out.length, out'.getD i {} =
        if m.lastIndex ≤ start + i then out.getD i {} + share codec (start + i) hs
        else out.getD i {} := by
  induction fuel generalizing m out with
  | zero => exact absurd hfuel (Nat.not_lt_zero _)
  | succ fuel ih =>
    unfold encodeSymbol
    split
    · rename_i hend
      refine ⟨out, rfl, rfl, fun i hi => ?_⟩
      rw [if_neg (by omega)]
    · rename_i hopen
      have hpassed := Reached.next hinc (by omega) (hreached.change (Nat.le_succ _) le_rfl) rfl
      have hgrow := hpassed.le_lastIndex
      have hbetween : ∀ i, m.lastIndex < i → i < (m.nextIndex codec).lastIndex →
          ¬Mapped codec hs.hash i := by
        intro i hi hlt hmapped
        have hat : Reached codec hs.hash i i (m.nextIndex codec) :=
          hpassed.change (by omega) (by omega)
        exact absurd (hat.mapped_iff.mp hmapped) (by omega)
      -- the cell at the pending index, when the block has it, gets the symbol
      obtain ⟨out₁, hout₁⟩ : ∃ out₁, out₁ = (if start ≤ m.lastIndex then
          out.set (m.lastIndex - start) ((out.getD (m.lastIndex - start) {}).apply hs add)
        else out) := ⟨_, rfl⟩
      have hlength : out₁.length = out.length := by
        rw [hout₁]
        split
        · exact List.length_set
        · rfl
      have hcell : ∀ i < out.length, out₁.getD i {} =
          if start + i = m.lastIndex then out.getD i {} + share codec (start + i) hs
          else out.getD i {} := by
        intro i hi
        rw [hout₁]
        by_cases hat : start + i = m.lastIndex
        · have hidx : m.lastIndex - start = i := by omega
          rw [if_pos (by omega), if_pos hat, hidx, List.getD_eq_getElem?_getD,
            List.getElem?_set_self hi, share, hat, if_pos (hreached.mapped_iff.mpr rfl)]
          simp [CodedSymbol.apply_eq _ hs (Or.inl rfl)]
        · rw [if_neg hat]
          split
          · rw [List.getD_eq_getElem?_getD, List.getElem?_set_ne (by omega),
              ← List.getD_eq_getElem?_getD]
          · rfl
      rw [← hout₁]
      obtain ⟨out', hloop, hlength', hcells⟩ := @ih (m.nextIndex codec) out₁ (by omega)
        (hpassed.change hgrow le_rfl) (by omega)
      refine ⟨out', hloop, hlength'.trans hlength, fun i hi => ?_⟩
      rw [hcells i (by omega), hcell i hi]
      by_cases hpast : m.lastIndex ≤ start + i
      · rw [if_pos hpast]
        by_cases hnext : (m.nextIndex codec).lastIndex ≤ start + i
        · rw [if_pos hnext, if_neg (by omega)]
        · rw [if_neg hnext]
          by_cases hat : start + i = m.lastIndex
          · rw [if_pos hat]
          · rw [if_neg hat, share, if_neg (hbetween _ (by omega) (by omega)), add_zero]
      · rw [if_neg hpast, if_neg (by omega), if_neg (by omega)]

/-! ## Blocks -/

theorem encodeFold_spec (start : Nat) (xs : List (BitVec w))
    (hinc : ∀ x ∈ xs, Increasing codec bound (codec.hashSymbol x)) (out : List (CodedSymbol w))
    (hbound : start + out.length ≤ bound) (hfuel : bound < fuel) :
    ∃ out', xs.foldlM (fun out symbol =>
        encodeSymbol codec start (.new codec symbol) fuel (.seed (HashedSymbol.new codec symbol).hash)
          out) out = some out' ∧ out'.length = out.length ∧
      ∀ i < out.length, out'.getD i {} =
        out.getD i {} + (xs.map fun x => share codec (start + i) (.new codec x)).sum := by
  induction xs generalizing out with
  | nil => exact ⟨out, rfl, rfl, fun i _ => by simp⟩
  | cons x xs ih =>
    have hincx : Increasing codec bound (HashedSymbol.new codec x).hash :=
      hinc x List.mem_cons_self
    obtain ⟨out₁, hsymbol, hlength, hcells⟩ := encodeSymbol_spec hincx fuel hbound
      (reached_seed codec _ _) (by omega)
    obtain ⟨out', hfold, hlength', hcells'⟩ := @ih
      (fun y hy => hinc y (List.mem_cons_of_mem x hy)) out₁ (by omega)
    refine ⟨out', ?_, hlength'.trans hlength, fun i hi => ?_⟩
    · simp only [List.foldlM_cons, hsymbol]
      exact hfold
    · have hstart : (RandomMapping.seed (HashedSymbol.new codec x).hash).lastIndex ≤ start + i :=
        Nat.zero_le _
      rw [hcells' i (by omega), hcells i hi, if_pos hstart, List.map_cons, List.sum_cons,
        add_assoc]

/-- A block holds the set's cells from its start on. -/
theorem encodeBlock_eq (hnodup : set.Nodup)
    (hinc : ∀ x ∈ set, Increasing codec bound (codec.hashSymbol x)) {len : Nat}
    (hbound : start + len ≤ bound) (hfuel : bound < fuel) :
    encodeBlock codec fuel set start len =
      some ((List.range len).map fun i => cellOf codec set.toFinset (start + i)) := by
  obtain ⟨out, hfold, hlength, hcells⟩ := encodeFold_spec start set hinc
    (List.replicate len {}) (by simpa using hbound) hfuel
  rw [List.length_replicate] at hlength hcells
  have hout : out = (List.range len).map fun i => cellOf codec set.toFinset (start + i) := by
    refine List.ext_getElem (by simp [hlength]) fun i hi _ => ?_
    have hcell := hcells i (by omega)
    rw [List.getD_eq_getElem _ _ hi, List.getD_replicate _ (by omega)] at hcell
    rw [hcell, List.getElem_map, List.getElem_range, cellOf, List.sum_toFinset _ hnodup]
    exact zero_add _
  rw [← hout]
  exact hfold

/-- Blocks cut anywhere join to the set's cells in order. -/
theorem encodeBlocks_eq (hnodup : set.Nodup)
    (hinc : ∀ x ∈ set, Increasing codec bound (codec.hashSymbol x)) (hfuel : bound < fuel)
    (lens : List Nat) (hbound : start + lens.sum ≤ bound) :
    encodeBlocks codec fuel set start lens =
      some ((List.range lens.sum).map fun i => cellOf codec set.toFinset (start + i)) := by
  induction lens generalizing start with
  | nil => rfl
  | cons len lens ih =>
    rw [List.sum_cons] at hbound ⊢
    rw [encodeBlocks, encodeBlock_eq hnodup hinc (by omega) hfuel, ih (by omega), List.range_add,
      List.map_append, List.map_map]
    simp only [Option.bind_eq_bind, Option.bind_some, Function.comp_def, Nat.add_assoc]
    rfl

/-- The encoder produces the set's cells in order. -/
theorem Encoder.produce_eq (hinc : ∀ x ∈ set, Increasing codec bound (codec.hashSymbol x))
    (hfuel : set.length < fuel) (n : Nat) (hn : n ≤ bound) :
    ∃ encoder, (Encoder.new codec set).produce codec fuel n =
        some ((List.range n).map fun i => cellOf codec set.toFinset i, encoder) ∧
      encoder.window.Codes codec n (dedupLoop [] set) := by
  have hcard : set.toFinset.card < fuel := (List.toFinset_card_le set).trans_lt hfuel
  induction n with
  | zero => exact ⟨_, rfl, windowOf_codes codec set⟩
  | succ n ih =>
    obtain ⟨encoder, hproduce, hcodes⟩ := ih (by omega)
    obtain ⟨next, hnext, hcodes'⟩ := Encoder.produceNextCodedSymbol_spec fuel
      (nodup_dedupLoop set []) (toFinset_dedupLoop set) hcodes
      (fun x hx => hinc x (List.mem_toFinset.mp hx)) hn hcard
    refine ⟨next, ?_, hcodes'⟩
    rw [produce, hproduce]
    simp only [Option.bind_eq_bind, Option.bind_some, hnext]
    rw [List.range_succ, List.map_append]
    rfl

/-- Blocks of a set without duplicates, cut anywhere, join to the sequence the encoder
produces, and neither depends on the order of the set. -/
theorem encodeBlocks_eq_produce {codec : Codec w} {set : List (BitVec w)} {lens : List Nat}
    {fuel : Nat} (hnodup : set.Nodup)
    (hinc : ∀ x ∈ set, Increasing codec lens.sum (codec.hashSymbol x))
    (hfuel : set.length + lens.sum < fuel) :
    ∃ cells, ∀ permuted : List (BitVec w), permuted.Perm set →
      encodeBlocks codec fuel permuted 0 lens = some cells ∧
      ∃ encoder, (Encoder.new codec permuted).produce codec fuel lens.sum =
        some (cells, encoder) := by
  refine ⟨(List.range lens.sum).map (cellOf codec set.toFinset), fun permuted hperm => ?_⟩
  have hsame : permuted.toFinset = set.toFinset := List.toFinset_eq_of_perm _ _ hperm
  have hinc' : ∀ x ∈ permuted, Increasing codec lens.sum (codec.hashSymbol x) := fun x hx =>
    hinc x (hperm.mem_iff.mp hx)
  have hlength : permuted.length < fuel := by
    rw [hperm.length_eq]
    omega
  constructor
  · rw [encodeBlocks_eq (hperm.nodup_iff.mpr hnodup) hinc' (by omega) lens (by omega), hsame]
    simp only [Nat.zero_add]
  · obtain ⟨encoder, hproduce, -⟩ := Encoder.produce_eq hinc' hlength lens.sum le_rfl
    rw [hsame] at hproduce
    exact ⟨encoder, hproduce⟩

theorem encodeBlocks_eq_produce_sample :
    ∃ cells, ∀ permuted : List (BitVec 256), permuted.Perm [5, 1, 3] →
      encodeBlocks sampleCodec 6 permuted 0 [1, 1] = some cells ∧
      ∃ encoder, (Encoder.new sampleCodec permuted).produce sampleCodec 6 [1, 1].sum =
        some (cells, encoder) :=
  encodeBlocks_eq_produce (by decide) (fun _ hx => sample_increasing hx) (by decide)

end Datboi.Riblt
