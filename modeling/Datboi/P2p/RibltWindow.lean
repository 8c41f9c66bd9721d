import Datboi.P2p.Riblt
import Mathlib.Algebra.BigOperators.Group.List.Lemmas
import Mathlib.Algebra.Group.Int.Defs
import Mathlib.Data.Finset.Dedup
import Mathlib.Data.List.Perm.Lattice
import Mathlib.Order.Monotone.Basic

/-!
# Coding windows: the cells of a set

Cells form a commutative group, and a symbol's share of a cell is the symbol itself or
nothing. A window keeps, for each of its symbols, the first index of the symbol not yet
passed, and a heap of those indices. `applyWindow` adds to a cell the shares of all of the
window's symbols at the window's index, whatever the order in which they left the heap.
-/

namespace Datboi.Riblt

variable {w : Nat}

/-! ## Cells as a group -/

namespace CodedSymbol

instance : Add (CodedSymbol w) where
  add c d := ⟨c.symbol ^^^ d.symbol, c.hash ^^^ d.hash, c.count + d.count⟩

instance : Zero (CodedSymbol w) := ⟨{}⟩

instance : Neg (CodedSymbol w) := ⟨fun c => ⟨c.symbol, c.hash, -c.count⟩⟩

@[simp] theorem symbol_add (c d : CodedSymbol w) : (c + d).symbol = c.symbol ^^^ d.symbol := rfl

@[simp] theorem hash_add (c d : CodedSymbol w) : (c + d).hash = c.hash ^^^ d.hash := rfl

@[simp] theorem count_add (c d : CodedSymbol w) : (c + d).count = c.count + d.count := rfl

@[simp] theorem symbol_neg (c : CodedSymbol w) : (-c).symbol = c.symbol := rfl

@[simp] theorem hash_neg (c : CodedSymbol w) : (-c).hash = c.hash := rfl

@[simp] theorem count_neg (c : CodedSymbol w) : (-c).count = -c.count := rfl

@[simp] theorem symbol_zero : (0 : CodedSymbol w).symbol = 0 := rfl

@[simp] theorem hash_zero : (0 : CodedSymbol w).hash = 0 := rfl

@[simp] theorem count_zero : (0 : CodedSymbol w).count = 0 := rfl

instance : AddCommGroup (CodedSymbol w) where
  add_assoc c d e := by
    ext1 <;> simp [BitVec.xor_assoc, BitVec.add_assoc]
  zero_add c := by
    ext1 <;> simp
  add_zero c := by
    ext1 <;> simp
  add_comm c d := by
    ext1 <;> simp [BitVec.xor_comm, BitVec.add_comm]
  neg_add_cancel c := by
    ext1 <;> simp [BitVec.add_comm, BitVec.add_neg_eq_sub]
  nsmul := nsmulRec
  zsmul := zsmulRec

end CodedSymbol

/-- A cell with one symbol. -/
def HashedSymbol.cell (s : HashedSymbol w) : CodedSymbol w := ⟨s.symbol, s.hash, 1⟩

/-- Applying a symbol in a direction adds or subtracts its cell. -/
theorem CodedSymbol.apply_eq (c : CodedSymbol w) (s : HashedSymbol w) {direction : Int}
    (hdirection : direction = add ∨ direction = remove) :
    c.apply s direction = c + direction • s.cell := by
  rcases hdirection with rfl | rfl
  · rw [one_zsmul]
    rfl
  · rw [neg_one_zsmul]
    rfl

/-! ## The indices of a symbol -/

/-- The generator after `n` steps. -/
def mappingAt (codec : Codec w) (hash : BitVec 64) : Nat → RandomMapping
  | 0 => .seed hash
  | n + 1 => (mappingAt codec hash n).nextIndex codec

/-- A checksum's symbol takes part in the cell at an index. -/
def Mapped (codec : Codec w) (hash : BitVec 64) (i : Nat) : Prop :=
  ∃ n, (mappingAt codec hash n).lastIndex = i

/-- The indices are strictly increasing as long as they are below a bound. -/
def Increasing (codec : Codec w) (bound : Nat) (hash : BitVec 64) : Prop :=
  ∀ n, (mappingAt codec hash n).lastIndex < bound →
    (mappingAt codec hash n).lastIndex < (mappingAt codec hash (n + 1)).lastIndex

/-- A state of the generator at or beyond an index, every earlier one being before
`passed`. -/
def Reached (codec : Codec w) (hash : BitVec 64) (passed j : Nat) (m : RandomMapping) : Prop :=
  ∃ n, m = mappingAt codec hash n ∧ j ≤ m.lastIndex ∧
    ∀ p < n, (mappingAt codec hash p).lastIndex < passed

theorem mapped_zero (codec : Codec w) (hash : BitVec 64) : Mapped codec hash 0 := ⟨0, rfl⟩

theorem reached_seed (codec : Codec w) (hash : BitVec 64) (passed : Nat) :
    Reached codec hash passed 0 (.seed hash) :=
  ⟨0, rfl, Nat.zero_le _, fun p hp => absurd hp (Nat.not_lt_zero p)⟩

theorem lastIndex_mappingAt_lt (codec : Codec w) (hash : BitVec 64) (n : Nat) :
    (mappingAt codec hash n).lastIndex < u64Limit := by
  cases n with
  | zero => simp [mappingAt, RandomMapping.seed, u64Limit]
  | succ n =>
    have hlimit : 0 < u64Limit := by simp [u64Limit]
    simp only [mappingAt, RandomMapping.nextIndex, saturatingAdd]
    omega

theorem lastIndex_mappingAt_mono (codec : Codec w) (hash : BitVec 64) :
    Monotone fun n => (mappingAt codec hash n).lastIndex := by
  refine monotone_nat_of_le_succ fun n => ?_
  have hlt := lastIndex_mappingAt_lt codec hash n
  simp only [mappingAt, RandomMapping.nextIndex, saturatingAdd]
  omega

section Reached

variable {codec : Codec w} {hash : BitVec 64} {j : Nat} {m : RandomMapping}

theorem Reached.mapped_iff (hreached : Reached codec hash j j m) :
    Mapped codec hash j ↔ m.lastIndex = j := by
  obtain ⟨n, rfl, hle, hbefore⟩ := hreached
  constructor
  · rintro ⟨p, hp⟩
    have hnp : n ≤ p := by
      by_contra hlt
      have := hbefore p (by omega)
      omega
    have hmono : (mappingAt codec hash n).lastIndex ≤ (mappingAt codec hash p).lastIndex :=
      lastIndex_mappingAt_mono codec hash hnp
    omega
  · intro heq
    exact ⟨n, heq⟩

theorem Reached.change {passed passed' j' : Nat} (hreached : Reached codec hash passed j m)
    (hpassed : passed ≤ passed') (hj' : j' ≤ m.lastIndex) : Reached codec hash passed' j' m := by
  obtain ⟨n, hm, -, hbefore⟩ := hreached
  exact ⟨n, hm, hj', fun p hp => (hbefore p hp).trans_le hpassed⟩

theorem Reached.le_lastIndex {passed : Nat} (hreached : Reached codec hash passed j m) :
    j ≤ m.lastIndex := by
  obtain ⟨n, -, hle, -⟩ := hreached
  exact hle

/-- A generator at the index passes it by one step. -/
theorem Reached.next {bound : Nat} (hinc : Increasing codec bound hash) (hj : j < bound)
    (hreached : Reached codec hash (j + 1) j m) (heq : m.lastIndex = j) :
    Reached codec hash (j + 1) (j + 1) (m.nextIndex codec) := by
  obtain ⟨n, rfl, hle, hbefore⟩ := hreached
  refine ⟨n + 1, rfl, ?_, fun p hp => ?_⟩
  · have := hinc n (by omega)
    exact Nat.succ_le_of_lt (heq ▸ this)
  · rcases Nat.lt_succ_iff_lt_or_eq.mp hp with hlt | rfl
    · exact hbefore p hlt
    · omega

end Reached

open Classical in
/-- A symbol's share of the cell at an index. -/
noncomputable def share (codec : Codec w) (i : Nat) (s : HashedSymbol w) : CodedSymbol w :=
  if Mapped codec s.hash i then s.cell else 0

/-! ## Windows -/

namespace CodingWindow

/-- Each symbol's generator is related to the symbol, and the queue is a heap with one
entry for each symbol, at its generator's index. -/
structure Keeps (window : CodingWindow w) (R : HashedSymbol w → RandomMapping → Prop) :
    Prop where
  length_mappings : window.mappings.length = window.symbols.length
  sources : (window.queue.map SymbolMapping.sourceIdx).Perm (List.range window.symbols.length)
  current : ∀ e ∈ window.queue, e.codedIdx = (Heap.look window.mappings e.sourceIdx).lastIndex
  ordered : Heap.Ordered SymbolMapping.codedIdx window.queue
  related : ∀ src < window.symbols.length,
    R (Heap.look window.symbols src) (Heap.look window.mappings src)

@[simp] theorem advanceHead_nextIdx (codec : Codec w) (window : CodingWindow w) :
    (window.advanceHead codec).nextIdx = window.nextIdx := rfl

theorem advanceHead_perm (codec : Codec w) {window : CodingWindow w} {head : SymbolMapping}
    {rest : List SymbolMapping} (hsplit : window.queue = head :: rest) :
    (window.advanceHead codec).queue.Perm ({ head with
      codedIdx := ((Heap.look window.mappings head.sourceIdx).nextIndex codec).lastIndex } ::
        rest) := by
  have hlook : Heap.look window.queue 0 = head := by
    rw [hsplit]
    rfl
  refine (Heap.siftDown_perm _ _ _ _).trans ?_
  rw [hlook, hsplit]
  exact List.Perm.refl _

theorem advanceHead_queue_ne (codec : Codec w) {window : CodingWindow w}
    (hqueue : window.queue ≠ []) : (window.advanceHead codec).queue ≠ [] := by
  obtain ⟨head, rest, hsplit⟩ := List.exists_cons_of_ne_nil hqueue
  intro hnil
  have hlength := (advanceHead_perm codec hsplit).length_eq
  simp [hnil] at hlength

namespace Keeps

variable {window : CodingWindow w} {R R' : HashedSymbol w → RandomMapping → Prop}

theorem empty (R : HashedSymbol w → RandomMapping → Prop) (nextIdx : Nat) :
    Keeps ({ nextIdx := nextIdx } : CodingWindow w) R where
  length_mappings := rfl
  sources := List.Perm.refl []
  current := by simp
  ordered := by
    intro i _ hi
    exact absurd hi (Nat.not_lt_zero i)
  related := by simp

section

variable (hkeeps : window.Keeps R)

include hkeeps

theorem length_queue : window.queue.length = window.symbols.length := by
  simpa using hkeeps.sources.length_eq

theorem source_lt {e : SymbolMapping} (he : e ∈ window.queue) :
    e.sourceIdx < window.symbols.length :=
  List.mem_range.mp (hkeeps.sources.mem_iff.mp (List.mem_map_of_mem he))

theorem exists_entry {src : Nat} (hsrc : src < window.symbols.length) :
    ∃ e ∈ window.queue, e.sourceIdx = src := by
  simpa using hkeeps.sources.mem_iff.mpr (List.mem_range.mpr hsrc)

theorem imp
    (himp : ∀ e ∈ window.queue,
      R (Heap.look window.symbols e.sourceIdx) (Heap.look window.mappings e.sourceIdx) →
      R' (Heap.look window.symbols e.sourceIdx) (Heap.look window.mappings e.sourceIdx)) :
    window.Keeps R' where
  length_mappings := hkeeps.length_mappings
  sources := hkeeps.sources
  current := hkeeps.current
  ordered := hkeeps.ordered
  related := by
    intro src hsrc
    obtain ⟨e, he, rfl⟩ := hkeeps.exists_entry hsrc
    exact himp e he (hkeeps.related _ hsrc)

theorem addHashedSymbolWithMapping {t : HashedSymbol w} {m : RandomMapping} (hrelated : R t m) :
    (window.addHashedSymbolWithMapping t m).Keeps R := by
  have hperm : (window.addHashedSymbolWithMapping t m).queue.Perm
      (window.queue ++ [⟨window.symbols.length, m.lastIndex⟩]) := Heap.siftUp_perm _ _ _ _
  constructor
  · simp [CodingWindow.addHashedSymbolWithMapping, hkeeps.length_mappings]
  · have hsources := (hperm.map SymbolMapping.sourceIdx).trans
      (by simpa using hkeeps.sources.append_right [window.symbols.length])
    simpa [CodingWindow.addHashedSymbolWithMapping, List.range_succ] using hsources
  · intro e he
    rcases List.mem_append.mp (hperm.mem_iff.mp he) with hold | hnew
    · have hlt : e.sourceIdx < window.mappings.length := by
        rw [hkeeps.length_mappings]
        exact hkeeps.source_lt hold
      exact (hkeeps.current e hold).trans
        (congrArg RandomMapping.lastIndex (Heap.look_append_left hlt [m]).symm)
    · obtain rfl := List.mem_singleton.mp hnew
      simp [CodingWindow.addHashedSymbolWithMapping, ← hkeeps.length_mappings]
  · have hpush := hkeeps.ordered.push ⟨window.symbols.length, m.lastIndex⟩
    simpa [CodingWindow.addHashedSymbolWithMapping, fixTail] using hpush
  · intro src hsrc
    rw [CodingWindow.addHashedSymbolWithMapping, List.length_append, List.length_singleton] at hsrc
    rcases Nat.lt_succ_iff_lt_or_eq.mp hsrc with hlt | rfl
    · simp only [CodingWindow.addHashedSymbolWithMapping]
      rw [Heap.look_append_left hlt, Heap.look_append_left (hkeeps.length_mappings ▸ hlt)]
      exact hkeeps.related src hlt
    · simp only [CodingWindow.addHashedSymbolWithMapping, Heap.look_append_length]
      rw [← hkeeps.length_mappings, Heap.look_append_length]
      exact hrelated

/-- Stepping the head keeps the relation when the stepped generator has it. -/
theorem advanceHead (codec : Codec w) (hqueue : window.queue ≠ [])
    (hnext : R (Heap.look window.symbols (Heap.look window.queue 0).sourceIdx)
      ((Heap.look window.mappings (Heap.look window.queue 0).sourceIdx).nextIndex codec)) :
    (window.advanceHead codec).Keeps R := by
  have hpos : 0 < window.queue.length := List.length_pos_of_ne_nil hqueue
  have hsrc := hkeeps.source_lt (Heap.look_mem hpos)
  obtain ⟨head, rest, hsplit⟩ := List.exists_cons_of_ne_nil hqueue
  have hlook : Heap.look window.queue 0 = head := by
    rw [hsplit]
    rfl
  have hperm := advanceHead_perm codec hsplit
  have hnodup : head.sourceIdx ∉ rest.map SymbolMapping.sourceIdx := by
    have := hkeeps.sources.nodup_iff.mpr List.nodup_range
    rw [hsplit, List.map_cons, List.nodup_cons] at this
    exact this.1
  rw [hlook] at hsrc hnext
  have hsrc' : head.sourceIdx < window.mappings.length := hkeeps.length_mappings ▸ hsrc
  constructor
  · simpa [CodingWindow.advanceHead] using hkeeps.length_mappings
  · have hsources := hkeeps.sources
    rw [hsplit] at hsources
    exact (hperm.map SymbolMapping.sourceIdx).trans hsources
  · intro e he
    have hmappings : (window.advanceHead codec).mappings = window.mappings.set head.sourceIdx
        ((Heap.look window.mappings head.sourceIdx).nextIndex codec) := by
      rw [← hlook]
      rfl
    rw [hmappings]
    rcases List.mem_cons.mp (hperm.mem_iff.mp he) with rfl | hrest
    · rw [Heap.look_set_self hsrc']
    · have hne : head.sourceIdx ≠ e.sourceIdx := by
        intro heq
        exact hnodup (heq ▸ List.mem_map_of_mem hrest)
      rw [Heap.look_set_ne hne]
      exact hkeeps.current e (hsplit ▸ List.mem_cons_of_mem head hrest)
  · have hordered := hkeeps.ordered.replaceHead
      { head with
        codedIdx := ((Heap.look window.mappings head.sourceIdx).nextIndex codec).lastIndex }
    simpa [CodingWindow.advanceHead, fixHead, hlook] using hordered
  · intro src hlt
    simp only [CodingWindow.advanceHead, hlook] at hlt ⊢
    by_cases heq : head.sourceIdx = src
    · subst heq
      rw [Heap.look_set_self hsrc']
      exact hnext
    · rw [Heap.look_set_ne heq]
      exact hkeeps.related src hlt

end

end Keeps

/-- The symbols that entries of a queue have at an index. -/
def dueOf (symbols : List (HashedSymbol w)) (queue : List SymbolMapping) (j : Nat) :
    List (CodedSymbol w) :=
  (queue.filter (·.codedIdx = j)).map fun e => (Heap.look symbols e.sourceIdx).cell

/-- The symbols at an index, as the queue lists them. -/
def due (window : CodingWindow w) (j : Nat) : List (CodedSymbol w) :=
  dueOf window.symbols window.queue j

theorem sum_map_filter {α β : Type*} [AddCommMonoid β] (p : α → Prop) [DecidablePred p]
    (f : α → β) (xs : List α) :
    ((xs.filter fun x => decide (p x)).map f).sum = (xs.map fun x => if p x then f x else 0).sum := by
  induction xs with
  | nil => rfl
  | cons x xs ih =>
    by_cases hx : p x
    · simp [hx, ih]
    · simp [hx, ih]

/-- What is due at the window's index is the sum of its symbols' shares. -/
theorem Keeps.sum_due {codec : Codec w} {window : CodingWindow w} {j : Nat}
    (hkeeps : window.Keeps fun s m => Reached codec s.hash j j m) :
    (window.due j).sum = (window.symbols.map (share codec j)).sum := by
  have hshare : ∀ e ∈ window.queue,
      (if e.codedIdx = j then (Heap.look window.symbols e.sourceIdx).cell else 0) =
        share codec j (Heap.look window.symbols e.sourceIdx) := by
    intro e he
    have hreached := hkeeps.related _ (hkeeps.source_lt he)
    unfold share
    simp only [hkeeps.current e he, hreached.mapped_iff]
  calc (window.due j).sum
      = (window.queue.map fun e => share codec j (Heap.look window.symbols e.sourceIdx)).sum := by
        rw [due, dueOf, sum_map_filter, List.map_congr_left hshare]
    _ = ((window.queue.map SymbolMapping.sourceIdx).map fun src =>
          share codec j (Heap.look window.symbols src)).sum := by
        rw [List.map_map]
        rfl
    _ = ((List.range window.symbols.length).map fun src =>
          share codec j (Heap.look window.symbols src)).sum := (hkeeps.sources.map _).sum_eq
    _ = (window.symbols.map (share codec j)).sum := by
        conv_rhs => rw [← Heap.map_look_range window.symbols]
        rw [List.map_map]
        rfl

/-- Stepping a head that is due leaves the rest of what is due. -/
theorem Keeps.advance_due {codec : Codec w} {bound : Nat} {window : CodingWindow w}
    (hinc : ∀ t ∈ window.symbols, Increasing codec bound t.hash) (hbound : window.nextIdx < bound)
    (hkeeps : window.Keeps fun s m =>
      Reached codec s.hash (window.nextIdx + 1) window.nextIdx m)
    (hqueue : window.queue ≠ []) (hdue : (Heap.look window.queue 0).codedIdx = window.nextIdx) :
    ((window.advanceHead codec).Keeps fun s m =>
      Reached codec s.hash (window.nextIdx + 1) window.nextIdx m) ∧
    ∃ rest, window.due window.nextIdx =
        (Heap.look window.symbols (Heap.look window.queue 0).sourceIdx).cell :: rest ∧
      ((window.advanceHead codec).due window.nextIdx).Perm rest := by
  obtain ⟨head, rest, hsplit⟩ := List.exists_cons_of_ne_nil hqueue
  have hlook : Heap.look window.queue 0 = head := by
    rw [hsplit]
    rfl
  rw [hlook] at hdue ⊢
  have hhead : head ∈ window.queue := hsplit ▸ List.mem_cons_self
  have hat : (Heap.look window.mappings head.sourceIdx).lastIndex = window.nextIdx := by
    rw [← hkeeps.current head hhead, hdue]
  have hpassed := (hkeeps.related _ (hkeeps.source_lt hhead)).next
    (hinc _ (Heap.look_mem (hkeeps.source_lt hhead))) hbound hat
  have hgrow := hpassed.le_lastIndex
  refine ⟨hkeeps.advanceHead codec hqueue ?_, dueOf window.symbols rest window.nextIdx, ?_, ?_⟩
  · rw [hlook]
    exact hpassed.change le_rfl (by omega)
  · simp [due, dueOf, hsplit, hdue]
  · have hfilter := (advanceHead_perm codec hsplit).filter (·.codedIdx = window.nextIdx)
    rw [List.filter_cons_of_neg (by simp only [decide_eq_true_eq]; omega)] at hfilter
    exact hfilter.map _

/-- The head has the least index, so nothing is due when it is not. -/
theorem Keeps.due_eq_nil {codec : Codec w} {window : CodingWindow w}
    (hkeeps : window.Keeps fun s m =>
      Reached codec s.hash (window.nextIdx + 1) window.nextIdx m)
    (hqueue : window.queue ≠ []) (hdue : (Heap.look window.queue 0).codedIdx ≠ window.nextIdx) :
    window.due window.nextIdx = [] ∧
      window.Keeps fun s m => Reached codec s.hash (window.nextIdx + 1) (window.nextIdx + 1) m := by
  have hhead : Heap.look window.queue 0 ∈ window.queue :=
    Heap.look_mem (List.length_pos_of_ne_nil hqueue)
  have hreached := hkeeps.related _ (hkeeps.source_lt hhead)
  have hcurrent := hkeeps.current _ hhead
  have hpast : ∀ e ∈ window.queue, e.codedIdx ≠ window.nextIdx := by
    intro e he
    obtain ⟨i, hi, rfl⟩ := Heap.exists_look_of_mem he
    have hleast := hkeeps.ordered.head_le hi
    have := hreached.le_lastIndex
    omega
  refine ⟨?_, hkeeps.imp fun e he hreached => ?_⟩
  · rw [due, dueOf, List.map_eq_nil_iff, List.filter_eq_nil_iff]
    simpa using hpast
  · have hne := hpast e he
    rw [hkeeps.current e he] at hne
    exact hreached.change le_rfl (by have := hreached.le_lastIndex; omega)

/-- The loop applies what is due and passes the index. -/
theorem applyLoop_spec {codec : Codec w} {bound : Nat} {direction : Int}
    {window : CodingWindow w}
    (cw : CodedSymbol w) (hdirection : direction = add ∨ direction = remove)
    (hinc : ∀ t ∈ window.symbols, Increasing codec bound t.hash) (hbound : window.nextIdx < bound)
    (hkeeps : window.Keeps fun s m =>
      Reached codec s.hash (window.nextIdx + 1) window.nextIdx m)
    (hqueue : window.queue ≠ []) (fuel : Nat) (hfuel : (window.due window.nextIdx).length < fuel) :
    ∃ after, applyLoop codec direction fuel window cw =
        some (cw + direction • (window.due window.nextIdx).sum, after) ∧
      after.symbols = window.symbols ∧ after.nextIdx = window.nextIdx ∧
      after.Keeps fun s m => Reached codec s.hash (window.nextIdx + 1) (window.nextIdx + 1) m := by
  induction fuel generalizing window cw with
  | zero => exact absurd hfuel (Nat.not_lt_zero _)
  | succ fuel ih =>
    by_cases hdue : (Heap.look window.queue 0).codedIdx = window.nextIdx
    · obtain ⟨hkeeps', rest, hdrop, hrest⟩ := hkeeps.advance_due hinc hbound hqueue hdue
      rw [hdrop] at hfuel ⊢
      rw [List.length_cons, ← hrest.length_eq] at hfuel
      obtain ⟨after, hloop, hsymbols, hnextIdx, hafter⟩ :=
        @ih (window.advanceHead codec)
          (cw.apply (Heap.look window.symbols (Heap.look window.queue 0).sourceIdx) direction)
          hinc hbound hkeeps' (advanceHead_queue_ne codec hqueue) (Nat.lt_of_succ_lt_succ hfuel)
      refine ⟨after, ?_, hsymbols, hnextIdx, hafter⟩
      simp only [applyLoop, hdue, if_true]
      rw [hloop, advanceHead_nextIdx, CodedSymbol.apply_eq cw _ hdirection, hrest.sum_eq,
        List.sum_cons, zsmul_add, add_assoc]
    · obtain ⟨hnil, hkeeps'⟩ := hkeeps.due_eq_nil hqueue hdue
      refine ⟨window, ?_, rfl, rfl, hkeeps'⟩
      simp [applyLoop, hdue, hnil, zsmul_zero]

theorem Keeps.length_due_le {window : CodingWindow w} {R : HashedSymbol w → RandomMapping → Prop}
    (hkeeps : window.Keeps R) (j : Nat) : (window.due j).length ≤ window.symbols.length := by
  rw [due, dueOf, List.length_map, ← hkeeps.length_queue]
  exact List.length_filter_le _ _

/-- Applying a window adds its symbols' shares of the cell, in the direction given. -/
theorem applyWindow_spec {codec : Codec w} {bound : Nat} {direction : Int}
    {window : CodingWindow w} (cw : CodedSymbol w)
    (hdirection : direction = add ∨ direction = remove)
    (hinc : ∀ t ∈ window.symbols, Increasing codec bound t.hash) (hbound : window.nextIdx < bound)
    (hkeeps : window.Keeps fun s m => Reached codec s.hash window.nextIdx window.nextIdx m)
    (fuel : Nat) (hfuel : window.symbols.length < fuel) :
    ∃ after, window.applyWindow codec fuel cw direction =
        some (cw + direction • (window.symbols.map (share codec window.nextIdx)).sum, after) ∧
      after.symbols = window.symbols ∧ after.nextIdx = window.nextIdx + 1 ∧
      after.Keeps fun s m => Reached codec s.hash after.nextIdx after.nextIdx m := by
  unfold applyWindow
  split
  · rename_i hqueue
    have hsymbols : window.symbols = [] := by
      rw [← List.length_eq_zero_iff, ← hkeeps.length_queue, hqueue, List.length_nil]
    refine ⟨{ window with nextIdx := window.nextIdx + 1 }, ?_, rfl, rfl, ?_⟩
    · simp [hsymbols, zsmul_zero]
    · refine ⟨hkeeps.length_mappings, hkeeps.sources, hkeeps.current, hkeeps.ordered, ?_⟩
      simp [hsymbols]
  · rename_i hqueue
    have hdue : (window.due window.nextIdx).length < fuel :=
      (hkeeps.length_due_le window.nextIdx).trans_lt hfuel
    obtain ⟨after, hloop, hsymbols, hnextIdx, hafter⟩ := applyLoop_spec cw hdirection hinc hbound
      (hkeeps.imp fun e _ hreached => hreached.change (Nat.le_succ _) hreached.le_lastIndex) hqueue fuel hdue
    refine ⟨{ after with nextIdx := after.nextIdx + 1 }, ?_, hsymbols, ?_, ?_⟩
    · rw [hloop, hkeeps.sum_due]
      rfl
    · rw [hnextIdx]
    · rw [← hnextIdx] at hafter
      exact ⟨hafter.length_mappings, hafter.sources, hafter.current, hafter.ordered,
        hafter.related⟩

/-! ## The window of a list of symbols -/

/-- The window codes a list of symbols, and has passed every index before `j`. -/
structure Codes (codec : Codec w) (window : CodingWindow w) (j : Nat) (xs : List (BitVec w)) :
    Prop where
  symbols : window.symbols = xs.map (HashedSymbol.new codec)
  nextIdx : window.nextIdx = j
  keeps : window.Keeps fun s m => Reached codec s.hash j j m

namespace Codes

variable {codec : Codec w} {window : CodingWindow w} {j : Nat} {xs : List (BitVec w)}

theorem empty (codec : Codec w) : ({} : CodingWindow w).Codes codec 0 [] :=
  ⟨rfl, rfl, Keeps.empty _ 0⟩

theorem addHashedSymbolWithMapping (hcodes : window.Codes codec j xs) {x : BitVec w}
    {m : RandomMapping} (hreached : Reached codec (codec.hashSymbol x) j j m) :
    (window.addHashedSymbolWithMapping (.new codec x) m).Codes codec j (xs ++ [x]) where
  symbols := by simp [CodingWindow.addHashedSymbolWithMapping, hcodes.symbols]
  nextIdx := hcodes.nextIdx
  keeps := hcodes.keeps.addHashedSymbolWithMapping hreached

/-- Applying a window adds its symbols' shares of the next cell. -/
theorem applyWindow (hcodes : window.Codes codec j xs) {bound : Nat} {direction : Int}
    (hdirection : direction = add ∨ direction = remove)
    (hinc : ∀ x ∈ xs, Increasing codec bound (codec.hashSymbol x)) (hbound : j < bound)
    (cw : CodedSymbol w) (fuel : Nat) (hfuel : xs.length < fuel) :
    ∃ after, window.applyWindow codec fuel cw direction =
        some (cw + direction • (xs.map fun x => share codec j (.new codec x)).sum, after) ∧
      after.Codes codec (j + 1) xs := by
  obtain ⟨hsymbols, rfl, hkeeps⟩ := hcodes
  have hincreasing : ∀ t ∈ window.symbols, Increasing codec bound t.hash := by
    intro t ht
    rw [hsymbols] at ht
    obtain ⟨x, hx, rfl⟩ := List.mem_map.mp ht
    exact hinc x hx
  obtain ⟨after, happly, hafter, hnextIdx, hkeeps'⟩ := applyWindow_spec cw hdirection hincreasing
    hbound hkeeps fuel (by simpa [hsymbols] using hfuel)
  refine ⟨after, ?_, hafter.trans hsymbols, hnextIdx, hnextIdx ▸ hkeeps'⟩
  rw [happly, hsymbols, List.map_map]
  rfl

theorem foldl_addHashedSymbol (hcodes : window.Codes codec 0 xs) (ys : List (BitVec w)) :
    ((ys.map (HashedSymbol.new codec)).foldl addHashedSymbol window).Codes codec 0
      (xs ++ ys) := by
  induction ys generalizing window xs with
  | nil => simpa using hcodes
  | cons y ys ih =>
    have hstep : (window.addHashedSymbol (.new codec y)).Codes codec 0 (xs ++ [y]) :=
      hcodes.addHashedSymbolWithMapping (reached_seed codec (codec.hashSymbol y) 0)
    simpa using ih hstep

end Codes

end CodingWindow

theorem mem_dedupLoop {x : BitVec w} (xs seen : List (BitVec w)) :
    x ∈ dedupLoop seen xs ↔ x ∈ xs ∧ x ∉ seen := by
  induction xs generalizing seen with
  | nil => simp [dedupLoop]
  | cons y ys ih =>
    unfold dedupLoop
    split
    · rename_i hseen
      rw [ih, List.mem_cons]
      constructor
      · intro hx
        exact ⟨Or.inr hx.1, hx.2⟩
      · rintro ⟨rfl | hx, hnot⟩
        · exact absurd hseen hnot
        · exact ⟨hx, hnot⟩
    · rename_i hseen
      rw [List.mem_cons, ih, List.mem_cons, List.mem_cons]
      by_cases hxy : x = y
      · subst hxy
        simp [hseen]
      · simp [hxy]

theorem nodup_dedupLoop (xs seen : List (BitVec w)) : (dedupLoop seen xs).Nodup := by
  induction xs generalizing seen with
  | nil => exact List.nodup_nil
  | cons y ys ih =>
    unfold dedupLoop
    split
    · exact ih seen
    · refine List.nodup_cons.mpr ⟨fun hmem => ?_, ih (y :: seen)⟩
      exact ((mem_dedupLoop ys (y :: seen)).mp hmem).2 List.mem_cons_self

theorem windowOf_codes (codec : Codec w) (symbols : List (BitVec w)) :
    (windowOf codec symbols).Codes codec 0 (dedupLoop [] symbols) :=
  (CodingWindow.Codes.empty codec).foldl_addHashedSymbol (dedupLoop [] symbols)

theorem toFinset_dedupLoop (symbols : List (BitVec w)) :
    (dedupLoop [] symbols).toFinset = symbols.toFinset := by
  ext x
  simp [mem_dedupLoop]

end Datboi.Riblt
