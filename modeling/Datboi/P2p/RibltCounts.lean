import Datboi.P2p.RibltHostile

/-!
# The counts of the cells stay in range

A cell's count is a signed 64-bit integer off the wire that the decoder then moves by one at
a time. The predicates here follow the decoder's loops and say that no such move leaves the
type. A count moves down by at most one for each symbol of the prior and each symbol recovered
on the remote side, and up by at most one for each recovered on the other, so a count that
starts that far from the limits never reaches them.
-/

namespace Datboi.Riblt

variable {w : Nat}

/-- A move of the count that stays within a signed 64-bit integer. -/
def CodedSymbol.Fits (c : CodedSymbol w) (direction : Int) : Prop :=
  -2 ^ 63 ≤ c.count.toInt + direction ∧ c.count.toInt + direction < 2 ^ 63

theorem CodedSymbol.toInt_apply {c : CodedSymbol w} {direction : Int} (s : HashedSymbol w)
    (hdirection : direction = add ∨ direction = remove) (hfits : c.Fits direction) :
    (c.apply s direction).count.toInt = c.count.toInt + direction := by
  have hone : (BitVec.ofInt 64 direction).toInt = direction := by
    rcases hdirection with rfl | rfl
    · decide
    · decide
  rw [CodedSymbol.apply, BitVec.toInt_add, hone]
  obtain ⟨hlow, hhigh⟩ := hfits
  exact Int.bmod_eq_of_le (by omega) (by omega)

/-! ## Along the loops -/

/-- No count moved by the loop over a window leaves its type. -/
def CodingWindow.ApplyLoopFits (codec : Codec w) (direction : Int) :
    Nat → CodingWindow w → CodedSymbol w → Prop
  | 0, _, _ => True
  | fuel + 1, window, cw =>
    (Heap.look window.queue 0).codedIdx = window.nextIdx →
      cw.Fits direction ∧ ApplyLoopFits codec direction fuel (window.advanceHead codec)
        (cw.apply (Heap.look window.symbols (Heap.look window.queue 0).sourceIdx) direction)

def CodingWindow.ApplyWindowFits (codec : Codec w) (fuel : Nat) (window : CodingWindow w)
    (cw : CodedSymbol w) (direction : Int) : Prop :=
  window.queue ≠ [] → ApplyLoopFits codec direction fuel window cw

namespace Decoder

/-- No count moved by receiving a cell leaves its type. -/
def AddFits (codec : Codec w) (fuel : Nat) (decoder : Decoder w) (c : CodedSymbol w) : Prop :=
  decoder.malformed = false →
    decoder.window.ApplyWindowFits codec fuel c remove ∧
    ∀ p ∈ decoder.window.applyWindow codec fuel c remove,
      decoder.remoteWindow.ApplyWindowFits codec fuel p.1 remove ∧
      ∀ q ∈ decoder.remoteWindow.applyWindow codec fuel p.1 remove,
        decoder.localWindow.ApplyWindowFits codec fuel q.1 add

/-- No count moved by mapping a recovered symbol onto the cells leaves its type. -/
def ApplyNewLoopFits (codec : Codec w) (t : HashedSymbol w) (direction : Int) :
    Nat → RandomMapping → List (CodedSymbol w) → Prop
  | 0, _, _ => True
  | fuel + 1, m, cs => ∀ c ∈ cs[m.lastIndex]?,
      c.Fits direction ∧ ApplyNewLoopFits codec t direction fuel (m.nextIndex codec)
        (cs.set m.lastIndex (c.apply t direction))

/-- No count moved by visiting a cell leaves its type. -/
def PeelFits (codec : Codec w) (fuel : Nat) (decoder : Decoder w) (cidx : Nat) : Prop :=
  ∀ direction ∈ peelDirection (decoder.cs.getD cidx {}),
    ApplyNewLoopFits codec (decoder.cellSymbol cidx) direction fuel
      (.seed (decoder.cellSymbol cidx).hash) decoder.cs

end Decoder

/-! ## A window moves a count by at most its size -/

/-- The loop stays in range when all of its moves do. -/
theorem CodingWindow.applyLoopFits_of_due {codec : Codec w} {bound : Nat} {direction : Int}
    {window : CodingWindow w} {cw : CodedSymbol w}
    (hdirection : direction = add ∨ direction = remove)
    (hinc : ∀ t ∈ window.symbols, Increasing codec bound t.hash) (hbound : window.nextIdx < bound)
    (hkeeps : window.Keeps fun s m =>
      Reached codec s.hash (window.nextIdx + 1) window.nextIdx m)
    (hqueue : window.queue ≠ []) (fuel : Nat) (hfuel : (window.due window.nextIdx).length < fuel)
    (hrange : ∀ n : Nat, n ≤ (window.due window.nextIdx).length →
      -2 ^ 63 ≤ cw.count.toInt + direction * n ∧ cw.count.toInt + direction * n < 2 ^ 63) :
    ApplyLoopFits codec direction fuel window cw ∧
    ∀ p ∈ applyLoop codec direction fuel window cw,
      p.1.count.toInt = cw.count.toInt + direction * (window.due window.nextIdx).length := by
  induction fuel generalizing window cw with
  | zero => exact absurd hfuel (Nat.not_lt_zero _)
  | succ fuel ih =>
    by_cases hdue : (Heap.look window.queue 0).codedIdx = window.nextIdx
    · obtain ⟨hkeeps', rest, hdrop, hrest⟩ := hkeeps.advance_due hinc hbound hqueue hdue
      rw [hdrop, List.length_cons, ← hrest.length_eq] at hfuel hrange ⊢
      have hfits : cw.Fits direction := by
        have := hrange 1 (by omega)
        simpa [CodedSymbol.Fits] using this
      have hcount := CodedSymbol.toInt_apply
        (Heap.look window.symbols (Heap.look window.queue 0).sourceIdx) hdirection hfits
      obtain ⟨hloop, hresult⟩ := @ih (window.advanceHead codec)
        (cw.apply (Heap.look window.symbols (Heap.look window.queue 0).sourceIdx) direction)
        hinc hbound hkeeps' (advanceHead_queue_ne codec hqueue) (Nat.lt_of_succ_lt_succ hfuel)
        (by
          intro n hn
          have := hrange (n + 1) (Nat.succ_le_succ hn)
          rw [hcount]
          push_cast at this
          rw [mul_add, mul_one] at this
          omega)
      refine ⟨fun _ => ⟨hfits, hloop⟩, fun p hp => ?_⟩
      simp only [applyLoop, hdue, if_true] at hp
      rw [hresult p hp, hcount, advanceHead_nextIdx]
      push_cast
      rw [mul_add, mul_one]
      omega
    · obtain ⟨hnil, -⟩ := hkeeps.due_eq_nil hqueue hdue
      refine ⟨fun hcontra => absurd hcontra hdue, fun p hp => ?_⟩
      simp only [applyLoop, hdue, if_false, Option.mem_some_iff] at hp
      rw [← hp, hnil]
      simp

namespace Decoder

/-- Taking a window's symbols out of a cell, or putting them in, moves its count by at most
the number of symbols. -/
theorem Tracks.applyWindow_fits {codec : Codec w} {bound j : Nat} {window : CodingWindow w}
    (htracks : Tracks codec bound j window) {direction : Int}
    (hdirection : direction = Riblt.add ∨ direction = remove) (hbound : j < bound)
    (cw : CodedSymbol w) {fuel : Nat} (hfuel : window.symbols.length < fuel)
    (hrange : ∀ n : Nat, n ≤ window.symbols.length →
      -2 ^ 63 ≤ cw.count.toInt + direction * n ∧ cw.count.toInt + direction * n < 2 ^ 63) :
    window.ApplyWindowFits codec fuel cw direction ∧
    ∀ p ∈ window.applyWindow codec fuel cw direction, ∃ n ≤ window.symbols.length,
      p.1.count.toInt = cw.count.toInt + direction * n := by
  obtain ⟨rfl, hkeeps, hinc⟩ := htracks
  by_cases hqueue : window.queue = []
  · refine ⟨fun hne => absurd hqueue hne, fun p hp => ⟨0, Nat.zero_le _, ?_⟩⟩
    simp only [CodingWindow.applyWindow, hqueue, if_true, Option.mem_some_iff] at hp
    rw [← hp]
    simp
  · have hle := hkeeps.length_due_le window.nextIdx
    obtain ⟨hloop, hresult⟩ := CodingWindow.applyLoopFits_of_due hdirection hinc hbound
      (hkeeps.imp fun e _ hreached => hreached.change (Nat.le_succ _) hreached.le_lastIndex)
      hqueue fuel (by omega) fun n hn => hrange n (hn.trans hle)
    refine ⟨fun _ => hloop, fun p hp => ?_⟩
    simp only [CodingWindow.applyWindow, hqueue, if_false, Option.mem_def,
      Option.map_eq_some_iff] at hp
    obtain ⟨⟨cell, after⟩, hsome, rfl⟩ := hp
    exact ⟨(window.due window.nextIdx).length, hle, hresult (cell, after) hsome⟩

/-- Mapping a symbol onto the cells from an index on moves each count at most once. -/
theorem applyNewLoopFits_of_cells {codec : Codec w} {t : HashedSymbol w} {direction : Int}
    {bound : Nat} (hinc : Increasing codec bound t.hash) (fuel : Nat) {m : RandomMapping}
    {cs : List (CodedSymbol w)} (hbound : cs.length ≤ bound)
    (hreached : Reached codec t.hash m.lastIndex m.lastIndex m)
    (hfits : ∀ i, m.lastIndex ≤ i → i < cs.length → (cs.getD i {}).Fits direction) :
    ApplyNewLoopFits codec t direction fuel m cs := by
  induction fuel generalizing m cs with
  | zero => trivial
  | succ fuel ih =>
    intro c hc
    obtain ⟨hlt, hget⟩ := List.getElem?_eq_some_iff.mp hc
    have hpassed := Reached.next hinc (hlt.trans_le hbound)
      (hreached.change (Nat.le_succ _) le_rfl) rfl
    have hgrow := hpassed.le_lastIndex
    refine ⟨?_, ih (by rwa [List.length_set]) (hpassed.change hgrow le_rfl) fun i hi hilen => ?_⟩
    · have := hfits m.lastIndex le_rfl hlt
      rwa [List.getD_eq_getElem?_getD, hc] at this
    · rw [List.length_set] at hilen
      rw [List.getD_eq_getElem?_getD, List.getElem?_set_ne (by omega),
        ← List.getD_eq_getElem?_getD]
      exact hfits i (by omega) hilen

/-! ## Over a run -/

/-- How far the counts of the cells have moved from those on the wire. -/
structure Moved (size : Nat) (wire : List (CodedSymbol w)) (decoder : Decoder w) : Prop where
  length_eq : decoder.cs.length = wire.length
  low : ∀ i < decoder.cs.length, (wire.getD i {}).count.toInt - size - decoder.remote.length ≤
    (decoder.cs.getD i {}).count.toInt
  high : ∀ i < decoder.cs.length,
    (decoder.cs.getD i {}).count.toInt ≤ (wire.getD i {}).count.toInt + decoder.local_.length

/-- A count far enough from the limits for a prior of a size and a number of cells. -/
def Moderate (size bound : Nat) (c : CodedSymbol w) : Prop :=
  -2 ^ 63 + (size : Int) + bound ≤ c.count.toInt ∧ c.count.toInt + bound < 2 ^ 63

namespace Moved

variable {codec : Codec w} {bound size didx cidx : Nat} {earlier : List Nat}
  {wire : List (CodedSymbol w)} {decoder next : Decoder w}

/-- Where fewer symbols are recovered than cells may come, one more still fits. -/
theorem fits (hmoved : decoder.Moved size wire)
    (hmoderate : ∀ c ∈ wire, Moderate size bound c)
    (hrecovered : decoder.remote.length + decoder.local_.length < bound) {i : Nat}
    (hi : i < decoder.cs.length) {direction : Int}
    (hdirection : direction = add ∨ direction = remove) :
    (decoder.cs.getD i {}).Fits direction := by
  have hlow := hmoved.low i hi
  have hhigh := hmoved.high i hi
  have hmem : wire.getD i {} ∈ wire := by
    rw [List.getD_eq_getElem _ _ (hmoved.length_eq ▸ hi)]
    exact List.getElem_mem _
  obtain ⟨hmin, hmax⟩ := hmoderate _ hmem
  unfold CodedSymbol.Fits
  rcases hdirection with rfl | rfl
  · simp only [add]
    omega
  · simp only [remove]
    omega

theorem recovered_lt (hunder : decoder.UnderWay codec bound size earlier didx)
    (hcidx : decoder.decodable[didx]? = some cidx) (hbound : decoder.cs.length ≤ bound) :
    decoder.remote.length + decoder.local_.length < bound := by
  obtain ⟨hdidx, -⟩ := List.getElem?_eq_some_iff.mp hcidx
  have hlisted := hunder.listed_le
  have hrecovered := hunder.recovered
  have hvisited := hunder.visited
  omega

theorem peelFits (hmoved : decoder.Moved size wire) (hmoderate : ∀ c ∈ wire, Moderate size bound c)
    (hrecovered : decoder.remote.length + decoder.local_.length < bound)
    (hbound : decoder.cs.length ≤ bound) {listed : List Nat}
    (hgentle : Gentle codec bound listed decoder cidx) (fuel : Nat) :
    decoder.PeelFits codec fuel cidx := by
  intro direction hdirection
  have hside : direction = add ∨ direction = remove := by
    unfold peelDirection at hdirection
    split at hdirection
    · exact Or.inr (Option.some.inj hdirection).symm
    · split at hdirection
      · exact Or.inl (Option.some.inj hdirection).symm
      · cases hdirection
  exact applyNewLoopFits_of_cells (hgentle direction hdirection).1 fuel hbound
    (reached_seed codec _ _) fun i _ hi => hmoved.fits hmoderate hrecovered hi hside

theorem toInt_applied {t : HashedSymbol w} {direction : Int} {cs cs' : List (CodedSymbol w)}
    {pushed : List Nat} (hdirection : direction = add ∨ direction = remove)
    (happlied : Applied codec t direction 0 cs cs' pushed) {i : Nat} (hi : i < cs.length)
    (hfits : (cs.getD i {}).Fits direction) :
    (cs'.getD i {}).count.toInt = (cs.getD i {}).count.toInt ∨
      (cs'.getD i {}).count.toInt = (cs.getD i {}).count.toInt + direction := by
  rw [happlied.cells i (Nat.zero_le i) hi]
  by_cases hmapped : Mapped codec t.hash i
  · rw [share, if_pos hmapped, ← CodedSymbol.apply_eq _ t hdirection]
    exact Or.inr (CodedSymbol.toInt_apply t hdirection hfits)
  · rw [share, if_neg hmapped, zsmul_zero, add_zero]
    exact Or.inl rfl

/-- A visit moves every count by at most one, the way of the symbol it recovers. -/
theorem visit (hmoved : decoder.Moved size wire) (hmoderate : ∀ c ∈ wire, Moderate size bound c)
    (hrecovered : decoder.remote.length + decoder.local_.length < bound)
    (hvisit : Visit codec decoder cidx next) : next.Moved size wire := by
  cases hvisit with
  | count => exact ⟨hmoved.length_eq, hmoved.low, hmoved.high⟩
  | refuse => exact ⟨hmoved.length_eq, hmoved.low, hmoved.high⟩
  | recoverRemote _ _ happlied =>
    have hstep : ∀ i < decoder.cs.length, _ := fun i hi =>
      toInt_applied (Or.inr rfl) happlied hi (hmoved.fits hmoderate hrecovered hi (Or.inr rfl))
    have hlength := happlied.length_eq
    refine ⟨hlength.trans hmoved.length_eq, fun i hi => ?_, fun i hi => ?_⟩
    · have hlow := hmoved.low i (hlength ▸ hi)
      have := hstep i (hlength ▸ hi)
      simp only [remote, remove, CodingWindow.addHashedSymbolWithMapping, List.map_append,
        List.length_append, List.length_map, List.length_singleton, Nat.cast_add,
        Nat.cast_one] at hlow this ⊢
      omega
    · have hhigh := hmoved.high i (hlength ▸ hi)
      have := hstep i (hlength ▸ hi)
      simp only [remove, local_] at hhigh this ⊢
      omega
  | recoverLocal _ _ happlied =>
    have hstep : ∀ i < decoder.cs.length, _ := fun i hi =>
      toInt_applied (Or.inl rfl) happlied hi (hmoved.fits hmoderate hrecovered hi (Or.inl rfl))
    have hlength := happlied.length_eq
    refine ⟨hlength.trans hmoved.length_eq, fun i hi => ?_, fun i hi => ?_⟩
    · have hlow := hmoved.low i (hlength ▸ hi)
      have := hstep i (hlength ▸ hi)
      simp only [add, remote] at hlow this ⊢
      omega
    · have hhigh := hmoved.high i (hlength ▸ hi)
      have := hstep i (hlength ▸ hi)
      simp only [local_, add, CodingWindow.addHashedSymbolWithMapping, List.map_append,
        List.length_append, List.length_map, List.length_singleton, Nat.cast_add,
        Nat.cast_one] at hhigh this ⊢
      omega

end Moved

/-- No visit of a gentle round moves a count out of its type. -/
theorem alongDecode_peelFits {codec : Codec w} {bound size loopFuel : Nat} {earlier : List Nat}
    {wire : List (CodedSymbol w)} (hmoderate : ∀ c ∈ wire, Moderate size bound c) (fuel : Nat)
    {didx : Nat} {decoder : Decoder w} (hunder : decoder.UnderWay codec bound size earlier didx)
    (hmoved : decoder.Moved size wire)
    (hgentle : AlongDecode (Gentle codec bound) codec loopFuel earlier fuel didx decoder)
    (hbound : decoder.cs.length ≤ bound) (hloopFuel : decoder.cs.length < loopFuel) :
    AlongDecode (fun _ => PeelFits codec loopFuel) codec loopFuel earlier fuel didx decoder ∧
      ∀ after ∈ decodeLoop codec loopFuel fuel didx decoder, after.Moved size wire := by
  induction fuel generalizing didx decoder with
  | zero => exact ⟨trivial, fun after hafter => absurd hafter (by simp [decodeLoop])⟩
  | succ fuel ih =>
    cases hcidx : decoder.decodable[didx]? with
    | none =>
      refine ⟨fun cidx hsome => ?_, fun after hafter => ?_⟩
      · rw [hcidx] at hsome
        cases hsome
      · simp only [decodeLoop, hcidx, Option.mem_some_iff] at hafter
        exact hafter ▸ hmoved
    | some cidx =>
      obtain ⟨hvisits, hrest⟩ := hgentle cidx hcidx
      obtain ⟨next, hpeel, hvisit⟩ :=
        exists_visit (fun direction hdirection => (hvisits direction hdirection).1) hbound
          hloopFuel
      have hrecovered := Moved.recovered_lt hunder hcidx hbound
      obtain ⟨hnext, hlength⟩ := hunder.visit hcidx hvisits hvisit
      have hmoved' := hmoved.visit hmoderate hrecovered hvisit
      have hfits := hmoved.peelFits hmoderate hrecovered hbound hvisits loopFuel
      refine ⟨fun cidx' hsome => ?_, fun after hafter => ?_⟩
      · obtain rfl := Option.some.inj (hcidx.symm.trans hsome)
        refine ⟨hfits, fun next' hnext' hmalformed => ?_⟩
        obtain rfl := Option.some.inj (hpeel.symm.trans hnext')
        exact (ih hnext hmoved' (hrest next hpeel hmalformed) (by omega) (by omega)).1
      · cases hmalformed : next.malformed with
        | true =>
          simp only [decodeLoop, hcidx, Option.bind_eq_bind, hpeel, Option.bind_some,
            hmalformed, if_true] at hafter
          exact Option.some.inj hafter ▸ hmoved'
        | false =>
          rw [decodeLoop_succ hcidx hpeel hmalformed] at hafter
          exact (ih hnext hmoved' (hrest next hpeel hmalformed) (by omega) (by omega)).2
            after hafter

/-- Receiving a cell runs it through the three windows. -/
theorem addCodedSymbol_eq_some {codec : Codec w} {fuel : Nat} {decoder received : Decoder w}
    {c : CodedSymbol w} (hmalformed : decoder.malformed = false)
    (hadd : decoder.addCodedSymbol codec fuel c = some received) :
    ∃ p q r, decoder.window.applyWindow codec fuel c remove = some p ∧
      decoder.remoteWindow.applyWindow codec fuel p.1 remove = some q ∧
      decoder.localWindow.applyWindow codec fuel q.1 add = some r ∧
      received.cs = decoder.cs ++ [r.1] ∧ received.remoteWindow = q.2 ∧
      received.localWindow = r.2 := by
  simp only [addCodedSymbol, hmalformed, Bool.false_eq_true, if_false, Option.bind_eq_bind,
    Option.bind_eq_some_iff] at hadd
  obtain ⟨p, hp, q, hq, r, hr, hreceived⟩ := hadd
  obtain rfl := Option.some.inj hreceived
  exact ⟨p, q, r, hp, hq, hr, rfl, rfl, rfl⟩

/-- Receiving a moderate cell moves no count out of its type. -/
theorem addFits {codec : Codec w} {bound size fuel : Nat} {earlier : List Nat}
    {wire : List (CodedSymbol w)} {decoder : Decoder w}
    (hunder : decoder.UnderWay codec bound size earlier 0) (hmoved : decoder.Moved size wire)
    (hmalformed : decoder.malformed = false) (hbound : decoder.cs.length < bound)
    (hfuel : size + bound < fuel) {c : CodedSymbol w} (hmoderate : Moderate size bound c) :
    decoder.AddFits codec fuel c ∧
      ∀ received ∈ decoder.addCodedSymbol codec fuel c, received.Moved size (wire ++ [c]) := by
  have hprior := hunder.prior
  have hrecovered := hunder.recovered_le
  rw [remote, local_, List.length_map, List.length_map] at hrecovered
  obtain ⟨hmin, hmax⟩ := hmoderate
  obtain ⟨hwindow, hwindowCount⟩ := hunder.window.applyWindow_fits (Or.inr rfl) hbound c
    (by omega : decoder.window.symbols.length < fuel) (by simp only [remove]; omega)
  have hremote : ∀ p ∈ decoder.window.applyWindow codec fuel c remove,
      decoder.remoteWindow.ApplyWindowFits codec fuel p.1 remove ∧
      ∀ q ∈ decoder.remoteWindow.applyWindow codec fuel p.1 remove,
        ∃ n ≤ decoder.remoteWindow.symbols.length,
          q.1.count.toInt = p.1.count.toInt + remove * n := by
    intro p hp
    obtain ⟨n, hn, hcount⟩ := hwindowCount p hp
    refine hunder.remoteWindow.applyWindow_fits (Or.inr rfl) hbound p.1 (by omega) ?_
    simp only [remove] at hcount ⊢
    omega
  have hlocal : ∀ p ∈ decoder.window.applyWindow codec fuel c remove,
      ∀ q ∈ decoder.remoteWindow.applyWindow codec fuel p.1 remove,
      decoder.localWindow.ApplyWindowFits codec fuel q.1 add ∧
      ∀ r ∈ decoder.localWindow.applyWindow codec fuel q.1 add,
        ∃ n ≤ decoder.localWindow.symbols.length,
          r.1.count.toInt = q.1.count.toInt + Riblt.add * n := by
    intro p hp q hq
    obtain ⟨n, hn, hcount⟩ := hwindowCount p hp
    obtain ⟨k, hk, hcount'⟩ := (hremote p hp).2 q hq
    refine hunder.localWindow.applyWindow_fits (Or.inl rfl) hbound q.1 (by omega) ?_
    simp only [remove, add] at hcount hcount' ⊢
    omega
  refine ⟨fun _ => ⟨hwindow, fun p hp => ⟨(hremote p hp).1, fun q hq => (hlocal p hp q hq).1⟩⟩,
    fun received hadd => ?_⟩
  obtain ⟨p, q, r, hp, hq, hr, hcs, hremoteWindow, hlocalWindow⟩ :=
    addCodedSymbol_eq_some hmalformed hadd
  have hsameRemote : received.remote = decoder.remote := by
    obtain ⟨after, happly, -, hsymbols⟩ := hunder.remoteWindow.applyWindow (Or.inr rfl) hbound p.1
      (by omega : decoder.remoteWindow.symbols.length < fuel)
    rw [remote, hremoteWindow, ← Option.some.inj (happly.symm.trans hq), hsymbols, remote]
  have hsameLocal : received.local_ = decoder.local_ := by
    obtain ⟨after, happly, -, hsymbols⟩ := hunder.localWindow.applyWindow (Or.inl rfl) hbound q.1
      (by omega : decoder.localWindow.symbols.length < fuel)
    rw [local_, hlocalWindow, ← Option.some.inj (happly.symm.trans hr), hsymbols, local_]
  obtain ⟨n, hn, hcount⟩ := hwindowCount p hp
  obtain ⟨k, hk, hcount'⟩ := (hremote p hp).2 q hq
  obtain ⟨l, hl, hcount''⟩ := (hlocal p hp q hq).2 r hr
  have hlength := hmoved.length_eq
  have hlast : ∀ i < decoder.cs.length + 1, i < decoder.cs.length ∧
        (decoder.cs ++ [r.1]).getD i {} = decoder.cs.getD i {} ∧
        (wire ++ [c]).getD i {} = wire.getD i {} ∨
      (decoder.cs ++ [r.1]).getD i {} = r.1 ∧ (wire ++ [c]).getD i {} = c := by
    intro i hi
    rcases Nat.lt_succ_iff_lt_or_eq.mp hi with hlt | rfl
    · exact Or.inl ⟨hlt, List.getD_append _ _ _ _ hlt, List.getD_append _ _ _ _ (hlength ▸ hlt)⟩
    · refine Or.inr ⟨?_, ?_⟩
      · rw [List.getD_append_right _ _ _ _ le_rfl, Nat.sub_self]
        rfl
      · rw [List.getD_append_right _ _ _ _ hlength.ge, hlength, Nat.sub_self]
        rfl
  simp only [remove, add] at hcount hcount' hcount''
  refine ⟨by simp [hcs, hlength], fun i hi => ?_, fun i hi => ?_⟩
  · rw [hcs, List.length_append, List.length_singleton] at hi
    rw [hcs, hsameRemote]
    rcases hlast i hi with ⟨hlt, hcell, hwire⟩ | ⟨hcell, hwire⟩
    · rw [hcell, hwire]
      exact hmoved.low i hlt
    · rw [hcell, hwire, remote, List.length_map]
      omega
  · rw [hcs, List.length_append, List.length_singleton] at hi
    rw [hcs, hsameLocal]
    rcases hlast i hi with ⟨hlt, hcell, hwire⟩ | ⟨hcell, hwire⟩
    · rw [hcell, hwire]
      exact hmoved.high i hlt
    · rw [hcell, hwire, local_, List.length_map]
      omega

end Decoder

end Datboi.Riblt
