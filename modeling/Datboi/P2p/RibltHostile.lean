import Datboi.P2p.Reconcile

/-!
# Cells from a peer that does not follow the protocol

The decoder has to survive any sequence of cells. It visits a cell for each time the cell
is put on its list, so its work and what it recovers are bounded by the number of cells
received as long as no cell is listed again. Nothing keeps a peer from making that happen:
a symbol peeled from one cell can turn up with the opposite sign in another.
-/

namespace Datboi.Riblt

variable {w : Nat}

namespace Decoder

/-- The direction in which a visit takes a cell's symbol out of the others, if it does. -/
def peelDirection (c : CodedSymbol w) : Option Int :=
  if c.count = 1 then some remove else if c.count = -1 then some add else none

/-- A visit that lists no cell again: the symbol's generator does not stand still, and the
cells listed before do not look pure without the symbol. -/
def Gentle (codec : Codec w) (bound : Nat) (listed : List Nat) (decoder : Decoder w) (cidx : Nat) :
    Prop :=
  let c := decoder.cs.getD cidx {}
  ∀ direction ∈ peelDirection c, Increasing codec bound c.hash ∧
    ∀ i ∈ listed, Mapped codec c.hash i →
      ¬looksPure codec ((decoder.cs.getD i {}).apply ⟨c.symbol, c.hash⟩ direction)

/-- Every visit of a decoding round meets a condition; `earlier` are the cells listed in
earlier rounds. -/
def AlongDecode (P : List Nat → Decoder w → Nat → Prop) (codec : Codec w) (loopFuel : Nat)
    (earlier : List Nat) : Nat → Nat → Decoder w → Prop
  | 0, _, _ => True
  | fuel + 1, didx, decoder => ∀ cidx ∈ decoder.decodable[didx]?,
      P (earlier ++ decoder.decodable) decoder cidx ∧
      ∀ next ∈ decoder.peelCell codec loopFuel cidx, next.malformed = false →
        AlongDecode P codec loopFuel earlier fuel (didx + 1) next

/-- Every visit of a run meets a condition. -/
def AlongFeed (P : List Nat → Decoder w → Nat → Prop) (codec : Codec w) (fuel : Nat) :
    List Nat → Decoder w → List (CodedSymbol w) → Prop
  | _, _, [] => True
  | earlier, decoder, c :: rest => ∀ received ∈ decoder.addCodedSymbol codec fuel c,
      AlongDecode P codec fuel earlier fuel 0 received ∧
      ∀ after ∈ decodeLoop codec fuel fuel 0 received,
        AlongFeed P codec fuel (earlier ++ after.decodable) { after with decodable := [] } rest

theorem AlongFeed.take {P : List Nat → Decoder w → Nat → Prop} {codec : Codec w} {fuel : Nat}
    {records : List (CodedSymbol w)} {earlier : List Nat} {decoder : Decoder w}
    (halong : AlongFeed P codec fuel earlier decoder records) (n : Nat) :
    AlongFeed P codec fuel earlier decoder (records.take n) := by
  induction records generalizing earlier decoder n with
  | nil => simpa using halong
  | cons c rest ih =>
    cases n with
    | zero => trivial
    | succ n =>
      intro received hreceived
      obtain ⟨hdecode, hrest⟩ := halong received hreceived
      exact ⟨hdecode, fun after hafter => ih (hrest after hafter) n⟩

/-- A window at the next cell, of symbols whose generators do not stand still. -/
structure Tracks (codec : Codec w) (bound j : Nat) (window : CodingWindow w) : Prop where
  nextIdx : window.nextIdx = j
  keeps : window.Keeps fun s m => Reached codec s.hash j j m
  increasing : ∀ t ∈ window.symbols, Increasing codec bound t.hash

namespace Tracks

variable {codec : Codec w} {bound j : Nat} {window : CodingWindow w}

theorem empty (codec : Codec w) (bound : Nat) : Tracks codec bound 0 ({} : CodingWindow w) :=
  ⟨rfl, CodingWindow.Keeps.empty _ 0, by simp⟩

theorem of_codes {xs : List (BitVec w)} (hcodes : window.Codes codec j xs)
    (hinc : ∀ x ∈ xs, Increasing codec bound (codec.hashSymbol x)) :
    Tracks codec bound j window := by
  refine ⟨hcodes.nextIdx, hcodes.keeps, fun t ht => ?_⟩
  rw [hcodes.symbols] at ht
  obtain ⟨x, hx, rfl⟩ := List.mem_map.mp ht
  exact hinc x hx

theorem add (htracks : Tracks codec bound j window) {t : HashedSymbol w} {m : RandomMapping}
    (hinc : Increasing codec bound t.hash) (hreached : Reached codec t.hash j j m) :
    Tracks codec bound j (window.addHashedSymbolWithMapping t m) := by
  refine ⟨htracks.nextIdx, htracks.keeps.addHashedSymbolWithMapping hreached, fun s hs => ?_⟩
  rcases List.mem_append.mp hs with hold | hnew
  · exact htracks.increasing s hold
  · rw [List.mem_singleton.mp hnew]
    exact hinc

theorem applyWindow (htracks : Tracks codec bound j window) {direction : Int}
    (hdirection : direction = Riblt.add ∨ direction = remove) (hbound : j < bound)
    (cw : CodedSymbol w) {fuel : Nat} (hfuel : window.symbols.length < fuel) :
    ∃ after, window.applyWindow codec fuel cw direction =
        some (cw + direction • (window.symbols.map (share codec j)).sum, after) ∧
      Tracks codec bound (j + 1) after ∧ after.symbols = window.symbols := by
  obtain ⟨rfl, hkeeps, hincreasing⟩ := htracks
  obtain ⟨after, happly, hsymbols, hnextIdx, hkeeps'⟩ := CodingWindow.applyWindow_spec cw hdirection
    hincreasing hbound hkeeps fuel hfuel
  refine ⟨after, happly, ⟨hnextIdx, hnextIdx ▸ hkeeps', ?_⟩, hsymbols⟩
  rw [hsymbols]
  exact hincreasing

end Tracks

/-- A decoder under way: no cell was listed twice, and what it recovered is at most what it
visited, which is what was listed in earlier rounds and the first `didx` of this one. -/
structure UnderWay (codec : Codec w) (bound size : Nat) (earlier : List Nat) (didx : Nat)
    (decoder : Decoder w) : Prop where
  window : Tracks codec bound decoder.cs.length decoder.window
  prior : decoder.window.symbols.length ≤ size
  remoteWindow : Tracks codec bound decoder.cs.length decoder.remoteWindow
  localWindow : Tracks codec bound decoder.cs.length decoder.localWindow
  nodup : (earlier ++ decoder.decodable).Nodup
  listed : ∀ i ∈ earlier ++ decoder.decodable, i < decoder.cs.length
  recovered : decoder.remote.length + decoder.local_.length ≤ decoder.decodedCount
  visited : decoder.decodedCount ≤ earlier.length + didx
  within : didx ≤ decoder.decodable.length

namespace UnderWay

variable {codec : Codec w} {bound size didx : Nat} {earlier : List Nat} {decoder : Decoder w}

section

variable (hunder : decoder.UnderWay codec bound size earlier didx)

include hunder

theorem listed_le : earlier.length + decoder.decodable.length ≤ decoder.cs.length := by
  have hsub : (earlier ++ decoder.decodable).toFinset ⊆ Finset.range decoder.cs.length := by
    intro i hi
    exact Finset.mem_range.mpr (hunder.listed i (List.mem_toFinset.mp hi))
  have hcard := Finset.card_le_card hsub
  rwa [List.toFinset_card_of_nodup hunder.nodup, List.length_append, Finset.card_range] at hcard

theorem recovered_le : decoder.remote.length + decoder.local_.length ≤ decoder.cs.length := by
  have hlisted := hunder.listed_le
  have hrecovered := hunder.recovered
  have hvisited := hunder.visited
  have hwithin := hunder.within
  omega

/-- Between rounds the list is empty. -/
theorem finish : ({ decoder with decodable := [] } : Decoder w).UnderWay codec bound size
      (earlier ++ decoder.decodable) 0 where
  window := hunder.window
  prior := hunder.prior
  remoteWindow := hunder.remoteWindow
  localWindow := hunder.localWindow
  nodup := by simpa using hunder.nodup
  listed := by simpa using hunder.listed
  recovered := hunder.recovered
  visited := by
    have hvisited := hunder.visited
    have hwithin := hunder.within
    rw [List.length_append]
    simp only
    omega
  within := Nat.zero_le _

end

end UnderWay

/-- The symbol a visit of a cell takes out. -/
def cellSymbol (decoder : Decoder w) (cidx : Nat) : HashedSymbol w :=
  ⟨(decoder.cs.getD cidx {}).symbol, (decoder.cs.getD cidx {}).hash⟩

/-- What one visit does: it counts an empty cell or refuses the stream, or it takes the
cell's symbol out of every cell the symbol is mapped to and notes it on one side. -/
inductive Visit (codec : Codec w) (decoder : Decoder w) (cidx : Nat) : Decoder w → Prop
  | count (hnone : peelDirection (decoder.cs.getD cidx {}) = none) :
      Visit codec decoder cidx { decoder with decodedCount := decoder.decodedCount + 1 }
  | refuse (hnone : peelDirection (decoder.cs.getD cidx {}) = none) :
      Visit codec decoder cidx { decoder with malformed := true }
  | recoverRemote {m : RandomMapping} {cs' : List (CodedSymbol w)} {pushed : List Nat}
      (hdirection : peelDirection (decoder.cs.getD cidx {}) = some remove)
      (hreached : Reached codec (decoder.cellSymbol cidx).hash decoder.cs.length
        decoder.cs.length m)
      (happlied : Applied codec (decoder.cellSymbol cidx) remove 0 decoder.cs cs' pushed) :
      Visit codec decoder cidx { decoder with
        cs := cs'
        decodable := decoder.decodable ++ pushed
        remoteWindow := decoder.remoteWindow.addHashedSymbolWithMapping (decoder.cellSymbol cidx) m
        decodedCount := decoder.decodedCount + 1 }
  | recoverLocal {m : RandomMapping} {cs' : List (CodedSymbol w)} {pushed : List Nat}
      (hdirection : peelDirection (decoder.cs.getD cidx {}) = some add)
      (hreached : Reached codec (decoder.cellSymbol cidx).hash decoder.cs.length
        decoder.cs.length m)
      (happlied : Applied codec (decoder.cellSymbol cidx) add 0 decoder.cs cs' pushed) :
      Visit codec decoder cidx { decoder with
        cs := cs'
        decodable := decoder.decodable ++ pushed
        localWindow := decoder.localWindow.addHashedSymbolWithMapping (decoder.cellSymbol cidx) m
        decodedCount := decoder.decodedCount + 1 }

theorem exists_visit {codec : Codec w} {bound fuel cidx : Nat} {decoder : Decoder w}
    (hinc : ∀ direction ∈ peelDirection (decoder.cs.getD cidx {}),
      Increasing codec bound (decoder.cellSymbol cidx).hash)
    (hbound : decoder.cs.length ≤ bound) (hfuel : decoder.cs.length < fuel) :
    ∃ next, decoder.peelCell codec fuel cidx = some next ∧ Visit codec decoder cidx next := by
  by_cases hone : (decoder.cs.getD cidx {}).count = 1
  · have hdirection : peelDirection (decoder.cs.getD cidx {}) = some remove := by
      rw [peelDirection, if_pos hone]
    obtain ⟨m, cs', pushed, happly, hreached, happlied⟩ := decoder.applyNewSymbol_spec
      (decoder.cellSymbol cidx) (Or.inr rfl) (hinc remove hdirection) hbound hfuel
    exact ⟨_, peelCell_of_one (by rw [← hone]; rfl) happly, .recoverRemote hdirection hreached happlied⟩
  · by_cases hneg : (decoder.cs.getD cidx {}).count = -1
    · have hdirection : peelDirection (decoder.cs.getD cidx {}) = some add := by
        rw [peelDirection, if_neg hone, if_pos hneg]
      obtain ⟨m, cs', pushed, happly, hreached, happlied⟩ := decoder.applyNewSymbol_spec
        (decoder.cellSymbol cidx) (Or.inl rfl) (hinc add hdirection) hbound hfuel
      exact ⟨_, peelCell_of_neg_one (by rw [← hneg]; rfl) happly,
        .recoverLocal hdirection hreached happlied⟩
    · have hnone : peelDirection (decoder.cs.getD cidx {}) = none := by
        rw [peelDirection, if_neg hone, if_neg hneg]
      by_cases hzero : (decoder.cs.getD cidx {}).count = 0
      · refine ⟨_, ?_, .count hnone⟩
        simp only [peelCell]
        rw [if_neg hone, if_neg hneg, if_pos hzero]
      · refine ⟨_, ?_, .refuse hnone⟩
        simp only [peelCell]
        rw [if_neg hone, if_neg hneg, if_neg hzero]

namespace UnderWay

variable {codec : Codec w} {bound size didx cidx : Nat} {earlier : List Nat} {decoder next : Decoder w}

/-- The cells a gentle visit lists are new. -/
theorem listed_visit (hunder : decoder.UnderWay codec bound size earlier didx)
    (hgentle : Gentle codec bound (earlier ++ decoder.decodable) decoder cidx) {direction : Int}
    (hdirection : direction = add ∨ direction = remove)
    (hpeel : peelDirection (decoder.cs.getD cidx {}) = some direction)
    {cs' : List (CodedSymbol w)} {pushed : List Nat}
    (happlied : Applied codec (decoder.cellSymbol cidx) direction 0 decoder.cs cs' pushed) :
    (earlier ++ (decoder.decodable ++ pushed)).Nodup ∧
      ∀ i ∈ earlier ++ (decoder.decodable ++ pushed), i < cs'.length := by
  rw [← List.append_assoc, happlied.length_eq]
  constructor
  · refine hunder.nodup.append (happlied.sorted.imp fun hlt => hlt.ne) fun i hi hpushed => ?_
    obtain ⟨-, hlt, hmapped, hpure⟩ := (happlied.mem_pushed i).mp hpushed
    rw [happlied.cells i (Nat.zero_le i) hlt, share, if_pos hmapped,
      ← CodedSymbol.apply_eq _ _ hdirection] at hpure
    exact (hgentle direction hpeel).2 i hi hmapped hpure
  · intro i hi
    rcases List.mem_append.mp hi with hold | hpushed
    · exact hunder.listed i hold
    · exact ((happlied.mem_pushed i).mp hpushed).2.1

theorem visit (hunder : decoder.UnderWay codec bound size earlier didx)
    (hcidx : decoder.decodable[didx]? = some cidx)
    (hgentle : Gentle codec bound (earlier ++ decoder.decodable) decoder cidx)
    (hvisit : Visit codec decoder cidx next) :
    next.UnderWay codec bound size earlier (didx + 1) ∧ next.cs.length = decoder.cs.length := by
  obtain ⟨hdidx, -⟩ := List.getElem?_eq_some_iff.mp hcidx
  have hrecovered := hunder.recovered
  have hvisited := hunder.visited
  cases hvisit with
  | count =>
    exact ⟨⟨hunder.window, hunder.prior, hunder.remoteWindow, hunder.localWindow, hunder.nodup, hunder.listed,
      Nat.le_succ_of_le hunder.recovered, by simp only; omega, hdidx⟩, rfl⟩
  | refuse =>
    exact ⟨⟨hunder.window, hunder.prior, hunder.remoteWindow, hunder.localWindow, hunder.nodup, hunder.listed,
      hunder.recovered, by simp only; omega, hdidx⟩, rfl⟩
  | recoverRemote hpeel hreached happlied =>
    obtain ⟨hnodup, hlisted⟩ := hunder.listed_visit hgentle (Or.inr rfl) hpeel happlied
    refine ⟨⟨?_, hunder.prior, ?_, ?_, hnodup, hlisted, ?_, ?_, ?_⟩, happlied.length_eq⟩
    · exact happlied.length_eq ▸ hunder.window
    · exact happlied.length_eq ▸ hunder.remoteWindow.add (hgentle remove hpeel).1 hreached
    · exact happlied.length_eq ▸ hunder.localWindow
    · simp only [remote, local_, CodingWindow.addHashedSymbolWithMapping, List.map_append,
        List.length_append, List.length_map, List.length_singleton] at hrecovered ⊢
      omega
    · simp only
      omega
    · simp only [List.length_append]
      omega
  | recoverLocal hpeel hreached happlied =>
    obtain ⟨hnodup, hlisted⟩ := hunder.listed_visit hgentle (Or.inl rfl) hpeel happlied
    refine ⟨⟨?_, hunder.prior, ?_, ?_, hnodup, hlisted, ?_, ?_, ?_⟩, happlied.length_eq⟩
    · exact happlied.length_eq ▸ hunder.window
    · exact happlied.length_eq ▸ hunder.remoteWindow
    · exact happlied.length_eq ▸ hunder.localWindow.add (hgentle add hpeel).1 hreached
    · simp only [remote, local_, CodingWindow.addHashedSymbolWithMapping, List.map_append,
        List.length_append, List.length_map, List.length_singleton] at hrecovered ⊢
      omega
    · simp only
      omega
    · simp only [List.length_append]
      omega

end UnderWay

/-- A round of gentle visits ends. -/
theorem decodeLoop_underWay {codec : Codec w} {bound size loopFuel : Nat} {earlier : List Nat}
    (fuel : Nat) {didx : Nat} {decoder : Decoder w}
    (hunder : decoder.UnderWay codec bound size earlier didx)
    (hgentle : AlongDecode (Gentle codec bound) codec loopFuel earlier fuel didx decoder)
    (hbound : decoder.cs.length ≤ bound) (hloopFuel : decoder.cs.length < loopFuel)
    (hfuel : decoder.cs.length < fuel + didx) :
    ∃ after didx', decodeLoop codec loopFuel fuel didx decoder = some after ∧
      after.UnderWay codec bound size earlier didx' ∧ after.cs.length = decoder.cs.length := by
  induction fuel generalizing didx decoder with
  | zero =>
    have hlisted := hunder.listed_le
    have hwithin := hunder.within
    omega
  | succ fuel ih =>
    cases hcidx : decoder.decodable[didx]? with
    | none => exact ⟨decoder, didx, by simp [decodeLoop, hcidx], hunder, rfl⟩
    | some cidx =>
      obtain ⟨hvisits, hrest⟩ := hgentle cidx hcidx
      obtain ⟨next, hpeel, hvisit⟩ :=
        exists_visit (fun direction hdirection => (hvisits direction hdirection).1) hbound
          hloopFuel
      obtain ⟨hnext, hlength⟩ := hunder.visit hcidx hvisits hvisit
      cases hmalformed : next.malformed with
      | true =>
        exact ⟨next, didx + 1, by simp [decodeLoop, hcidx, hpeel, hmalformed], hnext, hlength⟩
      | false =>
        rw [decodeLoop_succ hcidx hpeel hmalformed, ← hlength]
        exact ih hnext (hrest next hpeel hmalformed) (by omega) (by omega) (by omega)

/-- Receiving a cell: it is the wire's, with the symbols of the three windows taken out or
put back. -/
theorem addCodedSymbol_underWay {codec : Codec w} {bound size fuel : Nat} {earlier : List Nat}
    {decoder : Decoder w} (hunder : decoder.UnderWay codec bound size earlier 0)
    (hidle : decoder.decodable = []) (hmalformed : decoder.malformed = false)
    (hbound : decoder.cs.length < bound) (hfuel : size + bound < fuel) (c : CodedSymbol w) :
    ∃ received, decoder.addCodedSymbol codec fuel c = some received ∧
      received.UnderWay codec bound size earlier 0 ∧ received.malformed = false ∧
      received.cs.length = decoder.cs.length + 1 := by
  have hprior := hunder.prior
  have hrecovered := hunder.recovered_le
  rw [remote, local_, List.length_map, List.length_map] at hrecovered
  obtain ⟨window, hwindow, hwindow', hwindowSymbols⟩ := hunder.window.applyWindow (Or.inr rfl)
    hbound c (by omega : decoder.window.symbols.length < fuel)
  obtain ⟨remoteWindow, hremote, hremote', hremoteSymbols⟩ := hunder.remoteWindow.applyWindow
    (Or.inr rfl) hbound _ (by omega : decoder.remoteWindow.symbols.length < fuel)
  obtain ⟨localWindow, hlocal, hlocal', hlocalSymbols⟩ := hunder.localWindow.applyWindow
    (Or.inl rfl) hbound _ (by omega : decoder.localWindow.symbols.length < fuel)
  have hfresh : ∀ i ∈ earlier, i < decoder.cs.length := by
    intro i hi
    exact hunder.listed i (List.mem_append_left _ hi)
  have hnodup : earlier.Nodup := by simpa [hidle] using hunder.nodup
  unfold addCodedSymbol
  rw [hmalformed, hwindow]
  simp only [Bool.false_eq_true, if_false, Option.bind_eq_bind, Option.bind_some]
  rw [hremote]
  simp only [Option.bind_some]
  rw [hlocal]
  refine ⟨_, rfl, ?_, rfl, by simp⟩
  have hlength : ∀ cell : CodedSymbol w,
      (decoder.cs ++ [cell]).length = decoder.cs.length + 1 := by simp
  refine ⟨?_, ?_, ?_, ?_, ?_, ?_, ?_, ?_, Nat.zero_le _⟩
  · rw [hlength]
    exact hwindow'
  · rw [hwindowSymbols]
    exact hprior
  · rw [hlength]
    exact hremote'
  · rw [hlength]
    exact hlocal'
  · simp only [hidle, List.nil_append]
    split
    · exact hnodup.append (List.nodup_singleton _)
        fun i hi hlast => (hfresh i hi).ne (List.mem_singleton.mp hlast)
    · simpa using hnodup
  · intro i hi
    simp only [hidle, List.nil_append] at hi
    rw [hlength]
    rcases List.mem_append.mp hi with hold | hnew
    · exact Nat.lt_succ_of_lt (hfresh i hold)
    · split at hnew
      · rw [List.mem_singleton.mp hnew]
        exact Nat.lt_succ_self _
      · exact absurd hnew List.not_mem_nil
  · simp only [remote, local_, hremoteSymbols, hlocalSymbols]
    exact hunder.recovered
  · exact hunder.visited

theorem underWay_new {codec : Codec w} {bound : Nat} {prior : List (BitVec w)}
    (hinc : ∀ x ∈ prior, Increasing codec bound (codec.hashSymbol x)) :
    (new codec prior).UnderWay codec bound prior.length [] 0 where
  window := .of_codes (windowOf_codes codec prior) fun x hx =>
    hinc x ((mem_dedupLoop prior []).mp hx).1
  prior := by
    have hsymbols := (windowOf_codes codec prior).symbols
    rw [new, hsymbols, List.length_map, ← List.toFinset_card_of_nodup (nodup_dedupLoop prior []),
      toFinset_dedupLoop]
    exact List.toFinset_card_le prior
  remoteWindow := .empty codec bound
  localWindow := .empty codec bound
  nodup := List.nodup_nil
  listed := by simp [new]
  recovered := by simp [new, remote, local_]
  visited := by simp [new]
  within := Nat.zero_le _

theorem feed_malformed (codec : Codec w) (fuel : Nat) {decoder : Decoder w}
    (hmalformed : decoder.malformed = true) (records : List (CodedSymbol w)) :
    decoder.feed codec fuel records = some decoder := by
  induction records with
  | nil => rfl
  | cons c rest ih =>
    simp [feed, addCodedSymbol, tryDecode, hmalformed, ih]

/-- A run of gentle visits ends, with no more recovered than received. -/
theorem feed_underWay {codec : Codec w} {bound size fuel : Nat} (hfuel : size + bound < fuel)
    (records : List (CodedSymbol w)) {earlier : List Nat} {decoder : Decoder w}
    (hunder : decoder.UnderWay codec bound size earlier 0) (hidle : decoder.decodable = [])
    (hgentle : AlongFeed (Gentle codec bound) codec fuel earlier decoder records)
    (hbound : decoder.cs.length + records.length ≤ bound) :
    ∃ after, decoder.feed codec fuel records = some after ∧
      after.remote.length + after.local_.length ≤ after.cs.length ∧
      after.cs.length ≤ decoder.cs.length + records.length := by
  induction records generalizing earlier decoder with
  | nil => exact ⟨decoder, rfl, hunder.recovered_le, le_rfl⟩
  | cons c rest ih =>
    cases hmalformed : decoder.malformed with
    | true =>
      exact ⟨decoder, feed_malformed codec fuel hmalformed (c :: rest), hunder.recovered_le,
        Nat.le_add_right _ _⟩
    | false =>
      rw [List.length_cons] at hbound
      obtain ⟨received, hadd, hreceived, hclean, hlength⟩ :=
        addCodedSymbol_underWay hunder hidle hmalformed (by omega) hfuel c
      obtain ⟨hdecode, hrest⟩ := hgentle received hadd
      obtain ⟨after, didx, hloop, hafter, hlength'⟩ :=
        decodeLoop_underWay fuel hreceived hdecode (by omega) (by omega) (by omega)
      obtain ⟨final, hfinal, hrecovered, hcells⟩ :=
        ih hafter.finish rfl (hrest after hloop) (by simp only; omega)
      refine ⟨final, ?_, hrecovered, ?_⟩
      · simp [feed, hadd, tryDecode, hclean, hloop, hfinal]
      · simp only [List.length_cons] at hcells ⊢
        omega

end Decoder

/-- Feeding any cells off the wire to a decoder ends after each of them with no more symbols
recovered than cells received, in every run that lists no cell again. -/
theorem feed_ends_within_received {codec : Codec w} {prior : List (BitVec w)}
    {records : List (CodedSymbol w)}
    (hinc : ∀ x ∈ prior, Increasing codec records.length (codec.hashSymbol x)) {fuel : Nat}
    (hfuel : prior.length + records.length < fuel)
    (hgentle : Decoder.AlongFeed (Decoder.Gentle codec records.length) codec fuel []
      (Decoder.new codec prior) records) :
    ∀ n ≤ records.length, ∃ after,
      (Decoder.new codec prior).feed codec fuel (records.take n) = some after ∧
      after.remote.length + after.local_.length ≤ n := by
  intro n hn
  have hlength : (records.take n).length = n := List.length_take_of_le hn
  obtain ⟨after, hfeed, hrecovered, hcells⟩ := Decoder.feed_underWay hfuel (records.take n)
    (Decoder.underWay_new hinc) rfl (hgentle.take n) (by rw [hlength]; simpa [Decoder.new] using hn)
  refine ⟨after, hfeed, hrecovered.trans ?_⟩
  simpa [Decoder.new, hn] using hcells

/-! ## A peer that makes the decoder run forever -/

/-- Two cells between which the first symbol is passed back and forth: alone in the first,
taken out of it, and so missing from the second. -/
def pingPong : List (CodedSymbol 256) := [⟨1, 0x4e0d209a344a5227, 1⟩, {}]

/-- The symbol passed back and forth, with the checksum it is sent with. -/
def pingPongSymbol : HashedSymbol 256 := ⟨1, 0x4e0d209a344a5227⟩

namespace Decoder

/-- From either of the two states the loop goes on to the other. -/
theorem decodeLoop_pingPong (n fuel didx : Nat) (decoder : Decoder 256)
    (hmalformed : decoder.malformed = false)
    (hstate :
      (decoder.cs = [{}, ⟨1, 0x4e0d209a344a5227, -1⟩] ∧ decoder.decodable.drop didx = [1]) ∨
      (decoder.cs = [⟨1, 0x4e0d209a344a5227, 1⟩, {}] ∧ decoder.decodable.drop didx = [0])) :
    decodeLoop sampleCodec (n + 3) fuel didx decoder = none := by
  induction fuel generalizing didx decoder with
  | zero => rfl
  | succ fuel ih =>
    have hdrop : ∀ i pushed, decoder.decodable.drop didx = [i] →
        decoder.decodable[didx]? = some i ∧
        (decoder.decodable ++ [pushed]).drop (didx + 1) = [pushed] := by
      intro i pushed hlast
      have hlength := congrArg List.length hlast
      rw [List.length_drop, List.length_singleton] at hlength
      refine ⟨by rw [← List.head?_drop, hlast, List.head?_cons], ?_⟩
      rw [List.drop_append_of_le_length (by omega), List.drop_eq_nil_of_le (by omega)]
      rfl
    rcases hstate with ⟨hcs, hlast⟩ | ⟨hcs, hlast⟩
    · obtain ⟨hnext, hpushed⟩ := hdrop 1 0 hlast
      have happly : decoder.applyNewSymbol sampleCodec (n + 3) pingPongSymbol add =
          some (⟨0xc6f97efecd6e50ef, 2⟩, { decoder with
            cs := [⟨1, 0x4e0d209a344a5227, 1⟩, {}]
            decodable := decoder.decodable ++ [0] }) := by
        rw [applyNewSymbol, hcs]
        rfl
      rw [decodeLoop_succ hnext (peelCell_of_neg_one (by rw [hcs]; rfl) happly) hmalformed]
      exact ih (didx + 1) _ hmalformed (Or.inr ⟨rfl, hpushed⟩)
    · obtain ⟨hnext, hpushed⟩ := hdrop 0 1 hlast
      have happly : decoder.applyNewSymbol sampleCodec (n + 3) pingPongSymbol remove =
          some (⟨0xc6f97efecd6e50ef, 2⟩, { decoder with
            cs := [{}, ⟨1, 0x4e0d209a344a5227, -1⟩]
            decodable := decoder.decodable ++ [1] }) := by
        rw [applyNewSymbol, hcs]
        rfl
      rw [decodeLoop_succ hnext (peelCell_of_one (by rw [hcs]; rfl) happly) hmalformed]
      exact ih (didx + 1) _ hmalformed (Or.inl ⟨rfl, hpushed⟩)

end Decoder

/-- The decoder when it has received both cells. -/
def pingPongDecoder : Decoder 256 where
  cs := [{}, ⟨1, 0x4e0d209a344a5227, -1⟩]
  localWindow := { nextIdx := 2 }
  window := { nextIdx := 2 }
  remoteWindow :=
    { symbols := [pingPongSymbol]
      mappings := [⟨0xc6f97efecd6e50ef, 2⟩]
      queue := [⟨0, 2⟩]
      nextIdx := 2 }
  decodable := [1]
  decodedCount := 1

/-- No amount of fuel ends the second round. -/
theorem feed_pingPong_never_ends :
    ¬∃ fuel after, (Decoder.new sampleCodec []).feed sampleCodec fuel pingPong = some after := by
  rintro ⟨fuel, after, hfeed⟩
  by_cases hsmall : fuel < 3
  · have hnone : ∀ fuel < 3, (Decoder.new sampleCodec []).feed sampleCodec fuel pingPong = none := by
      decide
    rw [hnone fuel hsmall] at hfeed
    cases hfeed
  · obtain ⟨n, rfl⟩ := Nat.exists_eq_add_of_le' (Nat.le_of_not_lt hsmall)
    have hrun : (Decoder.new sampleCodec []).feed sampleCodec (n + 3) pingPong =
        (pingPongDecoder.tryDecode sampleCodec (n + 3)).bind fun decoder =>
          decoder.feed sampleCodec (n + 3) [] := rfl
    have hloop := Decoder.decodeLoop_pingPong n (n + 3) 0 pingPongDecoder rfl (Or.inl ⟨rfl, rfl⟩)
    have hnone : pingPongDecoder.tryDecode sampleCodec (n + 3) = none :=
      congrArg (Option.map _) hloop
    rw [hrun, hnone] at hfeed
    cases hfeed

/-- The decoder when it has received the first of the two cells. -/
def singleDecoder : Decoder 256 where
  cs := [⟨1, 0x4e0d209a344a5227, 1⟩]
  localWindow := { nextIdx := 1 }
  window := { nextIdx := 1 }
  remoteWindow := { nextIdx := 1 }
  decodable := [0]

/-- The visit of the first cell leaves it empty. -/
theorem singleDecoder_gentle :
    Decoder.AlongDecode (Decoder.Gentle sampleCodec 1) sampleCodec 2 [] 2 0 singleDecoder := by
  intro cidx hcidx
  obtain rfl : 0 = cidx := Option.some.inj hcidx
  refine ⟨fun direction hdirection => ⟨?_, fun i hi _ => ?_⟩, fun next hnext _ => ?_⟩
  · exact increasing_of_reaches 1 (by decide) (by decide)
  · obtain rfl : remove = direction := Option.some.inj hdirection
    obtain rfl := List.mem_singleton.mp hi
    decide
  · have hlist : next.decodable = [0] := by
      have hpeel := congrArg (Option.map Decoder.decodable) hnext
      exact (Option.some.inj hpeel).symm
    intro cidx hcidx
    rw [hlist] at hcidx
    cases hcidx

theorem feed_ends_within_received_single :
    ∃ after, (Decoder.new sampleCodec []).feed sampleCodec 2 (pingPong.take 1) = some after ∧
      after.remote.length + after.local_.length ≤ 1 := by
  have hends : ∀ n ≤ (pingPong.take 1).length, ∃ after,
      (Decoder.new sampleCodec []).feed sampleCodec 2 ((pingPong.take 1).take n) = some after ∧
      after.remote.length + after.local_.length ≤ n := by
    refine feed_ends_within_received (by simp) (by decide) fun received hreceived => ?_
    obtain rfl : singleDecoder = received := Option.some.inj hreceived
    exact ⟨singleDecoder_gentle, fun _ _ => trivial⟩
  exact hends 1 (by decide)

end Datboi.Riblt
