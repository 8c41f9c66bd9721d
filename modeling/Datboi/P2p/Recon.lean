import Datboi.P2p.RibltBlocks
import Datboi.P2p.RibltCounts

/-!
# The two sides of a reconciliation

The initiator asks a responder for a scope, reads a header with the size of the responder's
set, and then takes cells until its decoder has the difference, the stream turns out
malformed, or a budget computed from the two set sizes is spent. Sizes and cells come off the
wire as they are. The responder sends its set's cells in growing blocks until it is stopped.
-/

namespace Datboi

open Riblt

namespace Recon

inductive Scope where
  | affineRecipes
  | rootBlobs
  deriving DecidableEq, Repr

/-- The record length of a 32-byte symbol's cell. -/
def codedSymbolLen : Nat := 48

/-- The responder's header. -/
inductive Response where
  | accepted (setSize frameLen : Nat)
  | refused (code : Nat)
  deriving DecidableEq, Repr

inductive ReconError where
  | refused (scope : Scope) (code : Nat)
  | frames (scope : Scope) (frameLen : Nat)
  | budget (limit remoteSet localSet : Nat)
  | ended
  | malformed
  deriving DecidableEq, Repr

def Scope.name : Scope → String
  | .affineRecipes => "AffineRecipes"
  | .rootBlobs => "RootBlobs"

def ReconError.message : ReconError → String
  | .refused scope code =>
    "peer refused recon scope " ++ scope.name ++ " (code " ++ toString code ++ ")"
  | .frames scope frameLen =>
    "peer serves " ++ toString frameLen ++ "-byte frames for " ++ scope.name ++
      "; this build speaks " ++ toString codedSymbolLen
  | .budget limit remoteSet localSet =>
    "reconciliation did not converge within " ++ toString limit ++ " symbols (remote set " ++
      toString remoteSet ++ ", local set " ++ toString localSet ++ ")"
  | .ended => "recon symbol stream ended before decode"
  | .malformed => "peer recon stream is malformed (peeling invariant violated)"

structure ReconReport where
  scope : Scope
  remoteSet : Nat
  localSet : Nat
  symbolsReceived : Nat
  remoteOnly : List (BitVec 256)
  localOnly : List (BitVec 256)
  deriving DecidableEq, Repr

/-- The most cells worth reading, in wrapping 64-bit arithmetic. -/
def budget (remoteSet localSet : Nat) : Nat :=
  ((8 * ((remoteSet + localSet) % u64Limit)) % u64Limit + 1024) % u64Limit

/-- Read cells until the decoder is done, the stream is malformed, or the budget is spent;
also the number of cells read. -/
def receive (codec : Codec 256) (fuel : Nat) (limit : Nat) (spent : ReconError) :
    Nat → Decoder 256 → List (CodedSymbol 256) →
      Option (Nat × Except ReconError (Decoder 256))
  | symbolsReceived, _, [] =>
    if limit ≤ symbolsReceived then some (symbolsReceived, .error spent)
    else some (symbolsReceived, .error .ended)
  | symbolsReceived, decoder, c :: rest =>
    if limit ≤ symbolsReceived then some (symbolsReceived, .error spent)
    else do
      let decoder ← decoder.addCodedSymbol codec fuel c
      let decoder ← decoder.tryDecode codec fuel
      if decoder.isMalformed then return (symbolsReceived + 1, .error .malformed)
      if decoder.decoded then return (symbolsReceived + 1, .ok decoder)
      receive codec fuel limit spent (symbolsReceived + 1) decoder rest

/-- Reconcile a local set with a peer's scope, given the peer's header and cells. -/
def reconcile (codec : Codec 256) (fuel : Nat) (scope : Scope) (localSymbols : List (BitVec 256))
    (response : Response) (records : List (CodedSymbol 256)) :
    Option (Nat × Except ReconError ReconReport) :=
  match response with
  | .refused code => some (0, .error (.refused scope code))
  | .accepted remoteSet frameLen =>
    if frameLen ≠ codedSymbolLen then some (0, .error (.frames scope frameLen))
    else
      let limit := budget remoteSet localSymbols.length
      (receive codec fuel limit (.budget limit remoteSet localSymbols.length) 0
        (.new codec localSymbols) records).map fun (symbolsReceived, result) =>
          (symbolsReceived, result.map fun decoder =>
            { scope := scope
              remoteSet := remoteSet
              localSet := localSymbols.length
              symbolsReceived := symbolsReceived
              remoteOnly := decoder.remote
              localOnly := decoder.local_ })

/-! ## The responder -/

/-- The most cells one request can pull. -/
def maxSymbols : Nat := 2 ^ 20

def firstBlock : Nat := 1024

def maxBlock : Nat := 2 ^ 17

/-- The cells sent in a number of rounds, the last of which sees the stop. -/
def streamScope (codec : Codec 256) (fuel : Nat) (set : List (BitVec 256)) :
    Nat → Nat → Nat → Option (List (CodedSymbol 256))
  | 0, _, _ => some []
  | rounds + 1, sent, blockLen =>
    if sent < maxSymbols then do
      let take := min blockLen (maxSymbols - sent)
      let block ← encodeBlock codec fuel set sent take
      let rest ← streamScope codec fuel set rounds (sent + take) (min (blockLen * 2) maxBlock)
      return block ++ rest
    else some []

/-- Whenever the responder is stopped, it has sent a run of its set's cells in order. -/
theorem streamScope_eq {codec : Codec 256} {fuel : Nat} {set : List (BitVec 256)}
    (hnodup : set.Nodup) (hinc : ∀ x ∈ set, Increasing codec maxSymbols (codec.hashSymbol x))
    (hfuel : maxSymbols < fuel) (rounds : Nat) {sent : Nat} (blockLen : Nat)
    (hsent : sent ≤ maxSymbols) :
    ∃ n, sent + n ≤ maxSymbols ∧ streamScope codec fuel set rounds sent blockLen =
      some ((List.range n).map fun i => cellOf codec set.toFinset (sent + i)) := by
  induction rounds generalizing sent blockLen with
  | zero => exact ⟨0, hsent, rfl⟩
  | succ rounds ih =>
    unfold streamScope
    split
    · rename_i hopen
      obtain ⟨n, hn, hrest⟩ := @ih (sent + min blockLen (maxSymbols - sent))
        (min (blockLen * 2) maxBlock) (by omega)
      refine ⟨min blockLen (maxSymbols - sent) + n, by omega, ?_⟩
      simp only [Option.bind_eq_bind]
      rw [encodeBlock_eq hnodup hinc (by omega) hfuel, hrest, List.range_add, List.map_append,
        List.map_map]
      simp only [Option.bind_some, Function.comp_def, Nat.add_assoc]
      rfl
    · exact ⟨0, hsent, rfl⟩

/-! ## Arithmetic -/

/-- No operation of the budget leaves an unsigned 64-bit integer. -/
def BudgetFits (remoteSet localSet : Nat) : Prop :=
  remoteSet + localSet < u64Limit ∧ 8 * (remoteSet + localSet) < u64Limit ∧
    8 * (remoteSet + localSet) + 1024 < u64Limit

/-- Every cell received and every visit of the initiator's run meets a condition. -/
def Along (codec : Codec 256) (fuel : Nat) (limit : Nat)
    (Q : Decoder 256 → CodedSymbol 256 → Prop) (P : List Nat → Decoder 256 → Nat → Prop) :
    Nat → List Nat → Decoder 256 → List (CodedSymbol 256) → Prop
  | _, _, _, [] => True
  | symbolsReceived, earlier, decoder, c :: rest =>
    symbolsReceived < limit →
      Q decoder c ∧ ∀ received ∈ decoder.addCodedSymbol codec fuel c,
        Decoder.AlongDecode P codec fuel earlier fuel 0 received ∧
        ∀ after ∈ Decoder.decodeLoop codec fuel fuel 0 received,
          after.isMalformed = false → after.decoded = false →
            Along codec fuel limit Q P (symbolsReceived + 1)
              (earlier ++ after.decodable) { after with decodable := [] } rest

theorem budget_le (remoteSet localSet : Nat) :
    budget remoteSet localSet ≤ 8 * (remoteSet + localSet) + 1024 := by
  unfold budget
  have hsum := Nat.mod_le (remoteSet + localSet) u64Limit
  have hmul := Nat.mod_le (8 * ((remoteSet + localSet) % u64Limit)) u64Limit
  refine (Nat.mod_le _ _).trans ?_
  omega

section Run

variable {codec : Codec 256} {limit localSet bound fuel : Nat}

/-- From a decoder under way whose counts have moved little, the run ends, within the
budget, and moves no count out of its type. -/
theorem receive_in_range (spent : ReconError) (hfuel : localSet + bound < fuel)
    (records : List (CodedSymbol 256))
    {symbolsReceived : Nat} {earlier : List Nat} {decoder : Decoder 256}
    {wire : List (CodedSymbol 256)}
    (hunder : decoder.UnderWay codec bound localSet earlier 0) (hidle : decoder.decodable = [])
    (hmalformed : decoder.malformed = false) (hmoved : decoder.Moved localSet wire)
    (hmoderate : ∀ c ∈ wire ++ records, Decoder.Moderate localSet bound c)
    (hgentle : Along codec fuel limit (fun _ _ => True) (Decoder.Gentle codec bound)
      symbolsReceived earlier decoder records)
    (hbound : decoder.cs.length + records.length ≤ bound) (hwithin : symbolsReceived ≤ limit) :
    Along codec fuel limit (Decoder.AddFits codec fuel) (fun _ => Decoder.PeelFits codec fuel)
        symbolsReceived earlier decoder records ∧
      ∃ read result, receive codec fuel limit spent symbolsReceived decoder records =
          some (read, result) ∧
        read ≤ limit := by
  induction records generalizing symbolsReceived earlier decoder wire with
  | nil =>
    refine ⟨trivial, ?_⟩
    unfold receive
    split
    · exact ⟨_, _, rfl, hwithin⟩
    · exact ⟨_, _, rfl, hwithin⟩
  | cons c rest ih =>
    by_cases hspent : limit ≤ symbolsReceived
    · refine ⟨fun hlt => absurd hlt (Nat.not_lt.mpr hspent), ?_⟩
      rw [receive, if_pos hspent]
      exact ⟨_, _, rfl, hwithin⟩
    · rw [List.length_cons] at hbound
      obtain ⟨received, hadd, hreceived, hclean, hlength⟩ :=
        Decoder.addCodedSymbol_underWay hunder hidle hmalformed (by omega) hfuel c
      obtain ⟨hfits, hmovedReceived⟩ := Decoder.addFits hunder hmoved hmalformed (by omega) hfuel
        (hmoderate c (by simp))
      have hwire : ∀ x ∈ wire ++ [c], Decoder.Moderate localSet bound x := by
        intro x hx
        refine hmoderate x ?_
        rcases List.mem_append.mp hx with hold | hlast
        · exact List.mem_append_left _ hold
        · rw [List.mem_singleton.mp hlast]
          simp
      obtain ⟨-, hvisits⟩ := hgentle (Nat.lt_of_not_le hspent)
      obtain ⟨hdecode, hrest⟩ := hvisits received hadd
      obtain ⟨hpeels, hmovedAfter⟩ := Decoder.alongDecode_peelFits hwire fuel hreceived
        (hmovedReceived received hadd) hdecode (by omega) (by omega)
      obtain ⟨after, didx, hloop, hafter, hlength'⟩ :=
        Decoder.decodeLoop_underWay fuel hreceived hdecode (by omega) (by omega) (by omega)
      have hmoved' := hmovedAfter after hloop
      have hnext := fun hok hopen => @ih (symbolsReceived + 1) (earlier ++ after.decodable)
          { after with decodable := [] } (wire ++ [c]) hafter.finish rfl hok
          ⟨hmoved'.length_eq, hmoved'.low, hmoved'.high⟩ (by simpa using hmoderate)
          (hrest after hloop hok hopen) (by simp only; omega) (Nat.lt_of_not_le hspent)
      constructor
      · refine fun _ => ⟨hfits, fun received' hadd' => ?_⟩
        obtain rfl := Option.some.inj (hadd.symm.trans hadd')
        refine ⟨hpeels, fun after' hloop' hok hopen => ?_⟩
        obtain rfl := Option.some.inj (hloop.symm.trans hloop')
        exact (hnext hok hopen).1
      · rw [receive, if_neg hspent]
        simp only [Option.bind_eq_bind, hadd, Option.bind_some, Decoder.tryDecode, hclean,
          Bool.false_eq_true, if_false, hloop, Option.map_some]
        cases hok : after.isMalformed with
        | true => exact ⟨_, _, if_pos hok, Nat.lt_of_not_le hspent⟩
        | false =>
          rw [if_neg (by simpa [Decoder.isMalformed] using hok)]
          cases hopen : after.decoded with
          | true => exact ⟨_, _, if_pos hopen, Nat.lt_of_not_le hspent⟩
          | false =>
            rw [if_neg (by simpa [Decoder.decoded] using hopen)]
            exact (hnext hok hopen).2

end Run

/-- Against a peer whose set size leaves room for the budget and whose counts stay away from
the limits, in a run that lists no cell again, the initiator's arithmetic is exact and it
reads no more cells than the budget. -/
theorem reconcile_in_range {codec : Codec 256} {scope : Scope} {localSymbols : List (BitVec 256)}
    {remoteSet frameLen : Nat} {records : List (CodedSymbol 256)} {fuel : Nat}
    (hheader : 8 * (remoteSet + localSymbols.length) + 1024 < u64Limit)
    (hmoderate : ∀ c ∈ records, Decoder.Moderate localSymbols.length records.length c)
    (hinc : ∀ x ∈ localSymbols, Increasing codec records.length (codec.hashSymbol x))
    (hgentle : Along codec fuel (budget remoteSet localSymbols.length) (fun _ _ => True)
      (Decoder.Gentle codec records.length) 0 [] (.new codec localSymbols) records)
    (hfuel : localSymbols.length + records.length < fuel) :
    BudgetFits remoteSet localSymbols.length ∧
      Along codec fuel (budget remoteSet localSymbols.length) (Decoder.AddFits codec fuel)
        (fun _ => Decoder.PeelFits codec fuel) 0 [] (.new codec localSymbols) records ∧
      ∃ read result, reconcile codec fuel scope localSymbols (.accepted remoteSet frameLen)
          records = some (read, result) ∧
        read ≤ 8 * (remoteSet + localSymbols.length) + 1024 := by
  have hmoved : (Decoder.new codec localSymbols).Moved localSymbols.length [] :=
    ⟨rfl, fun i hi => absurd hi (Nat.not_lt_zero i), fun i hi => absurd hi (Nat.not_lt_zero i)⟩
  obtain ⟨hfits, read, result, hreceive, hread⟩ := receive_in_range
    (.budget (budget remoteSet localSymbols.length) remoteSet localSymbols.length) hfuel records
    (Decoder.underWay_new hinc) rfl rfl hmoved hmoderate hgentle (by simp [Decoder.new])
    (Nat.zero_le _)
  refine ⟨⟨by omega, by omega, hheader⟩, hfits, ?_⟩
  by_cases hframe : frameLen = codedSymbolLen
  · rw [reconcile, if_neg (not_not.mpr hframe)]
    simp only [hreceive, Option.map_some]
    exact ⟨read, _, rfl, hread.trans (budget_le _ _)⟩
  · refine ⟨0, .error (.frames scope frameLen), ?_, Nat.zero_le _⟩
    simp only [reconcile, ne_eq, hframe, not_false_eq_true, if_true]

/-- A set size of 2 ^ 61 overflows the budget, and a count at the lower limit overflows when
the prior's symbol is taken out of its cell. -/
theorem reconcile_overflows :
    ¬BudgetFits (2 ^ 61) 0 ∧
      ¬(Decoder.new sampleCodec [5]).AddFits sampleCodec 3
        ⟨0, 0, 0x8000000000000000⟩ := by
  constructor
  · rintro ⟨-, hmul, -⟩
    exact absurd hmul (by decide)
  · intro hfits
    obtain ⟨hwindow, -⟩ := hfits rfl
    obtain ⟨⟨hlow, -⟩, -⟩ := hwindow (by decide) rfl
    exact absurd hlow (by decide)

theorem reconcile_in_range_single :
    BudgetFits 1 0 ∧
      Along sampleCodec 2 (budget 1 0) (Decoder.AddFits sampleCodec 2)
        (fun _ => Decoder.PeelFits sampleCodec 2) 0 [] (.new sampleCodec []) (pingPong.take 1) ∧
      ∃ read result, reconcile sampleCodec 2 .rootBlobs [] (.accepted 1 48)
          (pingPong.take 1) = some (read, result) ∧
        read ≤ 8 * (1 + 0) + 1024 := by
  have hmoderate : ∀ c ∈ pingPong.take 1, Decoder.Moderate 0 1 c := by
    intro c hc
    obtain rfl := List.mem_singleton.mp hc
    exact ⟨by decide, by decide⟩
  have hgentle : Along sampleCodec 2 (budget 1 0) (fun _ _ => True)
      (Decoder.Gentle sampleCodec 1) 0 [] (.new sampleCodec []) (pingPong.take 1) := by
    refine fun _ => ⟨trivial, fun received hreceived => ?_⟩
    obtain rfl : singleDecoder = received := Option.some.inj hreceived
    exact ⟨singleDecoder_gentle, fun _ _ _ _ => trivial⟩
  exact @reconcile_in_range sampleCodec .rootBlobs [] 1 48 (pingPong.take 1) 2 (by decide) hmoderate
    (by simp) hgentle (by decide)

/-! ## Both sides together -/

/-- How a run against an honest responder may end: with the difference of the two sets, or for
want of cells or of budget. -/
def HonestEnd (set localSymbols : List (BitVec 256)) : Except ReconError ReconReport → Prop
  | .ok report => report.remoteOnly.Nodup ∧ report.localOnly.Nodup ∧
      (∀ x, x ∈ report.remoteOnly ↔ x ∈ set ∧ x ∉ localSymbols) ∧
      ∀ x, x ∈ report.localOnly ↔ x ∈ localSymbols ∧ x ∉ set
  | .error e => e = .ended ∨
      e = .budget (budget set.length localSymbols.length) set.length localSymbols.length

/-- Fed a set's cells in order, the initiator ends with everything decoded or at a limit. -/
theorem receive_honest {codec : Codec 256} {a b : Finset (BitVec 256)} {bound fuel : Nat}
    (limit : Nat) (spent : ReconError) (hcollisionless : Collisionless codec a b)
    (hinc : ∀ x ∈ a ∪ b, Increasing codec bound (codec.hashSymbol x))
    (hfuel : a.card + b.card + bound < fuel) (records : List (CodedSymbol 256))
    {decoder : Decoder 256} (hpeeling : decoder.Peeling codec a b [])
    (hidle : decoder.decodable = [])
    (hcells : ∀ i c, records[i]? = some c → c = cellOf codec a (decoder.cs.length + i))
    (hbound : decoder.cs.length + records.length ≤ bound) :
    ∃ read result, receive codec fuel limit spent decoder.cs.length decoder records =
        some (read, result) ∧
      (∀ after, result = .ok after →
        after.Peeling codec a b [] ∧ 0 < after.cs.length ∧ after.decoded = true) ∧
      ∀ e, result = .error e → e = .ended ∨ e = spent := by
  induction records generalizing decoder with
  | nil =>
    unfold receive
    split <;> exact ⟨_, _, rfl, by simp, by simp⟩
  | cons c rest ih =>
    rw [receive]
    split
    · exact ⟨_, _, rfl, by simp, by simp⟩
    rw [List.length_cons] at hbound
    rw [← hidle] at hpeeling
    obtain ⟨received, hadd, hreceived, hlength⟩ := Decoder.addCodedSymbol_spec fuel
      hcollisionless hinc hpeeling (by omega) (by omega) (hcells 0 c rfl)
    obtain ⟨after, hloop, hafter, hlength'⟩ := Decoder.decodeLoop_spec fuel hcollisionless
      (fun x hx => hinc x (Finset.symmDiff_subset_union hx)) fuel hreceived List.drop_zero
      (by omega) (by omega) (by omega)
    have hnext : Decoder.Peeling codec a b [] { after with decodable := [] } :=
      ⟨hafter.peels, hafter.window, hafter.remoteWindow, hafter.localWindow, hafter.malformed⟩
    simp only [Option.bind_eq_bind, hadd, Option.bind_some, Decoder.tryDecode,
      hreceived.malformed, Bool.false_eq_true, if_false, hloop, Option.map_some]
    rw [if_neg (by simp [Decoder.isMalformed, hafter.malformed])]
    split
    · rename_i hdecoded
      refine ⟨_, _, rfl, fun final hfinal => ?_, by simp⟩
      cases hfinal
      exact ⟨hnext, by simp only; omega, hdecoded⟩
    · rw [← hlength, ← hlength']
      refine ih hnext rfl (fun i c' hi => ?_) (by simp only; omega)
      rw [hcells (i + 1) c' hi]
      congr 1
      simp only
      omega

/-- A responder stopped in any round has sent a stream that an initiator never finds malformed:
what the initiator reports on it is the difference of the two sets. -/
theorem reconcile_streamScope {codec : Codec 256} {set localSymbols : List (BitVec 256)}
    {fuel : Nat} (scope : Scope) (rounds : Nat) (hnodup : set.Nodup)
    (hcollisionless : Collisionless codec set.toFinset localSymbols.toFinset)
    (hinc : ∀ x ∈ set ++ localSymbols, Increasing codec maxSymbols (codec.hashSymbol x))
    (hfuel : set.length + localSymbols.length + maxSymbols < fuel) :
    ∃ records, streamScope codec fuel set rounds 0 firstBlock = some records ∧ ∃ read result,
      reconcile codec fuel scope localSymbols (.accepted set.length codedSymbolLen) records =
        some (read, result) ∧ HonestEnd set localSymbols result := by
  have hcards : set.toFinset.card + localSymbols.toFinset.card + maxSymbols < fuel := by
    have hset := List.toFinset_card_le set
    have hlocal := List.toFinset_card_le localSymbols
    omega
  obtain ⟨n, hn, hsent⟩ := @streamScope_eq codec fuel set hnodup
    (fun x hx => hinc x (List.mem_append_left _ hx)) (by omega) rounds 0 firstBlock (Nat.zero_le _)
  have hcells : ∀ i c, ((List.range n).map fun i => cellOf codec set.toFinset (0 + i))[i]? =
      some c → c = cellOf codec set.toFinset (0 + i) := by
    intro i c hi
    rw [List.getElem?_map] at hi
    obtain ⟨j, hj, rfl⟩ := Option.map_eq_some_iff.mp hi
    obtain ⟨_, rfl⟩ := List.getElem?_eq_some_iff.mp hj
    rw [List.getElem_range]
  obtain ⟨read, result, hreceive, hok, herror⟩ := receive_honest
    (budget set.length localSymbols.length)
    (.budget (budget set.length localSymbols.length) set.length localSymbols.length)
    hcollisionless (fun x hx => hinc x (by simpa using hx)) hcards _
    (Decoder.peeling_new codec set.toFinset localSymbols) rfl hcells
    (by simpa [Decoder.new] using hn)
  change receive _ _ _ _ 0 _ _ = _ at hreceive
  refine ⟨_, hsent, ?_⟩
  rw [reconcile, if_neg (not_not.mpr rfl)]
  simp only [hreceive, Option.map_some]
  refine ⟨read, _, rfl, ?_⟩
  cases result with
  | error e => exact herror e rfl
  | ok after =>
    obtain ⟨hpeeling, hpos, hdecoded⟩ := hok after rfl
    have hexact := hpeeling.exact_of_decoded hpos hdecoded
    exact ⟨hpeeling.remoteWindow.nodup, hpeeling.localWindow.nodup, by simpa using hexact⟩

theorem reconcile_streamScope_sample :
    ∃ records, streamScope sampleCodec (2 ^ 21) [5, 1] 1 0 firstBlock = some records ∧
      ∃ read result, reconcile sampleCodec (2 ^ 21) .rootBlobs [5, 3] (.accepted 2 codedSymbolLen)
        records = some (read, result) ∧ HonestEnd [5, 1] [5, 3] result := by
  -- the sample's generators step by one or two
  have hinc : ∀ hash, Increasing sampleCodec maxSymbols hash := by
    intro hash n hn
    have hstep : ∀ prng last, 0 < sampleCodec.step prng last := fun prng last => by
      simp only [sampleCodec]
      split <;> decide
    have hpos := hstep ((mappingAt sampleCodec hash n).prng * 0xda942042e4dd58b5)
      (mappingAt sampleCodec hash n).lastIndex
    simp only [mappingAt, RandomMapping.nextIndex, saturatingAdd, u64Limit]
    simp only [maxSymbols] at hn
    omega
  exact reconcile_streamScope .rootBlobs 1 (by decide) sample_collisionless (fun _ _ => hinc _)
    (by decide)

end Recon

end Datboi
