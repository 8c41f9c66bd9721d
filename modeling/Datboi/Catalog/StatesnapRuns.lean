import Datboi.Catalog.Statesnap

/-!
# Snapshot sequences over runs of minters

As long as nothing comes between the look at the log's next number and the append, each
snapshot of the identity has a sequence of its own, and the greatest one belongs to the last
mint that reported success. A mint that dies between its publish and its append leaves a
sequence behind that the next mint uses again.
-/

namespace Datboi

open Snapshot

namespace Statesnap

variable {host : Host} {verify : PublicKey → Bytes → Signature → Bool} {publicKey : PublicKey}
  {identity : Identity} {store : Store} {hash : Blake3} {snap : StateSnapshot} {bytes : Bytes}

/-! ## The identity's snapshots in the store -/

/-- An object of the store that is a snapshot signed by this key. -/
def OwnSnapshot (host : Host) (verify : PublicKey → Bytes → Signature → Bool)
    (publicKey : PublicKey) (store : Store) (hash : Blake3) (snap : StateSnapshot) : Prop :=
  ∃ bytes, store.get .metadata hash = some bytes ∧ host.blake3 bytes = hash ∧
    StateSnapshot.decode verify bytes = .ok snap ∧ snap.publicKey = publicKey

theorem OwnSnapshot.unique {other : StateSnapshot}
    (hsnap : OwnSnapshot host verify publicKey store hash snap)
    (hother : OwnSnapshot host verify publicKey store hash other) : snap = other := by
  obtain ⟨bytes, hget, -, hdecode, -⟩ := hsnap
  obtain ⟨bytes', hget', -, hdecode', -⟩ := hother
  rw [hget, Option.some.injEq] at hget'
  rw [← hget', hdecode] at hdecode'
  exact Except.ok.inj hdecode'

/-- What decodes as a snapshot is listed as one. -/
theorem sniff_of_decode (hdecode : StateSnapshot.decode verify bytes = .ok snap) :
    ∃ version start, Object.sniff bytes = some (.stateSnapshot, version, start) := by
  obtain ⟨signature, -, -, -, -, rfl⟩ := StateSnapshot.decode_eq_ok.mp hdecode
  rw [statesnapHeader_eq]
  exact ⟨statesnapVersion, _, (Object.sniff_eq_some (by decide)).mpr ⟨rfl, _, rfl⟩⟩

/-- Recovery's candidates under a key are the snapshots signed by it. -/
theorem mem_authenticated {listing : List Blake3} :
    (hash, snap) ∈ authenticated verify publicKey (snapshotCandidates host store listing) ↔
      hash ∈ listing ∧ OwnSnapshot host verify publicKey store hash snap := by
  simp only [authenticated, snapshotCandidates, List.mem_filter, List.mem_filterMap,
    Option.map_eq_some_iff, Prod.mk.injEq, decide_eq_true_eq, Option.bind_eq_bind,
    Option.bind_eq_some_iff]
  constructor
  · intro hmem
    obtain ⟨⟨⟨found, bytes⟩, ⟨listed, hlisted, bytes', hget, hfound⟩, snap', hsnap, rfl, rfl⟩,
      hkey⟩ := hmem
    split at hfound
    · cases hfound
    rename_i hname
    rw [not_not] at hname
    split at hfound
    · cases hfound
      refine ⟨hlisted, bytes, hget, hname, ?_, hkey⟩
      cases hdecode : StateSnapshot.decode verify bytes with
      | ok snap => rw [hdecode] at hsnap; cases hsnap; rfl
      | error e => rw [hdecode] at hsnap; cases hsnap
    · cases hfound
  · intro hmem
    obtain ⟨hlisted, bytes, hget, hname, hdecode, hkey⟩ := hmem
    obtain ⟨version, start, hsniff⟩ := sniff_of_decode hdecode
    refine ⟨⟨(hash, bytes), ⟨hash, hlisted, bytes, hget, ?_⟩, snap, ?_, rfl, rfl⟩, hkey⟩
    · rw [if_neg (not_not.mpr hname), hsniff]
    · rw [hdecode]
      rfl

/-! ## Storing objects -/

theorem get_putMeta (other : Blake3) :
    (putMeta host store bytes).2.2.get .metadata other =
      if other = host.blake3 bytes then some ((store.get .metadata other).getD bytes)
      else store.get .metadata other := by
  simp only [putMeta, Store.publish, Store.get_metadata]
  split
  · rename_i hloose
    obtain ⟨old, hold⟩ := Option.isSome_iff_exists.mp hloose
    split
    · rename_i heq
      rw [heq, hold, Option.getD_some]
    · rfl
  · rename_i hloose
    rw [Store.hasLoose, Option.not_isSome_iff_eq_none] at hloose
    simp only [Store.setLoose, true_and]
    split
    · rename_i heq
      rw [heq, hloose, Option.getD_none]
    · rfl

/-- The header of a batch is not a snapshot's. -/
theorem decode_ne_ok_of_batch (hbyte : bytes[7]? = some 97) :
    StateSnapshot.decode verify bytes ≠ .ok snap := by
  intro hdecode
  obtain ⟨signature, -, -, -, -, rfl⟩ := StateSnapshot.decode_eq_ok.mp hdecode
  rw [List.getElem?_append_left (by decide)] at hbyte
  revert hbyte
  decide

theorem ownSnapshot_putMeta_of_ne (hbytes : ∀ snap, StateSnapshot.decode verify bytes ≠ .ok snap) :
    OwnSnapshot host verify publicKey (putMeta host store bytes).2.2 hash snap ↔
      OwnSnapshot host verify publicKey store hash snap := by
  unfold OwnSnapshot
  rw [get_putMeta]
  split
  · rename_i heq
    cases hold : store.get .metadata hash with
    | none =>
      constructor
      · intro hsnap
        obtain ⟨found, hfound, -, hdecode, -⟩ := hsnap
        cases hfound
        exact absurd hdecode (hbytes snap)
      · intro hsnap
        obtain ⟨found, hfound, -⟩ := hsnap
        cases hfound
    | some old => rfl
  · rfl

/-- A snapshot whose address is free joins the others. -/
theorem ownSnapshot_putMeta (hdecode : StateSnapshot.decode verify bytes = .ok snap)
    (hkey : snap.publicKey = publicKey)
    (hfresh : ∀ old, store.get .metadata (host.blake3 bytes) = some old → old = bytes)
    {other : StateSnapshot} :
    OwnSnapshot host verify publicKey (putMeta host store bytes).2.2 hash other ↔
      OwnSnapshot host verify publicKey store hash other ∨
        hash = host.blake3 bytes ∧ other = snap := by
  unfold OwnSnapshot
  rw [get_putMeta]
  split
  · rename_i heq
    have hget : some ((store.get .metadata hash).getD bytes) = some bytes := by
      cases hold : store.get .metadata hash with
      | none => rfl
      | some old => rw [Option.getD_some, hfresh old (heq ▸ hold)]
    rw [hget]
    constructor
    · intro hsnap
      obtain ⟨found, hfound, -, hdecode', -⟩ := hsnap
      cases hfound
      rw [hdecode] at hdecode'
      exact Or.inr ⟨heq, (Except.ok.inj hdecode').symm⟩
    · intro hsnap
      rcases hsnap with ⟨found, hfound, hname, hdecode', hkey'⟩ | ⟨-, rfl⟩
      · have hsame := hfresh found (heq ▸ hfound)
        subst hsame
        exact ⟨found, rfl, hname, hdecode', hkey'⟩
      · exact ⟨bytes, rfl, heq.symm, hdecode, hkey⟩
  · rename_i hne
    constructor
    · exact Or.inl
    · intro hsnap
      rcases hsnap with hold | ⟨heq, -⟩
      · exact hold
      · exact absurd heq hne

/-! ## One step of a mint -/

/-- Is the mint between its publish and its append? -/
def MintCall.Logging (call : MintCall) (sequence : Nat) (hash : Blake3) : Prop :=
  call.stage = .logging sequence hash

/-- A mint that has nothing in the store that the log lacks, and reports no success. -/
def MintCall.Idle (call : MintCall) : Prop :=
  (∀ sequence hash, call.stage ≠ .logging sequence hash) ∧
    ∀ report, call.stage ≠ .finished (.ok report)

theorem idle_fail (call : MintCall) (e : MintError) : (call.fail e).Idle := ⟨nofun, nofun⟩

theorem aliasBatch_not_snapshot {batch : AliasBatch} (hencode : batch.encode = .ok bytes) :
    StateSnapshot.decode verify bytes ≠ .ok snap := by
  refine decode_ne_ok_of_batch ?_
  simp only [AliasBatch.encode] at hencode
  split at hencode
  · cases hencode
  obtain ⟨body, -, hbytes⟩ := Decoding.bind_eq_ok.mp hencode
  cases hbytes
  rw [List.getElem?_append_left (by decide)]
  decide

theorem analysisBatch_not_snapshot {batch : AnalysisBatch} (hencode : batch.encode = .ok bytes) :
    StateSnapshot.decode verify bytes ≠ .ok snap := by
  refine decode_ne_ok_of_batch ?_
  simp only [AnalysisBatch.encode] at hencode
  split at hencode
  · cases hencode
  split at hencode
  · cases hencode
  obtain ⟨body, -, hbytes⟩ := Decoding.bind_eq_ok.mp hencode
  cases hbytes
  rw [List.getElem?_append_left (by decide)]
  decide

variable {call : MintCall} {cache : CacheRows} {free : Option Nat} {state : StateDb}

/-- Storing a batch brings no snapshot. -/
theorem putBatch_spec {encoded : Except SnapshotError Bytes}
    (hencoded : ∀ bytes snap, encoded = .ok bytes → StateSnapshot.decode verify bytes ≠ .ok snap)
    {record : Blake3 → MintCall → MintCall}
    (hrecord : ∀ hash call, (record hash call).stage = call.stage)
    (hidle : call.Idle) :
    (∀ hash snap, OwnSnapshot host verify publicKey
        (call.putBatch host store encoded record).1 hash snap ↔
      OwnSnapshot host verify publicKey store hash snap) ∧
      (call.putBatch host store encoded record).2.Idle := by
  unfold MintCall.putBatch
  split
  · rename_i bytes
    refine ⟨fun hash snap => ownSnapshot_putMeta_of_ne fun snap => hencoded bytes snap rfl, ?_⟩
    unfold MintCall.Idle
    simp only [hrecord]
    exact hidle
  · exact ⟨fun _ _ => Iff.rfl, idle_fail _ _⟩

/-- A step of a mint is one of three: it changes neither the log nor the identity's snapshots,
it publishes the snapshot, or it appends to the log. -/
theorem step_spec (hopen : ∀ result, call.stage ≠ .finished result) :
    ((∀ s h, call.stage ≠ .logging s h) ∧
        (call.step host identity cache free state store).1 = state ∧
        (∀ hash snap, OwnSnapshot host verify publicKey
            (call.step host identity cache free state store).2.1 hash snap ↔
          OwnSnapshot host verify publicKey store hash snap) ∧
        (call.step host identity cache free state store).2.2.Idle) ∨
      (∃ sequence bytes, call.stage = .publishing sequence ∧
        (call.payload sequence).encodeSigned identity = .ok bytes ∧ bytes.length < 2 ^ 63 ∧
        call.step host identity cache free state store = (state, (putMeta host store bytes).2.2,
          { call with stage := .logging sequence (host.blake3 bytes) })) ∨
      ∃ sequence hash, call.stage = .logging sequence hash ∧
        call.step host identity cache free state store =
          ((call.log state free sequence hash).1, store,
            (call.log state free sequence hash).2) := by
  cases hstage : call.stage with
  | aliasRows =>
    have hstep : call.step host identity cache free state store = (state, store,
        { call with aliasTuples := cache.aliasTuples, stage := .aliasBatches }) := by
      simp only [MintCall.step, hstage]
    rw [hstep]
    exact Or.inl ⟨nofun, rfl, fun _ _ => Iff.rfl, nofun, nofun⟩
  | aliasBatches =>
    have hidle : call.Idle := by simp [MintCall.Idle, hstage]
    refine Or.inl ?_
    rw [MintCall.step, hstage]
    dsimp only
    split
    · exact ⟨nofun, rfl,
        putBatch_spec (fun _ _ => aliasBatch_not_snapshot) (fun _ _ => rfl) hidle⟩
    · refine ⟨nofun, rfl, fun _ _ => Iff.rfl, ?_⟩
      simp only [MintCall.Idle]
      split <;> exact ⟨nofun, nofun⟩
  | analysisBatches =>
    have hidle : call.Idle := by simp [MintCall.Idle, hstage]
    refine Or.inl ?_
    rw [MintCall.step, hstage]
    dsimp only
    split
    · exact ⟨nofun, rfl,
        putBatch_spec (fun _ _ => analysisBatch_not_snapshot) (fun _ _ => rfl) hidle⟩
    · exact ⟨nofun, rfl, fun _ _ => Iff.rfl, nofun, nofun⟩
  | numbering =>
    refine Or.inl ?_
    rw [MintCall.step, hstage]
    dsimp only
    split
    · exact ⟨nofun, rfl, fun _ _ => Iff.rfl, nofun, nofun⟩
    · exact ⟨nofun, rfl, fun _ _ => Iff.rfl, idle_fail _ _⟩
  | publishing sequence =>
    rw [MintCall.step, hstage]
    dsimp only [MintCall.publish]
    split
    · exact Or.inl ⟨nofun, rfl, fun _ _ => Iff.rfl, idle_fail _ _⟩
    rename_i bytes hencode
    split
    · exact Or.inl ⟨nofun, rfl, fun _ _ => Iff.rfl, idle_fail _ _⟩
    rename_i hlength
    exact Or.inr (Or.inl ⟨sequence, bytes, rfl, hencode, by omega, rfl⟩)
  | logging sequence hash =>
    refine Or.inr (Or.inr ⟨sequence, hash, rfl, ?_⟩)
    simp only [MintCall.step, hstage]
  | finished result => exact absurd hstage (hopen result)

/-! ## What holds between steps -/

variable (host verify identity)

/-- Every snapshot of the identity is logged under its sequence, or its mint is about to log it
under the next one; at most one mint is; and the log ends with the last success. -/
structure Sound (world : MintWorld) : Prop where
  accounted : ∀ hash snap,
    OwnSnapshot host verify identity.publicKey world.store hash snap →
      (∃ row, world.state.snapshotLog[snap.payload.sequence.toNat]? = some row ∧
        row.hash = hash) ∨
      ∃ call ∈ world.mints, call.stage = .logging snap.payload.sequence.toNat hash
  pending : ∀ call ∈ world.mints, ∀ sequence hash, call.stage = .logging sequence hash →
    world.state.nextSnapshotSeq = some sequence ∧
      OwnSnapshot host verify identity.publicKey world.store hash
        ⟨call.payload sequence, identity.publicKey⟩
  single : ∀ (i j : Nat) (first second : MintCall),
    world.mints[i]? = some first → world.mints[j]? = some second →
      ∀ s h s' h', first.stage = .logging s h → second.stage = .logging s' h' → i = j
  empty : world.reported = none → world.state.snapshotLog = ∅
  newest : ∀ report triple, world.reported = some (report, triple) →
    ∃ row snap, world.state.snapshotLog[world.state.lastSeq]? = some row ∧
      row.hash = report.hash ∧
      OwnSnapshot host verify identity.publicKey world.store report.hash snap ∧
      snap.payload.sequence.toNat = world.state.lastSeq ∧ recordedTriple snap = triple

/-- A new installation: nothing is logged, minted or signed. -/
structure Fresh (world : MintWorld) : Prop where
  log : world.state.snapshotLog = ∅
  mints : world.mints = []
  reported : world.reported = none
  objects : ∀ hash snap, ¬ OwnSnapshot host verify identity.publicKey world.store hash snap

/-- A mint publishes only under the number that is still the log's next, while no other mint
has one to log, and at an address that is free; and no mint dies before it has logged what it
published. -/
def Undisturbed (world : MintWorld) : MintMove → Prop
  | .advance mint _ => ∀ call ∈ world.mints[mint]?, ∀ sequence,
      call.stage = .publishing sequence →
        world.state.nextSnapshotSeq = some sequence ∧
        (∀ other ∈ world.mints, ∀ s h, other.stage ≠ .logging s h) ∧
        ∀ bytes, (call.payload sequence).encodeSigned identity = .ok bytes →
          ∀ old, world.store.get .metadata (host.blake3 bytes) = some old → old = bytes
  | .crash mint => ∀ call ∈ world.mints[mint]?, ∀ s h, call.stage ≠ .logging s h
  | _ => True

variable {host verify identity} {world world' : MintWorld}

theorem Fresh.sound (hfresh : Fresh host verify identity world) :
    Sound host verify identity world where
  accounted hash snap hsnap := absurd hsnap (hfresh.objects hash snap)
  pending call hmem := by
    rw [hfresh.mints] at hmem
    cases hmem
  single i j first second hfirst := by
    rw [hfresh.mints] at hfirst
    cases hfirst
  empty _ := hfresh.log
  newest report triple hreported := by
    rw [hfresh.reported] at hreported
    cases hreported

/-- No two snapshots of the identity share a sequence. -/
theorem Sound.unique (hsound : Sound host verify identity world) {a b : Blake3}
    {snapA snapB : StateSnapshot}
    (ha : OwnSnapshot host verify identity.publicKey world.store a snapA)
    (hb : OwnSnapshot host verify identity.publicKey world.store b snapB)
    (hsequence : snapA.payload.sequence = snapB.payload.sequence) : a = b := by
  -- A logged sequence is below the next one.
  have hbelow : ∀ {sequence : Nat} {row : SnapshotLogRow} {call : MintCall} {hash : Blake3},
      world.state.snapshotLog[sequence]? = some row → call ∈ world.mints →
        call.stage ≠ .logging sequence hash := by
    intro sequence row call hash hrow hcall hstage
    obtain ⟨hnext, -⟩ := hsound.pending call hcall sequence hash hstage
    have hle := StateDb.le_lastSeq_of_row hrow
    have := (StateDb.nextSnapshotSeq_eq_some.mp hnext).1
    omega
  rcases hsound.accounted a snapA ha with ⟨row, hrow, rfl⟩ | ⟨call, hcall, hstage⟩
  · rcases hsound.accounted b snapB hb with ⟨row', hrow', rfl⟩ | ⟨call, hcall, hstage⟩
    · rw [← hsequence, hrow, Option.some.injEq] at hrow'
      rw [hrow']
    · exact absurd hstage (hbelow (hsequence ▸ hrow) hcall)
  · rcases hsound.accounted b snapB hb with ⟨row, hrow, -⟩ | ⟨call', hcall', hstage'⟩
    · exact absurd hstage (hbelow (hsequence ▸ hrow) hcall)
    · obtain ⟨i, hi⟩ := List.mem_iff_getElem?.mp hcall
      obtain ⟨j, hj⟩ := List.mem_iff_getElem?.mp hcall'
      have hij := hsound.single i j call call' hi hj _ _ _ _ hstage hstage'
      rw [hij, hj, Option.some.injEq] at hi
      rw [← hi, hstage'] at hstage
      exact (MintStage.logging.inj hstage).2.symm

/-- While no mint is about to log, recovery selects what the last success recorded. -/
theorem Sound.selected (hsound : Sound host verify identity world)
    (hquiet : ∀ call ∈ world.mints, ∀ s h, call.stage ≠ .logging s h) {listing : List Blake3}
    (hlisting : ListsMeta world.store listing) :
    ((selectSnapshot verify identity.publicKey
        (snapshotCandidates host world.store listing)).map fun entry => recordedTriple entry.2) =
      world.reported.map Prod.snd := by
  have hlogged : ∀ hash snap,
      OwnSnapshot host verify identity.publicKey world.store hash snap →
        ∃ row, world.state.snapshotLog[snap.payload.sequence.toNat]? = some row ∧
          row.hash = hash := by
    intro hash snap hsnap
    rcases hsound.accounted hash snap hsnap with hrow | ⟨call, hcall, hstage⟩
    · exact hrow
    · exact absurd hstage (hquiet call hcall _ _)
  cases hreported : world.reported with
  | none =>
    have hempty := hsound.empty hreported
    have hnone : authenticated verify identity.publicKey
        (snapshotCandidates host world.store listing) = [] := by
      rw [List.eq_nil_iff_forall_not_mem]
      rintro ⟨hash, snap⟩ hmem
      obtain ⟨row, hrow, -⟩ := hlogged hash snap (mem_authenticated.mp hmem).2
      rw [hempty] at hrow
      simp at hrow
    rw [selectSnapshot, hnone]
    rfl
  | some last =>
    obtain ⟨report, triple⟩ := last
    obtain ⟨row, snap, hrow, hhash, hsnap, hsequence, htriple⟩ :=
      hsound.newest report triple hreported
    have hlisted : report.hash ∈ listing := by
      obtain ⟨bytes, hget, -⟩ := hsnap
      rw [hlisting.2, Store.hasLoose, ← Store.get_metadata, hget]
      rfl
    have hmem := mem_authenticated.mpr ⟨hlisted, hsnap⟩
    cases hselect : selectSnapshot verify identity.publicKey
        (snapshotCandidates host world.store listing) with
    | none =>
      rw [selectSnapshot, List.argmax_eq_none, List.reverse_eq_nil_iff] at hselect
      rw [hselect] at hmem
      cases hmem
    | some entry =>
      obtain ⟨hash, found⟩ := entry
      rw [selectSnapshot, List.argmax_eq_some_iff] at hselect
      obtain ⟨hfound, hgreatest, -⟩ := hselect
      have hown := (mem_authenticated.mp (List.mem_reverse.mp hfound)).2
      obtain ⟨row', hrow', -⟩ := hlogged hash found hown
      have hle := StateDb.le_lastSeq_of_row hrow'
      have hge := hgreatest _ (List.mem_reverse.mpr hmem)
      have hsame : found.payload.sequence = snap.payload.sequence := by
        rw [← UInt64.toNat_inj]
        exact le_antisymm (hsequence ▸ hle) hge
      obtain rfl := hsound.unique hown hsnap hsame
      rw [Option.map_some, Option.map_some, hown.unique hsnap, htriple]

/-! ## Steps -/

/-- Steps that leave the log, the identity's snapshots and the mints about to log as they are. -/
theorem Sound.frame (hsound : Sound host verify identity world)
    (hlog : world'.state.snapshotLog = world.state.snapshotLog)
    (hown : ∀ hash snap, OwnSnapshot host verify identity.publicKey world'.store hash snap ↔
      OwnSnapshot host verify identity.publicKey world.store hash snap)
    (hmints : ∀ (i : Nat) (call : MintCall) s h, call.stage = .logging s h →
      (world'.mints[i]? = some call ↔ world.mints[i]? = some call))
    (hreported : world'.reported = world.reported) :
    Sound host verify identity world' := by
  have hmem : ∀ (call : MintCall) s h, call.stage = .logging s h →
      (call ∈ world'.mints ↔ call ∈ world.mints) := by
    intro call s h hstage
    simp only [List.mem_iff_getElem?]
    exact exists_congr fun i => hmints i call s h hstage
  have hlast : world'.state.lastSeq = world.state.lastSeq := by
    rw [StateDb.lastSeq, StateDb.lastSeq, hlog]
  have hnext : world'.state.nextSnapshotSeq = world.state.nextSnapshotSeq := by
    rw [StateDb.nextSnapshotSeq, StateDb.nextSnapshotSeq, hlast]
  refine ⟨fun hash snap hsnap => ?_, fun call hcall s h hstage => ?_,
    fun i j first second hfirst hsecond s h s' h' hstage hstage' => ?_, fun hnone => ?_,
    fun report triple hlastReport => ?_⟩
  · rw [hlog]
    rcases hsound.accounted hash snap ((hown hash snap).mp hsnap) with hrow | ⟨call, hcall, hstage⟩
    · exact Or.inl hrow
    · exact Or.inr ⟨call, (hmem call _ _ hstage).mpr hcall, hstage⟩
  · obtain ⟨hseq, hsnap⟩ := hsound.pending call ((hmem call s h hstage).mp hcall) s h hstage
    exact ⟨hnext.trans hseq, (hown _ _).mpr hsnap⟩
  · exact hsound.single i j first second ((hmints i first s h hstage).mp hfirst)
      ((hmints j second s' h' hstage').mp hsecond) s h s' h' hstage hstage'
  · rw [hlog]
    exact hsound.empty (hreported ▸ hnone)
  · obtain ⟨row, snap, hrow, hhash, hsnap, hsequence, htriple⟩ :=
      hsound.newest report triple (hreported ▸ hlastReport)
    exact ⟨row, snap, by rw [hlog, hlast]; exact hrow, hhash, (hown _ _).mpr hsnap,
      hsequence.trans hlast.symm, htriple⟩

variable {mint sequence : Nat} {call' : MintCall} {empty : Blake3}

/-- A mint that goes from one idle stage to another, or dies in one, is not about to log. -/
theorem logging_set_iff {mints : List MintCall} {i : Nat} {old new call : MintCall}
    (hold : mints[mint]? = some old) (hbefore : ∀ s h, old.stage ≠ .logging s h)
    (hafter : ∀ s h, new.stage ≠ .logging s h) {s : Nat} {h : Blake3}
    (hstage : call.stage = .logging s h) :
    (mints.set mint new)[i]? = some call ↔ mints[i]? = some call := by
  by_cases hi : mint = i
  · subst hi
    rw [List.getElem?_set_self (List.getElem?_eq_some_iff.mp hold).1, hold]
    constructor
    · intro hnew
      rw [Option.some.injEq] at hnew
      exact absurd hstage (hnew ▸ hafter s h)
    · intro hsame
      rw [Option.some.injEq] at hsame
      exact absurd hstage (hsame ▸ hbefore s h)
  · rw [List.getElem?_set_ne hi]

/-- A published payload decodes again, under the number it was minted with. -/
theorem decode_published {call : MintCall} {sequence : Nat}
    (hverify : ∀ message, verify identity.publicKey message (identity.sign message) = true)
    (hencode : (call.payload sequence).encodeSigned identity = .ok bytes)
    (hlength : bytes.length < 2 ^ 63) :
    StateSnapshot.decode verify bytes = .ok ⟨call.payload sequence, identity.publicKey⟩ := by
  have hvalidate : (call.payload sequence).validate = .ok () := by
    unfold SnapshotPayload.encodeSigned SnapshotPayload.payloadBytes at hencode
    cases hvalidate : (call.payload sequence).validate with
    | ok u => rfl
    | error e =>
      rw [hvalidate] at hencode
      cases hencode
  obtain ⟨bytes', hbytes', hdecode⟩ := StateSnapshot.decode_of_encodeSigned hverify hvalidate
  rw [hencode, Except.ok.injEq] at hbytes'
  subst hbytes'
  exact hdecode (by omega)

section

variable (hsound : Sound host verify identity world)

include hsound

theorem Sound.publish
    (hverify : ∀ message, verify identity.publicKey message (identity.sign message) = true)
    {call : MintCall} (hcall : world.mints[mint]? = some call)
    (hencode : (call.payload sequence).encodeSigned identity = .ok bytes)
    (hlength : bytes.length < 2 ^ 63) (hnext : world.state.nextSnapshotSeq = some sequence)
    (hquiet : ∀ other ∈ world.mints, ∀ s h, other.stage ≠ .logging s h)
    (hfree : ∀ old, world.store.get .metadata (host.blake3 bytes) = some old → old = bytes) :
    Sound host verify identity
      { world with
        store := (putMeta host world.store bytes).2.2
        mints := world.mints.set mint
          { call with stage := .logging sequence (host.blake3 bytes) } } := by
  have hown : ∀ hash snap, _ ↔ _ := fun hash snap =>
    @ownSnapshot_putMeta host verify identity.publicKey world.store hash
      ⟨call.payload sequence, identity.publicKey⟩ bytes
      (decode_published hverify hencode hlength) rfl hfree snap
  have hsequence : (call.payload sequence).sequence.toNat = sequence := by
    have hle := (StateDb.nextSnapshotSeq_eq_some.mp hnext).2
    simp only [MintCall.payload, maxRowId, UInt64.toNat_ofNat'] at hle ⊢
    exact Nat.mod_eq_of_lt (by omega)
  -- The call is the only one of the new list that is about to log.
  have hset : ∀ (i : Nat) (other : MintCall) s h,
      (world.mints.set mint
        { call with stage := .logging sequence (host.blake3 bytes) })[i]? = some other →
      other.stage = .logging s h →
        i = mint ∧ other = { call with stage := .logging sequence (host.blake3 bytes) } := by
    intro i other s h hother hlogging
    by_cases hi : mint = i
    · subst hi
      rw [List.getElem?_set_self (List.getElem?_eq_some_iff.mp hcall).1,
        Option.some.injEq] at hother
      exact ⟨rfl, hother.symm⟩
    · rw [List.getElem?_set_ne hi] at hother
      exact absurd hlogging (hquiet other (List.mem_of_getElem? hother) s h)
  refine ⟨fun hash snap hsnap => ?_, fun other hother s h hlogging => ?_,
    fun i j first second hfirst hsecond s h s' h' hlogging hlogging' => ?_, hsound.empty,
    fun report triple hlast => ?_⟩
  · rcases (hown hash snap).mp hsnap with hold | ⟨rfl, rfl⟩
    · rcases hsound.accounted hash snap hold with hrow | ⟨other, hother, hlogging⟩
      · exact Or.inl hrow
      · exact absurd hlogging (hquiet other hother _ _)
    · refine Or.inr ⟨_, List.mem_set (List.getElem?_eq_some_iff.mp hcall).1 _, ?_⟩
      change MintStage.logging sequence _ = .logging (call.payload sequence).sequence.toNat _
      rw [hsequence]
  · obtain ⟨i, hi⟩ := List.mem_iff_getElem?.mp hother
    obtain ⟨-, rfl⟩ := hset i other s h hi hlogging
    cases hlogging
    exact ⟨hnext, (hown _ _).mpr (Or.inr ⟨rfl, rfl⟩)⟩
  · rw [(hset i first s h hfirst hlogging).1, (hset j second s' h' hsecond hlogging').1]
  · obtain ⟨row, snap, hrow, hhash, hsnap, hsnapSequence, htriple⟩ :=
      hsound.newest report triple hlast
    exact ⟨row, snap, hrow, hhash, (hown _ _).mpr (Or.inl hsnap), hsnapSequence, htriple⟩

theorem Sound.log {call : MintCall} {free : Option Nat} (hcall : world.mints[mint]? = some call)
    (hstage : call.stage = .logging sequence hash) :
    Sound host verify identity
      { world with
        state := (call.log world.state free sequence hash).1
        mints := world.mints.set mint (call.log world.state free sequence hash).2
        reported := world.reportedAfter (call.log world.state free sequence hash).2 } := by
  obtain ⟨hnext, hsnap⟩ := hsound.pending call (List.mem_of_getElem? hcall) sequence hash hstage
  obtain ⟨hlast, hle⟩ := StateDb.nextSnapshotSeq_eq_some.mp hnext
  have hlog : call.log world.state free sequence hash =
      (world.state.snapshotLogRestore sequence hash call.now,
        { call with stage := .finished (.ok (call.report sequence hash)) }) := by
    rw [MintCall.log, StateDb.snapshotLogAppend_of_next hnext]
    simp
  rw [hlog]
  have hquiet : ∀ (i : Nat) (other : MintCall) s h,
      (world.mints.set mint
        { call with stage := .finished (.ok (call.report sequence hash)) })[i]? = some other →
      other.stage ≠ .logging s h := by
    intro i other s h hother hlogging
    by_cases hi : mint = i
    · subst hi
      rw [List.getElem?_set_self (List.getElem?_eq_some_iff.mp hcall).1,
        Option.some.injEq] at hother
      rw [← hother] at hlogging
      cases hlogging
    · rw [List.getElem?_set_ne hi] at hother
      exact hi (hsound.single mint i call other hcall hother _ _ _ _ hstage hlogging)
  have hsequence : (call.payload sequence).sequence.toNat = sequence := by
    simp only [MintCall.payload, maxRowId, UInt64.toNat_ofNat'] at hle ⊢
    exact Nat.mod_eq_of_lt (by omega)
  refine ⟨fun other snap hother => ?_, fun other hother s h hlogging => ?_,
    fun i j first second hfirst hsecond s h s' h' hlogging => ?_, nofun,
    fun report triple hreported => ?_⟩
  · rw [StateDb.snapshotLog_snapshotLogRestore, Std.ExtTreeMap.getElem?_insert]
    rcases hsound.accounted other snap hother with ⟨row, hrow, hhash⟩ | ⟨second, hmem, hlogging⟩
    · have hbelow := StateDb.le_lastSeq_of_row hrow
      refine Or.inl ⟨row, ?_, hhash⟩
      rw [if_neg]
      · exact hrow
      · rw [Nat.compare_eq_eq]
        omega
    · obtain ⟨i, hi⟩ := List.mem_iff_getElem?.mp hmem
      have hsame := hsound.single mint i call second hcall hi _ _ _ _ hstage hlogging
      rw [← hsame, hcall, Option.some.injEq] at hi
      rw [← hi, hstage] at hlogging
      obtain ⟨hnumber, hname⟩ := MintStage.logging.inj hlogging
      refine Or.inl ⟨⟨hash, call.now⟩, ?_, hname⟩
      rw [if_pos (Nat.compare_eq_eq.mpr hnumber)]
  · obtain ⟨i, hi⟩ := List.mem_iff_getElem?.mp hother
    exact absurd hlogging (hquiet i other s h hi)
  · exact absurd hlogging (hquiet i first s h hfirst)
  · cases hreported
    refine ⟨⟨hash, call.now⟩, _, ?_, rfl, hsnap, ?_, rfl⟩
    · rw [StateDb.lastSeq_restore (by omega), StateDb.snapshotLog_snapshotLogRestore]
      simp
    · rw [StateDb.lastSeq_restore (by omega)]
      exact hsequence

theorem Sound.advance
    (hverify : ∀ message, verify identity.publicKey message (identity.sign message) = true)
    {free : Option Nat} (hundisturbed : Undisturbed host identity world (.advance mint free)) :
    Sound host verify identity (world.advance host identity mint free) := by
  unfold MintWorld.advance
  split
  · exact hsound
  rename_i call hcall
  split
  · exact hsound
  rename_i hopen
  rcases @step_spec host verify identity.publicKey identity world.store call world.cache free
      world.state hopen with ⟨hidle, hstate, hown, hafter, hfailed⟩ |
      ⟨sequence, bytes, hstage, hencode, hlength, hstep⟩ | ⟨sequence, hash, hstage, hstep⟩
  · refine hsound.frame ?_ hown (fun i other s h hstage => ?_) ?_
    · change (call.step host identity world.cache free world.state world.store).1.snapshotLog = _
      rw [hstate]
    · exact logging_set_iff hcall hidle hafter hstage
    · change world.reportedAfter _ = world.reported
      unfold MintWorld.reportedAfter
      split
      · rename_i report hfinished
        exact absurd hfinished (hfailed report)
      · rfl
  · obtain ⟨hnext, hquiet, hfree⟩ := hundisturbed call hcall sequence hstage
    rw [hstep]
    exact hsound.publish hverify hcall hencode hlength hnext hquiet (hfree bytes hencode)
  · rw [hstep]
    exact hsound.log hcall hstage

end

theorem Sound.next (hsound : Sound host verify identity world)
    (hverify : ∀ message, verify identity.publicKey message (identity.sign message) = true)
    {move : MintMove} (hundisturbed : Undisturbed host identity world move) :
    Sound host verify identity (world.next host identity move) := by
  cases move with
  | start now =>
    refine hsound.frame rfl (fun _ _ => Iff.rfl) (fun i call s h hstage => ?_) rfl
    change (world.mints ++ [_])[i]? = some call ↔ _
    rw [List.getElem?_append]
    split
    · exact Iff.rfl
    · rename_i hlength
      rw [List.getElem?_eq_none (by omega : world.mints.length ≤ i)]
      refine ⟨fun hnew => ?_, nofun⟩
      rw [List.mem_singleton.mp (List.mem_of_getElem? hnew)] at hstage
      cases hstage
  | advance mint free => exact hsound.advance hverify hundisturbed
  | crash mint =>
    simp only [MintWorld.next, MintWorld.crash]
    split
    · exact hsound
    · rename_i call hcall
      exact hsound.frame rfl (fun _ _ => Iff.rfl) (fun i other s h hstage =>
        logging_set_iff hcall (hundisturbed call hcall) (idle_fail call _).1 hstage) rfl
  | setTag | deleteTag | configSet | cacheChanges =>
    exact hsound.frame rfl (fun _ _ => Iff.rfl) (fun _ _ _ _ _ => Iff.rfl) rfl

/-- In every undisturbed run from a new installation no two snapshots of the identity carry one
sequence, and whenever no mint stands between its publish and its append, recovery selects the
triple of the last mint that reported success, in whatever order the store lists its objects. -/
theorem snapshots_unambiguous
    (hverify : ∀ message, verify identity.publicKey message (identity.sign message) = true)
    (hfresh : Fresh host verify identity world) (moves : List MintMove)
    (hundisturbed : Runs.Along (MintWorld.next host identity) (Undisturbed host identity) world
      moves) :
    (∀ a b snapA snapB,
      OwnSnapshot host verify identity.publicKey
        (Runs.run (MintWorld.next host identity) world moves).store a snapA →
      OwnSnapshot host verify identity.publicKey
        (Runs.run (MintWorld.next host identity) world moves).store b snapB →
      snapA.payload.sequence = snapB.payload.sequence → a = b ∧ snapA = snapB) ∧
    ((∀ call ∈ (Runs.run (MintWorld.next host identity) world moves).mints,
        ∀ sequence hash, call.stage ≠ .logging sequence hash) →
      ∀ listing, ListsMeta (Runs.run (MintWorld.next host identity) world moves).store listing →
        (selectSnapshot verify identity.publicKey (snapshotCandidates host
          (Runs.run (MintWorld.next host identity) world moves).store listing)).map
            (fun entry => recordedTriple entry.2) =
          (Runs.run (MintWorld.next host identity) world moves).reported.map Prod.snd) := by
  have hsound : Sound host verify identity (Runs.run (MintWorld.next host identity) world moves) :=
    hundisturbed.invariant (fun _ _ hsound hmeets => hsound.next hverify hmeets) hfresh.sound
  refine ⟨fun a b snapA snapB ha hb hsequence => ?_, fun hquiet listing hlisting =>
    hsound.selected hquiet hlisting⟩
  obtain rfl := hsound.unique ha hb hsequence
  exact ⟨rfl, ha.unique hb⟩

/-! ## A mint without rows -/

theorem advance_of_step {free : Option Nat} {call : MintCall} {state' : StateDb} {store' : Store}
    (hcall : world.mints[mint]? = some call) (hopen : ∀ result, call.stage ≠ .finished result)
    (hstep : call.step host identity world.cache free world.state world.store =
      (state', store', call')) :
    world.next host identity (.advance mint free) =
      { world with
        state := state', store := store'
        mints := world.mints.set mint call'
        reported := world.reportedAfter call' } := by
  change world.advance host identity mint free = _
  unfold MintWorld.advance
  split
  · rename_i hnone
    rw [hcall] at hnone
    cases hnone
  rename_i found hfound
  rw [hcall, Option.some.injEq] at hfound
  subst hfound
  split
  · rename_i result hfinished
    exact absurd hfinished (hopen result)
  · rw [hstep]

/-- What a mint leaves alone until it publishes: everything but its own call, and the store
outside the address of the empty batch. -/
structure Reaches (empty : Blake3) (mint : Nat) (world : MintWorld) (call : MintCall)
    (world' : MintWorld) : Prop where
  state : world'.state = world.state
  cache : world'.cache = world.cache
  reported : world'.reported = world.reported
  mints : world'.mints = world.mints.set mint call
  store : ∀ hash, hash ≠ empty → world'.store.get .metadata hash = world.store.get .metadata hash

theorem Reaches.trans {call : MintCall} {world'' : MintWorld}
    (hfirst : Reaches empty mint world call world')
    (hsecond : Reaches empty mint world' call' world'') :
    Reaches empty mint world call' world'' where
  state := hsecond.state.trans hfirst.state
  cache := hsecond.cache.trans hfirst.cache
  reported := hsecond.reported.trans hfirst.reported
  mints := by rw [hsecond.mints, hfirst.mints, List.set_set]
  store hash hne := (hsecond.store hash hne).trans (hfirst.store hash hne)

theorem Reaches.getElem? {call : MintCall} (hreaches : Reaches empty mint world call' world')
    (hcall : world.mints[mint]? = some call) : world'.mints[mint]? = some call' := by
  rw [hreaches.mints, List.getElem?_set_self (List.getElem?_eq_some_iff.mp hcall).1]

/-- A run of one mint under the condition that it is not disturbed. -/
def Walks (host : Host) (identity : Identity) (empty : Blake3) (mint steps : Nat)
    (world : MintWorld) (call : MintCall) : Prop :=
  Runs.Along (MintWorld.next host identity) (Undisturbed host identity) world
      (List.replicate steps (.advance mint none)) ∧
    Reaches empty mint world call
      (Runs.run (MintWorld.next host identity) world (List.replicate steps (.advance mint none)))

theorem Walks.trans {first second : Nat} {call : MintCall}
    (hfirst : Walks host identity empty mint first world call)
    (hsecond : Walks host identity empty mint second
      (Runs.run (MintWorld.next host identity) world
        (List.replicate first (.advance mint none))) call') :
    Walks host identity empty mint (first + second) world call' := by
  unfold Walks
  rw [List.replicate_add, Runs.along_append, Runs.run_append]
  exact ⟨⟨hfirst.1, hsecond.1⟩, hfirst.2.trans hsecond.2⟩

/-- A step that touches neither the log nor the snapshots. -/
theorem walks_one {call : MintCall} {store' : Store} (hcall : world.mints[mint]? = some call)
    (hopen : ∀ result, call.stage ≠ .finished result)
    (hunpublished : ∀ sequence, call.stage ≠ .publishing sequence)
    (hstep : call.step host identity world.cache none world.state world.store =
      (world.state, store', call')) (hstore : ∀ hash, hash ≠ empty →
      store'.get .metadata hash = world.store.get .metadata hash)
    (hafter : ∀ report, call'.stage ≠ .finished (.ok report)) :
    Walks host identity empty mint 1 world call' := by
  have hreported : world.reportedAfter call' = world.reported := by
    unfold MintWorld.reportedAfter
    split
    · rename_i report hfinished
      exact absurd hfinished (hafter report)
    · rfl
  refine ⟨⟨fun found hfound sequence hstage => ?_, trivial⟩, ?_⟩
  · rw [hcall] at hfound
    cases hfound
    exact absurd hstage (hunpublished sequence)
  · change Reaches empty mint world call' (world.next host identity (.advance mint none))
    rw [advance_of_step hcall hopen hstep]
    exact ⟨rfl, rfl, hreported, rfl, hstore⟩

/-- The encoding of a batch without rows. -/
def emptyBatch : Bytes := aliasesHeader ++ (Cbor.Value.map [(batchkeyRows, .array [])]).encoded

theorem encode_emptyBatch : AliasBatch.encode ⟨[]⟩ = .ok emptyBatch := by decide +kernel

theorem walks_batches {call : MintCall} (steps : Nat) (hcall : world.mints[mint]? = some call)
    (hstage : call.stage = .aliasBatches) (hrows : call.aliasTuples = [])
    (hsteps : call.aliasBatches.length + steps ≤ aliasFanout) :
    ∃ new, Walks host identity (host.blake3 emptyBatch) mint steps world
      { call with
        aliasBatches := call.aliasBatches ++ List.replicate steps (host.blake3 emptyBatch)
        newBatchBlobs := new } := by
  induction steps generalizing world call with
  | zero =>
    refine ⟨call.newBatchBlobs, trivial, rfl, rfl, rfl, ?_, fun _ _ => rfl⟩
    simp only [List.replicate_zero, List.append_nil, Runs.run_nil]
    obtain ⟨hlength, rfl⟩ := List.getElem?_eq_some_iff.mp hcall
    exact (List.set_getElem_self hlength).symm
  | succ steps ih =>
    have hbatch : call.aliasBatch = ⟨[]⟩ := by rw [MintCall.aliasBatch, hrows, List.filter_nil]
    obtain ⟨store', new, hstore, hstep⟩ : ∃ store' new,
        (∀ hash, hash ≠ host.blake3 emptyBatch →
          store'.get .metadata hash = world.store.get .metadata hash) ∧
        call.step host identity world.cache none world.state world.store =
          (world.state, store',
            { call with
              aliasBatches := call.aliasBatches ++ [host.blake3 emptyBatch]
              newBatchBlobs := new }) := by
      refine ⟨(putMeta host world.store emptyBatch).2.2,
        call.newBatchBlobs +
          if (putMeta host world.store emptyBatch).2.1 = .stored then 1 else 0,
        fun hash hne => ?_, ?_⟩
      · rw [get_putMeta, if_neg hne]
      · have hput : call.step host identity world.cache none world.state world.store =
            (world.state,
              call.putBatch host world.store (.ok emptyBatch) MintCall.pushAlias) := by
          rw [MintCall.step, hstage]
          dsimp only
          rw [if_pos (by omega), hbatch, encode_emptyBatch]
        exact hput
    have hone := walks_one hcall (by simp [hstage]) (by simp [hstage]) hstep hstore
      (by simp [hstage])
    obtain ⟨new', hrest⟩ := ih (hone.2.getElem? hcall) hstage hrows (by
      rw [List.length_append, List.length_singleton]
      omega)
    refine ⟨new', ?_⟩
    have hwalk := hone.trans hrest
    rw [Nat.add_comm] at hwalk
    rw [List.replicate_succ, List.append_cons]
    exact hwalk

/-- A mint that has stored its empty batches. -/
def preparedCall (host : Host) (now : Int) (triple : AuthoritativeTriple) (new : Nat)
    (stage : MintStage) : MintCall :=
  { now, triple
    aliasBatches := List.replicate aliasFanout (host.blake3 emptyBatch)
    newBatchBlobs := new
    stage }

@[simp] theorem stage_preparedCall (now : Int) (triple : AuthoritativeTriple) (new : Nat)
    (stage : MintStage) : (preparedCall host now triple new stage).stage = stage := rfl

/-- The steps of a mint without rows, up to its publish. -/
def preparing : Nat := 1 + aliasFanout + 1 + 1

theorem walks_preparing {mint sequence : Nat} {now : Int} {triple : AuthoritativeTriple}
    (hcall : world.mints[mint]? = some { now, triple }) (hcache : world.cache = {})
    (hnext : world.state.nextSnapshotSeq = some sequence) :
    ∃ new, Walks host identity (host.blake3 emptyBatch) mint preparing world
      (preparedCall host now triple new (.publishing sequence)) := by
  have hread : Walks host identity (host.blake3 emptyBatch) mint 1 world
      { now, triple, stage := .aliasBatches } := by
    refine walks_one hcall nofun nofun ?_ (fun _ _ => rfl) nofun
    rw [hcache]
    rfl
  obtain ⟨new, hbatches⟩ := walks_batches aliasFanout (hread.2.getElem? hcall) rfl rfl (by simp)
  have hfilled : Walks host identity (host.blake3 emptyBatch) mint (1 + aliasFanout) world
      (preparedCall host now triple new .aliasBatches) := hread.trans hbatches
  have hanalysis : Walks host identity (host.blake3 emptyBatch) mint 1
      (Runs.run (MintWorld.next host identity) world
        (List.replicate (1 + aliasFanout) (.advance mint none)))
      (preparedCall host now triple new .numbering) := by
    refine walks_one (hfilled.2.getElem? hcall) nofun nofun ?_ (fun _ _ => rfl) nofun
    rw [hfilled.2.cache, hcache, MintCall.step]
    simp only [preparedCall, List.length_replicate, lt_irrefl, if_false, if_true, hfilled.2.state]
  have hnumbered : Walks host identity (host.blake3 emptyBatch) mint 1
      (Runs.run (MintWorld.next host identity) world
        (List.replicate (1 + aliasFanout + 1) (.advance mint none)))
      (preparedCall host now triple new (.publishing sequence)) := by
    refine walks_one ((hfilled.trans hanalysis).2.getElem? hcall) nofun nofun ?_ (fun _ _ => rfl)
      nofun
    rw [(hfilled.trans hanalysis).2.state]
    simp only [MintCall.step, preparedCall, hnext]
  exact ⟨new, (hfilled.trans hanalysis).trans hnumbered⟩

/-- Names a snapshot by the number of its configuration rows. -/
def configHost : Host :=
  { Host.sample with
    blake3 := fun bytes =>
      match StateSnapshot.decode checksumVerify bytes with
      | .ok snap => BitVec.ofNat 256 (snap.payload.config.length + 1)
      | .error _ => 0 }

theorem checksumVerify_sign (message : Bytes) :
    checksumVerify checksumIdentity.publicKey message (checksumIdentity.sign message) = true :=
  decide_eq_true rfl

theorem fresh_empty : Fresh configHost checksumVerify checksumIdentity {} :=
  ⟨rfl, rfl, rfl, fun _ _ hsnap => by obtain ⟨bytes, hget, -⟩ := hsnap; cases hget⟩

theorem blake3_emptyBatch : configHost.blake3 emptyBatch = 0 := by decide +kernel

/-- The triple with this configuration only. -/
def configTriple (config : List (String × Bytes)) : AuthoritativeTriple := ⟨[], [], config⟩

/-- What a mint of that triple signs under the first number. -/
def configPayload (config : List (String × Bytes)) : SnapshotPayload :=
  (preparedCall configHost 5 (configTriple config) 0 .numbering).payload 1

theorem length_encoded_configPayload {config : List (String × Bytes)}
    (hconfig : config ∈ [[], [("a", [1])]]) :
    (payloadToValue
      { sequence := 1, createdAt := 5, sources := [], aliasFanout
        aliasBatches := List.replicate aliasFanout 0, analysisFanout := 0
        analysisBatches := [], tags := [], config }).encoded.length ≤ 2 ^ 16 := by
  simp only [payloadToValue, Cbor.Value.encoded, List.map_replicate, List.cons_append,
    List.nil_append, Cbor.Value.encodedEntries, List.length_append, List.length_replicate,
    Cbor.Value.length_encodedItems_replicate]
  revert config
  decide +kernel

theorem encode_configPayload {config : List (String × Bytes)}
    (hconfig : config ∈ [[], [("a", [1])]]) :
    ∃ bytes, (configPayload config).encodeSigned checksumIdentity = .ok bytes ∧
      bytes.length < 2 ^ 63 := by
  have hpayload : configPayload config =
      { sequence := 1, createdAt := 5, sources := [], aliasFanout
        aliasBatches := List.replicate aliasFanout 0, analysisFanout := 0
        analysisBatches := [], tags := [], config } := by
    simp only [configPayload, preparedCall, MintCall.payload, blake3_emptyBatch]
    rfl
  have hvalidate : (configPayload config).validate = .ok () := by
    rw [hpayload]
    revert config
    decide +kernel
  have hlength : (payloadToValue (configPayload config)).encoded.length ≤ 2 ^ 16 :=
    hpayload ▸ length_encoded_configPayload hconfig
  refine ⟨_, SnapshotPayload.encodeSigned_eq_ok checksumIdentity hvalidate, ?_⟩
  have henvelope := length_encoded_envelope (payloadToValue (configPayload config)).encoded
    checksumIdentity.publicKey
    (checksumIdentity.sign (statesnapHeader ++ (payloadToValue (configPayload config)).encoded))
  have hheader : statesnapHeader.length < 2 ^ 16 := by decide
  rw [List.length_append]
  omega

theorem advance_publish {free : Option Nat} {call : MintCall}
    (hcall : world.mints[mint]? = some call) (hstage : call.stage = .publishing sequence)
    (hencode : (call.payload sequence).encodeSigned identity = .ok bytes)
    (hlength : bytes.length < 2 ^ 63) :
    world.next host identity (.advance mint free) =
      { world with
        store := (putMeta host world.store bytes).2.2
        mints := world.mints.set mint
          { call with stage := .logging sequence (host.blake3 bytes) } } := by
  refine (advance_of_step hcall (by simp [hstage]) (?_ : _ = (world.state,
    (putMeta host world.store bytes).2.2,
    { call with stage := .logging sequence (host.blake3 bytes) }))).trans rfl
  rw [MintCall.step, hstage]
  dsimp only [MintCall.publish]
  rw [hencode]
  dsimp only
  rw [if_neg (by omega)]
  rfl

/-- A mint that nobody disturbs and that has only configuration to record. -/
def configMint (mint : Nat) : List MintMove :=
  .start 5 :: List.replicate (preparing + 1) (.advance mint none)

/-- The address of such a mint's snapshot. -/
def configHash (config : List (String × Bytes)) : Blake3 := BitVec.ofNat 256 (config.length + 1)

/-- A mint has come to its append: its snapshot is stored, and all else is as it was. -/
structure Published (config : List (String × Bytes)) (world world' : MintWorld) : Prop where
  state : world'.state = world.state
  cache : world'.cache = world.cache
  mints : ∃ call, world'.mints = world.mints ++ [call] ∧
    call.stage = .logging 1 (configHash config)
  own : OwnSnapshot configHost checksumVerify checksumIdentity.publicKey world'.store
    (configHash config) ⟨configPayload config, checksumIdentity.publicKey⟩
  store : ∀ hash, hash ≠ 0 → hash ≠ configHash config →
    world'.store.get .metadata hash = world.store.get .metadata hash

/-- The mint publishes its snapshot, if the log's next number is the first and the address is
free, and nobody disturbs it if no other mint is about to log. -/
theorem configMint_publishes {config : List (String × Bytes)}
    (hconfig : config ∈ [[], [("a", [1])]]) (hcache : world.cache = {})
    (htriple : authoritativeTriple world.cache world.state = configTriple config)
    (hnext : world.state.nextSnapshotSeq = some 1)
    (hquiet : ∀ call ∈ world.mints, ∀ s h, call.stage ≠ .logging s h)
    (hfree : world.store.get .metadata (configHash config) = none) :
    Runs.Along (MintWorld.next configHost checksumIdentity)
        (Undisturbed configHost checksumIdentity) world (configMint world.mints.length) ∧
      Published config world
        (Runs.run (MintWorld.next configHost checksumIdentity) world
          (configMint world.mints.length)) := by
  obtain ⟨bytes, hencode, hlength⟩ := encode_configPayload hconfig
  have hdecode : StateSnapshot.decode checksumVerify bytes =
      .ok ⟨configPayload config, checksumIdentity.publicKey⟩ :=
    @decode_published checksumVerify checksumIdentity bytes
      (preparedCall configHost 5 (configTriple config) 0 .numbering) 1 checksumVerify_sign hencode
      hlength
  have hname : configHost.blake3 bytes = configHash config := by
    simp only [configHost, hdecode]
    rfl
  have hne : ∀ config ∈ [[], [("a", [1])]], configHash config ≠ 0 := by decide
  obtain ⟨started, hstarted⟩ : ∃ started,
      started = world.next configHost checksumIdentity (.start 5) := ⟨_, rfl⟩
  have hmints : started.mints = world.mints ++ [{ now := 5, triple := configTriple config }] := by
    rw [hstarted, ← htriple]
    rfl
  have hcall : started.mints[world.mints.length]? =
      some { now := 5, triple := configTriple config } := by
    rw [hmints]
    exact List.getElem?_concat_length
  obtain ⟨new, halong, hreaches⟩ := @walks_preparing configHost checksumIdentity started
    world.mints.length 1 5 (configTriple config) hcall (hstarted ▸ hcache) (hstarted ▸ hnext)
  unfold configMint
  rw [List.replicate_add, Runs.along_cons, Runs.along_append, Runs.run_cons, Runs.run_append,
    ← hstarted, List.replicate_one, Runs.run_cons, Runs.run_nil]
  generalize Runs.run (MintWorld.next configHost checksumIdentity) started
    (List.replicate preparing (.advance world.mints.length none)) = prepared at hreaches ⊢
  rw [blake3_emptyBatch] at hreaches
  have hprepared := hreaches.getElem? hcall
  have hfree' : prepared.store.get .metadata (configHash config) = none := by
    rw [hreaches.store _ (hne config hconfig), hstarted]
    exact hfree
  refine ⟨⟨trivial, halong, fun call hfound sequence hstage => ?_, trivial⟩, ?_⟩
  · rw [hprepared, Option.mem_some] at hfound
    subst hfound
    cases hstage
    refine ⟨?_, fun other hother s h hlogging => ?_, fun bytes' hencode' old hold => ?_⟩
    · rw [hreaches.state, hstarted]
      exact hnext
    · rw [hreaches.mints, hmints] at hother
      rcases List.mem_or_eq_of_mem_set hother with hmem | hself
      · rcases List.mem_append.mp hmem with hold | hnew
        · exact hquiet other hold s h hlogging
        · rw [List.mem_singleton.mp hnew] at hlogging
          cases hlogging
      · rw [hself, stage_preparedCall] at hlogging
        cases hlogging
    · have hsame : bytes' = bytes := Except.ok.inj (hencode'.symm.trans hencode)
      rw [hsame, hname, hfree'] at hold
      cases hold
  · rw [advance_publish hprepared rfl hencode hlength]
    refine ⟨?_, ?_, ⟨preparedCall configHost 5 (configTriple config) new
      (.logging 1 (configHost.blake3 bytes)), ?_, ?_⟩, ?_, fun hash hzero hother => ?_⟩
    · exact hreaches.state.trans (hstarted ▸ rfl)
    · exact hreaches.cache.trans (hstarted ▸ rfl)
    · rw [hreaches.mints, hmints, List.set_set, List.set_append_right _ _ le_rfl, Nat.sub_self]
      rfl
    · exact congrArg (MintStage.logging 1) hname
    · refine ⟨bytes, ?_, hname, hdecode, rfl⟩
      rw [get_putMeta, if_pos hname.symm, hfree', Option.getD_none]
    · rw [get_putMeta, if_neg (hname ▸ hother), hreaches.store hash hzero, hstarted]
      rfl

theorem published_first :
    Runs.Along (MintWorld.next configHost checksumIdentity)
        (Undisturbed configHost checksumIdentity) {} (configMint 0) ∧
      Published [] {} (Runs.run (MintWorld.next configHost checksumIdentity) {} (configMint 0)) :=
  @configMint_publishes {} [] (by decide) rfl (by decide) (by decide) nofun rfl

/-- One mint that runs to its end from a new installation. -/
theorem snapshots_unambiguous_oneMint :
    (∀ a b snapA snapB,
      OwnSnapshot configHost checksumVerify checksumIdentity.publicKey
        (Runs.run (MintWorld.next configHost checksumIdentity) {}
          (configMint 0 ++ [.advance 0 none])).store a snapA →
      OwnSnapshot configHost checksumVerify checksumIdentity.publicKey
        (Runs.run (MintWorld.next configHost checksumIdentity) {}
          (configMint 0 ++ [.advance 0 none])).store b snapB →
      snapA.payload.sequence = snapB.payload.sequence → a = b ∧ snapA = snapB) ∧
    ((∀ call ∈ (Runs.run (MintWorld.next configHost checksumIdentity) {}
          (configMint 0 ++ [.advance 0 none])).mints,
        ∀ sequence hash, call.stage ≠ .logging sequence hash) →
      ∀ listing,
        ListsMeta (Runs.run (MintWorld.next configHost checksumIdentity) {}
          (configMint 0 ++ [.advance 0 none])).store listing →
        (selectSnapshot checksumVerify checksumIdentity.publicKey (snapshotCandidates configHost
          (Runs.run (MintWorld.next configHost checksumIdentity) {}
            (configMint 0 ++ [.advance 0 none])).store listing)).map
            (fun entry => recordedTriple entry.2) =
          (Runs.run (MintWorld.next configHost checksumIdentity) {}
            (configMint 0 ++ [.advance 0 none])).reported.map Prod.snd) := by
  refine snapshots_unambiguous checksumVerify_sign fresh_empty _ ?_
  refine Runs.along_append.mpr ⟨published_first.1, fun call hcall sequence hstage => ?_, trivial⟩
  obtain ⟨logging, hmints, hlogging⟩ := published_first.2.mints
  rw [hmints] at hcall
  cases hcall
  rw [hlogging] at hstage
  cases hstage

/-- A mint dies between its publish and its append, and the next one signs the same sequence
with another configuration. -/
def crashedMint : List MintMove :=
  configMint 0 ++ ([.crash 0, .configSet "a" [1]] ++ configMint 1)

theorem run_crash_configSet (mint : Nat) (key : String) (value : Bytes) :
    Runs.run (MintWorld.next host identity) world [.crash mint, .configSet key value] =
      { world.crash mint with state := (world.crash mint).state.configSet key value } := rfl

/-- A mint that dies before it logs what it published leaves the log as it was. -/
theorem published_crash {first : MintWorld} (hfirst : Published [] {} first) :
    ∃ call : MintCall, (∀ s h, call.stage ≠ .logging s h) ∧
      Runs.run (MintWorld.next configHost checksumIdentity) first
          [.crash 0, .configSet "a" [1]] =
        { first with state := ({} : StateDb).configSet "a" [1], mints := [call] } := by
  obtain ⟨logging, hmints, -⟩ := hfirst.mints
  have hcrash : first.crash 0 = { first with mints := [logging.fail .crashed] } := by
    rw [MintWorld.crash, hmints]
    rfl
  refine ⟨logging.fail .crashed, (idle_fail _ _).1, ?_⟩
  have hstate : first.state = {} := hfirst.state
  rw [run_crash_configSet, hcrash]
  dsimp only
  rw [hstate]

/-- The next mint signs the same sequence with its own configuration. -/
theorem published_again {first : MintWorld} (hfirst : Published [] {} first) :
    Published [("a", [1])]
      (Runs.run (MintWorld.next configHost checksumIdentity) first [.crash 0, .configSet "a" [1]])
      (Runs.run (MintWorld.next configHost checksumIdentity)
        (Runs.run (MintWorld.next configHost checksumIdentity) first
          [.crash 0, .configSet "a" [1]]) (configMint 1)) := by
  obtain ⟨call, hidle, hrun⟩ := published_crash hfirst
  have hcache : first.cache = {} := hfirst.cache
  have hnext : (({} : StateDb).configSet "a" [1]).nextSnapshotSeq = some 1 := by decide
  have htriple : authoritativeTriple {} (({} : StateDb).configSet "a" [1]) =
      configTriple [("a", [1])] := by decide
  have hfree := hfirst.store (configHash [("a", [1])]) (by decide) (by decide)
  rw [hrun]
  refine (@configMint_publishes
    { first with state := ({} : StateDb).configSet "a" [1], mints := [call] } [("a", [1])]
    (by decide) hcache ?_ hnext (fun other hother => ?_) hfree).2
  · dsimp only
    rw [hcache, htriple]
  · rw [List.mem_singleton.mp hother]
    exact hidle

theorem configHash_ne : configHash [] ≠ 0 ∧ configHash [] ≠ configHash [("a", [1])] := by
  decide

/-- The snapshot of the dead mint is still there. -/
theorem published_kept {first second : MintWorld} (hfirst : Published [] {} first)
    (hsecond : Published [("a", [1])]
      (Runs.run (MintWorld.next configHost checksumIdentity) first [.crash 0, .configSet "a" [1]])
      second) :
    OwnSnapshot configHost checksumVerify checksumIdentity.publicKey second.store (configHash [])
      ⟨configPayload [], checksumIdentity.publicKey⟩ := by
  obtain ⟨call, -, hrun⟩ := published_crash hfirst
  obtain ⟨bytes, hget, hname, hdecode, hkey⟩ := hfirst.own
  refine ⟨bytes, ?_, hname, hdecode, hkey⟩
  rw [hsecond.store (configHash []) configHash_ne.1 configHash_ne.2, hrun]
  exact hget

theorem sequence_configPayload (config : List (String × Bytes)) :
    (configPayload config).sequence = 1 := rfl

/-- Two snapshots of one identity carry the sequence 1. -/
theorem crashedMint_repeats_sequence :
    ∃ a b snapA snapB, a ≠ b ∧
      OwnSnapshot configHost checksumVerify checksumIdentity.publicKey
        (Runs.run (MintWorld.next configHost checksumIdentity) {} crashedMint).store a snapA ∧
      OwnSnapshot configHost checksumVerify checksumIdentity.publicKey
        (Runs.run (MintWorld.next configHost checksumIdentity) {} crashedMint).store b snapB ∧
      snapA.payload.sequence = snapB.payload.sequence := by
  have hfirst := published_first.2
  unfold crashedMint
  rw [Runs.run_append, Runs.run_append]
  generalize Runs.run (MintWorld.next configHost checksumIdentity) {} (configMint 0) = first
    at hfirst ⊢
  have hsecond := published_again hfirst
  refine ⟨configHash [], configHash [("a", [1])], ⟨configPayload [], checksumIdentity.publicKey⟩,
    ⟨configPayload [("a", [1])], checksumIdentity.publicKey⟩, configHash_ne.2,
    published_kept hfirst hsecond, hsecond.own, ?_⟩
  rw [sequence_configPayload, sequence_configPayload]

end Statesnap

end Datboi
