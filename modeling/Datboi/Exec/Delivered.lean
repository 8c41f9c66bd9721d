import Datboi.Exec.ReplayEffects

/-!
# What a successful execution has delivered

A consumer accepts a stream only when it is exactly the claimed blob, so a recipe
whose execution succeeds has produced every one of its claimed outputs in full.
-/

namespace Datboi

/-- The stream is exactly the claimed blob. -/
def Host.Delivers (host : Host) (claim : Blake3 × Nat) (reader : ByteStream) : Prop :=
  reader.failure = none ∧ reader.items.length = claim.2 ∧ host.blake3 reader.items = claim.1

instance (host : Host) (claim : Blake3 × Nat) (reader : ByteStream) :
    Decidable (host.Delivers claim reader) :=
  inferInstanceAs (Decidable (_ ∧ _ ∧ _))

/-- A consumer that accepts nothing but the claimed blob. -/
def Consumer.Verifies {τ : Type} (consumer : Consumer τ) (host : Host) : Prop :=
  ∀ hash size reader store outcome store',
    consumer.consume hash size reader store = (.ok outcome, store') →
    host.Delivers (hash, size) reader

/-- A consumer that takes all of a claimed blob, and accepts it. -/
structure Consumer.Accepts {τ : Type} (consumer : Consumer τ) (host : Host) : Prop where
  patient : ∀ size n, consumer.appetite size = some n → size ≤ n
  accepts : ∀ hash size reader store, host.Delivers (hash, size) reader →
    ∃ outcome store', consumer.consume hash size reader store = (.ok outcome, store')

/-- A verified put has read exactly the claimed blob. -/
theorem Store.delivers_of_putWithObao {store store' : Store} {host : Host} {ns : Namespace}
    {hash : Blake3} {len : Nat} {reader : ByteStream} {outcome : PutOutcome}
    (hput : store.putWithObao host ns hash len reader = .ok (outcome, store')) :
    host.Delivers (hash, len) reader := by
  unfold putWithObao Obao.compute at hput
  by_cases hlen : len ≤ reader.items.length
  · simp only [if_pos hlen] at hput
    by_cases htrailing : len < reader.items.length
    · simp [htrailing] at hput
    · have hexact : reader.items.length = len := by omega
      cases hfailure : reader.failure with
      | some e => simp [htrailing, hfailure] at hput
      | none =>
        refine ⟨hfailure, hexact, ?_⟩
        have htake : reader.items.take len = reader.items := by
          rw [← hexact, List.take_length]
        by_contra hroot
        simp [htrailing, hfailure, htake, hroot] at hput
  · simp [if_neg hlen] at hput

/-- The claimed blob is always put. -/
theorem Store.putWithObao_of_delivers (store : Store) (ns : Namespace) {host : Host}
    {hash : Blake3} {len : Nat} {reader : ByteStream} (hdelivers : host.Delivers (hash, len) reader) :
    ∃ outcome store', store.putWithObao host ns hash len reader = .ok (outcome, store') := by
  obtain ⟨hclean, hlen, hhash⟩ := hdelivers
  simp only at hlen hhash
  have htake : reader.items.take len = reader.items := by
    rw [← hlen, List.take_length]
  simp [putWithObao, Obao.compute, hlen, htake, hclean, hhash]

namespace Executor

variable {exec : Executor} {τ : Type} {consumer : Consumer τ} {race : PipeRace}

theorem storeConsumer_verifies : exec.storeConsumer.Verifies exec.host := by
  intro hash size reader store outcome store' hconsume
  simp only [storeConsumer] at hconsume
  split at hconsume
  · rename_i hput
    exact Store.delivers_of_putWithObao hput
  · simp at hconsume

theorem verifyConsumer_verifies : exec.verifyConsumer.Verifies exec.host := by
  intro hash size reader store outcome store' hconsume
  simp only [verifyConsumer, verifyStream, Prod.mk.injEq] at hconsume
  cases hfailure : reader.failure with
  | some e => simp [hfailure] at hconsume
  | none =>
    by_cases hmatch : exec.host.blake3 reader.items ≠ hash ∨ reader.items.length ≠ size
    · simp [hfailure, hmatch] at hconsume
    · push Not at hmatch
      exact ⟨hfailure, hmatch.2, hmatch.1⟩

theorem storeConsumer_accepts : exec.storeConsumer.Accepts exec.host where
  patient size n happetite := by
    cases happetite
    omega
  accepts hash size reader store hdelivers := by
    obtain ⟨outcome, store', hput⟩ := store.putWithObao_of_delivers .data hdelivers
    exact ⟨outcome, store', by simp [storeConsumer, hput]⟩

theorem verifyConsumer_accepts : exec.verifyConsumer.Accepts exec.host where
  patient size n happetite := by cases happetite
  accepts hash size reader store := by
    rintro ⟨hclean, hlen, hhash⟩
    simp only at hlen hhash
    exact ⟨(), store, by simp [verifyConsumer, verifyStream, hclean, hlen, hhash]⟩

/-! ## Streams of a node -/

theorem length_runGuest (program : Except RuntimeError (Guest.Program UInt8))
    (inputs : List (Guest.Input IoError UInt8)) (sinks : List (Guest.Sink UInt8)) :
    (runGuest program inputs sinks).2.length = sinks.length := by
  unfold runGuest
  split
  · exact List.length_map _
  · simp only [List.length_map, Guest.Program.length_sinks_run]

variable {children : List Opened} {result : Except RuntimeError Unit}

theorem length_runTransformNode {compiled : Bytes} {op : String} {params : Bytes}
    {randomAccessInputs : List Nat} {outputs : List (Blake3 × Nat)}
    {sinks : List (Guest.Sink UInt8)} {written : List Bytes}
    (hrun : exec.runTransformNode compiled op params randomAccessInputs outputs children sinks =
      .ok (result, written)) : written.length = sinks.length := by
  obtain ⟨inputs, _, hguest⟩ := Moves.except_bind_eq_ok.mp hrun
  have hlength := length_runGuest (exec.host.runTransform compiled op params
    (fuelBudget (children.map Opened.len) outputs)) inputs sinks
  rwa [Except.ok.inj hguest] at hlength

theorem length_runExtractorNode {compiled : Bytes} {memberIx : Nat}
    {outputs : List (Blake3 × Nat)} {sink : Guest.Sink UInt8} {written : List Bytes}
    (hrun : exec.runExtractorNode compiled memberIx outputs children sink = .ok (result, written)) :
    written.length = 1 := by
  obtain ⟨container, _, hguest⟩ := Moves.except_bind_eq_ok.mp hrun
  have hlength := length_runGuest (exec.host.runExtractor compiled memberIx
    (fuelBudget (children.map Opened.len) outputs)) [.randomAccess container] [sink]
  rwa [Except.ok.inj hguest] at hlength

/-- A builtin streams its single output. -/
theorem produceBuiltin_eq_ok {op : OpImpl} {outputs : List (Blake3 × Nat)}
    {streams : List ByteStream}
    (hproduce : exec.produceBuiltin op outputs children = .ok (result, streams)) :
    outputs.length = 1 ∧ ∃ reader, exec.openNodeSequential op 0 outputs children = .ok reader ∧
      result = .ok () ∧ streams = [reader] := by
  unfold produceBuiltin at hproduce
  split at hproduce
  · cases hproduce
  · rename_i hsingle
    obtain ⟨reader, hreader, hdone⟩ := Moves.except_bind_eq_ok.mp hproduce
    cases hdone
    exact ⟨by simpa using hsingle, reader, hreader, rfl, rfl⟩

/-- A node that runs has one stream for each claimed output. -/
theorem length_produce {op : OpImpl} {outputs : List (Blake3 × Nat)} {streams : List ByteStream}
    (hproduce : exec.produce consumer race op outputs children = .ok (result, streams)) :
    streams.length = outputs.length := by
  unfold produce at hproduce
  split at hproduce
  · obtain ⟨hsingle, _, _, _, rfl⟩ := produceBuiltin_eq_ok hproduce
    exact hsingle.symm
  · obtain ⟨hsingle, _, _, _, rfl⟩ := produceBuiltin_eq_ok hproduce
    exact hsingle.symm
  · split at hproduce
    · cases hproduce
    · rename_i hsingle
      rw [not_not] at hsingle
      obtain ⟨⟨_, written⟩, hrun, hdone⟩ := Moves.except_bind_eq_ok.mp hproduce
      cases hdone
      rw [List.length_map, length_runExtractorNode hrun, hsingle]
  · obtain ⟨⟨_, written⟩, hrun, hdone⟩ := Moves.except_bind_eq_ok.mp hproduce
    cases hdone
    rw [List.length_map, length_runTransformNode hrun, List.length_mapIdx]

/-! ## Whole executions -/

/-- Consumers that all accepted have seen exactly the claimed blobs. -/
theorem delivers_of_consumeAll (hverifies : consumer.Verifies exec.host)
    {outputs : List ((Blake3 × Nat) × ByteStream)} {store store' : Store}
    {results : List (Blake3 × τ)}
    (hconsume : consumeAll consumer outputs store = ((results, none), store')) :
    ∀ output ∈ outputs, exec.host.Delivers output.1 output.2 := by
  induction outputs generalizing store results with
  | nil => simp
  | cons output rest ih =>
    obtain ⟨⟨hash, size⟩, reader⟩ := output
    unfold consumeAll at hconsume
    split at hconsume
    · rename_i outcome next hone
      intro other hother
      rcases List.mem_cons.mp hother with rfl | hrest
      · exact hverifies _ _ _ _ _ _ hone
      · simp only [Prod.mk.injEq] at hconsume
        have hnext : consumeAll consumer rest next =
            (((consumeAll consumer rest next).1.1, none), store') :=
          Prod.ext (Prod.ext rfl hconsume.1.2) hconsume.2
        exact ih hnext other hrest
    · simp at hconsume

/-- The executions that succeed: the guest finished, and each claimed output's stream
is the claimed blob. -/
theorem executeWith_eq_ok (hverifies : consumer.Verifies exec.host) {recipe : Recipe}
    {site site' : Site} {results : List (Blake3 × τ)} {participants : List Nat}
    (hrun : exec.executeWith consumer race recipe site = .ok (results, participants) site') :
    ∃ op children site₁ streams,
      exec.prepare recipe site = .ok (op, children) site₁ ∧
      exec.produce consumer race op recipe.claims (exec.openPlans site₁.store children) =
        .ok (.ok (), streams) ∧
      List.Forall₂ exec.host.Delivers recipe.claims streams ∧
      participants = recipeIdsAll children := by
  unfold executeWith at hrun
  obtain ⟨⟨op, children⟩, site₁, hprepare, hexecute⟩ := Moves.bind_eq_ok hrun
  obtain ⟨_, site₂, hplanned, hdone⟩ := Moves.bind_eq_ok hexecute
  cases hdone
  simp only [executePlanned, executeNode] at hplanned
  split at hplanned
  · cases hplanned
  · rename_i result streams hproduce
    cases result with
    | error e => cases hplanned
    | ok _ =>
      refine ⟨op, children, site₁, streams, hprepare, hproduce, ?_, rfl⟩
      cases hconsume : consumeAll consumer (recipe.claims.zip streams) site₁.store with
      | mk outcome store =>
        obtain ⟨consumed, firstErr⟩ := outcome
        rw [hconsume] at hplanned
        cases firstErr with
        | some e => cases hplanned
        | none =>
          rw [List.forall₂_iff_zip]
          exact ⟨(length_produce hproduce).symm, fun hmem =>
            delivers_of_consumeAll hverifies hconsume _ hmem⟩

end Executor

end Datboi
