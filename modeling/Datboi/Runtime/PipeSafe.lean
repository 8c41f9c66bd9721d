import Datboi.Runtime.Pipe

/-!
# What a pipe's reader may conclude

Whatever the order of the two threads' steps, a reader has been given a prefix of what was
written; it is told that the stream has ended only when it has been given everything and the
producer has finished without failing; and a producer that failed is reported as its first
failure, with its kind, which no wrapping loses.
-/

namespace Datboi.Pipe

/-! ## The verdict -/

/-- The verdict that a list of recorded failures amounts to. -/
def verdictOf (failures : List (String × Bool)) (producing : Bool) : State where
  error := failures.head?.map Prod.fst
  deterministic := (failures.head?.map Prod.snd).getD false
  finished := !failures.isEmpty || !producing

/-- The error a failure is reported as. -/
def errorOf : String × Bool → IoError
  | (message, true) => .custom .invalidData (.deterministic message)
  | (message, false) => .custom .other (.text message)

theorem failWith_verdictOf (failures : List (String × Bool)) (producing producing' : Bool)
    (failure : String × Bool) :
    (verdictOf failures producing).failWith failure.1 failure.2 =
      verdictOf (failures ++ [failure]) producing' := by
  cases failures <;> simp [verdictOf, State.failWith]

theorem finish_verdictOf (failures : List (String × Bool)) (producing : Bool) :
    (verdictOf failures producing).finish = verdictOf failures false := by
  simp [verdictOf, State.finish]

theorem report_verdictOf (failures : List (String × Bool)) (producing : Bool) :
    (verdictOf failures producing).report = failures.head?.map errorOf := by
  cases failures with
  | nil => rfl
  | cons failure rest =>
    obtain ⟨message, deterministic⟩ := failure
    cases deterministic <;> rfl

/-- Wrapping an error in `io::Error`s hides nothing. -/
theorem deterministicCause_wrap (error : IoError) (kinds : List ErrorKind) :
    deterministicCause (kinds.foldl IoError.wrap error) = deterministicCause error := by
  induction kinds generalizing error with
  | nil => rfl
  | cons kind rest ih =>
    rw [List.foldl_cons, ih]
    rfl

theorem deterministicCause_errorOf (failure : String × Bool) :
    deterministicCause (errorOf failure) = if failure.2 then some failure.1 else none := by
  obtain ⟨message, deterministic⟩ := failure
  cases deterministic <;> rfl

namespace World

/-! ## The invariant -/

/-- What holds between any two steps. -/
structure Sound (world : World) : Prop where
  given : world.received <+: world.written
  held : world.readerAlive = true →
    world.received ++ (world.current.drop world.pos ++ world.queue.flatten) = world.written
  verdict : world.state = verdictOf world.failures world.producing
  closed : ∀ len, world.pc = .waiting len →
    world.queue = [] ∧ world.current.length ≤ world.pos ∧ world.writerAlive = false
  ended : ReadResult.eof ∈ world.results →
    world.received = world.written ∧ world.writerAlive = false ∧ world.producing = false ∧
      world.failures = []
  failed : ∀ error, ReadResult.error error ∈ world.results →
    world.failures.head?.map errorOf = some error

theorem Sound.init : Sound {} where
  given := List.nil_prefix
  held _ := rfl
  verdict := rfl
  closed _ := nofun
  ended := nofun
  failed _ := nofun

variable {world : World}

theorem received_answer (result : ReadResult) :
    (world.answer result).received = world.received ++ result.received := by
  simp [received, answer]

section

variable (hsound : world.Sound)

include hsound

/-- A failure behind the first one changes no report, and the first one follows no end. -/
theorem Sound.fail (hproducing : world.producing = true) (message : String)
    (deterministic producing : Bool) :
    Sound { world.fail message deterministic with producing := producing } where
  given := hsound.given
  held := hsound.held
  verdict := by
    simp only [World.fail, hsound.verdict]
    exact failWith_verdictOf world.failures _ producing (message, deterministic)
  closed := hsound.closed
  ended heof := by
    have hended := (hsound.ended heof).2.2.1
    rw [hproducing] at hended
    cases hended
  failed error herror := by
    have hfirst := hsound.failed error herror
    cases hfailures : world.failures with
    | nil =>
      rw [hfailures] at hfirst
      cases hfirst
    | cons failure rest =>
      rw [hfailures] at hfirst
      simpa [World.fail, hfailures] using hfirst

theorem Sound.dropGuard (hproducing : world.producing = true) (panicking : Bool) :
    (world.dropGuard panicking).Sound := by
  cases panicking with
  | true => exact hsound.fail hproducing _ false false
  | false =>
    exact {
      given := hsound.given
      held := hsound.held
      verdict := by
        simp only [World.dropGuard, hsound.verdict]
        exact finish_verdictOf world.failures world.producing
      closed := hsound.closed
      ended := fun heof => by
        obtain ⟨hreceived, hwriter, _, hfailures⟩ := hsound.ended heof
        exact ⟨hreceived, hwriter, rfl, hfailures⟩
      failed := hsound.failed }

theorem Sound.write (hwriter : world.writerAlive = true) (buf : Bytes) :
    (world.write buf).Sound := by
  unfold World.write
  split
  · exact hsound
  split
  · exact {
      given := hsound.given.trans (List.prefix_append _ _)
      held := fun halive => by
        rw [← hsound.held halive]
        simp [World.received]
      verdict := hsound.verdict
      closed := fun len hpc => by
        have hclosed := (hsound.closed len hpc).2.2
        rw [hwriter] at hclosed
        cases hclosed
      ended := fun heof => by
        have hclosed := (hsound.ended heof).2.1
        rw [hwriter] at hclosed
        cases hclosed
      failed := hsound.failed }
  · exact hsound

theorem Sound.copyOut (halive : world.readerAlive = true) (len : Nat) :
    (world.copyOut len).Sound := by
  have hsplit : (world.copyOut len).received ++ ((world.copyOut len).current.drop
      (world.copyOut len).pos ++ world.queue.flatten) = world.written := by
    rw [← hsound.held halive, World.copyOut, received_answer]
    simp only [ReadResult.received, answer, World.received, List.append_assoc]
    congr 1
    rw [← List.append_assoc, ← List.drop_drop, List.take_append_drop]
  exact {
    given := ⟨_, hsplit⟩
    held := fun _ => hsplit
    verdict := hsound.verdict
    closed := fun _ => nofun
    ended := fun heof => by
      have heof : ReadResult.eof ∈ world.results := by
        simpa [World.copyOut, answer] using heof
      obtain ⟨hreceived, hrest⟩ := hsound.ended heof
      refine ⟨?_, hrest⟩
      have hlength := congrArg List.length hsplit
      have hmore : world.received.length ≤ (world.copyOut len).received.length := by
        rw [World.copyOut, received_answer, List.length_append]
        exact Nat.le_add_right _ _
      have hprefix : (world.copyOut len).received <+: world.written := ⟨_, hsplit⟩
      rw [List.length_append] at hlength
      refine hprefix.eq_of_length ?_
      rw [← hreceived]
      rw [← hreceived] at hlength
      omega
    failed := fun error herror => hsound.failed error <| by
      simpa [World.copyOut, answer] using herror }

/-- The wait is over: all chunks were taken, so the verdict is the last word. -/
theorem Sound.answer (halive : world.readerAlive = true) {len : Nat}
    (hwaiting : world.pc = .waiting len) (hfinished : world.state.finished = true) :
    (match world.state.report with
      | some error => world.answer (.error error)
      | none => world.answer .eof).Sound := by
  obtain ⟨hqueue, hcurrent, hwriter⟩ := hsound.closed len hwaiting
  have hall := hsound.held halive
  rw [hqueue, List.drop_eq_nil_of_le hcurrent, List.flatten_nil, List.append_nil,
    List.append_nil] at hall
  rw [hsound.verdict, report_verdictOf]
  have hreceived : ∀ result : ReadResult, result.received = [] →
      (world.answer result).received = world.received := by
    intro result hnone
    rw [received_answer, hnone, List.append_nil]
  cases hfailures : world.failures with
  | nil =>
    have hproducing : world.producing = false := by
      rw [hsound.verdict, hfailures] at hfinished
      simpa [verdictOf] using hfinished
    exact {
      given := by
        simp only [List.head?_nil, Option.map_none, hreceived .eof rfl]
        exact hsound.given
      held := fun halive => by
        simp only [List.head?_nil, Option.map_none, hreceived .eof rfl]
        exact hsound.held halive
      verdict := hsound.verdict
      closed := fun _ => nofun
      ended := fun _ => by
        simp only [List.head?_nil, Option.map_none, hreceived .eof rfl]
        exact ⟨hall, hwriter, hproducing, hfailures⟩
      failed := fun error herror => hsound.failed error <| by
        simpa [World.answer] using herror }
  | cons failure rest =>
    exact {
      given := by
        simp only [List.head?_cons, Option.map_some, hreceived (.error _) rfl]
        exact hsound.given
      held := fun halive => by
        simp only [List.head?_cons, Option.map_some, hreceived (.error _) rfl]
        exact hsound.held halive
      verdict := hsound.verdict
      closed := fun _ => nofun
      ended := fun heof => by
        have heof : ReadResult.eof ∈ world.results := by
          simpa [World.answer] using heof
        have hnone := (hsound.ended heof).2.2.2
        rw [hfailures] at hnone
        cases hnone
      failed := fun error herror => by
        have herror : ReadResult.error error ∈ world.results ∨ error = errorOf failure := by
          simpa [World.answer] using herror
        rcases herror with hbefore | rfl
        · exact hsound.failed error hbefore
        · simp only [World.answer, hfailures]
          rfl }

theorem Sound.poll (halive : world.readerAlive = true) : world.poll.Sound := by
  unfold World.poll
  split
  · exact hsound
  · rename_i len hpc
    split
    · rename_i hcurrent
      split
      · rename_i chunk rest hqueue
        exact {
          given := hsound.given
          held := fun halive => by
            have hheld := hsound.held halive
            rw [hqueue, List.drop_eq_nil_of_le hcurrent] at hheld
            simpa [World.received] using hheld
          verdict := hsound.verdict
          closed := fun other hother => by
            rw [hpc] at hother
            cases hother
          ended := hsound.ended
          failed := hsound.failed }
      · rename_i hqueue
        split
        · exact hsound
        · rename_i hwriter
          exact {
            given := hsound.given
            held := hsound.held
            verdict := hsound.verdict
            closed := fun _ _ => ⟨hqueue, hcurrent, by simpa using hwriter⟩
            ended := hsound.ended
            failed := hsound.failed }
    · exact hsound.copyOut halive len
  · rename_i len hpc
    split
    · rename_i hfinished
      exact hsound.answer halive hpc hfinished
    · exact hsound

end

theorem Sound.step (hsound : world.Sound) (step : Step) : (world.step step).Sound := by
  cases step with
  | write buf =>
    simp only [World.step]
    split
    · rename_i hlive
      exact hsound.write hlive.2 buf
    · exact hsound
  | dropWriter =>
    exact {
      given := hsound.given
      held := hsound.held
      verdict := hsound.verdict
      closed := fun len hpc => by
        obtain ⟨hqueue, hcurrent, _⟩ := hsound.closed len hpc
        exact ⟨hqueue, hcurrent, rfl⟩
      ended := fun heof => by
        obtain ⟨hreceived, _, hrest⟩ := hsound.ended heof
        exact ⟨hreceived, rfl, hrest⟩
      failed := hsound.failed }
  | fail message deterministic =>
    simp only [World.step]
    split
    · rename_i hproducing
      exact hsound.fail hproducing message deterministic world.producing
    · exact hsound
  | dropGuard panicking =>
    simp only [World.step]
    split
    · rename_i hproducing
      exact hsound.dropGuard hproducing panicking
    · exact hsound
  | beginRead len =>
    simp only [World.step]
    split
    · exact {
        given := hsound.given
        held := hsound.held
        verdict := hsound.verdict
        closed := fun _ => nofun
        ended := hsound.ended
        failed := hsound.failed }
    · exact hsound
  | poll =>
    simp only [World.step]
    split
    · rename_i halive
      exact hsound.poll halive
    · exact hsound
  | dropReader =>
    simp only [World.step]
    split
    · rename_i hidle
      exact {
        given := hsound.given
        held := nofun
        verdict := hsound.verdict
        closed := fun len hpc => by
          rw [hidle] at hpc
          cases hpc
        ended := hsound.ended
        failed := hsound.failed }
    · exact hsound

theorem Sound.run (hsound : world.Sound) (steps : List Step) : (world.run steps).Sound := by
  induction steps generalizing world with
  | nil => exact hsound
  | cons step rest ih => exact ih (hsound.step step)

/-! ## A reader that goes on reading -/

/-- What the last read comes back with. -/
def lastWord (failures : List (String × Bool)) : ReadResult :=
  match failures.head? with
  | some failure => .error (errorOf failure)
  | none => .eof

/-- The turns that a reader still has to take, for a weight of three on every byte. -/
def work (world : World) : Nat :=
  3 * (world.current.length - world.pos) + 3 * world.queue.flatten.length + world.queue.length +
    match world.pc with
    | .idle => 2
    | .receiving len => if len = 0 then 3 else 1
    | .waiting _ => 0

/-- Nothing a reader does touches the other side. -/
structure SameProducer (world world' : World) : Prop where
  readerAlive : world'.readerAlive = world.readerAlive
  writerAlive : world'.writerAlive = world.writerAlive
  state : world'.state = world.state
  written : world'.written = world.written
  failures : world'.failures = world.failures

theorem sameProducer_poll (world : World) : world.SameProducer world.poll := by
  unfold World.poll
  split
  · exact ⟨rfl, rfl, rfl, rfl, rfl⟩
  · split
    · split
      · exact ⟨rfl, rfl, rfl, rfl, rfl⟩
      · split <;> exact ⟨rfl, rfl, rfl, rfl, rfl⟩
    · exact ⟨rfl, rfl, rfl, rfl, rfl⟩
  · split
    · split <;> exact ⟨rfl, rfl, rfl, rfl, rfl⟩
    · exact ⟨rfl, rfl, rfl, rfl, rfl⟩

theorem work_poll {len : Nat} (hpc : world.pc = .receiving len)
    (hwriter : world.writerAlive = false) : world.poll.work < world.work := by
  unfold World.poll
  rw [hpc]
  simp only
  split
  · rename_i hcurrent
    split
    · rename_i chunk rest hqueue
      simp only [work, hpc, hqueue, List.flatten_cons, List.length_append, List.length_cons]
      omega
    · rename_i hqueue
      simp only [hwriter, Bool.false_eq_true, if_false, work, hpc, hqueue]
      split <;> omega
  · rename_i hcurrent
    simp only [World.copyOut, World.answer, work, hpc]
    split <;> omega

/-- Once the writer is gone and the verdict is in, reading on yields every byte and then the
verdict. -/
theorem exists_drain (hsound : world.Sound) (halive : world.readerAlive = true)
    (hwriter : world.writerAlive = false) (hfinished : world.state.finished = true) {len : Nat}
    (hlen : 0 < len) :
    ∃ reads : List Step, (∀ step ∈ reads, step = .beginRead len ∨ step = .poll) ∧
      (world.run reads).results.getLast? = some (lastWord world.failures) ∧
        (world.run reads).received = world.written := by
  induction hwork : world.work using Nat.strong_induction_on generalizing world with
  | _ n ih =>
    -- A step of the reader that leaves less to do.
    have hgo : ∀ step, step = .beginRead len ∨ step = .poll →
        (world.step step).work < world.work → world.SameProducer (world.step step) →
          ∃ reads : List Step, (∀ step ∈ reads, step = .beginRead len ∨ step = .poll) ∧
            (world.run reads).results.getLast? = some (lastWord world.failures) ∧
              (world.run reads).received = world.written := by
      intro step hstep hless hsame
      obtain ⟨reads, hreads, hlast, hreceived⟩ := ih _ (hwork ▸ hless) (hsound.step step)
        (hsame.readerAlive.trans halive) (hsame.writerAlive.trans hwriter)
        (hsame.state ▸ hfinished) rfl
      refine ⟨step :: reads, List.forall_mem_cons.mpr ⟨hstep, hreads⟩, ?_, ?_⟩
      · rw [← hsame.failures]
        exact hlast
      · rw [← hsame.written]
        exact hreceived
    cases hpc : world.pc with
    | idle =>
      refine hgo (.beginRead len) (Or.inl rfl) ?_ ?_
      · simp only [World.step, halive, hpc, and_self, if_true, work]
        rw [if_neg (by omega)]
        omega
      · simp only [World.step, halive, hpc, and_self, if_true]
        exact ⟨halive.symm, rfl, rfl, rfl, rfl⟩
    | receiving other =>
      have hpoll : world.step .poll = world.poll := by
        simp only [World.step, halive, if_true]
      exact hgo .poll (Or.inr rfl) (hpoll ▸ work_poll hpc hwriter)
        (hpoll ▸ sameProducer_poll world)
    | waiting other =>
      obtain ⟨hqueue, hcurrent, _⟩ := hsound.closed other hpc
      have hall := hsound.held halive
      rw [hqueue, List.drop_eq_nil_of_le hcurrent, List.flatten_nil, List.append_nil,
        List.append_nil] at hall
      have hreport : world.state.report = world.failures.head?.map errorOf := by
        rw [hsound.verdict, report_verdictOf]
      refine ⟨[.poll], by simp, ?_, ?_⟩
      · simp only [World.run, List.foldl_cons, List.foldl_nil, World.step, halive, if_true,
          World.poll, hpc, hfinished, hreport, lastWord]
        cases world.failures <;> simp [World.answer]
      · rw [← hall]
        simp only [World.run, List.foldl_cons, List.foldl_nil, World.step, halive, if_true,
          World.poll, hpc, hfinished, hreport]
        cases world.failures <;>
          simp [received_answer, ReadResult.received]

end World

/-- A pipe is safe in every state that any interleaving reaches: reads have returned a prefix
of the bytes written; the end of the stream is reported only behind the last byte of a producer
that has not failed; whatever is reported of a producer that failed is its first failure, and
a reader that goes on reading once the writer is gone gets all the bytes and then the verdict.
A deterministic failure is recognised as such through any wrapping. -/
theorem pipe_safe (steps : List Step) :
    (World.run {} steps).received <+: (World.run {} steps).written ∧
    (ReadResult.eof ∈ (World.run {} steps).results →
      (World.run {} steps).received = (World.run {} steps).written ∧
        (World.run {} steps).producing = false ∧ (World.run {} steps).failures = []) ∧
    (∀ failure rest, (World.run {} steps).failures = failure :: rest →
      ∀ result ∈ (World.run {} steps).results,
        (∃ out, result = .bytes out) ∨ result = .error (errorOf failure)) ∧
    ((World.run {} steps).readerAlive = true → (World.run {} steps).writerAlive = false →
      (World.run {} steps).producing = false ∨ (World.run {} steps).failures ≠ [] →
        ∀ len, 0 < len → ∃ reads : List Step,
          (∀ step ∈ reads, step = .beginRead len ∨ step = .poll) ∧
          ((World.run {} steps).run reads).results.getLast? =
            some (World.lastWord (World.run {} steps).failures) ∧
          ((World.run {} steps).run reads).received = (World.run {} steps).written) ∧
    ∀ failure kinds, deterministicCause (List.foldl IoError.wrap (errorOf failure) kinds) =
      if failure.2 then some failure.1 else none := by
  have hsound : (World.run {} steps).Sound := World.Sound.init.run steps
  refine ⟨hsound.given, ?_, ?_, ?_, ?_⟩
  · intro heof
    obtain ⟨hreceived, _, hrest⟩ := hsound.ended heof
    exact ⟨hreceived, hrest⟩
  · intro failure rest hfailures result hresult
    cases result with
    | bytes out => exact Or.inl ⟨out, rfl⟩
    | eof =>
      have hnone := (hsound.ended hresult).2.2.2
      rw [hfailures] at hnone
      cases hnone
    | error error =>
      have hfirst := hsound.failed error hresult
      rw [hfailures, List.head?_cons, Option.map_some, Option.some.injEq] at hfirst
      exact Or.inr (congrArg ReadResult.error hfirst.symm)
  · intro halive hwriter hverdict len hlen
    refine World.exists_drain hsound halive hwriter ?_ hlen
    rw [hsound.verdict]
    rcases hverdict with hended | hfailed
    · simp [verdictOf, hended]
    · simp [verdictOf, hfailed]
  · intro failure kinds
    rw [deterministicCause_wrap, deterministicCause_errorOf]

end Datboi.Pipe
