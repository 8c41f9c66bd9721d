import Datboi.Lib.Reader

/-!
# Sandboxed programs over streams

A guest is a program whose only effects are reading its numbered inputs and
writing its numbered sinks; every host call that fails ends it in a trap. Guests
are finite trees (the host meters them), so running one is a structural recursion.
-/

namespace Guest

open Reader (Source)

variable {ε α : Type*}

/-- A metered program. `refuse` is an error the guest reports itself. -/
inductive Program (α : Type*) where
  | done
  | refuse (message : String)
  | trap (outOfFuel : Bool)
  | read (input count : Nat) (next : List α → Program α)
  | readAt (input offset count : Nat) (next : List α → Program α)
  | inputLen (input : Nat) (next : Nat → Program α)
  | write (sink : Nat) (chunk : List α) (next : Program α)

/-- A sequential input with the length its provider declared, and the host's
ledger: items handed out, and whether the stream ended before the declared length. -/
structure SequentialInput (ε α : Type*) where
  stream : Reader.Stream ε α
  len : Nat
  consumed : Nat := 0
  endedEarly : Bool := false

inductive Input (ε α : Type*) where
  | sequential (input : SequentialInput ε α)
  | randomAccess (src : Source ε α)

def Input.len : Input ε α → Nat
  | .sequential input => input.len
  | .randomAccess src => src.len

/-- An output. Its consumer may go away, and then takes no more than `capacity`
items in all. -/
structure Sink (α : Type*) where
  written : List α := []
  capacity : Option Nat := none

structure Ports (ε α : Type*) where
  inputs : List (Input ε α)
  sinks : List (Sink α)

inductive Verdict where
  | done
  | refused (message : String)
  | trapped (outOfFuel : Bool)
  deriving DecidableEq

/-- Read exactly `count` items, fewer only at the declared length or when the
stream ends; `none` is a failed host call. -/
def SequentialInput.read (maxRead count : Nat) (input : SequentialInput ε α) :
    Option (List α × SequentialInput ε α) :=
  let want := min count (input.len - input.consumed)
  if maxRead < count then none
  else if want ≤ input.stream.items.length then
    some (input.stream.items.take want,
      { input with
        stream := ⟨input.stream.items.drop want, input.stream.failure⟩
        consumed := input.consumed + want })
  else if input.stream.failure.isSome then none
  else
    some (input.stream.items,
      { input with
        stream := ⟨[], none⟩
        consumed := input.consumed + input.stream.items.length
        endedEarly := true })

/-- Hand a chunk to the consumer; `none` once the consumer is gone. -/
def Sink.write (chunk : List α) (sink : Sink α) : Option (Sink α) :=
  if chunk = [] ∨ sink.capacity.all (sink.written.length + chunk.length ≤ ·) then
    some { sink with written := sink.written ++ chunk }
  else none

/-- Run a guest to its verdict. The host refuses reads longer than `maxRead`. -/
def Program.run (maxRead : Nat) : Program α → Ports ε α → Verdict × Ports ε α
  | .done, ports => (.done, ports)
  | .refuse message, ports => (.refused message, ports)
  | .trap outOfFuel, ports => (.trapped outOfFuel, ports)
  | .read ix count next, ports =>
    match ports.inputs[ix]? with
    | some (.sequential input) =>
      match input.read maxRead count with
      | some (got, input) =>
        run maxRead (next got)
          { ports with inputs := ports.inputs.set ix (.sequential input) }
      | none => (.trapped false, ports)
    | _ => (.trapped false, ports)
  | .readAt ix offset count next, ports =>
    match ports.inputs[ix]? with
    | some (.randomAccess src) =>
      if maxRead < count then (.trapped false, ports)
      else
        match src.readUpTo offset count with
        | .ok got => run maxRead (next got) ports
        | .error _ => (.trapped false, ports)
    | _ => (.trapped false, ports)
  | .inputLen ix next, ports =>
    match ports.inputs[ix]? with
    | some input => run maxRead (next input.len) ports
    | none => (.trapped false, ports)
  | .write ix chunk next, ports =>
    match ports.sinks[ix]? with
    | some sink =>
      match sink.write chunk with
      | some sink => run maxRead next { ports with sinks := ports.sinks.set ix sink }
      | none => (.trapped false, ports)
    | none => (.trapped false, ports)

example (maxRead : Nat) (ports : Ports ε α) : Program.done.run maxRead ports = (.done, ports) := by
  rw [Program.run]

/-- The first sequential input whose stream ended before its declared length:
position, declared length, items handed out. -/
def Ports.endedEarly (ports : Ports ε α) : Option (Nat × Nat × Nat) :=
  ports.inputs.zipIdx.findSome? fun (input, ix) =>
    match input with
    | .sequential input => if input.endedEarly then some (ix, input.len, input.consumed) else none
    | .randomAccess _ => none

/-- A run leaves the ports in their places. -/
theorem Program.length_sinks_run (maxRead : Nat) (program : Program α) (ports : Ports ε α) :
    (program.run maxRead ports).2.sinks.length = ports.sinks.length := by
  induction program generalizing ports with
  | done | refuse | trap => rfl
  | read ix count next ih =>
    unfold run
    split
    · split
      · exact ih _ _
      · rfl
    · rfl
  | readAt ix offset count next ih =>
    unfold run
    split
    · split
      · rfl
      · split
        · exact ih _ _
        · rfl
    · rfl
  | inputLen ix next ih =>
    unfold run
    split
    · exact ih _ _
    · rfl
  | write ix chunk next ih =>
    unfold run
    split
    · split
      · rw [ih]
        exact List.length_set
      · rfl
    · rfl

/-- What a sink has taken stays written. -/
theorem Program.le_written_run (maxRead : Nat) (program : Program α) {ports : Ports ε α}
    {ix : Nat} {sink : Sink α} (hsink : ports.sinks[ix]? = some sink) :
    ∃ after, (program.run maxRead ports).2.sinks[ix]? = some after ∧
      sink.written.length ≤ after.written.length := by
  induction program generalizing ports sink with
  | done | refuse | trap => exact ⟨sink, hsink, Nat.le_refl _⟩
  | read port count next ih =>
    unfold run
    split
    · split
      · exact ih _ hsink
      · exact ⟨sink, hsink, Nat.le_refl _⟩
    · exact ⟨sink, hsink, Nat.le_refl _⟩
  | readAt port offset count next ih =>
    unfold run
    split
    · split
      · exact ⟨sink, hsink, Nat.le_refl _⟩
      · split
        · exact ih _ hsink
        · exact ⟨sink, hsink, Nat.le_refl _⟩
    · exact ⟨sink, hsink, Nat.le_refl _⟩
  | inputLen port next ih =>
    unfold run
    split
    · exact ih _ hsink
    · exact ⟨sink, hsink, Nat.le_refl _⟩
  | write port chunk next ih =>
    unfold run
    split
    · rename_i before hbefore
      split
      · rename_i grown hwrite
        have hgrown : before.written.length ≤ grown.written.length := by
          unfold Sink.write at hwrite
          split at hwrite
          · cases hwrite
            simp
          · cases hwrite
        by_cases hport : port = ix
        · subst hport
          rw [hsink, Option.some.injEq] at hbefore
          subst hbefore
          have hlt : port < ports.sinks.length := (List.getElem?_eq_some_iff.mp hsink).1
          have hgrew : (ports.sinks.set port grown)[port]? = some grown :=
            List.getElem?_set_self hlt
          obtain ⟨after, hafter, hle⟩ := @ih { ports with
            sinks := ports.sinks.set port grown } _ hgrew
          exact ⟨after, hafter, Nat.le_trans hgrown hle⟩
        · refine ih ?_
          rw [List.getElem?_set_ne hport]
          exact hsink
      · exact ⟨sink, hsink, Nat.le_refl _⟩
    · exact ⟨sink, hsink, Nat.le_refl _⟩

/-- The same ports, with a capacity for each sink. -/
def Ports.limit (capacity : Nat → Option Nat) (ports : Ports ε α) : Ports ε α :=
  { ports with sinks := ports.sinks.mapIdx fun ix sink => { sink with capacity := capacity ix } }

@[simp] theorem Ports.limit_inputs (capacity : Nat → Option Nat) (ports : Ports ε α) :
    (ports.limit capacity).inputs = ports.inputs := rfl

/-- A guest that never outgrows the capacities does not notice them. -/
theorem Program.run_limit (maxRead : Nat) (program : Program α) (capacity : Nat → Option Nat)
    (ports : Ports ε α) (hfree : ∀ sink ∈ ports.sinks, sink.capacity = none)
    (hfits : ∀ ix after, (program.run maxRead ports).2.sinks[ix]? = some after →
      (capacity ix).all (after.written.length ≤ ·)) :
    program.run maxRead (ports.limit capacity) =
      ((program.run maxRead ports).1, (program.run maxRead ports).2.limit capacity) := by
  induction program generalizing ports with
  | done | refuse | trap => rfl
  | read port count next ih =>
    rw [run] at hfits
    rw [run, run]
    simp only [Ports.limit_inputs]
    split
    · rename_i input hinput
      rw [hinput] at hfits
      simp only at hfits
      split
      · rename_i got after hread
        rw [hread] at hfits
        exact ih got { ports with inputs := ports.inputs.set port (.sequential after) } hfree hfits
      · rfl
    · rfl
  | readAt port offset count next ih =>
    rw [run] at hfits
    rw [run, run]
    simp only [Ports.limit_inputs]
    split
    · rename_i src hsrc
      rw [hsrc] at hfits
      simp only at hfits
      split
      · rfl
      · rename_i hcount
        rw [if_neg hcount] at hfits
        split
        · rename_i got hread
          rw [hread] at hfits
          exact ih got ports hfree hfits
        · rfl
    · rfl
  | inputLen port next ih =>
    rw [run] at hfits
    rw [run, run]
    simp only [Ports.limit_inputs]
    split
    · rename_i input hinput
      rw [hinput] at hfits
      exact ih input.len ports hfree hfits
    · rfl
  | write port chunk next ih =>
    rw [run] at hfits ⊢
    rw [run]
    cases hsink : ports.sinks[port]? with
    | none => simp [Ports.limit, hsink]
    | some sink =>
      have hmem := List.mem_of_getElem? hsink
      have hlt := (List.getElem?_eq_some_iff.mp hsink).1
      have haccepted : sink.write chunk = some { sink with written := sink.written ++ chunk } := by
        simp [Sink.write, hfree sink hmem]
      simp only [hsink, haccepted] at hfits
      have hroom : (capacity port).all (sink.written.length + chunk.length ≤ ·) := by
        obtain ⟨after, hafter, hle⟩ := @Program.le_written_run _ _ maxRead next { ports with
          sinks := ports.sinks.set port { sink with written := sink.written ++ chunk } } _ _
          (List.getElem?_set_self hlt)
        have hcap := hfits port after hafter
        rw [List.length_append] at hle
        cases hcapacity : capacity port with
        | none => rfl
        | some cap =>
          rw [hcapacity] at hcap
          simp only [Option.all_some, decide_eq_true_eq] at hcap ⊢
          exact Nat.le_trans hle hcap
      have hlimited : ({ sink with capacity := capacity port } : Sink α).write chunk =
          some { sink with written := sink.written ++ chunk, capacity := capacity port } := by
        simp [Sink.write, hroom]
      have hset := ih { ports with
        sinks := ports.sinks.set port { sink with written := sink.written ++ chunk } } (by
          intro other hother
          rcases List.mem_or_eq_of_mem_set hother with hold | rfl
          · exact hfree other hold
          · exact hfree sink hmem) hfits
      simp only [Ports.limit, List.mapIdx_set] at hset
      simp only [Ports.limit, List.getElem?_mapIdx, hsink, Option.map_some, hlimited, haccepted]
      exact hset

end Guest
