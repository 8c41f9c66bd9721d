import Datboi.Lib.GuestRuns

/-!
# Guests that trap by themselves

A run ends in a trap when the host refuses a call, or when the guest itself gives up. A guest
with more checks than another traps where a check fails; where it does not, the two run alike.
-/

namespace Guest

variable {ε α : Type*} {maxRead ix : Nat} {ports : Ports ε α}

namespace Program

/-- The run comes to a trap of the guest's own. -/
def Panics (maxRead : Nat) : Program α → Ports ε α → Prop
  | .done, _ => False
  | .refuse _, _ => False
  | .trap _, _ => True
  | .read ix count next, ports =>
    match ports.inputs[ix]? with
    | some (.sequential input) =>
      match input.read maxRead count with
      | some (got, input) =>
        Panics maxRead (next got)
          { ports with inputs := ports.inputs.set ix (.sequential input) }
      | none => False
    | _ => False
  | .readAt ix offset count next, ports =>
    match ports.inputs[ix]? with
    | some (.randomAccess src) =>
      if maxRead < count then False
      else
        match src.readUpTo offset count with
        | .ok got => Panics maxRead (next got) ports
        | .error _ => False
    | _ => False
  | .inputLen ix next, ports =>
    match ports.inputs[ix]? with
    | some input => Panics maxRead (next input.len) ports
    | none => False
  | .write ix chunk next, ports =>
    match ports.sinks[ix]? with
    | some sink =>
      match sink.write chunk with
      | some sink => Panics maxRead next { ports with sinks := ports.sinks.set ix sink }
      | none => False
    | none => False

/-! ## One host call -/

theorem panics_read_feed_upTo {items : List α} {consumed count : Nat}
    {next : List α → Program α}
    (hinput : ports.inputs[ix]? = some (.sequential (.feed items consumed)))
    (hmax : count ≤ maxRead) (hin : consumed ≤ items.length) :
    (Program.read ix count next).Panics maxRead ports ↔
      (next (Reader.slice items consumed count)).Panics maxRead
        { ports with
          inputs := ports.inputs.set ix
            (.sequential (.feed items (min (consumed + count) items.length))) } := by
  rw [Panics]
  simp only [hinput, SequentialInput.read_feed hmax hin]

theorem not_panics_read_long {input : SequentialInput ε α} {count : Nat}
    {next : List α → Program α} (hinput : ports.inputs[ix]? = some (.sequential input))
    (hmax : maxRead < count) : ¬ (Program.read ix count next).Panics maxRead ports := by
  rw [Panics]
  simp only [hinput, SequentialInput.read, if_pos hmax]
  exact not_false

theorem panics_readAt_ofList {items : List α} {offset count : Nat} {next : List α → Program α}
    (hinput : ports.inputs[ix]? = some (.randomAccess (.ofList items)))
    (hmax : count ≤ maxRead) :
    (Program.readAt ix offset count next).Panics maxRead ports ↔
      (next (Reader.slice items offset count)).Panics maxRead ports := by
  rw [Panics]
  simp only [hinput, Reader.Source.readUpTo_ofList, if_neg (Nat.not_lt_of_le hmax)]

theorem not_panics_readAt_long {src : Reader.Source ε α} {offset count : Nat}
    {next : List α → Program α} (hinput : ports.inputs[ix]? = some (.randomAccess src))
    (hmax : maxRead < count) : ¬ (Program.readAt ix offset count next).Panics maxRead ports := by
  rw [Panics]
  simp only [hinput, if_pos hmax]
  exact not_false

theorem panics_write_open {written chunk : List α} {next : Program α}
    (hsink : ports.sinks[ix]? = some (.open written)) :
    (Program.write ix chunk next).Panics maxRead ports ↔
      next.Panics maxRead
        { ports with sinks := ports.sinks.set ix (.open (written ++ chunk)) } := by
  have htaken : (Sink.open written).write chunk = some (.open (written ++ chunk)) := by
    simp [Sink.write, Sink.open]
  rw [Panics]
  simp only [hsink, htaken]

/-! ## More checks -/

/-- The first program is the second with traps in some places. -/
inductive Checks : Program α → Program α → Prop
  | trap (outOfFuel : Bool) (q : Program α) : Checks (.trap outOfFuel) q
  | done : Checks .done .done
  | refuse (message : String) : Checks (.refuse message) (.refuse message)
  | read (ix count : Nat) {next next' : List α → Program α}
      (hnext : ∀ got, Checks (next got) (next' got)) :
      Checks (.read ix count next) (.read ix count next')
  | readAt (ix offset count : Nat) {next next' : List α → Program α}
      (hnext : ∀ got, Checks (next got) (next' got)) :
      Checks (.readAt ix offset count next) (.readAt ix offset count next')
  | inputLen (ix : Nat) {next next' : Nat → Program α}
      (hnext : ∀ len, Checks (next len) (next' len)) :
      Checks (.inputLen ix next) (.inputLen ix next')
  | write (ix : Nat) (chunk : List α) {next next' : Program α} (hnext : Checks next next') :
      Checks (.write ix chunk next) (.write ix chunk next')

/-- A run that meets no failing check is a run without the checks. -/
theorem Checks.run_eq {p q : Program α} (hchecks : Checks p q)
    (hsafe : ¬ p.Panics maxRead ports) : p.run maxRead ports = q.run maxRead ports := by
  induction hchecks generalizing ports with
  | trap outOfFuel q => exact absurd trivial hsafe
  | done => rfl
  | refuse message => rfl
  | read ix count hnext ih =>
    rw [Panics] at hsafe
    rw [run, run]
    split
    · rename_i input hinput
      simp only [hinput] at hsafe
      split
      · rename_i got input' hread
        simp only [hread] at hsafe
        exact ih got hsafe
      · rfl
    · rfl
  | readAt ix offset count hnext ih =>
    rw [Panics] at hsafe
    rw [run, run]
    split
    · rename_i src hinput
      simp only [hinput] at hsafe
      split
      · rfl
      · rename_i hmax
        rw [if_neg hmax] at hsafe
        split
        · rename_i got hread
          simp only [hread] at hsafe
          exact ih got hsafe
        · rfl
    · rfl
  | inputLen ix hnext ih =>
    rw [Panics] at hsafe
    rw [run, run]
    split
    · rename_i input hinput
      simp only [hinput] at hsafe
      exact ih input.len hsafe
    · rfl
  | write ix chunk hnext ih =>
    rw [Panics] at hsafe
    rw [run, run]
    split
    · rename_i sink hsink
      simp only [hsink] at hsafe
      split
      · rename_i sink' hwrite
        simp only [hwrite] at hsafe
        exact ih hsafe
      · rfl
    · rfl

end Program

end Guest
