import Datboi.Lib.Guest

/-!
# Guests over inputs that serve what they declare

A sequential input that serves a fixed list hands out its slices in order, and a
sink without a limit takes every chunk. One rule for each host call says what a
guest goes on with.
-/

namespace Guest

open Reader (slice length_slice)

variable {ε α : Type*}

/-- A sequential input that serves a list and has handed out `consumed` items. -/
def SequentialInput.feed (items : List α) (consumed : Nat) : SequentialInput ε α where
  stream := ⟨items.drop consumed, none⟩
  len := items.length
  consumed := consumed

/-- A read gives what was asked for, or what is left when that is less. -/
theorem SequentialInput.read_feed {items : List α} {consumed count maxRead : Nat}
    (hmax : count ≤ maxRead) (hin : consumed ≤ items.length) :
    (feed items consumed : SequentialInput ε α).read maxRead count =
      some (slice items consumed count, feed items (min (consumed + count) items.length)) := by
  have hstream : min count (items.length - consumed) ≤ (items.drop consumed).length := by
    rw [List.length_drop]
    exact Nat.min_le_right _ _
  have hnot : ¬ maxRead < count := by omega
  have hgot : (items.drop consumed).take (min count (items.length - consumed)) =
      slice items consumed count := by
    rw [slice, List.take_eq_take_iff, List.length_drop]
    omega
  have hnext : consumed + min count (items.length - consumed) =
      min (consumed + count) items.length := by omega
  simp only [read, feed, if_neg hnot, if_pos hstream, List.drop_drop, hgot, hnext]

/-- A sink that takes everything. -/
def Sink.open (written : List α) : Sink α where
  written := written

namespace Program

/-- Fill a buffer of `count` items, one host read after another; a read of nothing
is refused with the message for the items already there. -/
def readExactLoop (ix count : Nat) (short : Nat → String) (next : List α → Program α) :
    Nat → List α → Program α
  | 0, out => if out.length < count then .trap true else next out
  | fuel + 1, out =>
    if out.length < count then
      .read ix (count - out.length) fun piece =>
        match piece with
        | [] => .refuse (short out.length)
        | item :: items => readExactLoop ix count short next fuel (out ++ item :: items)
    else next out

/-- Every round makes progress, so `count` rounds suffice. -/
def readExact (ix count : Nat) (short : Nat → String) (next : List α → Program α) : Program α :=
  readExactLoop ix count short next count []

/-- Write one chunk after another. -/
def writeAll (ix : Nat) (chunks : List (List α)) (next : Program α) : Program α :=
  chunks.foldr (.write ix) next

variable {maxRead ix : Nat} {ports : Ports ε α}

variable {items : List α} {consumed count : Nat}

section

variable (hinput : ports.inputs[ix]? = some (.sequential (.feed items consumed)))
  (hmax : count ≤ maxRead)

include hinput hmax

theorem run_read_feed_upTo {next : List α → Program α} (hin : consumed ≤ items.length) :
    (Program.read ix count next).run maxRead ports =
      (next (slice items consumed count)).run maxRead
        { ports with
          inputs := ports.inputs.set ix
            (.sequential (.feed items (min (consumed + count) items.length))) } := by
  rw [run]
  simp only [hinput, SequentialInput.read_feed hmax hin]

theorem run_read_feed {next : List α → Program α} (hfits : consumed + count ≤ items.length) :
    (Program.read ix count next).run maxRead ports =
      (next (slice items consumed count)).run maxRead
        { ports with inputs := ports.inputs.set ix (.sequential (.feed items (consumed + count))) } := by
  rw [run_read_feed_upTo hinput hmax (Nat.le_trans (Nat.le_add_right _ _) hfits),
    Nat.min_eq_left hfits]

end

/-- The host refuses a read that is too long. -/
theorem run_read_trap {input : SequentialInput ε α} {next : List α → Program α}
    (hinput : ports.inputs[ix]? = some (.sequential input)) (hmax : maxRead < count) :
    (Program.read ix count next).run maxRead ports = (.trapped false, ports) := by
  rw [run]
  simp only [hinput, SequentialInput.read, if_pos hmax]

theorem run_readAt_ofList {offset : Nat} {next : List α → Program α}
    (hinput : ports.inputs[ix]? = some (.randomAccess (.ofList items))) (hmax : count ≤ maxRead) :
    (Program.readAt ix offset count next).run maxRead ports =
      (next (slice items offset count)).run maxRead ports := by
  rw [run]
  simp only [hinput, Reader.Source.readUpTo_ofList, if_neg (Nat.not_lt_of_le hmax)]

theorem run_readAt_trap {src : Reader.Source ε α} {offset : Nat} {next : List α → Program α}
    (hinput : ports.inputs[ix]? = some (.randomAccess src)) (hmax : maxRead < count) :
    (Program.readAt ix offset count next).run maxRead ports = (.trapped false, ports) := by
  rw [run]
  simp only [hinput, if_pos hmax]

theorem run_readExact_feed {short : Nat → String} {next : List α → Program α}
    (hinput : ports.inputs[ix]? = some (.sequential (.feed items consumed)))
    (hmax : count ≤ maxRead) (hfits : consumed + count ≤ items.length) :
    (readExact ix count short next).run maxRead ports =
      (next (slice items consumed count)).run maxRead
        { ports with inputs := ports.inputs.set ix (.sequential (.feed items (consumed + count))) } := by
  cases count with
  | zero =>
    -- An empty buffer is full: no host call is made.
    obtain ⟨hlt, hget⟩ := List.getElem?_eq_some_iff.mp hinput
    have hsame : ports.inputs.set ix (.sequential (.feed items (consumed + 0))) = ports.inputs := by
      rw [Nat.add_zero, ← hget, List.set_getElem_self]
    rw [hsame]
    simp [readExact, readExactLoop]
  | succ count =>
    have hlen : (slice items consumed (count + 1)).length = count + 1 := by
      rw [length_slice]
      omega
    rw [readExact, readExactLoop, if_pos (by simp), List.length_nil, Nat.sub_zero,
      run_read_feed hinput hmax hfits]
    cases hgot : slice items consumed (count + 1) with
    | nil =>
      rw [hgot] at hlen
      simp at hlen
    | cons item got =>
      rw [hgot] at hlen
      have hfull : ¬ (item :: got).length < count + 1 := by
        rw [hlen]
        exact Nat.lt_irrefl _
      simp only [List.nil_append]
      cases count <;> rw [readExactLoop, if_neg hfull]

theorem run_write_open {written chunk : List α} {next : Program α}
    (hsink : ports.sinks[ix]? = some (.open written)) :
    (Program.write ix chunk next).run maxRead ports =
      next.run maxRead { ports with sinks := ports.sinks.set ix (.open (written ++ chunk)) } := by
  have htaken : (Sink.open written).write chunk = some (.open (written ++ chunk)) := by
    simp [Sink.write, Sink.open]
  rw [run]
  simp only [hsink, htaken]

theorem run_writeAll_open {written : List α} {chunks : List (List α)} {next : Program α}
    (hsink : ports.sinks[ix]? = some (.open written)) :
    (writeAll ix chunks next).run maxRead ports =
      next.run maxRead
        { ports with sinks := ports.sinks.set ix (.open (written ++ chunks.flatten)) } := by
  induction chunks generalizing ports written with
  | nil =>
    obtain ⟨hlt, hget⟩ := List.getElem?_eq_some_iff.mp hsink
    have hsame : ports.sinks.set ix (.open (written ++ [])) = ports.sinks := by
      rw [List.append_nil, ← hget, List.set_getElem_self]
    rw [List.flatten_nil, hsame]
    rfl
  | cons chunk chunks ih =>
    have hlt := (List.getElem?_eq_some_iff.mp hsink).1
    have hafter : (ports.sinks.set ix (.open (written ++ chunk)))[ix]? =
        some (.open (written ++ chunk)) := List.getElem?_set_self hlt
    have hrest := @ih { ports with sinks := ports.sinks.set ix (.open (written ++ chunk)) } _
      hafter
    rw [writeAll, List.foldr_cons, run_write_open hsink, ← writeAll, hrest]
    simp only [List.set_set, List.append_assoc, List.flatten_cons]

end Program

end Guest
