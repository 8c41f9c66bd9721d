import Datboi.Lib.Reader

/-!
# Sequential reads

A sequential reader moves from state to state and hands out at most as many items as the
buffer takes. If every read takes a front part off what is pending, and stops short of the
buffer only for good, then any sequence of buffers reads the same items.
-/

namespace Reader

variable {ε α σ : Type*}

/-- Read with buffers of the given sizes, one after another. -/
def readAll (read : Nat → σ → Except ε (List α × σ)) : List Nat → σ → Except ε (List α × σ)
  | [], s => .ok ([], s)
  | want :: wants, s =>
    match read want s with
    | .error e => .error e
    | .ok (got, s) =>
      match readAll read wants s with
      | .error e => .error e
      | .ok (rest, s) => .ok (got ++ rest, s)

/-- A read takes a front part off what is pending, no longer than the buffer, and nothing only
if the buffer is empty or nothing is pending. -/
def HandsOut (read : Nat → σ → Except ε (List α × σ)) (pending : σ → List α) : Prop :=
  ∀ want s, ∃ got next, read want s = .ok (got, next) ∧ got ++ pending next = pending s ∧
    got.length ≤ want ∧ (got = [] → want = 0 ∨ pending s = [])

variable {read : Nat → σ → Except ε (List α × σ)} {pending : σ → List α}

/-- Any buffers take a front part off what is pending. -/
theorem HandsOut.readAll (hhands : HandsOut read pending) (wants : List Nat) (s : σ) :
    ∃ got next, readAll read wants s = .ok (got, next) ∧ got ++ pending next = pending s := by
  induction wants generalizing s with
  | nil => exact ⟨[], s, rfl, rfl⟩
  | cons want wants ih =>
    obtain ⟨got, next, hread, hsplit, -⟩ := hhands want s
    obtain ⟨rest, last, hrest, hsplit'⟩ := ih next
    refine ⟨got ++ rest, last, ?_, ?_⟩
    · rw [Reader.readAll, hread]
      dsimp only
      rw [hrest]
    · rw [List.append_assoc, hsplit', hsplit]

/-- A read into a buffer with room gets nothing exactly when nothing is pending. -/
theorem HandsOut.ends_iff (hhands : HandsOut read pending) {want : Nat} (hwant : 0 < want)
    (s : σ) : (∃ next, read want s = .ok ([], next)) ↔ pending s = [] := by
  obtain ⟨got, next, hread, hsplit, -, hempty⟩ := hhands want s
  constructor
  · rintro ⟨next', hread'⟩
    rw [hread, Except.ok.injEq, Prod.mk.injEq] at hread'
    exact (hempty hread'.1).resolve_left (by omega)
  · intro hnothing
    rw [hnothing, List.append_eq_nil_iff] at hsplit
    exact ⟨next, by rw [hread, hsplit.1]⟩

/-- Any buffers get a front part of the items, and the reader reports the end exactly when it was
all of them. -/
def ReadsOut (read : Nat → σ → Except ε (List α × σ)) (s : σ) (items : List α) : Prop :=
  ∀ wants, ∃ got next, readAll read wants s = .ok (got, next) ∧ got <+: items ∧
    ∀ want, 0 < want → ((∃ last, read want next = .ok ([], last)) ↔ got = items)

theorem HandsOut.reads (hhands : HandsOut read pending) (s : σ) :
    ReadsOut read s (pending s) := by
  intro wants
  obtain ⟨got, next, hread, hsplit⟩ := hhands.readAll wants s
  refine ⟨got, next, hread, ⟨pending next, hsplit⟩, fun want hwant => ?_⟩
  rw [hhands.ends_iff hwant, ← hsplit, List.self_eq_append_right]

namespace Source

/-- The next items of a source from a position on. -/
def readNext (src : Source ε α) (want pos : Nat) : Except ε (List α × Nat) :=
  match src.readAt pos want with
  | .error e => .error e
  | .ok got => .ok (got, pos + got.length)

theorem readNext_handsOut {src : Source ε α} {items : List α} (hserves : src.Serves items) :
    HandsOut src.readNext fun pos => items.drop pos := by
  intro want pos
  obtain ⟨n, hn, hread, hpos⟩ := hserves.readAt_ok pos want
  refine ⟨slice items pos n, pos + (slice items pos n).length, ?_, ?_, ?_, ?_⟩
  · rw [readNext, hread]
  · change slice items pos n ++ items.drop (pos + (slice items pos n).length) = items.drop pos
    rw [← List.drop_drop]
    calc slice items pos n ++ (items.drop pos).drop (slice items pos n).length
        = slice items pos (slice items pos n).length ++
            (items.drop pos).drop (slice items pos n).length := by rw [slice_length_slice]
      _ = items.drop pos := List.take_append_drop _ _
  · rw [length_slice]
    omega
  · intro hempty
    rcases slice_eq_nil_iff.mp hempty with hzero | hpast
    · exact Or.inl (by omega)
    · exact Or.inr (List.drop_eq_nil_of_le hpast)

end Source

end Reader
