import Mathlib.Data.List.Basic

/-!
# Sequential streams and random-access sources

A stream hands out items in order and then either ends or fails. A source answers
`readAt offset count` with at most `count` items. The loops that callers run over
the two, reading exactly, reading up to the end, or turning a source into a
stream, are defined once here; over a source that serves a fixed list they all
return slices of that list.
-/

namespace Reader

variable {ε α : Type*}

/-- The items delivered before the end, and the failure that ended it, if any. -/
structure Stream (ε α : Type*) where
  items : List α
  failure : Option ε := none
  deriving DecidableEq

/-- Random access, with a declared length. -/
@[ext]
structure Source (ε α : Type*) where
  len : Nat
  readAt : Nat → Nat → Except ε (List α)

/-- At most `count` items; a failure behind them is not met. -/
def Stream.take (stream : Stream ε α) (count : Nat) : Stream ε α where
  items := stream.items.take count
  failure := if count ≤ stream.items.length then none else stream.failure

/-- The `count` items that start at `offset`, fewer at the end. -/
def slice (items : List α) (offset count : Nat) : List α := (items.drop offset).take count

@[simp] theorem length_slice (items : List α) (offset count : Nat) :
    (slice items offset count).length = min count (items.length - offset) := by
  simp [slice]

@[simp] theorem slice_zero_right (items : List α) (offset : Nat) : slice items offset 0 = [] := by
  simp [slice]

theorem slice_eq_nil_iff {items : List α} {offset count : Nat} :
    slice items offset count = [] ↔ count = 0 ∨ items.length ≤ offset := by
  simp [slice, List.take_eq_nil_iff, List.drop_eq_nil_iff]

theorem slice_zero_length (items : List α) : slice items 0 items.length = items := by
  simp [slice]

/-- A slice is determined by its own length. -/
theorem slice_length_slice (items : List α) (offset count : Nat) :
    slice items offset (slice items offset count).length = slice items offset count := by
  rw [length_slice, slice, slice, List.take_eq_take_iff, List.length_drop]
  omega

/-- Two adjacent slices make one. -/
theorem slice_append_slice (items : List α) (offset m n : Nat) :
    slice items offset m ++ slice items (offset + m) n = slice items offset (m + n) := by
  rw [slice, slice, slice, List.take_add, List.drop_drop]

/-- A slice of a slice. -/
theorem slice_slice (items : List α) (offset count inner n : Nat) (hin : inner + n ≤ count) :
    slice (slice items offset count) inner n = slice items (offset + inner) n := by
  rw [slice, slice, slice, List.drop_take, List.drop_drop, List.take_take]
  congr 1
  omega

theorem slice_middle (front middle back : List α) :
    slice (front ++ (middle ++ back)) front.length middle.length = middle := by
  rw [slice, List.drop_left, List.take_left]

theorem slice_append (front back : List α) (offset count : Nat) :
    slice (front ++ back) offset count =
      slice front offset count ++
        slice back (offset - front.length) (count - (front.length - offset)) := by
  rw [slice, slice, slice, List.drop_append, List.take_append, List.length_drop]

/-! ## Serving a fixed list -/

namespace Source

/-- The source whose contents are a list. -/
def ofList (items : List α) : Source ε α where
  len := items.length
  readAt offset count := .ok (slice items offset count)

@[simp] theorem ofList_len (items : List α) : (ofList items : Source ε α).len = items.length := rfl

@[simp] theorem ofList_readAt (items : List α) (offset count : Nat) :
    (ofList items : Source ε α).readAt offset count = .ok (slice items offset count) := rfl

/-- Every successful read is a slice of the list; reads may fail. -/
structure Sound (src : Source ε α) (items : List α) : Prop where
  len_eq : src.len = items.length
  readAt_ok : ∀ {offset count got}, src.readAt offset count = .ok got →
    got = slice items offset count

/-! ## Reading exactly -/

/-- Keep reading until the buffer is full; a read of nothing is an early end. -/
def readExactLoop (src : Source ε α) (early : ε) : Nat → Nat → Nat → Except ε (List α)
  | _, _, 0 => .ok []
  | 0, _, _ + 1 => .error early
  | fuel + 1, offset, count + 1 =>
    match src.readAt offset (count + 1) with
    | .error e => .error e
    | .ok [] => .error early
    | .ok (a :: got) =>
      match readExactLoop src early fuel (offset + (got.length + 1)) (count - got.length) with
      | .error e => .error e
      | .ok rest => .ok (a :: got ++ rest)

/-- Fill a buffer of `count` items completely. Every round makes progress, so
`count` rounds suffice. -/
def readExact (src : Source ε α) (early : ε) (offset count : Nat) : Except ε (List α) :=
  readExactLoop src early count offset count

@[simp] theorem readExactLoop_zero (src : Source ε α) (early : ε) (fuel offset : Nat) :
    readExactLoop src early fuel offset 0 = .ok [] := by
  cases fuel <;> rfl

/-! ## Sources with short reads -/

/-- A source that serves a list, maybe in shorter reads than asked for: each read hands out a
front part of what was asked for, and nothing only where nothing was asked for or is left. -/
structure Serves (src : Source ε α) (items : List α) : Prop where
  len_eq : src.len = items.length
  readAt_ok : ∀ offset count, ∃ n ≤ count, src.readAt offset count = .ok (slice items offset n) ∧
    (0 < count → 0 < n)

theorem serves_ofList (items : List α) : Serves (ofList items : Source ε α) items where
  len_eq := rfl
  readAt_ok _ count := ⟨count, Nat.le_refl _, rfl, fun hcount => hcount⟩

theorem readExactLoop_of_serves {src : Source ε α} {items : List α} (hserves : src.Serves items)
    (early : ε) {fuel offset count : Nat} (hfuel : count ≤ fuel)
    (hfits : offset + count ≤ items.length) :
    readExactLoop src early fuel offset count = .ok (slice items offset count) := by
  induction fuel generalizing offset count with
  | zero =>
    obtain rfl : count = 0 := by omega
    simp
  | succ fuel ih =>
    cases count with
    | zero => simp
    | succ count =>
      obtain ⟨n, hn, hread, hpos⟩ := hserves.readAt_ok offset (count + 1)
      have hpos := hpos (Nat.succ_pos count)
      have hlength : (slice items offset n).length = n := by
        rw [length_slice]
        omega
      rw [readExactLoop, hread]
      cases hgot : slice items offset n with
      | nil =>
        rw [hgot, List.length_nil] at hlength
        omega
      | cons a rest =>
        rw [hgot, List.length_cons] at hlength
        have hrest := @ih (offset + (rest.length + 1)) (count - rest.length) (by omega)
          (by omega)
        dsimp only
        rw [hrest]
        dsimp only
        rw [← hgot, hlength, slice_append_slice]
        congr 2
        omega

/-- Reading exactly puts short reads together. -/
theorem readExact_of_serves {src : Source ε α} {items : List α} (hserves : src.Serves items)
    (early : ε) {offset count : Nat} (hfits : offset + count ≤ items.length) :
    src.readExact early offset count = .ok (slice items offset count) :=
  readExactLoop_of_serves hserves early (Nat.le_refl _) hfits

theorem readExact_ofList (items : List α) (early : ε) (offset count : Nat)
    (hfits : offset + count ≤ items.length) :
    (ofList items : Source ε α).readExact early offset count =
      .ok (slice items offset count) :=
  readExact_of_serves (serves_ofList items) early hfits

/-! ## Reading up to the end -/

/-- Keep reading until the buffer is full or the source ends. -/
def readUpToLoop (src : Source ε α) : Nat → Nat → Nat → Except ε (List α)
  | _, _, 0 => .ok []
  | 0, _, _ + 1 => .ok []
  | fuel + 1, offset, count + 1 =>
    match src.readAt offset (count + 1) with
    | .error e => .error e
    | .ok [] => .ok []
    | .ok (a :: got) =>
      match readUpToLoop src fuel (offset + (got.length + 1)) (count - got.length) with
      | .error e => .error e
      | .ok rest => .ok (a :: got ++ rest)

def readUpTo (src : Source ε α) (offset count : Nat) : Except ε (List α) :=
  readUpToLoop src count offset count

@[simp] theorem readUpToLoop_zero (src : Source ε α) (fuel offset : Nat) :
    readUpToLoop src fuel offset 0 = .ok [] := by
  cases fuel <;> rfl

/-- Past the end of a list there is nothing more to read. -/
theorem readUpToLoop_ofList_past (items : List α) (fuel offset count : Nat)
    (hpast : items.length ≤ offset) :
    readUpToLoop (ofList items : Source ε α) fuel offset count = .ok [] := by
  cases fuel <;> cases count <;>
    simp [readUpToLoop, slice_eq_nil_iff.mpr (Or.inr hpast)]

theorem readUpTo_ofList (items : List α) (offset count : Nat) :
    (ofList items : Source ε α).readUpTo offset count = .ok (slice items offset count) := by
  cases count with
  | zero => simp [readUpTo]
  | succ count =>
    rw [readUpTo, readUpToLoop, ofList_readAt]
    cases hgot : slice items offset (count + 1) with
    | nil => rfl
    | cons a rest =>
      have hlen := congrArg List.length hgot
      rw [length_slice, List.length_cons] at hlen
      by_cases hfull : count = rest.length
      · subst hfull
        simp
      · have hpast : items.length ≤ offset + (rest.length + 1) := by omega
        simp [readUpToLoop_ofList_past items _ _ _ hpast]

/-! ## A source as a stream -/

/-- Read chunk after chunk from `offset` until a read returns nothing. -/
def streamLoop (src : Source ε α) (chunk : Nat) : Nat → Nat → Stream ε α
  | 0, _ => ⟨[], none⟩
  | fuel + 1, offset =>
    match src.readAt offset chunk with
    | .error e => ⟨[], some e⟩
    | .ok [] => ⟨[], none⟩
    | .ok (a :: got) =>
      let rest := streamLoop src chunk fuel (offset + (got.length + 1))
      ⟨a :: got ++ rest.items, rest.failure⟩

/-- The whole source in order. -/
def stream (src : Source ε α) (chunk : Nat) : Stream ε α :=
  streamLoop src chunk (src.len + 1) 0

theorem streamLoop_ofList (items : List α) (chunk fuel offset : Nat) (hchunk : 0 < chunk)
    (hfuel : items.length - offset < fuel) :
    streamLoop (ofList items : Source ε α) chunk fuel offset = ⟨items.drop offset, none⟩ := by
  induction fuel generalizing offset with
  | zero => omega
  | succ fuel ih =>
    rw [streamLoop, ofList_readAt]
    cases hgot : slice items offset chunk with
    | nil =>
      rcases slice_eq_nil_iff.mp hgot with hzero | hpast
      · omega
      · simp [List.drop_eq_nil_of_le hpast]
    | cons a rest =>
      have hlen := congrArg List.length hgot
      rw [length_slice, List.length_cons] at hlen
      simp only
      rw [ih (offset + (rest.length + 1)) (by omega), ← hgot]
      have hsplit : slice items offset chunk = (items.drop offset).take (rest.length + 1) := by
        rw [← slice_length_slice, hgot, List.length_cons, slice]
      rw [hsplit, ← List.drop_drop, List.take_append_drop]

theorem stream_ofList (items : List α) (chunk : Nat) (hchunk : 0 < chunk) :
    (ofList items : Source ε α).stream chunk = ⟨items, none⟩ := by
  rw [stream, streamLoop_ofList items chunk _ 0 hchunk (by simp)]
  rfl

/-- A window of `remaining` items from `offset`, in order; a source that ends
inside the window is an early end. -/
def windowLoop (src : Source ε α) (early : ε) (chunk : Nat) : Nat → Nat → Nat → Stream ε α
  | _, _, 0 => ⟨[], none⟩
  | 0, _, _ + 1 => ⟨[], some early⟩
  | fuel + 1, offset, remaining + 1 =>
    match src.readAt offset (min (remaining + 1) chunk) with
    | .error e => ⟨[], some e⟩
    | .ok [] => ⟨[], some early⟩
    | .ok (a :: got) =>
      let rest := windowLoop src early chunk fuel (offset + (got.length + 1))
        (remaining - got.length)
      ⟨a :: got ++ rest.items, rest.failure⟩

def window (src : Source ε α) (early : ε) (chunk offset count : Nat) : Stream ε α :=
  windowLoop src early chunk count offset count

end Source

end Reader
