import Datboi.Core.Host
import Datboi.Lib.Runs

/-!
# Positioned reads over a stream

The encoder reads at positions, the source is a sequential reader. The adapter discards up to the
position and then fills the buffer; its cursor counts discarded bytes at once, but the bytes of
a fill only when the fill is over. A reader may cut its reads short, and it may fail a read
without handing anything out.
-/

namespace Datboi.P2p

open Reader (slice)

/-- How a reader answers one read: not at all, or with so many bytes at most. -/
inductive Answer where
  | fails
  | hands (most : Nat)
  deriving DecidableEq, Repr

/-- A reader over a stream: what it has not handed out yet, and how it answers the next reads;
after them it fills every buffer. -/
structure ChunkReader where
  left : Bytes
  answers : List Answer
  deriving DecidableEq, Repr

namespace ChunkReader

def hand (reader : ChunkReader) (count : Nat) : Option Bytes × ChunkReader :=
  (some (reader.left.take count), { reader with left := reader.left.drop count })

/-- `Read::read` into a buffer of `want` bytes; `none` is an error. -/
def read (reader : ChunkReader) (want : Nat) : Option Bytes × ChunkReader :=
  match reader.answers with
  | [] => reader.hand want
  | .fails :: rest => (none, { reader with answers := rest })
  | .hands most :: rest => { reader with answers := rest }.hand (min want (max most 1))

variable {reader reader' : ChunkReader} {want : Nat} {got : Bytes}

theorem read_some (hwant : 0 < want) (hread : reader.read want = (some got, reader')) :
    got ++ reader'.left = reader.left ∧ got.length ≤ want ∧ (got = [] → reader.left = []) := by
  have hhand : ∃ count ≤ want, 0 < count ∧ got = reader.left.take count ∧
      reader'.left = reader.left.drop count := by
    unfold read at hread
    split at hread
    · cases hread
      exact ⟨want, Nat.le_refl _, hwant, rfl, rfl⟩
    · cases hread
    · rename_i most rest _
      cases hread
      exact ⟨min want (max most 1), Nat.min_le_left _ _, by omega, rfl, rfl⟩
  obtain ⟨count, hle, hpos, rfl, hleft⟩ := hhand
  refine ⟨by rw [hleft, List.take_append_drop], ?_, fun hnil => ?_⟩
  · exact (List.length_take_le _ _).trans hle
  · exact (List.take_eq_nil_iff.mp hnil).resolve_left (by omega)

theorem read_none (hread : reader.read want = (none, reader')) : reader'.left = reader.left := by
  unfold read at hread
  split at hread
  · cases hread
  · cases hread
    rfl
  · cases hread

/-- The filling loop, with what it has got so far; `none` is an error of the reader. -/
def fill (want : Nat) : Nat → Bytes → ChunkReader → Option Bytes × ChunkReader
  | 0, filled, reader => (some filled, reader)
  | fuel + 1, filled, reader =>
    if filled.length < want then
      match reader.read (want - filled.length) with
      | (none, reader) => (none, reader)
      | (some [], reader) => (some filled, reader)
      | (some got, reader) => fill want fuel (filled ++ got) reader
    else (some filled, reader)

/-- A fill takes a front part of the stream, and stops short only at its end. -/
theorem fill_some {fuel : Nat} {filled all : Bytes} (hfuel : want - filled.length ≤ fuel)
    (hfilled : filled.length ≤ want) (hrun : fill want fuel filled reader = (some all, reader')) :
    ∃ got, all = filled ++ got ∧ got ++ reader'.left = reader.left ∧ all.length ≤ want ∧
      (all.length < want → reader'.left = []) := by
  induction fuel generalizing filled reader with
  | zero =>
    cases hrun
    exact ⟨[], by simp, rfl, hfilled, fun hshort => by omega⟩
  | succ fuel ih =>
    rw [fill] at hrun
    split at hrun
    · rename_i hmore
      split at hrun
      · cases hrun
      · rename_i hread
        cases hrun
        obtain ⟨hsplit, -, hend⟩ := read_some (by omega) hread
        rw [hend rfl, List.nil_append] at hsplit
        exact ⟨[], by simp, by rw [hsplit, hend rfl]; rfl, hfilled, fun _ => hsplit⟩
      · rename_i got middle hnonempty hread
        obtain ⟨hsplit, hle, -⟩ := read_some (by omega) hread
        have hpos : 0 < got.length := List.length_pos_iff.mpr hnonempty
        obtain ⟨more, rfl, hrest, hfits, hend⟩ := @ih _ (filled ++ got)
          (by rw [List.length_append]; omega) (by rw [List.length_append]; omega) hrun
        refine ⟨got ++ more, List.append_assoc .., ?_, hfits, hend⟩
        rw [List.append_assoc, hrest, hsplit]
    · cases hrun
      exact ⟨[], by simp, rfl, hfilled, fun hshort => absurd hshort ‹_›⟩

/-- The reader fails a fill that it has begun to serve. -/
def breaksFill (reader : ChunkReader) (want : Nat) : Bool :=
  (reader.read want).1.isSome && (fill want want [] reader).1.isNone

/-- A fill that fails at its first read has taken nothing. -/
theorem fill_none (hrun : fill want want [] reader = (none, reader'))
    (hwhole : reader.breaksFill want = false) : reader'.left = reader.left := by
  rw [breaksFill, hrun, Bool.and_eq_false_iff] at hwhole
  have hfirst : (reader.read want).1 = none := by simpa using hwhole
  cases want with
  | zero => cases hrun
  | succ want =>
    cases hread : reader.read (want + 1) with
    | mk answer middle =>
      rw [hread] at hfirst
      obtain rfl : answer = none := hfirst
      rw [fill, List.length_nil, if_pos (Nat.succ_pos want), Nat.sub_zero, hread] at hrun
      cases hrun
      exact read_none hread

end ChunkReader

/-! ## The adapter -/

/-- `ForwardReadAt`: the reader and how far it is believed to have come. -/
structure ForwardReadAt where
  reader : ChunkReader
  cursor : Nat
  deriving DecidableEq, Repr

inductive ReadAtError where
  /-- Backward read on a forward-only stream. -/
  | unsupported
  | reader
  deriving DecidableEq, Repr

/-- How the discarding loop ends. -/
inductive Discarded where
  | reached
  | ended
  | failed
  deriving DecidableEq, Repr

namespace ForwardReadAt

def new (reader : ChunkReader) : ForwardReadAt := ⟨reader, 0⟩

def scratchLen : Nat := 64 * 1024

/-- Discard forward to `pos`. -/
def discard (pos : Nat) : Nat → ForwardReadAt → Discarded × ForwardReadAt
  | 0, f => (.reached, f)
  | fuel + 1, f =>
    if f.cursor < pos then
      match f.reader.read (min (pos - f.cursor) scratchLen) with
      | (none, reader) => (.failed, { f with reader })
      | (some [], reader) => (.ended, { f with reader })
      | (some got, reader) => discard pos fuel ⟨reader, f.cursor + got.length⟩
    else (.reached, f)

def readAt (f : ForwardReadAt) (pos len : Nat) : Except ReadAtError Bytes × ForwardReadAt :=
  if pos < f.cursor then (.error .unsupported, f)
  else
    match f.discard pos (pos - f.cursor) with
    | (.failed, f) => (.error .reader, f)
    | (.ended, f) => (.ok [], f)
    | (.reached, f) =>
      match f.reader.fill len len [] with
      | (none, reader) => (.error .reader, { f with reader })
      | (some filled, reader) => (.ok filled, ⟨reader, f.cursor + filled.length⟩)

/-- The fill of a call is failed by the reader after it has been handed some bytes. -/
def breaks (f : ForwardReadAt) (call : Nat × Nat) : Bool :=
  match f.discard call.1 (call.1 - f.cursor) with
  | (.reached, f) => f.reader.breaksFill call.2
  | _ => false

/-- The state after a call. -/
def next (f : ForwardReadAt) (call : Nat × Nat) : ForwardReadAt := (f.readAt call.1 call.2).2

/-- A call that answers with bytes answers with those at its position, fewer than asked for only
at the end of the stream; a call before what has been consumed is refused. -/
structure Right (whole : Bytes) (f : ForwardReadAt) (pos len : Nat) : Prop where
  answered : ∀ got, (f.readAt pos len).1 = .ok got → got = slice whole pos got.length ∧
    got.length ≤ len ∧ (got.length < len → whole.length ≤ pos + got.length)
  refused : pos < whole.length - f.reader.left.length →
    f.readAt pos len = (.error .unsupported, f)

/-- The cursor is where the reader is. -/
structure Synced (whole : Bytes) (f : ForwardReadAt) : Prop where
  within : f.cursor ≤ whole.length
  left_eq : f.reader.left = whole.drop f.cursor

variable {whole : Bytes} {f f' : ForwardReadAt} {pos len : Nat}

theorem synced_new (whole : Bytes) (answers : List Answer) : Synced whole (new ⟨whole, answers⟩) :=
  ⟨Nat.zero_le _, rfl⟩

/-- A reader that hands out bytes takes the cursor with it. -/
theorem Synced.advance (hsynced : Synced whole f) {reader : ChunkReader} {got : Bytes}
    (hsplit : got ++ reader.left = f.reader.left) :
    Synced whole ⟨reader, f.cursor + got.length⟩ ∧ got = slice whole f.cursor got.length := by
  have hwhole := hsynced.left_eq
  rw [← hsplit] at hwhole
  have hlen := congrArg List.length hwhole
  rw [List.length_append, List.length_drop] at hlen
  have hwithin := hsynced.within
  refine ⟨⟨by simp only; omega, ?_⟩, ?_⟩
  · rw [← List.drop_drop, ← hwhole, List.drop_left]
  · rw [slice, ← hwhole, List.take_left]

/-- Discarding stops at the position, at the end of the stream, or where the reader fails. -/
theorem discard_spec {fuel : Nat} {ends : Discarded} (hsynced : Synced whole f)
    (hle : f.cursor ≤ pos) (hfuel : pos - f.cursor ≤ fuel)
    (hrun : f.discard pos fuel = (ends, f')) :
    Synced whole f' ∧ (ends = .reached → f'.cursor = pos) ∧
      (ends = .ended → whole.length ≤ pos) := by
  induction fuel generalizing f with
  | zero =>
    cases hrun
    exact ⟨hsynced, fun _ => by omega, fun h => by cases h⟩
  | succ fuel ih =>
    rw [discard] at hrun
    split at hrun
    · rename_i hbefore
      have hscratch : 0 < scratchLen := by decide
      split at hrun
      · rename_i hread
        cases hrun
        exact ⟨⟨hsynced.within, (ChunkReader.read_none hread).trans hsynced.left_eq⟩,
          (fun h => by cases h), (fun h => by cases h)⟩
      · rename_i hread
        cases hrun
        obtain ⟨hsplit, -, hend⟩ := ChunkReader.read_some (by omega) hread
        have hpast := hsynced.left_eq
        rw [hend rfl, eq_comm, List.drop_eq_nil_iff] at hpast
        exact ⟨⟨hsynced.within, hsplit.trans hsynced.left_eq⟩,
          (fun h => by cases h), fun _ => by omega⟩
      · rename_i got reader hnonempty hread
        obtain ⟨hsplit, hgot, -⟩ := ChunkReader.read_some (by omega) hread
        have hpos : 0 < got.length := List.length_pos_iff.mpr hnonempty
        exact ih (hsynced.advance hsplit).1 (by simp only; omega) (by simp only; omega) hrun
    · cases hrun
      exact ⟨hsynced, fun _ => by omega, fun h => by cases h⟩

/-- A call whose fill is not broken off is right, and leaves the cursor where the reader is. -/
theorem Synced.readAt (hsynced : Synced whole f) (hwhole : f.breaks (pos, len) = false) :
    Right whole f pos len ∧ Synced whole (f.next (pos, len)) := by
  have hconsumed : whole.length - f.reader.left.length = f.cursor := by
    have hwithin := hsynced.within
    rw [hsynced.left_eq, List.length_drop]
    omega
  have hback : pos < whole.length - f.reader.left.length →
      f.readAt pos len = (.error .unsupported, f) := by
    rw [hconsumed]
    intro hbefore
    rw [ForwardReadAt.readAt, if_pos hbefore]
  have herror : ∀ e f', f.readAt pos len = (.error e, f') → Synced whole f' →
      Right whole f pos len ∧ Synced whole (f.next (pos, len)) := by
    intro e f' hrun hsynced'
    rw [next, hrun]
    refine ⟨⟨fun got hgot => ?_, hback⟩, hsynced'⟩
    rw [hrun] at hgot
    cases hgot
  have hok : ∀ got f', f.readAt pos len = (.ok got, f') → Synced whole f' →
      got = slice whole pos got.length → got.length ≤ len →
      (got.length < len → whole.length ≤ pos + got.length) →
      Right whole f pos len ∧ Synced whole (f.next (pos, len)) := by
    intro got f' hrun hsynced' hslice hfits hshort
    rw [next, hrun]
    refine ⟨⟨fun out hout => ?_, hback⟩, hsynced'⟩
    rw [hrun] at hout
    cases hout
    exact ⟨hslice, hfits, hshort⟩
  by_cases hbefore : pos < f.cursor
  · exact herror _ _ (hback (hconsumed ▸ hbefore)) hsynced
  cases hdiscard : f.discard pos (pos - f.cursor) with
  | mk ends middle =>
    obtain ⟨hmiddle, hreached, hended⟩ :=
      discard_spec hsynced (Nat.le_of_not_lt hbefore) (Nat.le_refl _) hdiscard
    rw [breaks, hdiscard] at hwhole
    cases ends with
    | failed =>
      exact herror _ middle (by rw [ForwardReadAt.readAt, if_neg hbefore, hdiscard]) hmiddle
    | ended =>
      exact hok [] middle (by rw [ForwardReadAt.readAt, if_neg hbefore, hdiscard]) hmiddle
        (by simp) (Nat.zero_le _) fun _ => hended rfl
    | reached =>
      obtain rfl := hreached rfl
      cases hfill : middle.reader.fill len len [] with
      | mk answer reader =>
        cases answer with
        | none =>
          refine herror .reader { middle with reader } ?_ ⟨hmiddle.within,
            (ChunkReader.fill_none hfill hwhole).trans hmiddle.left_eq⟩
          rw [ForwardReadAt.readAt, if_neg hbefore, hdiscard]
          simp only [hfill]
        | some filled =>
          obtain ⟨got, rfl, hsplit, hfits, hend⟩ :=
            ChunkReader.fill_some (by simp) (by simp) hfill
          obtain ⟨hlast, hslice⟩ := hmiddle.advance hsplit
          refine hok _ _ ?_ hlast hslice hfits fun hshort => ?_
          · rw [ForwardReadAt.readAt, if_neg hbefore, hdiscard]
            simp only [hfill]
          · have hpast := hlast.left_eq
            rwa [hend hshort, eq_comm, List.drop_eq_nil_iff] at hpast

/-- Over any stream and any reads of it, every call of a run is right, as long as the reader
breaks off no fill. -/
theorem run_right (whole : Bytes) (answers : List Answer) (calls : List (Nat × Nat))
    (hwhole : Runs.Along next (fun f call => f.breaks call = false) (new ⟨whole, answers⟩) calls)
    (first rest : List (Nat × Nat)) (pos len : Nat) (hcalls : calls = first ++ (pos, len) :: rest) :
    Right whole (Runs.run next (new ⟨whole, answers⟩) first) pos len := by
  subst hcalls
  obtain ⟨hfirst, hcall, -⟩ := Runs.along_append.mp hwhole
  have hkeeps : ∀ f call, Synced whole f → f.breaks call = false → Synced whole (f.next call) :=
    fun f call hsynced hwhole => (hsynced.readAt hwhole).2
  have hsynced := hfirst.invariant hkeeps (synced_new whole answers)
  exact (hsynced.readAt hcall).1

/-- One short read, a failure, and bytes to the end. -/
theorem run_right_short :
    Right [1, 2, 3] (Runs.run next (new ⟨[1, 2, 3], [.hands 1, .hands 1, .fails]⟩) [(0, 2)]) 2 4 :=
  run_right [1, 2, 3] [.hands 1, .hands 1, .fails] [(0, 2), (2, 4)] (by decide) [(0, 2)] [] 2 4 rfl

/-- A fill is failed after its first byte; the same call again gets the wrong bytes. -/
theorem readAt_drifts :
    ¬ Right [1, 2, 3] (Runs.run next (new ⟨[1, 2, 3], [.hands 1, .fails]⟩) [(0, 2)]) 0 2 := by
  intro hright
  exact absurd (hright.answered [2, 3] (by decide)).1 (by decide)

end ForwardReadAt

end Datboi.P2p
