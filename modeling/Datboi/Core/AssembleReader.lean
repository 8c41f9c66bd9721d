import Datboi.Core.AssembleCodec
import Datboi.Core.Host
import Datboi.Lib.Reads

/-!
# Reading an assembled output

The reader walks the segments and hands out what fits in the caller's buffer, never
more than one segment at a time. Whatever buffers the caller brings, reading to the end
yields the assembled output.
-/

namespace Datboi

open Reader (HandsOut slice)

inductive ReaderError where
  | params (e : AssembleError)
  | inputIndex (segment inputIx : Nat)
  | sourceRange (segment offset len sourceLen : Nat)
  | io (e : IoError)
  deriving DecidableEq

/-- The bytes of a source, all of them or none. -/
def readSource (source : Bytes) (offset count : Nat) : Except IoError Bytes :=
  if offset + count ≤ source.length then .ok (slice source offset count) else .error {}

/-- Every range names an input and lies within it; `ix` counts the segments passed. -/
def validateSources (sources : List Bytes) : List Segment → Nat → Except ReaderError Unit
  | [], _ => .ok ()
  | .blobRange inputIx offset len :: rest, ix =>
    match sources[inputIx]? with
    | none => .error (.inputIndex ix inputIx)
    | some source =>
      if (checkedAdd offset len).all (source.length < ·) then
        .error (.sourceRange ix offset len source.length)
      else validateSources sources rest (ix + 1)
  | _ :: rest, ix => validateSources sources rest (ix + 1)

/-- Where a reader is: the current segment, and how much of it went out already. -/
structure AssembleReader where
  segment : Nat := 0
  emitted : Nat := 0
  deriving DecidableEq

/-- The next `count` bytes of a segment of which `emitted` are out. -/
def Segment.emit (sources : List Bytes) (emitted count : Nat) : Segment → Except IoError Bytes
  | .blobRange inputIx offset _ => readSource (sources.getD inputIx []) (offset + emitted) count
  | .fill byte _ => .ok (List.replicate count byte)
  | .literal bytes => .ok (slice bytes emitted count)

namespace AssembleReader

variable (params : AssembleParams) (sources : List Bytes)

/-- `Read::read` with a buffer of `want` bytes. -/
def read (want : Nat) (reader : AssembleReader) : Except IoError (Bytes × AssembleReader) :=
  match _hsegment : params.segments[reader.segment]? with
  | none => .ok ([], reader)
  | some segment =>
    let remaining := segment.len - reader.emitted
    if remaining = 0 then read want ⟨reader.segment + 1, 0⟩
    else if want = 0 then .ok ([], reader)
    else
      let n := min remaining want
      match segment.emit sources reader.emitted n with
      | .error e => .error e
      | .ok got => .ok (got, ⟨reader.segment, reader.emitted + n⟩)
termination_by params.segments.length - reader.segment
decreasing_by
  obtain ⟨hlt, _⟩ := List.getElem?_eq_some_iff.mp _hsegment
  omega

/-- `Read::read_to_end`: read until nothing comes, with whatever buffers. -/
def readToEnd (want : Nat → Nat) : Nat → AssembleReader → Except IoError Bytes
  | 0, _ => .ok []
  | fuel + 1, reader =>
    match read params sources (want fuel) reader with
    | .error e => .error e
    | .ok ([], _) => .ok []
    | .ok (first :: got, reader) =>
      match readToEnd want fuel reader with
      | .error e => .error e
      | .ok rest => .ok (first :: got ++ rest)

end AssembleReader

/-- The full output through a validated reader. A round yields at least a byte, so one
round more than there are bytes reaches the end. -/
def AssembleParams.materialize (params : AssembleParams) (sources : List Bytes)
    (want : Nat → Nat) : Except ReaderError Bytes :=
  match params.validate with
  | .error e => .error (.params e)
  | .ok () =>
    match validateSources sources params.segments 0 with
    | .error e => .error e
    | .ok () =>
      match AssembleReader.readToEnd params sources want
          ((params.segments.map Segment.len).sum + 1) {} with
      | .error e => .error (.io e)
      | .ok bytes => .ok bytes

variable {params : AssembleParams} {sources : List Bytes}

theorem validateSources_eq_ok {segments : List Segment} (ix : Nat)
    (hin : ∀ segment ∈ segments, segment.InBounds sources)
    (hsources : ∀ source ∈ sources, source.length < u64Limit) :
    validateSources sources segments ix = .ok () := by
  induction segments generalizing ix with
  | nil => rfl
  | cons segment rest ih =>
    rw [List.forall_mem_cons] at hin
    cases segment with
    | blobRange inputIx offset len =>
      obtain ⟨source, hget, hfits⟩ := hin.1
      have hlimit := hsources source (List.mem_of_getElem? hget)
      have hadd : checkedAdd offset len = some (offset + len) := if_pos (by omega)
      have hfits : ¬ source.length < offset + len := by omega
      simp [validateSources, hget, hadd, hfits, ih _ hin.2]
    | fill byte len => exact ih _ hin.2
    | literal bytes => exact ih _ hin.2

theorem inBounds_of_validateSources {segments : List Segment} {ix : Nat}
    (hvalidate : validateSources sources segments ix = .ok ()) :
    ∀ segment ∈ segments, segment.InBounds sources := by
  induction segments generalizing ix with
  | nil => simp
  | cons segment rest ih =>
    rw [List.forall_mem_cons]
    cases segment with
    | blobRange inputIx offset len =>
      rw [validateSources] at hvalidate
      split at hvalidate
      · cases hvalidate
      · rename_i source hsource
        split at hvalidate
        · cases hvalidate
        · rename_i hfits
          refine ⟨⟨source, hsource, ?_⟩, ih hvalidate⟩
          unfold checkedAdd at hfits
          split at hfits
          · simpa using hfits
          · simp at hfits
    | fill byte len => exact ⟨trivial, ih hvalidate⟩
    | literal bytes => exact ⟨trivial, ih hvalidate⟩

namespace Segment

/-- What a segment hands out next is the matching part of its content. -/
theorem emit_eq_ok {segment : Segment} {emitted count : Nat} (hin : segment.InBounds sources)
    (hfits : emitted + count ≤ segment.len) :
    segment.emit sources emitted count = .ok (slice (segment.content sources) emitted count) := by
  cases segment with
  | blobRange inputIx offset len =>
    obtain ⟨source, hget, hbound⟩ := hin
    simp only [Segment.len] at hfits
    have hread : offset + emitted + count ≤ source.length := by omega
    simp only [emit, content, List.getD_eq_getElem?_getD, hget, Option.getD_some, readSource,
      if_pos hread, Reader.slice_slice _ _ _ _ _ hfits]
  | fill byte len =>
    simp only [Segment.len] at hfits
    simp only [emit, content, slice, List.drop_replicate, List.take_replicate]
    congr 2
    omega
  | literal bytes => rfl

end Segment

namespace AssembleReader

/-- What is still to come. -/
def pending (params : AssembleParams) (sources : List Bytes) (reader : AssembleReader) : Bytes :=
  match params.segments.drop reader.segment with
  | [] => []
  | segment :: rest => (segment.content sources).drop reader.emitted ++ assembled sources rest

theorem pending_start : pending params sources {} = assembled sources params.segments := by
  obtain ⟨segments⟩ := params
  cases segments <;> simp [pending, assembled]

theorem pending_of_getElem? {reader : AssembleReader} {segment : Segment}
    (hsegment : params.segments[reader.segment]? = some segment) :
    pending params sources reader = (segment.content sources).drop reader.emitted ++
      assembled sources (params.segments.drop (reader.segment + 1)) := by
  obtain ⟨hlt, rfl⟩ := List.getElem?_eq_some_iff.mp hsegment
  rw [pending, List.drop_eq_getElem_cons hlt]

theorem pending_next (index : Nat) :
    pending params sources ⟨index, 0⟩ = assembled sources (params.segments.drop index) := by
  unfold pending
  cases params.segments.drop index <;> simp [assembled]

variable {reader : AssembleReader}

theorem read_none {want : Nat} (hnone : params.segments[reader.segment]? = none) :
    read params sources want reader = .ok ([], reader) := by
  rw [read]
  split
  · rfl
  · simp_all

theorem read_some {want : Nat} {segment : Segment}
    (hsegment : params.segments[reader.segment]? = some segment) :
    read params sources want reader =
      if segment.len - reader.emitted = 0 then read params sources want ⟨reader.segment + 1, 0⟩
      else if want = 0 then .ok ([], reader)
      else
        match segment.emit sources reader.emitted (min (segment.len - reader.emitted) want) with
        | .error e => .error e
        | .ok got => .ok (got,
            ⟨reader.segment, reader.emitted + min (segment.len - reader.emitted) want⟩) := by
  rw [read]
  split
  · simp_all
  · rename_i found hfound
    rw [hsegment, Option.some.injEq] at hfound
    subst hfound
    rfl

/-- A read takes a piece off the front, empty only if the buffer is or nothing is left. -/
theorem read_handsOut (hin : ∀ segment ∈ params.segments, segment.InBounds sources) :
    HandsOut (read params sources) (pending params sources) := by
  intro want reader
  induction reader using read.induct params sources want with
  | case1 reader hnone =>
    have hpast : params.segments.drop reader.segment = [] :=
      List.drop_eq_nil_of_le (List.getElem?_eq_none_iff.mp hnone)
    have hnothing : pending params sources reader = [] := by rw [pending, hpast]
    exact ⟨[], reader, read_none hnone, List.nil_append _, Nat.zero_le _, fun _ => Or.inr hnothing⟩
  | case2 reader segment hsegment remaining hdone ih =>
    obtain ⟨got, next, hread, hsplit, hend⟩ := ih
    have hlen := Segment.length_content (hin segment (List.mem_of_getElem? hsegment))
    have hspent : (segment.content sources).drop reader.emitted = [] :=
      List.drop_eq_nil_of_le (by omega)
    have hpending : pending params sources reader =
        pending params sources ⟨reader.segment + 1, 0⟩ := by
      rw [pending_of_getElem? hsegment, hspent, List.nil_append, pending_next]
    rw [hpending]
    exact ⟨got, next, by rw [read_some hsegment, if_pos hdone, hread], hsplit, hend⟩
  | case3 reader segment hsegment remaining hmore hroom =>
    refine ⟨[], reader, ?_, List.nil_append _, Nat.zero_le _, fun _ => Or.inl hroom⟩
    rw [read_some hsegment, if_neg hmore, if_pos hroom]
  | case4 reader segment hsegment remaining hmore hroom n e herror =>
    have hemit := Segment.emit_eq_ok (hin segment (List.mem_of_getElem? hsegment))
      (show reader.emitted + n ≤ segment.len by omega)
    rw [hemit] at herror
    cases herror
  | case5 reader segment hsegment remaining hmore hroom n got hemit =>
    have hsegmentIn := hin segment (List.mem_of_getElem? hsegment)
    have hlen := Segment.length_content hsegmentIn
    have hgot := Segment.emit_eq_ok hsegmentIn
      (show reader.emitted + n ≤ segment.len by omega)
    rw [hemit, Except.ok.injEq] at hgot
    refine ⟨got, ⟨reader.segment, reader.emitted + n⟩, ?_, ?_, ?_, ?_⟩
    · rw [read_some hsegment, if_neg hmore, if_neg hroom, hemit]
    · have hnext := @pending_of_getElem? params sources ⟨reader.segment, reader.emitted + n⟩
        segment hsegment
      rw [hnext, pending_of_getElem? hsegment, ← List.append_assoc, hgot, slice,
        ← List.drop_drop, List.take_append_drop]
    · rw [hgot, Reader.length_slice]
      exact (Nat.min_le_left _ _).trans (Nat.min_le_right _ _)
    · intro hnil
      have hempty := congrArg List.length (hgot.symm.trans hnil)
      rw [Reader.length_slice, hlen, List.length_nil] at hempty
      omega

/-- Reading to the end hands out everything that is pending. -/
theorem readToEnd_eq_ok (hin : ∀ segment ∈ params.segments, segment.InBounds sources)
    {want : Nat → Nat} (hwant : ∀ round, 0 < want round) {fuel : Nat}
    (hfuel : (pending params sources reader).length < fuel) :
    readToEnd params sources want fuel reader = .ok (pending params sources reader) := by
  induction fuel generalizing reader with
  | zero => omega
  | succ fuel ih =>
    obtain ⟨got, next, hread, hsplit, -, hend⟩ := read_handsOut hin (want fuel) reader
    rw [readToEnd, hread]
    cases got with
    | nil => rw [(hend rfl).resolve_left (Nat.ne_of_gt (hwant fuel))]
    | cons first got =>
      have hlength := congrArg List.length hsplit
      rw [List.length_append, List.length_cons] at hlength
      simp only [ih (show (pending params sources next).length < fuel by omega), hsplit]

end AssembleReader

/-- Over sources that pass the check, valid parameters yield the assembled output, whatever
the buffers. -/
theorem AssembleParams.materialize_eq_ok (hvalidate : params.validate = .ok ())
    (hsources : validateSources sources params.segments 0 = .ok ()) {want : Nat → Nat}
    (hwant : ∀ round, 0 < want round) :
    params.materialize sources want = .ok (assembled sources params.segments) := by
  have hin := inBounds_of_validateSources hsources
  have hlength : (assembled sources params.segments).length =
      (params.segments.map Segment.len).sum := by
    rw [assembled, List.length_flatMap]
    congr 1
    exact List.map_congr_left fun segment hmem => Segment.length_content (hin segment hmem)
  have hfuel : (AssembleReader.pending params sources {}).length <
      (params.segments.map Segment.len).sum + 1 := by
    rw [AssembleReader.pending_start, hlength]
    omega
  have hread := AssembleReader.readToEnd_eq_ok hin hwant hfuel
  rw [AssembleReader.pending_start] at hread
  simp only [materialize, hvalidate, hsources, hread]

end Datboi
