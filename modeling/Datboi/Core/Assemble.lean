import Datboi.Core.Recipe
import Datboi.Lib.Reader

/-!
# The assemble builtin

Ordered segments over input blobs, fill bytes and short literals. The operation is
offset-affine: `translate` resolves any range of the output into pieces of the
inputs without producing the rest, merging pieces that continue one another.
-/

namespace Datboi

open Reader (slice)

/-- One past the largest 64-bit value. -/
def u64Limit : Nat := 2 ^ 64

/-- `u64::checked_add`. -/
def checkedAdd (a b : Nat) : Option Nat := if a + b < u64Limit then some (a + b) else none

/-- `u64::saturating_add`. -/
def saturatingAdd (a b : Nat) : Nat := min (a + b) (u64Limit - 1)

/-- Literals above this must be blobs of their own. -/
def literalCap : Nat := 4096

inductive Segment where
  | blobRange (inputIx offset len : Nat)
  | fill (byte : UInt8) (len : Nat)
  | literal (bytes : Bytes)
  deriving DecidableEq, Repr

def Segment.len : Segment → Nat
  | .blobRange _ _ len => len
  | .fill _ len => len
  | .literal bytes => bytes.length

structure AssembleParams where
  segments : List Segment
  deriving DecidableEq, Repr

inductive AssembleError where
  | params (what : String)
  | sizeOverflow
  | rangeOutOfBounds
  deriving DecidableEq, Repr

/-- The checks a segment list passes before it is encoded or after it is decoded. -/
def AssembleParams.validate (params : AssembleParams) : Except AssembleError Unit := do
  if params.segments = [] then throw (.params "empty segment list")
  for segment in params.segments do
    match segment with
    | .literal bytes =>
      if bytes = [] then throw (.params "empty literal")
      if literalCap < bytes.length then throw (.params "literal exceeds 4096-byte cap")
    | segment => if segment.len = 0 then throw (.params "zero-length segment")

/-- Sum of the segment lengths, `none` on overflow. -/
def checkedSize : List Segment → Nat → Option Nat
  | [], acc => some acc
  | segment :: rest, acc => (checkedAdd acc segment.len).bind (checkedSize rest)

/-- Total claimed output size. -/
def AssembleParams.outputSize (params : AssembleParams) : Except AssembleError Nat :=
  (checkedSize params.segments 0).elim (.error .sizeOverflow) .ok

/-- A resolved piece of an output range. -/
inductive Piece where
  | input (inputIx offset len : Nat)
  | fill (byte : UInt8) (len : Nat)
  | literal (bytes : Bytes)
  deriving DecidableEq, Repr

/-- The part of a segment that starts `within` it. -/
def Segment.piece (segment : Segment) (within len : Nat) : Piece :=
  match segment with
  | .blobRange inputIx offset _ => .input inputIx (offset + within) len
  | .fill byte _ => .fill byte len
  | .literal bytes => .literal (slice bytes within len)

/-- The last piece and a new one as a single piece, when the new one continues it. -/
def Piece.merge? : Piece → Piece → Option Piece
  | .input a aOff aLen, .input b bOff bLen =>
    if a = b ∧ aOff + aLen = bOff then some (.input a aOff (aLen + bLen)) else none
  | .fill a aLen, .fill b bLen => if a = b then some (.fill a (aLen + bLen)) else none
  | _, _ => none

def pushMerged (pieces : List Piece) (piece : Piece) : List Piece :=
  match pieces.getLast?.bind (·.merge? piece) with
  | some merged => pieces.dropLast ++ [merged]
  | none => pieces ++ [piece]

/-- Walk the segments, which start at `segmentStart`, and push the part of each
that lies in `start..stop`. -/
def translateLoop (start stop : Nat) : List Segment → Nat → List Piece → List Piece
  | [], _, pieces => pieces
  | segment :: rest, segmentStart, pieces =>
    let segmentEnd := segmentStart + segment.len
    let lo := max start segmentStart
    let hi := min stop segmentEnd
    let pieces :=
      if lo < hi then pushMerged pieces (segment.piece (lo - segmentStart) (hi - lo)) else pieces
    if stop ≤ segmentEnd then pieces else translateLoop start stop rest segmentEnd pieces

/-- Affine range translation of `start..stop` of the output. -/
def translate (params : AssembleParams) (start stop : Nat) : Except AssembleError (List Piece) := do
  if stop < start then throw .rangeOutOfBounds
  let size ← params.outputSize
  if size < stop then throw .rangeOutOfBounds
  return translateLoop start stop params.segments 0 []

/-! ## What a segment list denotes -/

/-- The bytes of one segment; a range of a missing input is empty. -/
def Segment.content (inputs : List Bytes) : Segment → Bytes
  | .blobRange inputIx offset len => slice (inputs.getD inputIx []) offset len
  | .fill byte len => List.replicate len byte
  | .literal bytes => bytes

/-- A segment whose input exists and covers its range. -/
def Segment.InBounds (inputs : List Bytes) : Segment → Prop
  | .blobRange inputIx offset len =>
    ∃ input, inputs[inputIx]? = some input ∧ offset + len ≤ input.length
  | .fill _ _ => True
  | .literal _ => True

/-- The assembled output. -/
def assembled (inputs : List Bytes) (segments : List Segment) : Bytes :=
  segments.flatMap (Segment.content inputs)

def Piece.content (inputs : List Bytes) : Piece → Bytes
  | .input inputIx offset len => slice (inputs.getD inputIx []) offset len
  | .fill byte len => List.replicate len byte
  | .literal bytes => bytes

/-- A piece whose input exists and covers it. -/
def Piece.InBounds (inputs : List Bytes) : Piece → Prop
  | .input inputIx offset len =>
    ∃ input, inputs[inputIx]? = some input ∧ offset + len ≤ input.length
  | .fill _ _ => True
  | .literal _ => True

variable {inputs : List Bytes}

variable {segment : Segment} {pieces : List Piece} {start stop size : Nat} {segments : List Segment}
  {params : AssembleParams}

theorem Segment.length_content (hin : segment.InBounds inputs) :
    (segment.content inputs).length = segment.len := by
  cases segment with
  | blobRange inputIx offset len =>
    obtain ⟨input, hget, hfits⟩ := hin
    simp only [content, List.getD_eq_getElem?_getD, hget, Option.getD_some,
      Reader.length_slice, Segment.len]
    omega
  | fill byte len => simp [content, Segment.len]
  | literal bytes => rfl

/-- A piece of a segment holds the matching slice of its content. -/
theorem Segment.content_piece {within len : Nat} (hfits : within + len ≤ segment.len) :
    (segment.piece within len).content inputs = slice (segment.content inputs) within len := by
  cases segment with
  | blobRange inputIx offset total =>
    simp only [Segment.len] at hfits
    simp only [piece, Piece.content, content]
    rw [Reader.slice_slice _ _ _ _ _ hfits]
  | fill byte total =>
    simp only [Segment.len] at hfits
    simp only [piece, Piece.content, content, slice, List.drop_replicate, List.take_replicate]
    congr 1
    omega
  | literal bytes => rfl

theorem Segment.inBounds_piece {within len : Nat} (hin : segment.InBounds inputs)
    (hfits : within + len ≤ segment.len) : (segment.piece within len).InBounds inputs := by
  cases segment with
  | blobRange inputIx offset total =>
    simp only [Segment.len] at hfits
    obtain ⟨input, hget, hbound⟩ := hin
    exact ⟨input, hget, by omega⟩
  | fill byte total => trivial
  | literal bytes => trivial

theorem Piece.content_merge {a b merged : Piece} (hmerge : a.merge? b = some merged) :
    merged.content inputs = a.content inputs ++ b.content inputs := by
  cases a <;> cases b <;> simp only [merge?] at hmerge <;> try cases hmerge
  · rename_i a aOff aLen b bOff bLen
    split at hmerge <;> try cases hmerge
    rename_i heq
    obtain ⟨rfl, rfl⟩ := heq
    simp only [content]
    rw [Reader.slice_append_slice]
  · rename_i a aLen b bLen
    split at hmerge <;> try cases hmerge
    rename_i heq
    subst heq
    simp [content]

theorem Piece.inBounds_merge {a b merged : Piece} (hmerge : a.merge? b = some merged)
    (hb : b.InBounds inputs) : merged.InBounds inputs := by
  cases a <;> cases b <;> simp only [merge?] at hmerge <;> try cases hmerge
  · rename_i a aOff aLen b bOff bLen
    split at hmerge <;> try cases hmerge
    rename_i heq
    obtain ⟨rfl, rfl⟩ := heq
    obtain ⟨input, hget, hfits⟩ := hb
    exact ⟨input, hget, by omega⟩
  · rename_i a aLen b bLen
    split at hmerge <;> try cases hmerge
    trivial

/-- Pushing a piece appends its bytes, merged or not. -/
theorem flatMap_content_pushMerged (pieces : List Piece) (piece : Piece) :
    (pushMerged pieces piece).flatMap (Piece.content inputs) =
      pieces.flatMap (Piece.content inputs) ++ piece.content inputs := by
  unfold pushMerged
  split
  · rename_i merged hmerged
    obtain ⟨last, hlast, hmerge⟩ := Option.bind_eq_some_iff.mp hmerged
    have hne : pieces ≠ [] := by
      rintro rfl
      simp at hlast
    have hsplit : pieces = pieces.dropLast ++ [last] := by
      rw [List.getLast?_eq_getLast_of_ne_nil hne, Option.some.injEq] at hlast
      rw [← hlast, List.dropLast_append_getLast hne]
    conv_rhs => rw [hsplit]
    simp [Piece.content_merge hmerge]
  · simp

theorem inBounds_pushMerged {piece : Piece} (hpieces : ∀ p ∈ pieces, p.InBounds inputs)
    (hpiece : piece.InBounds inputs) : ∀ p ∈ pushMerged pieces piece, p.InBounds inputs := by
  intro p hp
  unfold pushMerged at hp
  split at hp
  · rename_i merged hmerged
    obtain ⟨last, _, hmerge⟩ := Option.bind_eq_some_iff.mp hmerged
    rcases List.mem_append.mp hp with hfront | hmergedPiece
    · exact hpieces p ((List.dropLast_sublist pieces).subset hfront)
    · rw [List.mem_singleton.mp hmergedPiece]
      exact Piece.inBounds_merge hmerge hpiece
  · rcases List.mem_append.mp hp with hold | hnew
    · exact hpieces p hold
    · rw [List.mem_singleton.mp hnew]
      exact hpiece

/-- The part of a segment in `start..stop`, in offsets relative to its start. -/
theorem flatMap_content_pushPart (hin : segment.InBounds inputs) (start stop segmentStart : Nat)
    (pieces : List Piece) :
    (if max start segmentStart < min stop (segmentStart + segment.len) then
        pushMerged pieces (segment.piece (max start segmentStart - segmentStart)
          (min stop (segmentStart + segment.len) - max start segmentStart))
      else pieces).flatMap (Piece.content inputs) =
      pieces.flatMap (Piece.content inputs) ++
        slice (segment.content inputs) (start - segmentStart)
          ((stop - segmentStart) - (start - segmentStart)) := by
  have hlen := Segment.length_content hin
  split
  · rename_i hpart
    rw [flatMap_content_pushMerged, Segment.content_piece (by omega)]
    congr 1
    rw [← Reader.slice_length_slice, ← Reader.slice_length_slice _ (start - segmentStart)]
    simp only [Reader.length_slice, hlen]
    congr 1 <;> omega
  · have hempty : slice (segment.content inputs) (start - segmentStart)
        ((stop - segmentStart) - (start - segmentStart)) = [] := by
      rw [Reader.slice_eq_nil_iff, hlen]
      omega
    rw [hempty, List.append_nil]

/-- The walk pushes exactly the bytes of the requested range. -/
theorem flatMap_content_translateLoop (start stop : Nat) (segments : List Segment)
    (segmentStart : Nat) (pieces : List Piece)
    (hin : ∀ segment ∈ segments, segment.InBounds inputs) :
    (translateLoop start stop segments segmentStart pieces).flatMap (Piece.content inputs) =
      pieces.flatMap (Piece.content inputs) ++
        slice (assembled inputs segments) (start - segmentStart)
          ((stop - segmentStart) - (start - segmentStart)) := by
  induction segments generalizing segmentStart pieces with
  | nil => simp [translateLoop, assembled, slice]
  | cons segment rest ih =>
    have hsegment := hin segment (List.mem_cons_self ..)
    have hlen := Segment.length_content hsegment
    have hpart := flatMap_content_pushPart hsegment start stop segmentStart pieces
    have hsplit : assembled inputs (segment :: rest) =
        segment.content inputs ++ assembled inputs rest := by
      simp [assembled]
    rw [translateLoop, hsplit, Reader.slice_append, ← List.append_assoc, ← hpart, hlen]
    split
    · rename_i hlast
      have hnothing : (stop - segmentStart) - (start - segmentStart) -
          (segment.len - (start - segmentStart)) = 0 := by omega
      rw [hnothing, Reader.slice_zero_right, List.append_nil]
    · rw [ih _ _ fun s hs => hin s (List.mem_cons_of_mem _ hs)]
      congr 2 <;> omega

theorem inBounds_translateLoop {segmentStart : Nat}
    (hin : ∀ segment ∈ segments, segment.InBounds inputs)
    (hpieces : ∀ p ∈ pieces, p.InBounds inputs) :
    ∀ p ∈ translateLoop start stop segments segmentStart pieces, p.InBounds inputs := by
  induction segments generalizing segmentStart pieces with
  | nil => simpa [translateLoop] using hpieces
  | cons segment rest ih =>
    have hsegment := hin segment (List.mem_cons_self ..)
    have hnext : ∀ p ∈ (if max start segmentStart < min stop (segmentStart + segment.len) then
        pushMerged pieces (segment.piece (max start segmentStart - segmentStart)
          (min stop (segmentStart + segment.len) - max start segmentStart))
        else pieces), p.InBounds inputs := by
      split
      · exact inBounds_pushMerged hpieces (Segment.inBounds_piece hsegment (by omega))
      · exact hpieces
    rw [translateLoop]
    split
    · exact hnext
    · exact ih (fun s hs => hin s (List.mem_cons_of_mem _ hs)) hnext

theorem checkedSize_eq_some {acc : Nat} (hsize : checkedSize segments acc = some size) :
    size = acc + (segments.map Segment.len).sum := by
  induction segments generalizing acc with
  | nil => simpa [checkedSize] using hsize.symm
  | cons segment rest ih =>
    obtain ⟨next, hnext, hrest⟩ := Option.bind_eq_some_iff.mp hsize
    have hadd : acc + segment.len = next := by
      unfold checkedAdd at hnext
      split at hnext
      · exact Option.some.inj hnext
      · cases hnext
    rw [ih hrest, ← hadd, List.map_cons, List.sum_cons]
    omega

theorem checkedSize_lt {acc : Nat} (hacc : acc < u64Limit)
    (hsize : checkedSize segments acc = some size) : size < u64Limit := by
  induction segments generalizing acc with
  | nil =>
    cases hsize
    exact hacc
  | cons segment rest ih =>
    obtain ⟨next, hnext, hrest⟩ := Option.bind_eq_some_iff.mp hsize
    unfold checkedAdd at hnext
    split at hnext
    · rename_i hlt
      cases hnext
      exact ih hlt hrest
    · cases hnext

theorem outputSize_eq_ok (hsize : params.outputSize = .ok size) :
    size = (params.segments.map Segment.len).sum ∧ size < u64Limit := by
  unfold AssembleParams.outputSize at hsize
  cases hchecked : checkedSize params.segments 0 with
  | none =>
    rw [hchecked] at hsize
    cases hsize
  | some total =>
    rw [hchecked] at hsize
    cases hsize
    exact ⟨(checkedSize_eq_some hchecked).trans (Nat.zero_add _),
      checkedSize_lt (by decide) hchecked⟩

/-- The claimed size is the length of what is assembled. -/
theorem length_assembled (hsize : params.outputSize = .ok size)
    (hin : ∀ segment ∈ params.segments, segment.InBounds inputs) :
    (assembled inputs params.segments).length = size := by
  rw [(outputSize_eq_ok hsize).1, assembled, List.length_flatMap]
  congr 1
  exact List.map_congr_left fun segment hmem => Segment.length_content (hin segment hmem)

/-- A range is translated when it lies within the output. -/
theorem translate_eq_ok :
    translate params start stop = .ok pieces ↔
      ∃ size, params.outputSize = .ok size ∧ start ≤ stop ∧ stop ≤ size ∧
        translateLoop start stop params.segments 0 [] = pieces := by
  unfold translate
  cases hsize : params.outputSize with
  | error e =>
    constructor
    · intro htranslate
      split_ifs at htranslate <;> cases htranslate
    · rintro ⟨size, hnone, -⟩
      cases hnone
  | ok size =>
    constructor
    · intro htranslate
      by_cases hback : stop < start
      · rw [if_pos hback] at htranslate
        cases htranslate
      · by_cases hpast : size < stop
        · rw [if_neg hback] at htranslate
          simp only [bind, Except.bind, if_pos hpast, pure, Except.pure] at htranslate
          cases htranslate
        · simp only [bind, Except.bind, if_neg hback, if_neg hpast, pure, Except.pure,
            Except.ok.injEq] at htranslate
          exact ⟨size, rfl, by omega, by omega, htranslate⟩
    · rintro ⟨size', hsame, hordered, hwithin, hpieces⟩
      cases hsame
      simp only [bind, Except.bind, if_neg (Nat.not_lt_of_le hordered),
        if_neg (Nat.not_lt_of_le hwithin), pure, Except.pure, hpieces]

/-- Affine translation is exact: the pieces are in bounds and hold the requested
range of the assembled output. -/
theorem translate_content (htranslate : translate params start stop = .ok pieces)
    (hin : ∀ segment ∈ params.segments, segment.InBounds inputs) :
    (∀ p ∈ pieces, p.InBounds inputs) ∧
      pieces.flatMap (Piece.content inputs) =
        slice (assembled inputs params.segments) start (stop - start) := by
  obtain ⟨_, _, _, _, rfl⟩ := translate_eq_ok.mp htranslate
  refine ⟨inBounds_translateLoop hin (by simp), ?_⟩
  simpa using flatMap_content_translateLoop start stop params.segments 0 [] hin

end Datboi
