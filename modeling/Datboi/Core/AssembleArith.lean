import Datboi.Core.AssembleCodec

/-!
# Translation in 64-bit arithmetic

`translate` adds offsets and lengths of untrusted parameters. Here every addition is made in
64 bits and every index is checked, so that a sum which does not fit or an index out of bounds
is a fault of its own. The output size is summed first, with a check, which bounds all but two
of the additions: where a piece starts in its input, and where the last piece ends.
-/

namespace Datboi

open Reader (slice)

inductive ArithFault where
  | overflow
  | outOfBounds
  deriving DecidableEq, Repr

/-- A 64-bit addition. -/
def addU64 (a b : Nat) : Except ArithFault Nat := (checkedAdd a b).elim (.error .overflow) .ok

/-- `&bytes[start..stop]`. -/
def sliceU64 (bytes : Bytes) (start stop : Nat) : Except ArithFault Bytes :=
  if start ≤ stop ∧ stop ≤ bytes.length then .ok (slice bytes start (stop - start))
  else .error .outOfBounds

def Segment.pieceU64 (segment : Segment) (within len : Nat) : Except ArithFault Piece :=
  match segment with
  | .blobRange inputIx offset _ => do .ok (.input inputIx (← addU64 offset within) len)
  | .fill byte _ => .ok (.fill byte len)
  | .literal bytes => do .ok (.literal (← sliceU64 bytes within (← addU64 within len)))

def Piece.mergeU64 : Piece → Piece → Except ArithFault (Option Piece)
  | .input a aOff aLen, .input b bOff bLen =>
    if a = b then do
      if (← addU64 aOff aLen) = bOff then .ok (some (.input a aOff (← addU64 aLen bLen)))
      else .ok none
    else .ok none
  | .fill a aLen, .fill b bLen =>
    if a = b then do .ok (some (.fill a (← addU64 aLen bLen))) else .ok none
  | _, _ => .ok none

def pushMergedU64 (pieces : List Piece) (segment : Segment) (within len : Nat) :
    Except ArithFault (List Piece) := do
  let piece ← segment.pieceU64 within len
  match pieces.getLast? with
  | none => .ok (pieces ++ [piece])
  | some last =>
    match ← last.mergeU64 piece with
    | some merged => .ok (pieces.dropLast ++ [merged])
    | none => .ok (pieces ++ [piece])

def translateLoopU64 (start stop : Nat) :
    List Segment → Nat → List Piece → Except ArithFault (List Piece)
  | [], _, pieces => .ok pieces
  | segment :: rest, segmentStart, pieces => do
      let segmentEnd ← addU64 segmentStart segment.len
      let lo := max start segmentStart
      let hi := min stop segmentEnd
      let pieces ← if lo < hi then pushMergedU64 pieces segment (lo - segmentStart) (hi - lo)
        else .ok pieces
      if stop ≤ segmentEnd then .ok pieces else translateLoopU64 start stop rest segmentEnd pieces

/-- `translate` with its arithmetic; its own errors are results. -/
def translateU64 (params : AssembleParams) (start stop : Nat) :
    Except ArithFault (Except AssembleError (List Piece)) :=
  if stop < start then .ok (.error .rangeOutOfBounds)
  else
    match params.outputSize with
    | .error e => .ok (.error e)
    | .ok size =>
      if size < stop then .ok (.error .rangeOutOfBounds)
      else (translateLoopU64 start stop params.segments 0 []).map .ok

/-! ## The parts of a range -/

/-- A segment and the part of it that a range takes. -/
structure Part where
  segment : Segment
  within : Nat
  len : Nat
  deriving DecidableEq, Repr

/-- What `start..stop` takes of a segment. -/
def Segment.part (start stop segmentStart : Nat) (segment : Segment) : Part where
  segment := segment
  within := max start segmentStart - segmentStart
  len := min stop (segmentStart + segment.len) - max start segmentStart

/-- The parts that the loop pushes. -/
def rangeParts (start stop : Nat) : List Segment → Nat → List Part
  | [], _ => []
  | segment :: rest, segmentStart =>
    let segmentEnd := segmentStart + segment.len
    (if max start segmentStart < min stop segmentEnd then
      [segment.part start stop segmentStart] else []) ++
      if stop ≤ segmentEnd then [] else rangeParts start stop rest segmentEnd

namespace Part

/-- Where the part starts in its input fits 64 bits. -/
def StartFits (part : Part) : Prop :=
  match part.segment with
  | .blobRange _ offset _ => offset + part.within < u64Limit
  | _ => True

/-- Where the part ends in its input fits 64 bits. -/
def EndFits (part : Part) : Prop :=
  match part.segment with
  | .blobRange _ offset _ => offset + part.within + part.len < u64Limit
  | _ => True

/-- Both parts are ranges of one input. -/
def SameInput (part other : Part) : Prop :=
  match part.segment, other.segment with
  | .blobRange a _ _, .blobRange b _ _ => a = b
  | _, _ => False

/-- The part can be pushed after `prev`. -/
def Follows (part : Part) (prev : Option Part) : Prop :=
  part.StartFits ∧ ∀ before ∈ prev, before.SameInput part → before.EndFits

instance (part : Part) : Decidable part.StartFits := by
  unfold StartFits
  split <;> infer_instance

instance (part : Part) : Decidable part.EndFits := by
  unfold EndFits
  split <;> infer_instance

instance (part other : Part) : Decidable (part.SameInput other) := by
  unfold SameInput
  split <;> infer_instance

instance (part : Part) (prev : Option Part) : Decidable (part.Follows prev) := by
  unfold Follows
  infer_instance

end Part

/-- After `prev`, every part starts within 64 bits, and the part before it ends there as well
if both lie in one input. -/
def PartsFit : Option Part → List Part → Prop
  | _, [] => True
  | prev, part :: rest => part.Follows prev ∧ PartsFit (some part) rest

instance decidablePartsFit : (prev : Option Part) → (parts : List Part) →
    Decidable (PartsFit prev parts)
  | _, [] => isTrue trivial
  | prev, part :: rest =>
    have := decidablePartsFit (some part) rest
    inferInstanceAs (Decidable (part.Follows prev ∧ PartsFit (some part) rest))

/-! ## One push -/

theorem addU64_ok {a b : Nat} (hfits : a + b < u64Limit) : addU64 a b = .ok (a + b) := by
  rw [addU64, checkedAdd, if_pos hfits]
  rfl

theorem addU64_overflow {a b : Nat} (hover : ¬ a + b < u64Limit) :
    addU64 a b = .error .overflow := by
  rw [addU64, checkedAdd, if_neg hover]
  rfl

/-- A piece ends where a part does, and is no longer than what was passed. -/
def Piece.Ends (piece : Piece) (part : Part) (passed : Nat) : Prop :=
  match part.segment, piece with
  | .blobRange inputIx offset _, .input ix start len =>
    ix = inputIx ∧ start + len = offset + part.within + part.len ∧ len ≤ passed
  | .fill _ _, .fill _ len => len ≤ passed
  | .literal _, .literal _ => True
  | _, _ => False

/-- The last piece is that of the part pushed last. -/
def LastIs (pieces : List Piece) (prev : Option Part) (passed : Nat) : Prop :=
  match prev with
  | none => pieces = []
  | some part => ∃ piece, pieces.getLast? = some piece ∧ piece.Ends part passed

def Part.piece (part : Part) : Piece := part.segment.piece part.within part.len

variable {passed start stop : Nat} {pieces : List Piece} {prev : Option Part}
  {params : AssembleParams}

theorem pieceU64_eq {part : Part} (hwithin : part.within + part.len ≤ part.segment.len)
    (hfits : passed + part.segment.len < u64Limit) :
    part.segment.pieceU64 part.within part.len =
      if part.StartFits then .ok part.piece else .error .overflow := by
  obtain ⟨segment, within, len⟩ := part
  cases segment with
  | blobRange inputIx offset total =>
    by_cases hstart : offset + within < u64Limit
    · have hok : Part.StartFits ⟨.blobRange inputIx offset total, within, len⟩ := hstart
      rw [if_pos hok]
      simp only [Segment.pieceU64, addU64_ok hstart]
      rfl
    · have hover : ¬ Part.StartFits ⟨.blobRange inputIx offset total, within, len⟩ := hstart
      rw [if_neg hover]
      simp only [Segment.pieceU64, addU64_overflow hstart]
      rfl
  | fill byte total => rfl
  | literal bytes =>
    have hlen : within + len ≤ bytes.length := hwithin
    have hsum : bytes.length < u64Limit := Nat.lt_of_le_of_lt (Nat.le_add_left _ _) hfits
    have hadd := addU64_ok (Nat.lt_of_le_of_lt hlen hsum)
    have hslice : sliceU64 bytes within (within + len) = .ok (slice bytes within len) := by
      rw [sliceU64, if_pos ⟨Nat.le_add_right _ _, hlen⟩, Nat.add_sub_cancel_left]
    have hok : Part.StartFits ⟨.literal bytes, within, len⟩ := trivial
    rw [if_pos hok]
    simp only [Segment.pieceU64, hadd, Except.bind, bind]
    simp only [hslice]
    rfl

theorem mergeU64_input {a aOff aLen b bOff bLen : Nat} (hlen : aLen + bLen < u64Limit) :
    (Piece.input a aOff aLen).mergeU64 (.input b bOff bLen) =
      if a = b → aOff + aLen < u64Limit then
        .ok ((Piece.input a aOff aLen).merge? (.input b bOff bLen))
      else .error .overflow := by
  rw [Piece.mergeU64, Piece.merge?]
  by_cases hsame : a = b
  · rw [if_pos hsame]
    by_cases hend : aOff + aLen < u64Limit
    · rw [if_pos fun _ => hend, addU64_ok hend, addU64_ok hlen]
      by_cases hnext : aOff + aLen = bOff
      · rw [if_pos ⟨hsame, hnext⟩]
        exact if_pos hnext
      · rw [if_neg fun hboth => hnext hboth.2]
        exact if_neg hnext
    · rw [if_neg fun hfits => hend (hfits hsame), addU64_overflow hend]
      rfl
  · rw [if_neg hsame, if_pos fun heq => absurd heq hsame, if_neg fun hboth => hsame hboth.1]

theorem mergeU64_fill {a b : UInt8} {aLen bLen : Nat} (hlen : aLen + bLen < u64Limit) :
    (Piece.fill a aLen).mergeU64 (.fill b bLen) =
      .ok ((Piece.fill a aLen).merge? (.fill b bLen)) := by
  rw [Piece.mergeU64, Piece.merge?, addU64_ok hlen]
  by_cases hsame : a = b
  · rw [if_pos hsame, if_pos hsame]
    rfl
  · rw [if_neg hsame, if_neg hsame]

/-- The merge test overflows exactly when both parts lie in one input and the first one does
not end within 64 bits. -/
theorem mergeU64_eq {last : Piece} {before part : Part} {passed : Nat}
    (hends : last.Ends before passed) (hfits : passed + part.len < u64Limit) :
    last.mergeU64 part.piece =
      if before.SameInput part → before.EndFits then .ok (last.merge? part.piece)
      else .error .overflow := by
  obtain ⟨segment, within, len⟩ := part
  obtain ⟨earlier, start, lenBefore⟩ := before
  cases earlier with
  | blobRange a aOff aTotal =>
    cases last with
    | input ix off pieceLen =>
      obtain ⟨rfl, hend, hlen⟩ := hends
      cases segment with
      | blobRange b bOff bTotal =>
        have hsum := Nat.lt_of_le_of_lt (Nat.add_le_add_right hlen len) hfits
        refine (mergeU64_input hsum).trans ?_
        rw [hend]
        rfl
      | fill byte total => exact (if_pos fun hsame => by cases hsame).symm
      | literal bytes => exact (if_pos fun hsame => by cases hsame).symm
    | fill byte pieceLen => cases hends
    | literal bytes => cases hends
  | fill a aTotal =>
    rw [if_pos fun hsame => by cases segment <;> cases hsame]
    cases last with
    | input ix off pieceLen => cases hends
    | fill byte pieceLen =>
      cases segment with
      | blobRange b bOff bTotal => rfl
      | fill other total =>
        exact mergeU64_fill (Nat.lt_of_le_of_lt (Nat.add_le_add_right hends _) hfits)
      | literal bytes => rfl
    | literal bytes => cases hends
  | literal aBytes =>
    rw [if_pos fun hsame => by cases segment <;> cases hsame]
    cases last with
    | input ix off pieceLen => cases hends
    | fill byte pieceLen => cases hends
    | literal bytes => cases segment <;> rfl

theorem ends_piece (part : Part) (passed : Nat) : part.piece.Ends part (passed + part.len) := by
  obtain ⟨segment, within, len⟩ := part
  cases segment with
  | blobRange inputIx offset total => exact ⟨rfl, rfl, Nat.le_add_left _ _⟩
  | fill byte total => exact Nat.le_add_left _ _
  | literal bytes => trivial

theorem ends_merge {last merged : Piece} {before part : Part} (hends : last.Ends before passed)
    (hmerge : last.merge? part.piece = some merged) : merged.Ends part (passed + part.len) := by
  obtain ⟨segment, within, len⟩ := part
  obtain ⟨earlier, start, lenBefore⟩ := before
  cases segment with
  | blobRange b bOff bTotal =>
    cases last with
    | input ix off pieceLen =>
      cases earlier with
      | blobRange a aOff aTotal =>
        obtain ⟨-, -, hlen⟩ := hends
        change (if _ then _ else _) = some merged at hmerge
        split at hmerge
        · rename_i hnext
          cases hmerge
          refine ⟨hnext.1, ?_, Nat.add_le_add_right hlen len⟩
          have hjoin : off + pieceLen = bOff + within := hnext.2
          change off + (pieceLen + len) = bOff + within + len
          omega
        · cases hmerge
      | fill byte total => cases hends
      | literal bytes => cases hends
    | fill byte pieceLen => cases hmerge
    | literal bytes => cases hmerge
  | fill b total =>
    cases last with
    | input ix off pieceLen => cases hmerge
    | fill byte pieceLen =>
      cases earlier with
      | blobRange a aOff aTotal => cases hends
      | fill a aTotal =>
        change (if _ then _ else _) = some merged at hmerge
        split at hmerge
        · cases hmerge
          exact Nat.add_le_add_right hends len
        · cases hmerge
      | literal bytes => cases hends
    | literal bytes => cases hmerge
  | literal bytes => cases last <;> cases hmerge

theorem lastIs_pushMerged {pieces : List Piece} {prev : Option Part} {part : Part} {passed : Nat}
    (hlast : LastIs pieces prev passed) :
    LastIs (pushMerged pieces part.piece) (some part) (passed + part.len) := by
  unfold pushMerged
  split
  · rename_i merged hmerged
    obtain ⟨last, hget, hmerge⟩ := Option.bind_eq_some_iff.mp hmerged
    cases prev with
    | none =>
      obtain rfl : pieces = [] := hlast
      cases hget
    | some before =>
      obtain ⟨piece, hpiece, hends⟩ := hlast
      rw [hget, Option.some.injEq] at hpiece
      subst hpiece
      exact ⟨merged, List.getLast?_concat, ends_merge hends hmerge⟩
  · exact ⟨part.piece, List.getLast?_concat, ends_piece part passed⟩

/-- A push overflows exactly when its part cannot follow the one before. -/
theorem pushMergedU64_eq {part : Part} (hlast : LastIs pieces prev passed)
    (hwithin : part.within + part.len ≤ part.segment.len)
    (hfits : passed + part.segment.len < u64Limit) :
    pushMergedU64 pieces part.segment part.within part.len =
      if part.Follows prev then .ok (pushMerged pieces part.piece) else .error .overflow := by
  unfold pushMergedU64 pushMerged
  rw [pieceU64_eq hwithin hfits]
  by_cases hstart : part.StartFits
  · rw [if_pos hstart]
    cases prev with
    | none =>
      obtain rfl : pieces = [] := hlast
      rw [if_pos ⟨hstart, fun _ hnone => by cases hnone⟩]
      rfl
    | some before =>
      obtain ⟨last, hget, hends⟩ := hlast
      have hlen : passed + part.len < u64Limit := by omega
      have hmerge := @mergeU64_eq last before part passed hends hlen
      rw [hget, Option.bind_some]
      simp only [bind, Except.bind, hmerge]
      by_cases hjoin : before.SameInput part → before.EndFits
      · have hfollows : part.Follows (some before) := by
          refine ⟨hstart, fun other hother => ?_⟩
          cases hother
          exact hjoin
        rw [if_pos hjoin, if_pos hfollows]
        cases last.merge? part.piece <;> rfl
      · rw [if_neg hjoin, if_neg fun hfollows => hjoin (hfollows.2 before rfl)]
  · rw [if_neg hstart, if_neg fun hfollows => hstart hfollows.1]
    rfl

/-! ## The walk -/

theorem LastIs.mono {later : Nat} (hlast : LastIs pieces prev passed) (hle : passed ≤ later) :
    LastIs pieces prev later := by
  cases prev with
  | none => exact hlast
  | some before =>
    obtain ⟨last, hget, hends⟩ := hlast
    refine ⟨last, hget, ?_⟩
    obtain ⟨segment, within, len⟩ := before
    cases segment with
    | blobRange a aOff aTotal =>
      cases last with
      | input ix off pieceLen => exact ⟨hends.1, hends.2.1, hends.2.2.trans hle⟩
      | fill byte pieceLen => cases hends
      | literal bytes => cases hends
    | fill a aTotal =>
      cases last with
      | input ix off pieceLen => cases hends
      | fill byte pieceLen => exact Nat.le_trans hends hle
      | literal bytes => cases hends
    | literal bytes =>
      cases last with
      | input ix off pieceLen => cases hends
      | fill byte pieceLen => cases hends
      | literal own => trivial

/-- While the segments add up to less than 64 bits, the walk overflows exactly when two parts
do not fit, and otherwise does what it does on numbers without a bound. -/
theorem translateLoopU64_eq {start stop : Nat} {segments : List Segment} {segmentStart : Nat}
    {pieces : List Piece} {prev : Option Part} (hlast : LastIs pieces prev segmentStart)
    (hsize : segmentStart + (segments.map Segment.len).sum < u64Limit) :
    translateLoopU64 start stop segments segmentStart pieces =
      if PartsFit prev (rangeParts start stop segments segmentStart) then
        .ok (translateLoop start stop segments segmentStart pieces)
      else .error .overflow := by
  induction segments generalizing segmentStart pieces prev with
  | nil => rfl
  | cons segment rest ih =>
    rw [List.map_cons, List.sum_cons, ← Nat.add_assoc] at hsize
    have hend : segmentStart + segment.len < u64Limit := by omega
    rw [translateLoopU64, addU64_ok hend, rangeParts, translateLoop]
    simp only [bind, Except.bind]
    by_cases hpart : max start segmentStart < min stop (segmentStart + segment.len)
    · -- The part is pushed, and is the last one from here on.
      have hwithin : (segment.part start stop segmentStart).within +
          (segment.part start stop segmentStart).len ≤ segment.len := by
        dsimp only [Segment.part]
        omega
      have hpush : pushMergedU64 pieces segment (max start segmentStart - segmentStart)
          (min stop (segmentStart + segment.len) - max start segmentStart) =
            if (segment.part start stop segmentStart).Follows prev then
              .ok (pushMerged pieces (segment.piece (max start segmentStart - segmentStart)
                (min stop (segmentStart + segment.len) - max start segmentStart)))
            else .error .overflow := pushMergedU64_eq hlast hwithin hend
      have hnext := (@lastIs_pushMerged _ _ (segment.part start stop segmentStart) _ hlast).mono
        (show segmentStart + (segment.part start stop segmentStart).len ≤
          segmentStart + segment.len by omega)
      simp only [if_pos hpart, List.singleton_append, PartsFit, hpush]
      by_cases hfollows : (segment.part start stop segmentStart).Follows prev
      · rw [if_pos hfollows]
        simp only [hfollows, true_and]
        split
        · exact (if_pos (show PartsFit _ [] from trivial)).symm
        · exact ih hnext hsize
      · rw [if_neg hfollows, if_neg fun hfit => hfollows hfit.1]
    · simp only [if_neg hpart, List.nil_append]
      split
      · exact (if_pos (show PartsFit prev [] from trivial)).symm
      · exact ih (hlast.mono (Nat.le_add_right _ _)) hsize

/-- What a range takes fits in 64 bits. -/
def RangeFits (params : AssembleParams) (start stop : Nat) : Prop :=
  PartsFit none (rangeParts start stop params.segments 0)

instance (params : AssembleParams) (start stop : Nat) :
    Decidable (RangeFits params start stop) :=
  decidablePartsFit none _

theorem translateU64_of_error {e : AssembleError}
    (htranslate : translate params start stop = .error e) :
    translateU64 params start stop = .ok (.error e) := by
  unfold translate at htranslate
  unfold translateU64
  by_cases hback : stop < start
  · rw [if_pos hback] at htranslate ⊢
    cases htranslate
    rfl
  · rw [if_neg hback] at htranslate ⊢
    cases hsize : params.outputSize with
    | error e' =>
      rw [hsize] at htranslate
      cases htranslate
      rfl
    | ok size =>
      simp only [hsize, bind, Except.bind, pure, Except.pure] at htranslate
      by_cases hpast : size < stop
      · rw [if_pos hpast] at htranslate
        cases htranslate
        exact if_pos hpast
      · rw [if_neg hpast] at htranslate
        cases htranslate

theorem translateU64_of_ok (htranslate : translate params start stop = .ok pieces) :
    translateU64 params start stop =
      if RangeFits params start stop then .ok (.ok pieces) else .error .overflow := by
  obtain ⟨size, hsize, hordered, hwithin, rfl⟩ := translate_eq_ok.mp htranslate
  obtain ⟨hsum, hlimit⟩ := outputSize_eq_ok hsize
  have hloop := @translateLoopU64_eq start stop params.segments 0 [] none rfl (by omega)
  unfold translateU64
  rw [if_neg (Nat.not_lt_of_le hordered), hsize]
  dsimp only
  rw [if_neg (Nat.not_lt_of_le hwithin), hloop]
  by_cases hfits : RangeFits params start stop
  · rw [if_pos hfits, if_pos (show PartsFit none _ from hfits)]
    rfl
  · rw [if_neg hfits, if_neg (show ¬ PartsFit none _ from hfits)]
    rfl

theorem partsFit_of_endFits {parts : List Part} (hprev : ∀ before ∈ prev, before.EndFits)
    (hparts : ∀ part ∈ parts, part.StartFits ∧ part.EndFits) : PartsFit prev parts := by
  induction parts generalizing prev with
  | nil => trivial
  | cons part rest ih =>
    obtain ⟨hpart, hrest⟩ := List.forall_mem_cons.mp hparts
    refine ⟨⟨hpart.1, fun before hbefore _ => hprev before hbefore⟩, ih ?_ hrest⟩
    intro before hbefore
    cases hbefore
    exact hpart.2

theorem mem_rangeParts {segmentStart : Nat} {segments : List Segment} {part : Part}
    (hpart : part ∈ rangeParts start stop segments segmentStart) :
    part.segment ∈ segments ∧ part.within + part.len ≤ part.segment.len := by
  induction segments generalizing segmentStart with
  | nil => cases hpart
  | cons segment rest ih =>
    rw [rangeParts, List.mem_append] at hpart
    rcases hpart with hhere | hlater
    · split at hhere
      · rename_i htaken
        rw [List.mem_singleton] at hhere
        subst hhere
        refine ⟨List.mem_cons_self, ?_⟩
        dsimp only [Segment.part]
        omega
      · cases hhere
    · split at hlater
      · cases hlater
      · obtain ⟨hmem, hwithin⟩ := ih hlater
        exact ⟨List.mem_cons_of_mem segment hmem, hwithin⟩

/-- Ranges that end within 64 bits of their inputs fit, whatever is asked of the output. -/
theorem rangeFits_of_segments (start stop : Nat)
    (hsegments : ∀ inputIx offset len, Segment.blobRange inputIx offset len ∈ params.segments →
      offset + len < u64Limit) : RangeFits params start stop := by
  refine partsFit_of_endFits (fun _ hnone => by cases hnone) ?_
  intro part hpart
  obtain ⟨hmem, hwithin⟩ := mem_rangeParts hpart
  obtain ⟨segment, within, len⟩ := part
  cases segment with
  | blobRange inputIx offset total =>
    have hfits := hsegments inputIx offset total hmem
    have hle : within + len ≤ total := hwithin
    exact ⟨show offset + within < u64Limit by omega,
      show offset + within + len < u64Limit by omega⟩
  | fill byte total => exact ⟨trivial, trivial⟩
  | literal bytes => exact ⟨trivial, trivial⟩

/-- Translating never indexes out of bounds. It adds past 64 bits exactly when the range lies
within the output and something that it takes does not fit, and otherwise its result is that of
`translate`; over ranges that end within 64 bits it never does. -/
theorem translate_arithmetic (params : AssembleParams) (start stop : Nat) :
    translateU64 params start stop ≠ .error .outOfBounds ∧
      (translateU64 params start stop = .error .overflow ↔
        (∃ pieces, translate params start stop = .ok pieces) ∧ ¬ RangeFits params start stop) ∧
      (translateU64 params start stop ≠ .error .overflow →
        translateU64 params start stop = .ok (translate params start stop)) ∧
      ((∀ inputIx offset len, Segment.blobRange inputIx offset len ∈ params.segments →
          offset + len < u64Limit) →
        translateU64 params start stop = .ok (translate params start stop)) := by
  cases htranslate : translate params start stop with
  | error e =>
    rw [translateU64_of_error htranslate]
    refine ⟨fun hfault => (by cases hfault), ⟨fun hfault => (by cases hfault), ?_⟩,
      fun _ => rfl, fun _ => rfl⟩
    rintro ⟨⟨pieces, hpieces⟩, -⟩
    cases hpieces
  | ok pieces =>
    rw [translateU64_of_ok htranslate]
    by_cases hfits : RangeFits params start stop
    · rw [if_pos hfits]
      exact ⟨fun hfault => (by cases hfault),
        ⟨fun hfault => (by cases hfault), fun hover => absurd hfits hover.2⟩, fun _ => rfl,
        fun _ => rfl⟩
    · rw [if_neg hfits]
      exact ⟨fun hfault => (by cases hfault), ⟨fun _ => ⟨⟨pieces, rfl⟩, hfits⟩, fun _ => rfl⟩,
        fun hfault => absurd rfl hfault,
        fun hsegments => absurd (rangeFits_of_segments start stop hsegments) hfits⟩

/-- One range of two bytes at the last 64-bit offset. -/
def farRange : Bytes :=
  [0x81, 0xa3, 1, 0, 2, 0x1b, 255, 255, 255, 255, 255, 255, 255, 255, 3, 2]

/-- One byte at the last 64-bit offset, and one of the same input behind it. -/
def farNeighbours : Bytes :=
  [0x82, 0xa3, 1, 0, 2, 0x1b, 255, 255, 255, 255, 255, 255, 255, 255, 3, 1, 0xa3, 1, 0, 2, 0, 3, 1]

/-- Both lists decode. In the first the part from the second byte on starts past 64 bits; in the
second the merge test adds up an end past 64 bits. -/
theorem translate_arithmetic_overflows :
    AssembleParams.decode farRange = .ok ⟨[.blobRange 0 (2 ^ 64 - 1) 2]⟩ ∧
      translateU64 ⟨[.blobRange 0 (2 ^ 64 - 1) 2]⟩ 1 2 = .error .overflow ∧
      AssembleParams.decode farNeighbours =
        .ok ⟨[.blobRange 0 (2 ^ 64 - 1) 1, .blobRange 0 0 1]⟩ ∧
      translateU64 ⟨[.blobRange 0 (2 ^ 64 - 1) 1, .blobRange 0 0 1]⟩ 0 2 = .error .overflow :=
  ⟨by decide +kernel, by decide +kernel, by decide +kernel, by decide +kernel⟩

end Datboi
