import Datboi.Exec.OpenCorrect

/-!
# Four readers of one segment list

An assembled output is materialized, read through a sequential reader, served at random
offsets and translated into pieces of its inputs. Over parameters that decode and sources that
pass the check, the four agree on one byte string, whatever the buffers and the ranges.
-/

namespace Datboi

open Reader (ReadsOut slice Source)

variable {params : AssembleParams} {sources : List Bytes} {children : List ByteSource}

/-- `SeqOverRandom::read`, the position as its state. -/
abbrev seqOverRandom (inner : ByteSource) : Nat → Nat → Except IoError (Bytes × Nat) :=
  inner.readNext

/-- A range of the output is translated exactly when it lies within it. -/
theorem translate_of_outputSize {size : Nat} (hsize : params.outputSize = .ok size)
    (hin : ∀ segment ∈ params.segments, segment.InBounds sources) (start stop : Nat) :
    if start ≤ stop ∧ stop ≤ size then
      ∃ pieces, translate params start stop = .ok pieces ∧
        (∀ piece ∈ pieces, piece.InBounds sources) ∧
        pieces.flatMap (Piece.content sources) =
          slice (assembled sources params.segments) start (stop - start)
    else translate params start stop = .error .rangeOutOfBounds := by
  split
  · rename_i hrange
    have htranslate := translate_eq_ok.mpr ⟨size, hsize, hrange.1, hrange.2, rfl⟩
    exact ⟨_, htranslate, translate_content htranslate hin⟩
  · rename_i hrange
    unfold translate
    by_cases hback : stop < start
    · rw [if_pos hback]
      rfl
    · have hpast : size < stop := by omega
      simp only [if_neg hback, hsize, bind, Except.bind, pure, Except.pure, if_pos hpast]
      rfl

theorem translate_of_overflow {e : AssembleError} (hsize : params.outputSize = .error e)
    (start stop : Nat) : ∃ error, translate params start stop = .error error := by
  cases htranslate : translate params start stop with
  | error error => exact ⟨error, rfl⟩
  | ok pieces =>
    obtain ⟨size, hok, -⟩ := translate_eq_ok.mp htranslate
    rw [hsize] at hok
    cases hok

/-- A node opens over children that serve sources of the right lengths. -/
theorem assembleRandom_eq_ok (hserving : Serving children sources)
    (hsources : validateSources sources params.segments 0 = .ok ()) {size : Nat}
    (hsize : params.outputSize = .ok size) :
    assembleRandom params children = .ok (.ofList (assembled sources params.segments)) := by
  have hcheck := (checkSegments_eq_ok_iff hserving.map_len params.segments 0).mpr hsources
  cases hopen : assembleRandom params children with
  | error what =>
    unfold assembleRandom at hopen
    rw [hsize] at hopen
    dsimp only at hopen
    rw [hcheck] at hopen
    cases hopen
  | ok random => rw [assembleRandom_of_serving hserving hopen]

/-- The readers of an assembled output agree. The pieces of a range hold that slice of the
materialized output; the sequential reader hands it out under any buffers, and so does the
adapter over the random-access node, which serves every slice. An output of more than 64 bits
has no ranges and no node. -/
theorem assemble_readers_agree {bytes : Bytes}
    (hdecode : AssembleParams.decode bytes = .ok params)
    (hsources : validateSources sources params.segments 0 = .ok ())
    (hserving : Serving children sources) :
    ∃ output,
      (∀ want : Nat → Nat, (∀ round, 0 < want round) →
        params.materialize sources want = .ok output) ∧
      ReadsOut (AssembleReader.read params sources) {} output ∧
      (∀ size, params.outputSize = .ok size →
        output.length = size ∧
        (∀ start stop,
          if start ≤ stop ∧ stop ≤ size then
            ∃ pieces, translate params start stop = .ok pieces ∧
              (∀ piece ∈ pieces, piece.InBounds sources) ∧
              pieces.flatMap (Piece.content sources) = slice output start (stop - start)
          else translate params start stop = .error .rangeOutOfBounds) ∧
        ∃ random, assembleRandom params children = .ok random ∧ random.len = size ∧
          (∀ offset count, random.readAt offset count = .ok (slice output offset count)) ∧
          ReadsOut (seqOverRandom random) 0 output) ∧
      ∀ e, params.outputSize = .error e →
        (∀ start stop, ∃ error, translate params start stop = .error error) ∧
          ∃ what, assembleRandom params children = .error what := by
  have hin := inBounds_of_validateSources hsources
  refine ⟨assembled sources params.segments, ?_, ?_, ?_, ?_⟩
  · intro want hwant
    exact AssembleParams.materialize_eq_ok (AssembleParams.validate_of_decode hdecode) hsources hwant
  · rw [← AssembleReader.pending_start]
    exact (AssembleReader.read_handsOut hin).reads {}
  · intro size hsize
    have hlength := length_assembled hsize hin
    refine ⟨hlength, translate_of_outputSize hsize hin, _,
      assembleRandom_eq_ok hserving hsources hsize, hlength, fun _ _ => rfl, ?_⟩
    exact (Source.readNext_handsOut (Source.serves_ofList _)).reads 0
  · intro e hsize
    refine ⟨translate_of_overflow hsize, ?_⟩
    unfold assembleRandom
    rw [hsize]
    exact ⟨_, rfl⟩

/-- A source that serves one byte at a time. -/
def dripSource (items : Bytes) : ByteSource where
  len := items.length
  readAt offset count := .ok (slice items offset (min count 1))

theorem dripSource_serves (items : Bytes) : (dripSource items).Serves items where
  len_eq := rfl
  readAt_ok _ count := ⟨min count 1, Nat.min_le_left _ _, rfl, fun hcount => by omega⟩

/-- Two adjacent ranges, a fill and a literal, over a source of four bytes. -/
def sampleParams : Bytes :=
  [0x84, 0xa3, 1, 0, 2, 1, 3, 2, 0xa3, 1, 0, 2, 3, 3, 1, 0xa2, 4, 7, 5, 2, 0xa1, 6, 0x41, 9]

def sampleSegments : AssembleParams :=
  ⟨[.blobRange 0 1 2, .blobRange 0 3 1, .fill 7 2, .literal [9]]⟩

theorem assemble_readers_agree_sample :
    ∃ output,
      (∀ want : Nat → Nat, (∀ round, 0 < want round) →
        sampleSegments.materialize [[10, 11, 12, 13]] want = .ok output) ∧
      ReadsOut (AssembleReader.read sampleSegments [[10, 11, 12, 13]]) {} output ∧
      output.length = 6 ∧
      ∃ pieces, translate sampleSegments 1 5 = .ok pieces ∧
        pieces.flatMap (Piece.content [[10, 11, 12, 13]]) = slice output 1 4 := by
  obtain ⟨output, hmaterialize, hreads, hsized, -⟩ := @assemble_readers_agree sampleSegments
    [[10, 11, 12, 13]] [dripSource [10, 11, 12, 13]] sampleParams (by decide +kernel)
    (by decide +kernel) (List.Forall₂.cons (dripSource_serves _) List.Forall₂.nil)
  obtain ⟨hlength, hranges, -⟩ := hsized 6 rfl
  obtain ⟨pieces, htranslate, -, hcontent⟩ := (if_pos (by decide)).mp (hranges 1 5)
  exact ⟨output, hmaterialize, hreads, hlength, pieces, htranslate, hcontent⟩

end Datboi
