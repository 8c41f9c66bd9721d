import Datboi.Core.Assemble
import Datboi.Lib.Tiling

/-!
# Coverage maps

A layout reader describes a container as regions in physical order: pieces that become
blobs of their own, runs of one byte, short literals, and ranges of streams that are not
part of the container. The gaps between the declared pieces are classified by reading them.
-/

namespace Datboi

open Reader (slice)
open Tiling (Covers)

/-- How a layout reader ends without a layout: the bytes could not be read, the bytes are
refused, or the arithmetic of the reader itself fails. -/
inductive Failure (ρ : Type) where
  | io
  | refused (refusal : ρ)
  | overflow
  deriving DecidableEq, Repr

/-- `nds::read_at`: seek, then read exactly; an empty read succeeds anywhere. -/
def readAt {ρ : Type} (image : Bytes) (start len : Nat) : Except (Failure ρ) Bytes :=
  if len ≤ image.length - start then .ok (slice image start len) else .error .io

/-- The hexadecimal digits of a number, padded with zeros. -/
def hexPadded (width n : Nat) : String :=
  let digits := Nat.toDigits 16 n
  String.ofList (List.replicate (width - digits.length) '0' ++ digits)

namespace Nds

/-- One blob-worthy byte range of the container. -/
structure Piece where
  name : String
  start : Nat
  len : Nat
  deriving DecidableEq, Repr

/-- One span of the coverage map. -/
inductive Region where
  | piece (ix : Nat)
  | fill (byte : UInt8) (len : Nat)
  | literal (start len : Nat)
  | external (input offset len : Nat)
  deriving DecidableEq, Repr

/-- What the regions of a map refer to. -/
structure Scope where
  image : Bytes
  pieces : List Piece
  externs : List Bytes

/-- A range of some bytes that lies within them. -/
def within (bytes : Bytes) (start len : Nat) : Option Bytes :=
  if start + len ≤ bytes.length then some (slice bytes start len) else none

/-- The bytes a region stands for: slices of the image, repeated bytes, and ranges of
the streams that are not part of it. -/
def Region.bytes (scope : Scope) : Region → Option Bytes
  | .piece ix => scope.pieces[ix]?.bind fun piece => within scope.image piece.start piece.len
  | .fill byte len => some (List.replicate len byte)
  | .literal start len => within scope.image start len
  | .external input offset len => scope.externs[input]?.bind fun stream => within stream offset len

/-- The concatenation of a map's regions. -/
abbrev render (scope : Scope) (regions : List Region) : Option Bytes :=
  Tiling.render Region.bytes scope regions

/-- A scope with the same image and at least the pieces and streams. -/
structure Scope.Grows (scope scope' : Scope) : Prop where
  image_eq : scope'.image = scope.image
  pieces : scope.pieces <+: scope'.pieces
  externs : ∀ (ix : Nat) stream, scope.externs[ix]? = some stream →
    ∃ stream', scope'.externs[ix]? = some stream' ∧ stream <+: stream'

theorem within_eq_some {bytes : Bytes} {start len : Nat} {out : Bytes} :
    within bytes start len = some out ↔
      start + len ≤ bytes.length ∧ out = slice bytes start len := by
  unfold within
  split
  · rename_i hfits
    simp [hfits, eq_comm]
  · rename_i hpast
    simp [hpast]

theorem within_grow {bytes bytes' : Bytes} (hgrow : bytes <+: bytes') {start len : Nat}
    {out : Bytes} (hout : within bytes start len = some out) :
    within bytes' start len = some out := by
  obtain ⟨more, rfl⟩ := hgrow
  obtain ⟨hfits, rfl⟩ := within_eq_some.mp hout
  refine within_eq_some.mpr ⟨by rw [List.length_append]; omega, ?_⟩
  have hnone : len - (bytes.length - start) = 0 := by omega
  rw [Reader.slice_append, hnone, Reader.slice_zero_right, List.append_nil]

/-- A region keeps its meaning while its scope grows. -/
theorem Region.bytes_grow {scope scope' : Scope} (hgrow : scope.Grows scope') (region : Region)
    (out : Bytes) (hout : region.bytes scope = some out) : region.bytes scope' = some out := by
  cases region with
  | piece ix =>
    obtain ⟨piece, hpiece, hwithin⟩ := Option.bind_eq_some_iff.mp hout
    obtain ⟨more, hmore⟩ := hgrow.pieces
    have hlt := (List.getElem?_eq_some_iff.mp hpiece).1
    refine Option.bind_eq_some_iff.mpr ⟨piece, ?_, by rwa [hgrow.image_eq]⟩
    rw [← hmore, List.getElem?_append_left hlt, hpiece]
  | fill byte len => exact hout
  | literal start len =>
    rw [bytes, hgrow.image_eq]
    exact hout
  | external input offset len =>
    obtain ⟨stream, hstream, hwithin⟩ := Option.bind_eq_some_iff.mp hout
    obtain ⟨stream', hstream', hle⟩ := hgrow.externs input stream hstream
    exact Option.bind_eq_some_iff.mpr ⟨stream', hstream', within_grow hle hwithin⟩

/-! ## Building a map -/

/-- The growing map: its two vectors, and the gap bytes that did not dedupe. -/
structure Coverage where
  pieces : List Piece := []
  regions : List Region := []
  residualBytes : Nat := 0
  deriving DecidableEq, Repr

namespace Coverage

def pushRegion (map : Coverage) (region : Region) : Coverage :=
  { map with regions := map.regions ++ [region] }

/-- A piece, and the region that refers to it. -/
def pushPiece (map : Coverage) (piece : Piece) : Coverage :=
  { map with
    regions := map.regions ++ [.piece map.pieces.length]
    pieces := map.pieces ++ [piece] }

/-- Bytes that nothing describes: a literal when short, else a piece named by its offset,
which is written with `width` digits at least. -/
def pushResidue (map : Coverage) (width start len : Nat) : Coverage :=
  let map := { map with residualBytes := map.residualBytes + len }
  if len ≤ literalCap then map.pushRegion (.literal start len)
  else map.pushPiece ⟨"gap@0x" ++ hexPadded width start, start, len⟩

def scope (map : Coverage) (image : Bytes) (externs : List Bytes) : Scope :=
  ⟨image, map.pieces, externs⟩

/-- The map stands for the image up to the cursor. -/
def Covers (map : Coverage) (image : Bytes) (externs : List Bytes) (cursor : Nat) : Prop :=
  Tiling.Covers Region.bytes (map.scope image externs) image map.regions cursor

variable {map : Coverage} {image : Bytes} {externs : List Bytes} {cursor : Nat}

theorem Covers.empty : ({} : Coverage).Covers image externs 0 := Tiling.Covers.nil

section

variable (hcovers : map.Covers image externs cursor)

include hcovers

theorem Covers.pushRegion {region : Region} {count : Nat}
    (hwithin : cursor + count ≤ image.length)
    (hregion : region.bytes (map.scope image externs) = some (slice image cursor count)) :
    (map.pushRegion region).Covers image externs (cursor + count) :=
  Tiling.Covers.push hcovers hwithin hregion

theorem Covers.pushFill {byte : UInt8} {len : Nat} (hwithin : cursor + len ≤ image.length)
    (huniform : slice image cursor len = List.replicate len byte) :
    (map.pushRegion (.fill byte len)).Covers image externs (cursor + len) :=
  hcovers.pushRegion hwithin (by rw [huniform]; rfl)

theorem Covers.pushLiteral {len : Nat} (hwithin : cursor + len ≤ image.length) :
    (map.pushRegion (.literal cursor len)).Covers image externs (cursor + len) :=
  hcovers.pushRegion hwithin (within_eq_some.mpr ⟨hwithin, rfl⟩)

theorem Covers.pushPiece {name : String} {len : Nat} (hwithin : cursor + len ≤ image.length) :
    (map.pushPiece ⟨name, cursor, len⟩).Covers image externs (cursor + len) := by
  have hgrow : (map.scope image externs).Grows
      ((map.pushPiece ⟨name, cursor, len⟩).scope image externs) :=
    ⟨rfl, List.prefix_append _ _, fun ix stream hstream => ⟨stream, hstream, List.prefix_refl _⟩⟩
  have hpiece : (Region.piece map.pieces.length).bytes
      ((map.pushPiece ⟨name, cursor, len⟩).scope image externs) = some (slice image cursor len) := by
    have hlast : (map.pieces ++ [⟨name, cursor, len⟩])[map.pieces.length]? =
        some (⟨name, cursor, len⟩ : Piece) := by simp
    exact Option.bind_eq_some_iff.mpr ⟨_, hlast, within_eq_some.mpr ⟨hwithin, rfl⟩⟩
  exact Tiling.Covers.push (Tiling.Covers.mono hcovers (Region.bytes_grow hgrow)) hwithin hpiece

theorem Covers.pushResidue (width len : Nat) (hwithin : cursor + len ≤ image.length) :
    (map.pushResidue width cursor len).Covers image externs (cursor + len) := by
  have hcounted : Coverage.Covers { map with residualBytes := map.residualBytes + len } image externs
      cursor := hcovers
  unfold Coverage.pushResidue
  simp only
  split
  · exact hcounted.pushLiteral hwithin
  · exact hcounted.pushPiece hwithin

end

end Coverage

/-! ## Gaps -/

def scanChunk : Nat := 64 * 1024

/-- A trailing pad run at least this long is split off a mixed gap. -/
def minPadSplit : Nat := 512

/-- The byte that ends a chunk, and how far back it repeats. -/
def chunkTail (chunk : Bytes) : UInt8 × Nat :=
  let last := chunk.getLast?.getD 0
  (last, (chunk.reverse.takeWhile (· = last)).length)

/-- The trailing run once one more chunk has gone by. -/
def trackRun (run : UInt8 × Nat) (chunk : Bytes) : UInt8 × Nat :=
  let tail := chunkTail chunk
  if tail.2 = chunk.length ∧ tail.1 = run.1 then (run.1, run.2 + tail.2) else tail

/-- One pass over `remaining` bytes from `pos`, tracking the trailing uniform run. -/
def scanGap {ρ : Type} (image : Bytes) (pos remaining : Nat) (run : UInt8 × Nat) :
    Except (Failure ρ) (UInt8 × Nat) :=
  if remaining = 0 then .ok run
  else
    let want := min remaining scanChunk
    match readAt image pos want with
    | .error e => .error e
    | .ok chunk => scanGap image (pos + want) (remaining - want) (trackRun run chunk)
termination_by remaining
decreasing_by
  have : 0 < scanChunk := by decide
  omega

/-- Classify one gap by reading it: a fill when it is uniform, a head and a fill when it
ends in a long pad run, else residue. -/
def classifyGap {ρ : Type} (image : Bytes) (start len : Nat) (map : Coverage) :
    Except (Failure ρ) Coverage :=
  if len = 0 then .ok map
  else
    match scanGap image start len (0, 0) with
    | .error e => .error e
    | .ok (runByte, runLen) =>
      if runLen = len then .ok (map.pushRegion (.fill runByte len))
      else if minPadSplit ≤ runLen then
        .ok ((map.pushResidue 8 start (len - runLen)).pushRegion (.fill runByte runLen))
      else .ok (map.pushResidue 8 start len)

/-- The bytes from `start` up to `pos` end in this run. -/
structure EndsIn (image : Bytes) (start pos : Nat) (run : UInt8 × Nat) : Prop where
  fits : start + run.2 ≤ pos
  uniform : slice image (pos - run.2) run.2 = List.replicate run.2 run.1

theorem chunkTail_uniform (chunk : Bytes) :
    (chunkTail chunk).2 ≤ chunk.length ∧
      slice chunk (chunk.length - (chunkTail chunk).2) (chunkTail chunk).2 =
        List.replicate (chunkTail chunk).2 (chunkTail chunk).1 := by
  unfold chunkTail
  generalize chunk.getLast?.getD 0 = last
  have hprefix := List.takeWhile_prefix (p := (· = last)) (l := chunk.reverse)
  have hle := hprefix.length_le
  rw [List.length_reverse] at hle
  have hall : chunk.reverse.takeWhile (· = last) =
      List.replicate (chunk.reverse.takeWhile (· = last)).length last :=
    List.eq_replicate_of_mem fun b hb => by
      simpa using List.all_eq_true.mp List.all_takeWhile b hb
  have hsuffix := List.prefix_iff_eq_take.mp hprefix
  rw [List.take_reverse] at hsuffix
  refine ⟨hle, ?_⟩
  simp only
  rw [slice, List.take_of_length_le (by rw [List.length_drop]; omega), ← List.reverse_inj,
    ← hsuffix, List.reverse_replicate]
  exact hall

section

variable {run : UInt8 × Nat} {pos : Nat} {start : Nat} {image : Bytes}
  (hends : EndsIn image start pos run)

include hends

theorem EndsIn.track (want : Nat) (hwithin : pos + want ≤ image.length) :
    EndsIn image start (pos + want) (trackRun run (slice image pos want)) := by
  have hlen : (slice image pos want).length = want := by
    rw [Reader.length_slice]
    omega
  obtain ⟨hle, htail⟩ := chunkTail_uniform (slice image pos want)
  have hfits := hends.fits
  rw [hlen] at hle htail
  rw [Reader.slice_slice _ _ _ _ _ (by omega), ← Nat.add_sub_assoc hle] at htail
  unfold trackRun
  simp only
  split
  · rename_i hcontinues
    obtain ⟨hfull, hbyte⟩ := hcontinues
    rw [hlen] at hfull
    rw [hfull, hbyte, Nat.add_sub_cancel] at htail
    refine ⟨by simp only; omega, ?_⟩
    simp only
    have hback : pos + want - (run.2 + (chunkTail (slice image pos want)).2) = pos - run.2 := by
      omega
    have hjoin := Reader.slice_append_slice image (pos - run.2) run.2 want
    rw [Nat.sub_add_cancel (by omega)] at hjoin
    rw [hback, hfull, ← hjoin, hends.uniform, htail, ← List.replicate_add]
  · exact ⟨by omega, htail⟩

/-- Reading past the end is the only way a scan fails. -/
theorem scanGap_eq_ok {ρ : Type} {remaining : Nat} (hwithin : pos + remaining ≤ image.length) :
    ∃ run', scanGap (ρ := ρ) image pos remaining run = .ok run' ∧
      EndsIn image start (pos + remaining) run' := by
  induction remaining using Nat.strongRecOn generalizing pos run with
  | ind remaining ih =>
    have hchunk : 0 < scanChunk := by decide
    rw [scanGap]
    split
    · rename_i hzero
      exact ⟨run, rfl, by rwa [hzero]⟩
    · rename_i hmore
      have hread : readAt (ρ := ρ) image pos (min remaining scanChunk) =
          .ok (slice image pos (min remaining scanChunk)) := if_pos (by omega)
      simp only [hread]
      obtain ⟨run', hscan, hends'⟩ := ih (remaining - min remaining scanChunk) (by omega)
        (hends.track (min remaining scanChunk) (by omega)) (by omega)
      refine ⟨run', hscan, ?_⟩
      have hpos : pos + min remaining scanChunk + (remaining - min remaining scanChunk) =
          pos + remaining := by omega
      rwa [hpos] at hends'

end

theorem scanGap_eq_error {ρ : Type} {image : Bytes} {pos remaining : Nat} {run : UInt8 × Nat}
    (hmore : 0 < remaining) (hpast : image.length < pos + remaining) :
    scanGap (ρ := ρ) image pos remaining run = .error .io := by
  induction remaining using Nat.strongRecOn generalizing pos run with
  | ind remaining ih =>
    have hchunk : 0 < scanChunk := by decide
    rw [scanGap, if_neg (by omega)]
    by_cases hhere : min remaining scanChunk ≤ image.length - pos
    · have hread : readAt (ρ := ρ) image pos (min remaining scanChunk) =
          .ok (slice image pos (min remaining scanChunk)) := if_pos hhere
      simp only [hread]
      exact ih _ (by omega) (by omega) (by omega)
    · have hread : readAt (ρ := ρ) image pos (min remaining scanChunk) = .error .io :=
        if_neg hhere
      simp only [hread]

namespace Coverage

variable {ρ : Type} {image : Bytes} {externs : List Bytes} {start len : Nat}

/-- A gap within the image is classified, and covered exactly. -/
theorem Covers.classifyGap {map : Coverage} (hcovers : map.Covers image externs start)
    (hwithin : start + len ≤ image.length) :
    ∃ map', Nds.classifyGap (ρ := ρ) image start len map = .ok map' ∧
      map'.Covers image externs (start + len) := by
  unfold Nds.classifyGap
  split
  · rename_i hzero
    exact ⟨map, rfl, by rwa [hzero]⟩
  · have hstart : EndsIn image start start (0, 0) := ⟨by simp, by simp [slice]⟩
    obtain ⟨run, hscan, hends⟩ := scanGap_eq_ok (ρ := ρ) hstart hwithin
    obtain ⟨runByte, runLen⟩ := run
    have hfits := hends.fits
    have huniform := hends.uniform
    simp only at hfits huniform
    simp only [hscan]
    split
    · rename_i hall
      subst hall
      rw [Nat.add_sub_cancel] at huniform
      exact ⟨_, rfl, hcovers.pushFill hwithin huniform⟩
    split
    · have hback : start + len - runLen = start + (len - runLen) := by omega
      have hend : start + (len - runLen) + runLen = start + len := by omega
      rw [hback] at huniform
      have hpushed := (hcovers.pushResidue 8 (len - runLen) (by omega)).pushFill
        (by omega) huniform
      rw [hend] at hpushed
      exact ⟨_, rfl, hpushed⟩
    · exact ⟨_, rfl, hcovers.pushResidue 8 len hwithin⟩

theorem residualBytes_pushResidue (map : Coverage) (width start len : Nat) :
    (map.pushResidue width start len).residualBytes = map.residualBytes + len := by
  unfold pushResidue
  simp only
  split <;> rfl

/-- Residue is counted once for each byte of a gap at most. -/
theorem residualBytes_classifyGap {map map' : Coverage}
    (hclassify : Nds.classifyGap (ρ := ρ) image start len map = .ok map') :
    map'.residualBytes ≤ map.residualBytes + len := by
  unfold Nds.classifyGap at hclassify
  split at hclassify
  · cases hclassify
    omega
  split at hclassify
  · cases hclassify
  split at hclassify
  · cases hclassify
    exact Nat.le_add_right _ _
  split at hclassify
  · cases hclassify
    change (map.pushResidue _ _ _).residualBytes ≤ _
    rw [residualBytes_pushResidue]
    omega
  · cases hclassify
    exact Nat.le_of_eq (residualBytes_pushResidue _ _ _ _)

theorem classifyGap_eq_error {map : Coverage} (hmore : 0 < len)
    (hpast : image.length < start + len) :
    Nds.classifyGap (ρ := ρ) image start len map = .error .io := by
  rw [Nds.classifyGap, if_neg (by omega), scanGap_eq_error hmore hpast]

end Coverage

end Nds

end Datboi
