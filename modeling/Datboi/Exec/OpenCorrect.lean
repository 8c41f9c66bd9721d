import Datboi.Core.AssembleReader
import Datboi.Exec.Open

/-!
# What opened nodes serve

A child that serves a fixed byte string, in order and at random, makes the node above
it run on that byte string. Assemble nodes over such children serve exactly the
assembled bytes at every offset.
-/

namespace Datboi

open Reader (slice Source)

/-! ## Assemble nodes -/

section Assemble

variable {inputs : List Bytes} {sources : List ByteSource}

/-- The check of a node against its children is the one a reader makes of its sources. -/
theorem checkSegments_eq_ok_iff (hlen : sources.map Source.len = inputs.map List.length)
    (segments : List Segment) (ix : Nat) :
    checkSegments sources segments ix = .ok () ↔ validateSources inputs segments ix = .ok () := by
  induction segments generalizing ix with
  | nil => exact ⟨fun _ => rfl, fun _ => rfl⟩
  | cons segment rest ih =>
    cases segment with
    | blobRange inputIx offset len =>
      have hsame : sources[inputIx]?.map Source.len = inputs[inputIx]?.map List.length := by
        rw [← List.getElem?_map, ← List.getElem?_map, hlen]
      rw [checkSegments, validateSources]
      cases hsource : sources[inputIx]? with
      | none =>
        rw [hsource, Option.map_none, eq_comm, Option.map_eq_none_iff] at hsame
        rw [hsame]
        exact ⟨fun herror => (by cases herror), fun herror => (by cases herror)⟩
      | some child =>
        rw [hsource, Option.map_some, eq_comm, Option.map_eq_some_iff] at hsame
        obtain ⟨input, hinput, hinputLen⟩ := hsame
        rw [hinput]
        dsimp only
        rw [hinputLen]
        split
        · exact ⟨fun herror => (by cases herror), fun herror => (by cases herror)⟩
        · exact ih (ix + 1)
    | fill byte len => exact ih (ix + 1)
    | literal bytes => exact ih (ix + 1)

/-- The children serve the inputs, maybe in short reads. -/
abbrev Serving (sources : List ByteSource) (inputs : List Bytes) : Prop :=
  List.Forall₂ (fun source input => source.Serves input) sources inputs

theorem Serving.map_len (hserving : Serving sources inputs) :
    sources.map Source.len = inputs.map List.length := by
  induction hserving with
  | nil => rfl
  | cons hsource _ ih => rw [List.map_cons, List.map_cons, hsource.len_eq, ih]

theorem Serving.getElem? (hserving : Serving sources inputs) {ix : Nat} {input : Bytes}
    (hinput : inputs[ix]? = some input) :
    ∃ source, sources[ix]? = some source ∧ source.Serves input := by
  induction hserving generalizing ix with
  | nil => cases hinput
  | cons hsource _ ih =>
    cases ix with
    | zero =>
      cases hinput
      exact ⟨_, rfl, hsource⟩
    | succ ix => exact ih hinput

theorem serving_ofList (inputs : List Bytes) : Serving (inputs.map Source.ofList) inputs := by
  rw [Serving, List.forall₂_map_left_iff, List.forall₂_same]
  exact fun input _ => Source.serves_ofList input

theorem readPieces_of_serving (hserving : Serving sources inputs) {pieces : List Piece}
    (hin : ∀ piece ∈ pieces, piece.InBounds inputs) :
    readPieces sources pieces = .ok (pieces.flatMap (Piece.content inputs)) := by
  induction pieces with
  | nil => rfl
  | cons piece rest ih =>
    have hrest := ih fun other hother => hin other (List.mem_cons_of_mem piece hother)
    have hpiece := hin piece List.mem_cons_self
    cases piece with
    | input inputIx offset len =>
      obtain ⟨input, hinput, hfits⟩ := hpiece
      obtain ⟨source, hsource, hserves⟩ := hserving.getElem? hinput
      have hread := Source.readExact_of_serves hserves ({} : IoError) hfits
      simp only [readPieces, hsource, hread, hrest, List.flatMap_cons, Piece.content,
        List.getD_eq_getElem?_getD, hinput, Option.getD_some]
      rfl
    | fill byte len =>
      simp only [readPieces, hrest, List.flatMap_cons]
      rfl
    | literal bytes =>
      simp only [readPieces, hrest, List.flatMap_cons]
      rfl

/-- The clamped range of a read, as a slice. -/
theorem slice_clamp (items : Bytes) (offset count : Nat) (hlimit : items.length < u64Limit) :
    slice items (min offset items.length)
        (min (saturatingAdd offset count) items.length - min offset items.length) =
      slice items offset count := by
  unfold saturatingAdd
  by_cases hpast : items.length ≤ offset
  · rw [Reader.slice_eq_nil_iff.mpr (Or.inr hpast), Reader.slice_eq_nil_iff]
    omega
  · rw [← Reader.slice_length_slice, ← Reader.slice_length_slice items offset count,
      Reader.length_slice, Reader.length_slice]
    congr 1 <;> omega

/-- Over children that serve fixed bytes, an assemble node serves the assembled
bytes. -/
theorem assembleRandom_of_serving (hserving : Serving sources inputs) {params : AssembleParams}
    {src : ByteSource} (hopen : assembleRandom params sources = .ok src) :
    src = .ofList (assembled inputs params.segments) := by
  unfold assembleRandom at hopen
  split at hopen
  · cases hopen
  · rename_i size hsize
    split at hopen
    · cases hopen
    · rename_i hcheck
      have hin := inBounds_of_validateSources
        ((checkSegments_eq_ok_iff hserving.map_len params.segments 0).mp hcheck)
      have hlen := length_assembled hsize hin
      have hlimit : (assembled inputs params.segments).length < u64Limit :=
        hlen ▸ (outputSize_eq_ok hsize).2
      cases hopen
      ext offset count
      · exact hlen.symm
      · subst hlen
        simp only [Source.ofList_readAt, ← slice_clamp _ offset count hlimit]
        split
        · rename_i hempty
          rw [hempty, Nat.sub_self, Reader.slice_zero_right]
        · rename_i hnonempty
          have hordered : min offset (assembled inputs params.segments).length ≤
              min (saturatingAdd offset count) (assembled inputs params.segments).length := by
            unfold saturatingAdd
            omega
          cases htranslate : translate params (min offset (assembled inputs params.segments).length)
              (min (saturatingAdd offset count) (assembled inputs params.segments).length) with
          | error e =>
            have hok := translate_eq_ok.mpr ⟨_, hsize, hordered, Nat.min_le_right _ _, rfl⟩
            rw [htranslate] at hok
            cases hok
          | ok pieces =>
            obtain ⟨hpieces, hcontent⟩ := translate_content htranslate hin
            rw [← hcontent]
            exact readPieces_of_serving hserving hpieces

theorem assembleRandom_ofList {params : AssembleParams} {src : ByteSource}
    (hopen : assembleRandom params (inputs.map Source.ofList) = .ok src) :
    src = .ofList (assembled inputs params.segments) :=
  assembleRandom_of_serving (serving_ofList inputs) hopen

end Assemble

/-! ## Nodes over known inputs -/

namespace Executor

/-- An input of known bytes, opened any way. -/
def Opened.ofBytes (bytes : Bytes) : Opened where
  len := bytes.length
  sequential := .ok ⟨bytes, none⟩
  random _ := .ok (.ofList bytes)

/-- Opened for materialization, the node serves exactly these bytes. -/
structure Opened.Holds (opened : Opened) (bytes : Bytes) : Prop where
  len_eq : opened.len = bytes.length
  sequential_eq : opened.sequential = .ok ⟨bytes, none⟩
  random_eq : opened.random .materialize = .ok (.ofList bytes)

variable {exec : Executor} {children : List Opened} {inputs : List Bytes}

theorem ofBytes_holds (inputs : List Bytes) :
    List.Forall₂ Opened.Holds (inputs.map Opened.ofBytes) inputs := by
  rw [List.forall₂_map_left_iff, List.forall₂_same]
  exact fun bytes _ => ⟨rfl, rfl, rfl⟩

section Holds

variable (hholds : List.Forall₂ Opened.Holds children inputs)
include hholds

theorem map_len_of_holds : children.map Opened.len = (inputs.map Opened.ofBytes).map Opened.len := by
  induction hholds with
  | nil => rfl
  | cons hchild _ ih => simp [ih, hchild.len_eq, Opened.ofBytes]

theorem mapM_random_of_holds :
    (children.mapM fun child => child.random .materialize) = .ok (inputs.map Source.ofList) := by
  induction hholds with
  | nil => rfl
  | cons hchild _ ih =>
    rw [List.mapM_cons, hchild.random_eq, ih]
    rfl

theorem openContainer_of_holds :
    openContainer children = openContainer (inputs.map Opened.ofBytes) := by
  cases hholds with
  | nil => rfl
  | cons hchild _ => exact hchild.random_eq

theorem openTransformInputs_of_holds (randomAccessInputs : List Nat) (ix : Nat) :
    openTransformInputs randomAccessInputs children ix =
      openTransformInputs randomAccessInputs (inputs.map Opened.ofBytes) ix := by
  induction hholds generalizing ix with
  | nil => rfl
  | cons hchild _ ih =>
    rw [List.map_cons, openTransformInputs, openTransformInputs, ih, hchild.random_eq,
      hchild.sequential_eq, hchild.len_eq]
    rfl

theorem runTransformNode_of_holds (compiled : Bytes) (op : String) (params : Bytes)
    (randomAccessInputs : List Nat) (outputs : List (Blake3 × Nat))
    (sinks : List (Guest.Sink UInt8)) :
    exec.runTransformNode compiled op params randomAccessInputs outputs children sinks =
      exec.runTransformNode compiled op params randomAccessInputs outputs
        (inputs.map Opened.ofBytes) sinks := by
  rw [runTransformNode, runTransformNode, openTransformInputs_of_holds hholds,
    map_len_of_holds hholds]

theorem runExtractorNode_of_holds (compiled : Bytes) (memberIx : Nat)
    (outputs : List (Blake3 × Nat)) (sink : Guest.Sink UInt8) :
    exec.runExtractorNode compiled memberIx outputs children sink =
      exec.runExtractorNode compiled memberIx outputs (inputs.map Opened.ofBytes) sink := by
  rw [runExtractorNode, runExtractorNode, openContainer_of_holds hholds, map_len_of_holds hholds]

/-- A node cannot tell its children from known inputs of the same bytes. -/
theorem openNodeSequential_of_holds (node : OpImpl) (outputIx : Nat)
    (outputs : List (Blake3 × Nat)) :
    exec.openNodeSequential node outputIx outputs children =
      exec.openNodeSequential node outputIx outputs (inputs.map Opened.ofBytes) := by
  cases node with
  | assemble params =>
    have hinputs := mapM_random_of_holds (ofBytes_holds inputs)
    rw [openNodeSequential, openNodeSequential, mapM_random_of_holds hholds, hinputs]
  | deflate offset len =>
    rw [openNodeSequential, openNodeSequential, openContainer_of_holds hholds]
  | extractor compiled memberIx =>
    rw [openNodeSequential, openNodeSequential, runExtractorNode_of_holds hholds]
  | transform component compiled op params seek randomAccessInputs =>
    rw [openNodeSequential, openNodeSequential, runTransformNode_of_holds hholds]

end Holds

end Executor

end Datboi
