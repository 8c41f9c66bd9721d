import Datboi.Ingest.Mint
import Mathlib.Algebra.Order.BigOperators.Group.List

/-!
# Minted decompositions rebuild their container

The inputs of the rebuild only grow while regions are wired, so a segment keeps the bytes
it stood for when its region was wired. What is written is one sound slice after another,
and after the last piece the rebuild.
-/

namespace Datboi

open Nds (Region within)
open Reader (slice)

/-! ## Recipes of the assemble builtin -/

namespace Segment

variable {sources : List Bytes} {segment : Segment}

theorem inBounds_grow {sources' : List Bytes} (hgrow : sources <+: sources')
    (hin : segment.InBounds sources) : segment.InBounds sources' := by
  cases segment with
  | blobRange inputIx offset len =>
    obtain ⟨source, hget, hfits⟩ := hin
    obtain ⟨more, rfl⟩ := hgrow
    have hlt := (List.getElem?_eq_some_iff.mp hget).1
    exact ⟨source, by rw [List.getElem?_append_left hlt, hget], hfits⟩
  | fill byte len => trivial
  | literal bytes => trivial

theorem content_grow {sources' : List Bytes} (hgrow : sources <+: sources')
    (hin : segment.InBounds sources) : segment.content sources' = segment.content sources := by
  cases segment with
  | blobRange inputIx offset len =>
    obtain ⟨source, hget, _⟩ := hin
    obtain ⟨more, rfl⟩ := hgrow
    have hlt := (List.getElem?_eq_some_iff.mp hget).1
    simp only [content, List.getD_eq_getElem?_getD, List.getElem?_append_left hlt]
  | fill byte len => rfl
  | literal bytes => rfl

/-- The input index is a 32-bit number. -/
def IxFits : Segment → Prop
  | .blobRange inputIx _ _ => inputIx < 2 ^ 32
  | _ => True

theorem fits_of_inBounds (hix : segment.IxFits) (hin : segment.InBounds sources)
    (hsources : ∀ source ∈ sources, source.length < u64Limit) (hlen : segment.len < u64Limit) :
    segment.Fits := by
  have hlimit : u64Limit = 2 ^ 64 := rfl
  cases segment with
  | blobRange inputIx offset len =>
    obtain ⟨source, hget, hfits⟩ := hin
    have hsmall := hsources source (List.mem_of_getElem? hget)
    have hix : inputIx < 2 ^ 32 := hix
    exact ⟨hix, by omega, by omega⟩
  | fill byte len => exact hlen
  | literal bytes => exact hlen

end Segment

variable {segments : List Segment} {recipe : Recipe} {sources : List Bytes} {piece : Nds.Piece}

theorem length_le_sum_len (hvalid : ∀ segment ∈ segments, segment.Valid) :
    segments.length ≤ (segments.map Segment.len).sum := by
  induction segments with
  | nil => simp
  | cons segment rest ih =>
    rw [List.forall_mem_cons] at hvalid
    have hpos := hvalid.1.len_pos
    have hrest := ih hvalid.2
    simp only [List.length_cons, List.map_cons, List.sum_cons]
    omega

/-- A recipe over sources that hold every range of its segments yields what they stand
for. -/
theorem assemble_of_assembleRecipe {inputs : List InputRef} {output : OutputRef}
    {resolve : Blake3 → Option Bytes} {want : Nat → Nat}
    (hrecipe : assembleRecipe inputs output segments = .ok recipe)
    (hresolve : (inputs.mapM fun input => resolve input.hash) = some sources)
    (hsources : ∀ source ∈ sources, source.length < u64Limit)
    (hin : ∀ segment ∈ segments, segment.InBounds sources)
    (hix : ∀ segment ∈ segments, segment.IxFits)
    (hlength : (assembled sources segments).length < u64Limit) (hwant : ∀ round, 0 < want round) :
    recipe.outputs = [output] ∧
      recipe.assemble resolve want = some (assembled sources segments) := by
  unfold assembleRecipe at hrecipe
  split at hrecipe
  · cases hrecipe
  rename_i params hencode
  obtain ⟨hne, hvalid⟩ := AssembleParams.valid_of_encode hencode
  simp only at hne hvalid
  have hsum : (assembled sources segments).length = (segments.map Segment.len).sum := by
    rw [assembled, List.length_flatMap]
    congr 1
    exact List.map_congr_left fun segment hmem => Segment.length_content (hin segment hmem)
  have hcount := length_le_sum_len hvalid
  have hfits : ∀ segment ∈ segments, segment.Fits := by
    intro segment hsegment
    have hle := List.le_sum_of_mem (List.mem_map_of_mem (f := Segment.len) hsegment)
    exact Segment.fits_of_inBounds (hix segment hsegment) (hin segment hsegment) hsources
      (by omega)
  have hdecode := AssembleParams.decode_encode hencode
    (show segments.length < 2 ^ 64 by change segments.length < u64Limit; omega) hfits
  have hmaterialize := AssembleParams.materialize_eq_ok
    (AssembleParams.validate_eq_ok.mpr ⟨hne, hvalid⟩) (validateSources_eq_ok 0 hin hsources) hwant
  cases hrecipe
  refine ⟨rfl, ?_⟩
  simp only [Recipe.assemble, if_true, hresolve, hdecode, hmaterialize]
  rfl

/-! ## Wiring -/

/-- Every input resolves, and every known address stands where its bytes are. -/
structure Wiring.Serves (wiring : Wiring) (resolve : Blake3 → Option Bytes)
    (sources : List Bytes) : Prop where
  resolved : (wiring.inputs.mapM fun input => resolve input.hash) = some sources
  small : ∀ source ∈ sources, source.length < u64Limit
  placed : ∀ hash (ix : Nat), wiring.inputIx.lookup hash = some ix →
    ix < 2 ^ 32 ∧ ∃ bytes, resolve hash = some bytes ∧ sources[ix]? = some bytes

theorem Wiring.serves_empty (resolve : Blake3 → Option Bytes) : Wiring.Serves {} resolve [] where
  resolved := rfl
  small source hsource := by cases hsource
  placed hash ix hlookup := by cases hlookup

theorem length_of_mapM_eq_some {α β : Type} {f : α → Option β} {items : List α} {out : List β}
    (hmap : items.mapM f = some out) : out.length = items.length := by
  induction items generalizing out with
  | nil =>
    cases hmap
    rfl
  | cons item rest ih =>
    rw [List.mapM_cons] at hmap
    obtain ⟨head, _, hrest⟩ := Option.bind_eq_some_iff.mp hmap
    obtain ⟨tail, htail, hout⟩ := Option.bind_eq_some_iff.mp hrest
    cases hout
    rw [List.length_cons, List.length_cons, ih htail]

/-- Looking an address up again finds the bytes it resolves to; earlier inputs stay. -/
theorem Wiring.Serves.entry {wiring wiring' : Wiring} {resolve : Blake3 → Option Bytes}
    {sources : List Bytes} {hash : Blake3} {role : Option String} {ix : Nat} {bytes : Bytes}
    (hserves : wiring.Serves resolve sources) (hresolve : resolve hash = some bytes)
    (hsmall : bytes.length < u64Limit) (hentry : wiring.entry hash role = .ok (ix, wiring')) :
    ix < 2 ^ 32 ∧ ∃ sources', wiring'.Serves resolve sources' ∧ sources <+: sources' ∧
      sources'[ix]? = some bytes := by
  unfold Wiring.entry at hentry
  split at hentry
  · rename_i found hlookup
    cases hentry
    obtain ⟨hlt, bytes', hbytes', hget⟩ := hserves.placed hash _ hlookup
    rw [hresolve, Option.some.injEq] at hbytes'
    subst hbytes'
    exact ⟨hlt, sources, hserves, List.prefix_refl _, hget⟩
  · simp only at hentry
    split at hentry
    · rename_i hlt
      cases hentry
      have hlength := length_of_mapM_eq_some hserves.resolved
      have hnew : (sources ++ [bytes])[wiring.inputs.length]? = some bytes := by
        rw [← hlength]
        simp
      refine ⟨hlt, sources ++ [bytes], ⟨?_, ?_, ?_⟩, List.prefix_append _ _, hnew⟩
      · rw [List.mapM_append, hserves.resolved]
        simp [hresolve]
      · intro source hsource
        rcases List.mem_append.mp hsource with hold | hlast
        · exact hserves.small source hold
        · rwa [List.mem_singleton.mp hlast]
      · intro other ix' hlookup
        rw [List.lookup_cons] at hlookup
        split at hlookup
        · rename_i heq
          cases hlookup
          rw [beq_iff_eq.mp heq]
          exact ⟨hlt, bytes, hresolve, hnew⟩
        · obtain ⟨hlt', bytes', hbytes', hget⟩ := hserves.placed other ix' hlookup
          have hold := (List.getElem?_eq_some_iff.mp hget).1
          exact ⟨hlt', bytes', hbytes', by rw [List.getElem?_append_left hold, hget]⟩
    · cases hentry

/-- The addresses of the scope resolve to what they name. -/
structure MintScope.Resolves (scope : MintScope) (resolve : Blake3 → Option Bytes)
    (streams : List Bytes) : Prop where
  image : scope.image.length < u64Limit
  small : ∀ stream ∈ streams, stream.length < u64Limit
  pieces : ∀ (ix : Nat) piece hash bytes, scope.pieces[ix]? = some piece →
    scope.pieceHashes[ix]? = some hash →
    within scope.image piece.start piece.len = some bytes → resolve hash = some bytes
  externs : ∀ (ix : Nat) hash role stream, scope.externs[ix]? = some (hash, role) →
    streams[ix]? = some stream → resolve hash = some stream

variable {scope : MintScope} {resolve : Blake3 → Option Bytes} {streams : List Bytes}

section

variable {wiring : Wiring} (hscope : scope.Resolves resolve streams)
  (hserves : wiring.Serves resolve sources)

include hscope hserves

/-- A region's segment stands for the region's bytes. -/
theorem wireRegion_spec {wiring' : Wiring} {region : Region} {segment : Segment} {out : Bytes}
    (hregion : region.bytes ⟨scope.image, scope.pieces, streams⟩ = some out)
    (hwire : wireRegion scope wiring region = .ok (segment, wiring')) :
    ∃ sources', wiring'.Serves resolve sources' ∧ sources <+: sources' ∧
      segment.InBounds sources' ∧ segment.IxFits ∧ segment.content sources' = out := by
  cases region with
  | piece ix =>
    obtain ⟨piece, hpiece, hwithin⟩ := Option.bind_eq_some_iff.mp hregion
    simp only [wireRegion] at hwire
    split at hwire
    · rename_i hash found hhash hfound
      rw [hpiece, Option.some.injEq] at hfound
      subst hfound
      split at hwire
      · cases hwire
      rename_i inputIx next hentry
      cases hwire
      obtain ⟨hfits, hout⟩ := Nds.within_eq_some.mp hwithin
      have hlength : out.length = piece.len := by
        have hfits : piece.start + piece.len ≤ scope.image.length := hfits
        rw [hout, Reader.length_slice]
        omega
      have himage := hscope.image
      obtain ⟨hlt, sources', hserves', hgrow, hget⟩ := hserves.entry
        (hscope.pieces ix piece hash out hpiece hhash hwithin)
        (by rw [hlength]; simp only at hfits; omega) hentry
      refine ⟨sources', hserves', hgrow, ⟨out, hget, by omega⟩, hlt, ?_⟩
      simp only [Segment.content, List.getD_eq_getElem?_getD, hget, Option.getD_some]
      rw [← hlength, Reader.slice_zero_length]
    · cases hwire
  | fill byte len =>
    cases hwire
    cases hregion
    exact ⟨sources, hserves, List.prefix_refl _, trivial, trivial, rfl⟩
  | literal start len =>
    simp only [wireRegion] at hwire
    split at hwire
    · cases hwire
    rename_i bytes hread
    cases hwire
    obtain ⟨_, hout⟩ := Nds.within_eq_some.mp hregion
    unfold readAt at hread
    split at hread
    · cases hread
      exact ⟨sources, hserves, List.prefix_refl _, trivial, trivial, hout.symm⟩
    · cases hread
  | external input offset len =>
    obtain ⟨stream, hstream, hwithin⟩ := Option.bind_eq_some_iff.mp hregion
    simp only [wireRegion] at hwire
    split at hwire
    · cases hwire
    rename_i hash role hexternal
    split at hwire
    · cases hwire
    rename_i inputIx next hentry
    cases hwire
    obtain ⟨hfits, hout⟩ := Nds.within_eq_some.mp hwithin
    obtain ⟨hlt, sources', hserves', hgrow, hget⟩ := hserves.entry
      (hscope.externs input hash role stream hexternal hstream)
      (hscope.small stream (List.mem_of_getElem? hstream)) hentry
    refine ⟨sources', hserves', hgrow, ⟨stream, hget, hfits⟩, hlt, ?_⟩
    simp only [Segment.content, List.getD_eq_getElem?_getD, hget, Option.getD_some, hout]

/-- A wired map stands for what its regions stand for. -/
theorem wireRegions_spec {wiring' : Wiring} {regions : List Region} {out : Bytes}
    (hrender : Nds.render ⟨scope.image, scope.pieces, streams⟩ regions = some out)
    (hwire : wireRegions scope wiring regions = .ok (segments, wiring')) :
    ∃ sources', wiring'.Serves resolve sources' ∧ sources <+: sources' ∧
      (∀ segment ∈ segments, segment.InBounds sources' ∧ segment.IxFits) ∧
        assembled sources' segments = out := by
  induction regions generalizing wiring sources segments out with
  | nil =>
    cases hwire
    cases hrender
    exact ⟨sources, hserves, List.prefix_refl _, by simp, rfl⟩
  | cons region rest ih =>
    obtain ⟨head, tail, hhead, htail, rfl⟩ := Tiling.render_cons_eq_some.mp hrender
    simp only [wireRegions] at hwire
    split at hwire
    · cases hwire
    rename_i segment next hfirst
    split at hwire
    · cases hwire
    rename_i segments' last hrest
    cases hwire
    obtain ⟨sources₁, hserves₁, hgrow₁, hin, hix, hcontent⟩ :=
      wireRegion_spec hscope hserves hhead hfirst
    obtain ⟨sources', hserves', hgrow', hall, hassembled⟩ := ih hserves₁ htail hrest
    refine ⟨sources', hserves', hgrow₁.trans hgrow', ?_, ?_⟩
    · rw [List.forall_mem_cons]
      exact ⟨⟨Segment.inBounds_grow hgrow' hin, hix⟩, hall⟩
    · rw [assembled, List.flatMap_cons, Segment.content_grow hgrow' hin, hcontent]
      exact congrArg (head ++ ·) hassembled

end

/-! ## What is written -/

open Moves (final)

/-- A piece recipe: it claims the piece's hash and size, and yields the piece from the
container. -/
def YieldsPiece (host : Host) (image : Bytes) (resolve : Blake3 → Option Bytes)
    (piece : Nds.Piece) (recipe : Recipe) : Prop :=
  ∃ bytes, within image piece.start piece.len = some bytes ∧
    recipe.outputs = [⟨host.blake3 bytes, bytes.length, some piece.name⟩] ∧
      ∀ want : Nat → Nat, (∀ round, 0 < want round) → recipe.assemble resolve want = some bytes

/-- A rebuild recipe: it claims the container and yields it. -/
def YieldsContainer (container : Blake3) (image : Bytes) (resolve : Blake3 → Option Bytes)
    (recipe : Recipe) : Prop :=
  recipe.outputs = [⟨container, image.length, none⟩] ∧
    ∀ want : Nat → Nat, (∀ round, 0 < want round) → recipe.assemble resolve want = some image

theorem mintRecipe_written (host : Host) (recipe : Recipe) (seek : SeekClass) (s : Minting) :
    (∃ id s', mintRecipe host recipe seek s = .ok id s' ∧ s'.written = s.written ++ [recipe]) ∨
      ∃ e s', mintRecipe host recipe seek s = .error e s' ∧
        (s'.written = s.written ∨ s'.written = s.written ++ [recipe]) := by
  unfold mintRecipe
  split
  · exact Or.inr ⟨_, _, rfl, Or.inl rfl⟩
  simp only
  split
  · exact Or.inr ⟨_, _, rfl, Or.inl rfl⟩
  split
  · exact Or.inl ⟨_, _, rfl, rfl⟩
  split
  · exact Or.inr ⟨_, _, rfl, Or.inr rfl⟩
  split
  · exact Or.inr ⟨_, _, rfl, Or.inr rfl⟩
  · exact Or.inl ⟨_, _, rfl, rfl⟩

theorem claimAbsent_written (hash : Blake3) (size : Nat) (s : Minting) :
    ∃ s', claimAbsent hash size s = .ok () s' ∧ s'.written = s.written := by
  unfold claimAbsent
  split
  · exact ⟨s, rfl, rfl⟩
  · exact ⟨_, rfl, rfl⟩

theorem groundEmpty_written (host : Host) (emptyFiles : Nat) (s : Minting) :
    (final (groundEmpty host emptyFiles s)).written = s.written := by
  unfold groundEmpty
  split
  · rfl
  · simp only
    split <;> rfl

variable {host : Host} {container : Blake3} {image : Bytes} {prehashed : Nat → Option Blake3}

/-- A hash that names the piece's bytes. -/
def NamesPiece (host : Host) (image : Bytes) (piece : Nds.Piece) (hash : Blake3) : Prop :=
  ∃ bytes, within image piece.start piece.len = some bytes ∧ hash = host.blake3 bytes

/-- A slice that can be encoded is not empty, so its range is inside the container. -/
theorem namesPiece_of_pieceHash {given : Option Blake3} {hash : Blake3}
    (hgiven : ∀ known, given = some known → NamesPiece host image piece known)
    (hpos : piece.len ≠ 0) (hhash : pieceHash host image given piece = .ok hash) :
    NamesPiece host image piece hash := by
  unfold pieceHash at hhash
  split at hhash
  · rename_i known
    cases hhash
    exact hgiven _ rfl
  · unfold hashRange at hhash
    split at hhash
    · cases hhash
    rename_i bytes hread
    unfold readAt at hread
    split at hread
    · cases hread
      cases hhash
      exact ⟨_, Nds.within_eq_some.mpr ⟨by omega, rfl⟩, rfl⟩
    · cases hread

/-- A piece recipe claims and yields the piece that its hash names. -/
theorem yieldsPiece_of_assembleRecipe {hash : Blake3} (himage : image.length < u64Limit)
    (hcontainer : resolve container = some image) (hnames : NamesPiece host image piece hash)
    (hrecipe : assembleRecipe [⟨container, none⟩] ⟨hash, piece.len, some piece.name⟩
      [.blobRange 0 piece.start piece.len] = .ok recipe) :
    YieldsPiece host image resolve piece recipe := by
  obtain ⟨bytes, hwithin, rfl⟩ := hnames
  obtain ⟨hfits, hbytes⟩ := Nds.within_eq_some.mp hwithin
  have hlength : bytes.length = piece.len := by
    rw [hbytes, Reader.length_slice]
    omega
  have hassembled : assembled [image] [.blobRange 0 piece.start piece.len] = bytes := by
    simp [assembled, Segment.content, hbytes]
  have hresolve : (([⟨container, none⟩] : List InputRef).mapM fun input =>
      resolve input.hash) = some [image] := by simp [hcontainer]
  have hin : ∀ segment ∈ [Segment.blobRange 0 piece.start piece.len],
      segment.InBounds [image] := by
    simpa [Segment.InBounds] using hfits
  have hruns : ∀ want : Nat → Nat, (∀ round, 0 < want round) →
      recipe.outputs = [⟨host.blake3 bytes, piece.len, some piece.name⟩] ∧
        recipe.assemble resolve want = some bytes := by
    intro want hwant
    have hrun := assemble_of_assembleRecipe hrecipe hresolve (by simpa using himage) hin
      (by simp [Segment.IxFits]) (by rw [hassembled]; omega) hwant
    rwa [hassembled] at hrun
  refine ⟨bytes, hwithin, ?_, fun want hwant => (hruns want hwant).2⟩
  rw [(hruns (fun _ => 1) (by simp)).1, hlength]

/-- Minting a piece writes its recipe, or fails before it wrote anything else. -/
theorem mintPiece_written (himage : image.length < u64Limit)
    (hcontainer : resolve container = some image) {given : Option Blake3}
    (hgiven : ∀ known, given = some known → NamesPiece host image piece known) (s : Minting) :
    ((final (mintPiece host container image given piece s)).written = s.written ∨
        ∃ recipe, YieldsPiece host image resolve piece recipe ∧
          (final (mintPiece host container image given piece s)).written =
            s.written ++ [recipe]) ∧
      ∀ hash s', mintPiece host container image given piece s = .ok hash s' →
        NamesPiece host image piece hash ∧ ∃ recipe, YieldsPiece host image resolve piece recipe ∧
          s'.written = s.written ++ [recipe] := by
  unfold mintPiece
  rw [MintM.lift_bind]
  cases hhash : pieceHash host image given piece with
  | error e => exact ⟨Or.inl rfl, fun hash s' hrun => by cases hrun⟩
  | ok hash =>
    obtain ⟨s₁, hclaim, hwritten₁⟩ := claimAbsent_written hash piece.len s
    simp only [Moves.bind_apply, hclaim]
    cases hrecipe : assembleRecipe [⟨container, none⟩] ⟨hash, piece.len, some piece.name⟩
        [.blobRange 0 piece.start piece.len] with
    | error e => exact ⟨Or.inl hwritten₁, fun hash s' hrun => by cases hrun⟩
    | ok recipe =>
      have hpos : piece.len ≠ 0 := by
        unfold assembleRecipe at hrecipe
        split at hrecipe
        · cases hrecipe
        rename_i params hencode
        exact (AssembleParams.valid_of_encode hencode).2 _ (List.mem_singleton_self _)
      have hnames := namesPiece_of_pieceHash hgiven hpos hhash
      have hyields := yieldsPiece_of_assembleRecipe himage hcontainer hnames hrecipe
      rcases mintRecipe_written host recipe .affine s₁ with
        ⟨id, s₂, hmint, hwritten₂⟩ | ⟨e, s₂, hmint, hwritten₂⟩
      · rw [hwritten₁] at hwritten₂
        simp only [MintM.lift, hmint]
        refine ⟨Or.inr ⟨recipe, hyields, hwritten₂⟩, ?_⟩
        intro hash' s' hrun
        cases hrun
        exact ⟨hnames, recipe, hyields, hwritten₂⟩
      · rw [hwritten₁] at hwritten₂
        simp only [MintM.lift, hmint]
        refine ⟨?_, fun hash s' hrun => by cases hrun⟩
        rcases hwritten₂ with hsame | hmore
        · exact Or.inl hsame
        · exact Or.inr ⟨recipe, hyields, hmore⟩

/-- The hashes the walk computed itself are right; `ix` pieces went before. -/
def PrehashedSound (host : Host) (image : Bytes) (prehashed : Nat → Option Blake3)
    (ix : Nat) (pieces : List Nds.Piece) : Prop :=
  ∀ (n : Nat) hash piece, prehashed (ix + n) = some hash → pieces[n]? = some piece →
    NamesPiece host image piece hash

/-- The pieces are minted one after another, as far as the run gets. -/
theorem mintPieces_written (himage : image.length < u64Limit)
    (hcontainer : resolve container = some image) {pieces : List Nds.Piece} {ix : Nat}
    (hprehashed : PrehashedSound host image prehashed ix pieces) (s : Minting) :
    ∃ done recipes, (final (mintPieces host container image prehashed ix pieces s)).written =
        s.written ++ recipes ∧
      List.Forall₂ (YieldsPiece host image resolve) (pieces.take done) recipes ∧
      ∀ hashes s', mintPieces host container image prehashed ix pieces s = .ok hashes s' →
        done = pieces.length ∧ List.Forall₂ (NamesPiece host image) pieces hashes := by
  induction pieces generalizing ix s with
  | nil =>
    refine ⟨0, [], (List.append_nil _).symm, List.Forall₂.nil, ?_⟩
    intro hashes s' hrun
    cases hrun
    exact ⟨rfl, List.Forall₂.nil⟩
  | cons piece rest ih =>
    have hgiven : ∀ known, prehashed ix = some known → NamesPiece host image piece known :=
      fun known hknown => hprehashed 0 known piece hknown rfl
    have hrest : PrehashedSound host image prehashed (ix + 1) rest := by
      intro n hash other hknown hother
      refine hprehashed (n + 1) hash other ?_ hother
      rwa [Nat.add_assoc, Nat.add_comm 1 n] at hknown
    obtain ⟨hfinal, hok⟩ := mintPiece_written himage hcontainer hgiven s
    simp only [mintPieces, Moves.bind_apply]
    cases hpiece : mintPiece host container image (prehashed ix) piece s with
    | error e s₁ =>
      rw [hpiece] at hfinal
      rcases hfinal with hsame | ⟨recipe, hyields, hmore⟩
      · exact ⟨0, [], by simpa using hsame, List.Forall₂.nil,
          fun hashes s' hrun => by cases hrun⟩
      · exact ⟨1, [recipe], hmore, by simpa using hyields, fun hashes s' hrun => by cases hrun⟩
    | ok hash s₁ =>
      obtain ⟨hnames, recipe, hyields, hwritten₁⟩ := hok hash s₁ hpiece
      obtain ⟨done, recipes, hwritten, hall, hdone⟩ := ih hrest s₁
      refine ⟨done + 1, recipe :: recipes, ?_, ?_, ?_⟩
      · simp only
        cases hmint : mintPieces host container image prehashed (ix + 1) rest s₁ with
        | error e s₂ => simpa [hmint, hwritten₁] using hwritten
        | ok hashes s₂ =>
          rw [hmint] at hwritten
          refine Eq.trans hwritten ?_
          rw [hwritten₁, List.append_assoc]
          rfl
      · rw [List.take_succ_cons]
        exact List.Forall₂.cons hyields hall
      · intro hashes s' hrun
        simp only at hrun
        cases hmint : mintPieces host container image prehashed (ix + 1) rest s₁ with
        | error e s₂ =>
          rw [hmint] at hrun
          cases hrun
        | ok hashes' s₂ =>
          rw [hmint] at hrun
          cases hrun
          obtain ⟨hlength, hnamesAll⟩ := hdone hashes' _ hmint
          exact ⟨by rw [hlength, List.length_cons], List.Forall₂.cons hnames hnamesAll⟩

/-- The rebuild of a map that tiles the container yields the container. -/
theorem yieldsContainer_of_rebuildRecipe {regions : List Region}
    (hscope : scope.Resolves resolve streams)
    (htiles : Nds.render ⟨scope.image, scope.pieces, streams⟩ regions = some scope.image)
    (hrebuild : rebuildRecipe scope container scope.image.length regions = .ok recipe) :
    YieldsContainer container scope.image resolve recipe := by
  unfold rebuildRecipe at hrebuild
  split at hrebuild
  · cases hrebuild
  rename_i segments wiring hwire
  obtain ⟨sources, hserves, _, hsegments, hassembled⟩ :=
    wireRegions_spec hscope (Wiring.serves_empty resolve) htiles hwire
  have hruns : ∀ want : Nat → Nat, (∀ round, 0 < want round) →
      recipe.outputs = [⟨container, scope.image.length, none⟩] ∧
        recipe.assemble resolve want = some scope.image := by
    intro want hwant
    have hrun := assemble_of_assembleRecipe hrebuild hserves.resolved hserves.small
      (fun segment hsegment => (hsegments segment hsegment).1)
      (fun segment hsegment => (hsegments segment hsegment).2)
      (by rw [hassembled]; exact hscope.image) hwant
    rwa [hassembled] at hrun
  exact ⟨(hruns (fun _ => 1) (by simp)).1, fun want hwant => (hruns want hwant).2⟩

/-- Minted decompositions rebuild their container. A map whose regions tile the container,
over pieces and streams that resolve by their addresses, leaves behind piece recipes that
each yield their slice under the hash and size they claim; a run that succeeds has written
one for every piece, and then a rebuild that yields the container. -/
theorem mintDecomposition_rebuilds (host : Host) (resolve : Blake3 → Option Bytes)
    (container : Blake3) (image : Bytes) (totalLen : Nat) (pieces : List Nds.Piece)
    (regions : List Region) (emptyFiles : Nat) (externs : List (Blake3 × String))
    (streams : List Bytes) (prehashed : Nat → Option Blake3) (s : Minting)
    (htotal : totalLen = image.length) (himage : image.length < u64Limit)
    (hsmall : ∀ stream ∈ streams, stream.length < u64Limit)
    (htiles : Nds.render ⟨image, pieces, streams⟩ regions = some image)
    (hcontainer : resolve container = some image)
    (hpieces : ∀ piece ∈ pieces, ∀ bytes, within image piece.start piece.len = some bytes →
      resolve (host.blake3 bytes) = some bytes)
    (hexternals : (externs.map fun stream => resolve stream.1) = streams.map some)
    (hprehashed : PrehashedSound host image prehashed 0 pieces) :
    ∃ done recipes rebuilds,
      (final (mintDecomposition host container totalLen pieces regions emptyFiles externs prehashed
        image s)).written = s.written ++ recipes ++ rebuilds ∧
      List.Forall₂ (YieldsPiece host image resolve) (pieces.take done) recipes ∧
      (∀ rebuild ∈ rebuilds, YieldsContainer container image resolve rebuild) ∧
      ∀ s', mintDecomposition host container totalLen pieces regions emptyFiles externs prehashed
        image s = .ok () s' → done = pieces.length ∧ rebuilds.length = 1 := by
  subst htotal
  obtain ⟨done, recipes, hwritten, hall, hdone⟩ :=
    mintPieces_written himage hcontainer hprehashed s
  simp only [mintDecomposition, Moves.bind_apply]
  cases hmint : mintPieces host container image prehashed 0 pieces s with
  | error e s₁ =>
    rw [hmint] at hwritten
    exact ⟨done, recipes, [], by simpa using hwritten, hall, by simp,
      fun s' hrun => by cases hrun⟩
  | ok pieceHashes s₁ =>
    rw [hmint] at hwritten
    obtain ⟨hlength, hnames⟩ := hdone pieceHashes s₁ hmint
    have hwritten₁ : s₁.written = s.written ++ recipes := hwritten
    have hempty := groundEmpty_written host emptyFiles s₁
    simp only
    cases hground : groundEmpty host emptyFiles s₁ with
    | error e s₂ =>
      rw [hground] at hempty
      have hsame : s₂.written = s₁.written := hempty
      exact ⟨done, recipes, [], by simp [hsame, hwritten₁], hall, by simp,
        fun s' hrun => by cases hrun⟩
    | ok _ s₂ =>
      rw [hground] at hempty
      have hsame : s₂.written = s₁.written := hempty
      simp only [MintM.lift]
      cases hrebuild : rebuildRecipe ⟨image, pieces, pieceHashes, externs⟩ container
          image.length regions with
      | error e =>
        exact ⟨done, recipes, [], by simp [hsame, hwritten₁], hall, by simp,
          fun s' hrun => by cases hrun⟩
      | ok rebuild =>
        have hscope : MintScope.Resolves ⟨image, pieces, pieceHashes, externs⟩ resolve
            streams := by
          refine ⟨himage, hsmall, ?_, ?_⟩
          · intro ix piece hash bytes hpiece hhash hwithin
            obtain ⟨hlt, rfl⟩ := List.getElem?_eq_some_iff.mp hpiece
            obtain ⟨hlt', rfl⟩ := List.getElem?_eq_some_iff.mp hhash
            obtain ⟨bytes', hwithin', hhashEq⟩ := hnames.get hlt hlt'
            have heq := Option.some.inj (hwithin.symm.trans hwithin')
            have hresolve := hpieces _ (List.getElem_mem hlt) bytes hwithin
            simp only [List.get_eq_getElem] at hhashEq
            rwa [hhashEq, ← heq]
          · intro ix hash role stream hexternal hstream
            have hget := congrArg (fun found => found[ix]?) hexternals
            simpa [hexternal, hstream] using hget
        have hyields := yieldsContainer_of_rebuildRecipe hscope htiles hrebuild
        rcases mintRecipe_written host rebuild .affine s₂ with
          ⟨id, s₃, hrun, hwritten₃⟩ | ⟨e, s₃, hrun, hwritten₃⟩
        · simp only [hrun]
          refine ⟨done, recipes, [rebuild], ?_, hall, by simpa using hyields,
            fun s' _ => ⟨hlength, rfl⟩⟩
          change s₃.written = _
          rw [hwritten₃, hsame, hwritten₁]
        · simp only [hrun]
          rcases hwritten₃ with hnone | hsome
          · exact ⟨done, recipes, [], by simp [hnone, hsame, hwritten₁], hall, by simp,
              fun s' hrun => by cases hrun⟩
          · exact ⟨done, recipes, [rebuild], by simp [hsome, hsame, hwritten₁], hall,
              by simpa using hyields, fun s' hrun => by cases hrun⟩

/-- Two equal pieces, a run of one byte, and the end of a stream. -/
def twinRegions : List Region := [.piece 0, .piece 1, .fill 9 3, .external 0 1 1]

def twinPieces : List Nds.Piece := [⟨"a", 0, 1⟩, ⟨"b", 1, 1⟩]

def twinResolve (hash : Blake3) : Option Bytes :=
  if hash = 99 then some [7, 7, 9, 9, 9, 5]
  else if hash = 50 then some [4, 5]
  else if hash = Host.sample.blake3 [7] then some [7]
  else none

def twinMint : EStateM.Result MintError Minting Unit :=
  mintDecomposition Host.sample 99 6 twinPieces twinRegions 0 [(50, "junk")] (fun _ => none)
    [7, 7, 9, 9, 9, 5] ⟨Db.empty, Store.empty, []⟩

/-- The twins are one input, and the rebuild still yields both. -/
theorem mintDecomposition_rebuilds_twins :
    (∃ s', twinMint = .ok () s') ∧ ∃ recipes rebuild,
      (final twinMint).written = recipes ++ [rebuild] ∧
      List.Forall₂ (YieldsPiece Host.sample [7, 7, 9, 9, 9, 5] twinResolve) twinPieces recipes ∧
      YieldsContainer 99 [7, 7, 9, 9, 9, 5] twinResolve rebuild := by
  have hok : Moves.failed twinMint = false := by decide +kernel
  have hrun : ∃ s', twinMint = .ok () s' := by
    cases htwin : twinMint with
    | ok _ s' => exact ⟨s', rfl⟩
    | error e s' =>
      rw [htwin] at hok
      cases hok
  obtain ⟨s', hs'⟩ := hrun
  have hpieces : ∀ piece ∈ twinPieces, ∀ bytes,
      within [7, 7, 9, 9, 9, 5] piece.start piece.len = some bytes →
        twinResolve (Host.sample.blake3 bytes) = some bytes := by
    have hseven : twinResolve (Host.sample.blake3 [7]) = some [7] := by decide +kernel
    intro piece hpiece bytes hbytes
    simp only [twinPieces, List.mem_cons, List.not_mem_nil, or_false] at hpiece
    rcases hpiece with rfl | rfl <;> cases hbytes <;> exact hseven
  obtain ⟨done, recipes, rebuilds, hwritten, hall, hyields, hcomplete⟩ :=
    mintDecomposition_rebuilds Host.sample twinResolve 99 [7, 7, 9, 9, 9, 5] 6 twinPieces
      twinRegions 0 [(50, "junk")] [[4, 5]] (fun _ => none) ⟨Db.empty, Store.empty, []⟩ rfl
      (by decide) (by decide) (by decide) (by decide) hpieces (by decide)
      (fun n hash piece hknown _ => by cases hknown)
  obtain ⟨hdone, hone⟩ := hcomplete s' hs'
  obtain ⟨rebuild, rfl⟩ := List.length_eq_one_iff.mp hone
  rw [hdone, List.take_length] at hall
  exact ⟨⟨s', hs'⟩, recipes, rebuild, hwritten, hall, hyields rebuild (by simp)⟩

end Datboi
