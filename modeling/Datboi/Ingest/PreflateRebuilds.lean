import Datboi.Ingest.Preflate

/-!
# A cut container comes back together

The skeleton runs out of step with the container by what the streams took away: its offset
advances over gaps only. Whatever ranges are covered, the gaps and the streams in turn are the
container.
-/

namespace Datboi

open Reader (slice)
open Moves (final)

namespace Preflate

/-! ## Spans -/

/-- Spans in order, disjoint and inside the container, from a cursor on. -/
def Sane (containerSize : Nat) : Nat → List Span → Prop
  | prevEnd, [] => prevEnd ≤ containerSize
  | prevEnd, span :: rest =>
    prevEnd ≤ span.start ∧ Sane containerSize (span.start + span.len) rest

variable {containerSize : Nat}

variable {prevEnd : Nat} {spans : List Span} {ranges : List Range} {span : Span} {item : Blake3}

theorem Sane.le (hsane : Sane containerSize prevEnd spans) : prevEnd ≤ containerSize := by
  induction spans generalizing prevEnd with
  | nil => exact hsane
  | cons span rest ih =>
    obtain ⟨hstart, hrest⟩ := hsane
    have := ih hrest
    omega

theorem Sane.mono {earlier : Nat} (hle : earlier ≤ prevEnd)
    (hsane : Sane containerSize prevEnd spans) : Sane containerSize earlier spans := by
  cases spans with
  | nil => exact hle.trans hsane
  | cons span rest => exact ⟨hle.trans hsane.1, hsane.2⟩

/-- Leaving spans out leaves the rest in order. -/
theorem Sane.sublist {some : List Span} (hsublist : some.Sublist spans)
    (hsane : Sane containerSize prevEnd spans) : Sane containerSize prevEnd some := by
  induction hsublist generalizing prevEnd with
  | slnil => exact hsane
  | cons span _ ih =>
    obtain ⟨hstart, hrest⟩ := hsane
    exact (ih hrest).mono (by omega)
  | cons_cons span _ ih => exact ⟨hsane.1, ih hsane.2⟩

theorem sane_of_rangesSane (hle : prevEnd ≤ containerSize)
    (hsane : rangesSane containerSize prevEnd ranges = true) :
    Sane containerSize prevEnd (ranges.map Range.toSpan) := by
  induction ranges generalizing prevEnd with
  | nil => exact hle
  | cons range rest ih =>
    rw [rangesSane] at hsane
    split at hsane
    · cases hsane
    · rename_i hin
      rw [not_or, not_or, Nat.not_lt, Nat.not_lt] at hin
      exact ⟨hin.1, ih hin.2.2 hsane⟩

theorem Sane.within (hsane : Sane containerSize prevEnd spans) (hspan : span ∈ spans) :
    span.start + span.len ≤ containerSize := by
  induction spans generalizing prevEnd with
  | nil => cases hspan
  | cons first rest ih =>
    rcases List.mem_cons.mp hspan with heq | hrest
    · rw [heq]
      exact hsane.2.le
    · exact ih hsane.2 hrest

/-! ## The skeleton -/

/-- The bytes of a span. -/
def Span.bytes (image : Bytes) (span : Span) : Bytes := slice image span.start span.len

/-- Everything outside the spans. -/
def skeletonFrom (image : Bytes) (prevEnd : Nat) (spans : List Span) : Bytes :=
  (gaps image.length prevEnd spans).flatMap (Span.bytes image)

variable {image : Bytes}

theorem readAt_span (hwithin : span.start + span.len ≤ image.length) :
    readAt (ρ := Empty) image span.start span.len = .ok (span.bytes image) := by
  rw [readAt, if_pos (by omega)]
  rfl

theorem gaps_within (hsane : Sane containerSize prevEnd spans) {gap : Span}
    (hgap : gap ∈ gaps containerSize prevEnd spans) : gap.start + gap.len ≤ containerSize := by
  induction spans generalizing prevEnd with
  | nil =>
    have hle : prevEnd ≤ containerSize := hsane
    rw [gaps] at hgap
    split at hgap
    · rw [List.mem_singleton.mp hgap]
      simp only
      omega
    · cases hgap
  | cons span rest ih =>
    obtain ⟨hstart, hrest⟩ := hsane
    have hle := hrest.le
    rw [gaps] at hgap
    split at hgap
    · rcases List.mem_cons.mp hgap with heq | hbehind
      · rw [heq]
        simp only
        omega
      · exact ih hrest hbehind
    · exact ih hrest hgap

theorem readGaps_eq_ok (hwithin : ∀ gap ∈ spans, gap.start + gap.len ≤ image.length) :
    readGaps image spans = .ok (spans.flatMap (Span.bytes image)) := by
  induction spans with
  | nil => rfl
  | cons gap rest ih =>
    rw [List.forall_mem_cons] at hwithin
    rw [readGaps, readAt_span hwithin.1, ih hwithin.2]
    rfl

theorem readGaps_gaps (hsane : Sane image.length 0 spans) :
    readGaps image (gaps image.length 0 spans) = .ok (skeletonFrom image 0 spans) :=
  readGaps_eq_ok fun _ hgap => gaps_within hsane hgap

/-! ## The segments -/

/-- The rest of the container is a gap, a span and what is behind the span. -/
theorem drop_eq_gap_span (hstart : prevEnd ≤ span.start) :
    image.drop prevEnd = slice image prevEnd (span.start - prevEnd) ++
      (span.bytes image ++ image.drop (span.start + span.len)) := by
  have hspan : image.drop span.start =
      span.bytes image ++ image.drop (span.start + span.len) := by
    rw [← List.drop_drop]
    exact (List.take_append_drop span.len (image.drop span.start)).symm
  rw [← hspan]
  conv_lhs => rw [← List.take_append_drop (span.start - prevEnd) (image.drop prevEnd)]
  rw [List.drop_drop, Nat.add_sub_cancel' hstart]
  rfl

theorem skeletonFrom_nil (prevEnd : Nat) : skeletonFrom image prevEnd [] = image.drop prevEnd := by
  rw [skeletonFrom, gaps]
  split
  · rw [List.flatMap_singleton, Span.bytes, slice, List.take_of_length_le]
    rw [List.length_drop]
  · rw [List.drop_eq_nil_of_le (by omega)]
    rfl

theorem skeletonFrom_cons {rest : List Span} (hstart : prevEnd ≤ span.start) :
    skeletonFrom image prevEnd (span :: rest) =
      slice image prevEnd (span.start - prevEnd) ++
        skeletonFrom image (span.start + span.len) rest := by
  rw [skeletonFrom, gaps]
  split
  · rfl
  · rw [Nat.sub_eq_zero_of_le (by omega), Reader.slice_zero_right]
    rfl

/-- A slice of the skeleton at the cursor. -/
theorem slice_skeleton {before gap after : Bytes} {skelOff len : Nat}
    (hoff : before.length = skelOff) (hlen : gap.length = len) :
    slice (before ++ (gap ++ after)) skelOff len = gap := by
  rw [slice, List.drop_left' hoff, List.take_left' hlen]

/-- A range of an input that is there and long enough. -/
theorem content_blobRange {inputs : List Bytes} {input : Bytes} (inputIx offset len : Nat)
    (hget : inputs[inputIx]? = some input) (hfits : offset + len ≤ input.length)
    (hix : inputIx < 2 ^ 32) :
    (Segment.blobRange inputIx offset len).content inputs = slice input offset len ∧
      (Segment.blobRange inputIx offset len).InBounds inputs ∧
        (Segment.blobRange inputIx offset len).IxFits := by
  refine ⟨?_, ⟨input, hget, hfits⟩, hix⟩
  rw [Segment.content, List.getD_eq_getElem?_getD, hget, Option.getD_some]

/-- The segments from a cursor on, over the skeleton and the streams, are the rest of the
container; `before` is what the skeleton holds of the gaps already passed. -/
theorem segments_spec {inputs : List Bytes} {rangeIx skelOff : Nat} {before : Bytes}
    {segs : List Segment} (hsane : Sane image.length prevEnd spans)
    (hoff : before.length = skelOff)
    (hskeleton : inputs[0]? = some (before ++ skeletonFrom image prevEnd spans))
    (hstreams : ∀ (k : Nat) span, spans[k]? = some span →
      inputs[rangeIx + 1 + k]? = some (span.bytes image))
    (hsegments : segments image.length rangeIx skelOff prevEnd spans = .ok segs) :
    assembled inputs segs = image.drop prevEnd ∧
      ∀ segment ∈ segs, segment.InBounds inputs ∧ segment.IxFits := by
  induction spans generalizing prevEnd rangeIx skelOff before segs with
  | nil =>
    rw [segments, Except.ok.injEq] at hsegments
    rw [skeletonFrom_nil, ← List.append_nil (image.drop prevEnd)] at hskeleton
    split at hsegments
    · -- The tail behind the last span.
      obtain ⟨hcontent, hin⟩ := content_blobRange 0 skelOff (image.length - prevEnd) hskeleton
        (by simp [hoff]) (by decide)
      rw [slice_skeleton hoff (List.length_drop ..)] at hcontent
      rw [← hsegments]
      refine ⟨?_, by simpa using hin⟩
      rw [assembled, List.flatMap_singleton, hcontent]
    · rw [← hsegments, List.drop_eq_nil_of_le (by omega)]
      exact ⟨rfl, fun _ hnone => by cases hnone⟩
  | cons span rest ih =>
    obtain ⟨hstart, hrest⟩ := hsane
    have hwithin := hrest.le
    rw [segments] at hsegments
    split at hsegments
    swap
    · cases hsegments
    rename_i hcount
    simp only at hsegments
    split at hsegments
    · cases hsegments
    rename_i behind hbehind
    rw [skeletonFrom_cons hstart] at hskeleton
    have hgap : (slice image prevEnd (span.start - prevEnd)).length = span.start - prevEnd := by
      rw [Reader.length_slice]
      omega
    have hlength : (span.bytes image).length = span.len := by
      rw [Span.bytes, Reader.length_slice]
      omega
    -- The stream and what is behind it, whatever the gap.
    obtain ⟨hstream, hstreamIn⟩ := content_blobRange (rangeIx + 1) 0 span.len
      (hstreams 0 span rfl) (by omega) hcount
    rw [← hlength, Reader.slice_zero_length, hlength] at hstream
    have hpassed : (before ++ slice image prevEnd (span.start - prevEnd)).length =
        skelOff + (span.start - prevEnd) := by rw [List.length_append, hgap, hoff]
    have hnext : ∀ (k : Nat) other, rest[k]? = some other →
        inputs[rangeIx + 1 + 1 + k]? = some (other.bytes image) := by
      intro k other hother
      rw [← hstreams (k + 1) other hother]
      congr 1
      omega
    obtain ⟨hassembled, hall⟩ := ih hrest hpassed (by rw [hskeleton, List.append_assoc]) hnext
      hbehind
    have htail : assembled inputs (.blobRange (rangeIx + 1) 0 span.len :: behind) =
        span.bytes image ++ image.drop (span.start + span.len) := by
      rw [assembled, List.flatMap_cons, hstream, ← hassembled, assembled]
    have htailIn : ∀ segment ∈ Segment.blobRange (rangeIx + 1) 0 span.len :: behind,
        segment.InBounds inputs ∧ segment.IxFits := by
      rw [List.forall_mem_cons]
      exact ⟨hstreamIn, hall⟩
    rw [drop_eq_gap_span hstart]
    rw [Except.ok.injEq] at hsegments
    split at hsegments
    · obtain ⟨hcontent, hin⟩ := content_blobRange 0 skelOff (span.start - prevEnd) hskeleton
        (by simp only [List.length_append]; omega) (by decide)
      rw [slice_skeleton hoff hgap] at hcontent
      rw [← hsegments]
      refine ⟨?_, ?_⟩
      · rw [assembled, List.flatMap_cons, hcontent, ← htail, assembled]
      · rw [List.forall_mem_cons]
        exact ⟨hin, htailIn⟩
    · rw [← hsegments, htail, Nat.sub_eq_zero_of_le (by omega), Reader.slice_zero_right]
      exact ⟨rfl, htailIn⟩

/-! ## What is covered -/

variable {host : Host} {tools : Tools} {resolve : Blake3 → Option Bytes}

/-- The split of a stream as it is recorded. -/
def Covered.FromSplit (host : Host) (tools : Tools) (image : Bytes) (covered : Covered) : Prop :=
  ∃ plaintext corrections,
    tools.split (covered.bytes image) = .ok (plaintext, corrections) ∧
      covered.split = ⟨host.blake3 (covered.bytes image), host.blake3 corrections,
        corrections.length, host.blake3 plaintext, plaintext.length⟩

/-- The spans whose streams can be split. -/
def splitSpans (tools : Tools) (image : Bytes) (ranges : List Range) : List Span :=
  (ranges.map Range.toSpan).filter fun span => (tools.split (span.bytes image)).isOk

theorem splitSpans_cons (range : Range) (rest : List Range) :
    splitSpans tools image (range :: rest) =
      if (tools.split (range.bytes image)).isOk then
        range.toSpan :: splitSpans tools image rest
      else splitSpans tools image rest := by
  rw [splitSpans, List.map_cons, List.filter_cons]
  rfl

theorem splitMember_written (host : Host) (tools : Tools) (image : Bytes) (span : Span)
    (s : Minting) :
    (final (splitMember host tools image span s)).written = s.written := by
  unfold splitMember
  split
  · rfl
  split
  · rfl
  · split
    · rfl
    · simp only
      split <;> rfl

theorem splitMember_spec (hwithin : span.start + span.len ≤ image.length) {s s' : Minting}
    {result : Except String MemberSplit}
    (hrun : splitMember host tools image span s = .ok result s') :
    (∃ split, result = .ok split ∧ (tools.split (span.bytes image)).isOk = true ∧
      Covered.FromSplit host tools image ⟨span, split⟩) ∨
    ∃ refusal, result = .error refusal ∧ (tools.split (span.bytes image)).isOk = false := by
  unfold splitMember at hrun
  rw [readAt_span hwithin] at hrun
  simp only at hrun
  cases hsplit : tools.split (span.bytes image) with
  | error refusal =>
    rw [hsplit] at hrun
    cases hrun
    exact .inr ⟨refusal, rfl, rfl⟩
  | ok products =>
    obtain ⟨plaintext, corrections⟩ := products
    rw [hsplit] at hrun
    simp only [Store.putNew] at hrun
    split at hrun
    · cases hrun
    · cases hrun
      exact .inl ⟨_, rfl, rfl, plaintext, corrections, hsplit, rfl⟩

theorem splitMembers_spec (host : Host) (tools : Tools)
    (hwithin : ∀ range ∈ ranges, range.start + range.len ≤ image.length) (s : Minting) :
    (final (splitMembers host tools image ranges s)).written = s.written ∧
      ∀ covered failures s', splitMembers host tools image ranges s = .ok (covered, failures) s' →
        covered.map Covered.toSpan = splitSpans tools image ranges ∧
          ∀ one ∈ covered, one.FromSplit host tools image := by
  induction ranges generalizing s with
  | nil =>
    refine ⟨rfl, fun covered failures s' hrun => ?_⟩
    cases hrun
    exact ⟨rfl, nofun⟩
  | cons range rest ih =>
    rw [List.forall_mem_cons] at hwithin
    have hfirst := splitMember_written host tools image range.toSpan s
    rw [splitMembers, Moves.bind_apply]
    cases hmember : splitMember host tools image range.toSpan s with
    | error e s₁ =>
      rw [hmember] at hfirst
      exact ⟨hfirst, nofun⟩
    | ok result s₁ =>
      rw [hmember] at hfirst
      obtain ⟨hwritten, hrest⟩ := ih hwithin.2 s₁
      have hkept : s₁.written = s.written := hfirst
      rcases splitMember_spec hwithin.1 hmember with
        ⟨split, rfl, hok, hfrom⟩ | ⟨refusal, rfl, hrefused⟩
      · simp only [Moves.bind_apply]
        cases hmembers : splitMembers host tools image rest s₁ with
        | error e s₂ =>
          rw [hmembers] at hwritten
          exact ⟨hwritten.trans hkept, nofun⟩
        | ok found s₂ =>
          rw [hmembers] at hwritten
          refine ⟨hwritten.trans hkept, fun covered failures s' hrun => ?_⟩
          cases hrun
          obtain ⟨hspans, hall⟩ := hrest _ _ _ hmembers
          refine ⟨?_, ?_⟩
          · rw [List.map_cons, hspans, splitSpans_cons, if_pos hok]
          · rw [List.forall_mem_cons]
            exact ⟨hfrom, hall⟩
      · simp only [Moves.bind_apply]
        cases hmembers : splitMembers host tools image rest s₁ with
        | error e s₂ =>
          rw [hmembers] at hwritten
          exact ⟨hwritten.trans hkept, nofun⟩
        | ok found s₂ =>
          rw [hmembers] at hwritten
          refine ⟨hwritten.trans hkept, fun covered failures s' hrun => ?_⟩
          cases hrun
          obtain ⟨hspans, hall⟩ := hrest _ _ _ hmembers
          refine ⟨?_, hall⟩
          rw [hspans, splitSpans_cons, if_neg (by simp [hrefused])]

/-! ## What is minted -/

/-- A recreate recipe: it claims the stream of a covered span, and runs the component on the
corrections and the plaintext that the stream was split into. -/
def RecreatesStream (host : Host) (tools : Tools) (image : Bytes) (span : Span)
    (recipe : Recipe) : Prop :=
  ∃ plaintext corrections, tools.split (span.bytes image) = .ok (plaintext, corrections) ∧
    recipe = {
      op := .wasm (host.blake3 tools.component) .transform1 "recreate"
      inputs := [⟨host.blake3 corrections, some "skeleton"⟩, ⟨host.blake3 plaintext, none⟩]
      outputs := [⟨host.blake3 (span.bytes image), span.len, none⟩]
      params := [] }

theorem Covered.FromSplit.recreates {covered : Covered}
    (hfrom : covered.FromSplit host tools image) :
    RecreatesStream host tools image covered.toSpan
      (recreateRecipe (host.blake3 tools.component) covered) := by
  obtain ⟨plaintext, corrections, hok, hsplit⟩ := hfrom
  refine ⟨plaintext, corrections, hok, ?_⟩
  rw [recreateRecipe, hsplit]

theorem mintRecreate_written (host : Host) (component : Blake3) (covered : Covered) (s : Minting) :
    (∃ id s', mintRecreate host component covered s = .ok id s' ∧
        s'.written = s.written ++ [recreateRecipe component covered]) ∨
      ∃ e s', mintRecreate host component covered s = .error e s' ∧
        (s'.written = s.written ∨ s'.written = s.written ++ [recreateRecipe component covered]) :=
  mintRecipe_written host (recreateRecipe component covered) .opaqueSeek { s with db := _ }

theorem mintRecreates_written (host : Host) (component : Blake3) (covered : List Covered)
    (s : Minting) :
    ∃ done, (final (mintRecreates host component covered s)).written =
        s.written ++ (covered.take done).map (recreateRecipe component) ∧
      ∀ s', mintRecreates host component covered s = .ok () s' → covered.length ≤ done := by
  induction covered generalizing s with
  | nil => exact ⟨0, (List.append_nil _).symm, fun _ _ => le_rfl⟩
  | cons one rest ih =>
    rw [mintRecreates, Moves.bind_apply]
    rcases mintRecreate_written host component one s with
      ⟨id, s₁, hrun, hwritten⟩ | ⟨e, s₁, hrun, hwritten⟩
    · obtain ⟨done, hrest, hdone⟩ := ih s₁
      rw [hrun]
      refine ⟨done + 1, ?_, fun s' hrun' => Nat.succ_le_succ (hdone s' hrun')⟩
      rw [List.take_succ_cons, List.map_cons, List.append_cons, ← hwritten]
      exact hrest
    · rw [hrun]
      rcases hwritten with hsame | hadded
      · exact ⟨0, by simpa using hsame, nofun⟩
      · exact ⟨1, by simpa using hadded, nofun⟩

theorem publishBlob_written (host : Host) (bytes : Bytes) (s : Minting) :
    (final (publishBlob host bytes s)).written = s.written := by
  unfold publishBlob
  simp only
  split <;> rfl

theorem ensureComponent_written (host : Host) (component : Bytes) (published : Bool)
    (s : Minting) : (final (ensureComponent host component published s)).written = s.written := by
  unfold ensureComponent
  split
  · rfl
  · exact publishBlob_written host component s

theorem mapM_streams {covered : List Covered}
    (hfrom : ∀ one ∈ covered, one.FromSplit host tools image)
    (hstreams : ∀ one ∈ covered, resolve (host.blake3 (one.bytes image)) = some (one.bytes image)) :
    ((covered.map fun one => (⟨one.split.streamHash, none⟩ : InputRef)).mapM fun input =>
      resolve input.hash) = some (covered.map fun one => one.bytes image) := by
  induction covered with
  | nil => rfl
  | cons one rest ih =>
    rw [List.forall_mem_cons] at hfrom hstreams
    obtain ⟨plaintext, corrections, -, hsplit⟩ := hfrom.1
    rw [List.map_cons, List.mapM_cons, hsplit, hstreams.1, ih hfrom.2 hstreams.2]
    rfl

theorem length_skeletonFrom_le (hsane : Sane image.length prevEnd spans) :
    (skeletonFrom image prevEnd spans).length ≤ image.length - prevEnd := by
  induction spans generalizing prevEnd with
  | nil => rw [skeletonFrom_nil, List.length_drop]
  | cons span rest ih =>
    obtain ⟨hstart, hrest⟩ := hsane
    have hbehind := ih hrest
    have hle := hrest.le
    rw [skeletonFrom_cons hstart, List.length_append, Reader.length_slice]
    omega

/-- The rebuild of a cut container yields the container. -/
theorem yieldsContainer_of_containerRecipe {covered : List Covered} {recipe : Recipe}
    (himage : image.length < u64Limit) (hsane : Sane image.length 0 (covered.map Covered.toSpan))
    (hfrom : ∀ one ∈ covered, one.FromSplit host tools image)
    (hskeleton : resolve (host.blake3 (skeletonFrom image 0 (covered.map Covered.toSpan))) =
      some (skeletonFrom image 0 (covered.map Covered.toSpan)))
    (hstreams : ∀ one ∈ covered, resolve (host.blake3 (one.bytes image)) = some (one.bytes image))
    (hrecipe : containerRecipe item image.length
      (host.blake3 (skeletonFrom image 0 (covered.map Covered.toSpan))) covered = .ok recipe) :
    YieldsContainer item image resolve recipe := by
  unfold containerRecipe at hrecipe
  split at hrecipe
  · cases hrecipe
  rename_i segs hsegments
  let skeleton := skeletonFrom image 0 (covered.map Covered.toSpan)
  let inputs := skeleton :: covered.map fun one => one.bytes image
  have hresolve : ((⟨host.blake3 skeleton, some "skeleton"⟩ ::
      covered.map fun one => ⟨one.split.streamHash, none⟩ : List InputRef).mapM fun input =>
        resolve input.hash) = some inputs := by
    rw [List.mapM_cons, hskeleton, mapM_streams hfrom hstreams]
    rfl
  have hinputs : ∀ (k : Nat) span, (covered.map Covered.toSpan)[k]? = some span →
      inputs[0 + 1 + k]? = some (span.bytes image) := by
    intro k span hspan
    rw [Nat.zero_add, Nat.add_comm, List.getElem?_cons_succ, List.getElem?_map]
    rw [List.getElem?_map] at hspan
    obtain ⟨one, hone, rfl⟩ := Option.map_eq_some_iff.mp hspan
    rw [hone]
    rfl
  have hskeletonAt : inputs[0]? = some ([] ++ skeleton) := rfl
  obtain ⟨hassembled, hall⟩ := segments_spec hsane rfl hskeletonAt hinputs hsegments
  have hsmall : ∀ source ∈ inputs, source.length < u64Limit := by
    rw [List.forall_mem_cons]
    constructor
    · have hle := length_skeletonFrom_le hsane
      change (skeletonFrom image 0 _).length < _
      omega
    · intro stream hstream
      obtain ⟨one, _, rfl⟩ := List.mem_map.mp hstream
      rw [Span.bytes, Reader.length_slice]
      omega
  have hruns : ∀ want : Nat → Nat, (∀ round, 0 < want round) →
      recipe.outputs = [⟨item, image.length, none⟩] ∧
        recipe.assemble resolve want = some image := by
    intro want hwant
    have hrun := assemble_of_assembleRecipe hrecipe hresolve hsmall
      (fun segment hsegment => (hall segment hsegment).1)
      (fun segment hsegment => (hall segment hsegment).2)
      (by rw [hassembled]; exact himage) hwant
    rwa [hassembled] at hrun
  exact ⟨(hruns (fun _ => 1) (by simp)).1, fun want hwant => (hruns want hwant).2⟩

/-- Cutting a container writes recreations of its streams, and then its rebuild. -/
theorem mintContainer_written (published : Bool) {covered : List Covered}
    (himage : image.length < u64Limit) (hsane : Sane image.length 0 (covered.map Covered.toSpan))
    (hfrom : ∀ one ∈ covered, one.FromSplit host tools image)
    (hskeleton : resolve (host.blake3 (skeletonFrom image 0 (covered.map Covered.toSpan))) =
      some (skeletonFrom image 0 (covered.map Covered.toSpan)))
    (hstreams : ∀ one ∈ covered, resolve (host.blake3 (one.bytes image)) = some (one.bytes image))
    (s : Minting) :
    ∃ done rebuilds,
      (final (mintContainer host tools published item image.length image covered s)).written =
        s.written ++ (covered.take done).map (recreateRecipe (host.blake3 tools.component)) ++
          rebuilds ∧
      (∀ rebuild ∈ rebuilds, YieldsContainer item image resolve rebuild) ∧
      ∀ len s', mintContainer host tools published item image.length image covered s = .ok len s' →
        covered.length ≤ done ∧ rebuilds.length = 1 ∧
          len = (skeletonFrom image 0 (covered.map Covered.toSpan)).length := by
  let skeleton := skeletonFrom image 0 (covered.map Covered.toSpan)
  unfold mintContainer
  rw [MintM.lift_bind, readGaps_gaps hsane]
  simp only [Moves.bind_apply]
  have hpublish : (final (publishBlob host skeleton s)).written = s.written :=
    publishBlob_written host skeleton s
  cases hblob : publishBlob host skeleton s with
  | error e s₁ =>
    rw [hblob] at hpublish
    exact ⟨0, [], by simpa using hpublish, fun _ hnone => (by cases hnone),
      fun _ _ hrun => by cases hrun⟩
  | ok _ s₁ =>
    rw [hblob] at hpublish
    have hensure := ensureComponent_written host tools.component published s₁
    simp only
    cases hcomponent : ensureComponent host tools.component published s₁ with
    | error e s₂ =>
      rw [hcomponent] at hensure
      exact ⟨0, [], by simpa using hensure.trans hpublish, fun _ hnone => (by cases hnone),
        fun _ _ hrun => by cases hrun⟩
    | ok _ s₂ =>
      rw [hcomponent] at hensure
      have hkept : s₂.written = s.written := hensure.trans hpublish
      obtain ⟨done, hrecreates, hdone⟩ :=
        mintRecreates_written host (host.blake3 tools.component) covered s₂
      simp only
      cases hminted : mintRecreates host (host.blake3 tools.component) covered s₂ with
      | error e s₃ =>
        rw [hminted, hkept] at hrecreates
        exact ⟨done, [], by simpa using hrecreates, fun _ hnone => (by cases hnone),
          fun _ _ hrun => by cases hrun⟩
      | ok _ s₃ =>
        rw [hminted, hkept] at hrecreates
        have hall := hdone s₃ hminted
        simp only [MintM.lift]
        cases hrecipe : containerRecipe item image.length (host.blake3 skeleton) covered with
        | error e =>
            exact ⟨done, [], by simpa using hrecreates, fun _ hnone => (by cases hnone),
          fun _ _ hrun => by cases hrun⟩
        | ok recipe =>
          have hyields := yieldsContainer_of_containerRecipe himage hsane hfrom hskeleton
            hstreams hrecipe
          have hwritten₃ : s₃.written = _ := hrecreates
          rcases mintRecipe_written host recipe .affine s₃ with
            ⟨id, s₄, hrun, hwritten⟩ | ⟨e, s₄, hrun, hwritten⟩
          · simp only [hrun]
            refine ⟨done, [recipe], ?_, by simpa using hyields, fun len s' hlen => ?_⟩
            · rw [← hwritten₃, ← hwritten]
              rfl
            · cases hlen
              exact ⟨hall, rfl, rfl⟩
          · simp only [hrun]
            rcases hwritten with hsame | hadded
            · refine ⟨done, [], ?_, fun _ hnone => (by cases hnone),
                fun _ _ hlen => by cases hlen⟩
              rw [List.append_nil, ← hwritten₃]
              exact hsame
            · refine ⟨done, [recipe], ?_, by simpa using hyields,
                fun _ _ hlen => by cases hlen⟩
              rw [← hwritten₃]
              exact hadded

/-- The spans of the container whose streams can be split. -/
def coveredSpans (tools : Tools) (image : Bytes) : List Span :=
  match tools.parseMembers image with
  | .error _ => []
  | .ok parsed =>
    splitSpans tools image (deflateRanges (parsed.members.filter (·.method = .deflate)))

/-- What a run has written that cuts the container at these spans: recreations of the streams,
one after another, and then the rebuild; both to the end if the run succeeds. -/
def LeavesRebuild (host : Host) (tools : Tools) (resolve : Blake3 → Option Bytes) (item : Blake3)
    (image : Bytes) (spans : List Span) (before : List Recipe)
    (result : EStateM.Result MintError Minting Analysis) : Prop :=
  ∃ done recreates rebuilds,
    (final result).written = before ++ recreates ++ rebuilds ∧
    List.Forall₂ (RecreatesStream host tools image) (spans.take done) recreates ∧
    (∀ rebuild ∈ rebuilds, YieldsContainer item image resolve rebuild) ∧
    ∀ covered skeletonLen failures s',
      result = .ok (.rebuildable covered skeletonLen failures) s' →
        spans.length ≤ done ∧ rebuilds.length = 1 ∧
          skeletonLen = (skeletonFrom image 0 spans).length

/-- A run that writes nothing and does not call the container rebuildable. -/
theorem leavesRebuild_of_nothing {before : List Recipe}
    {result : EStateM.Result MintError Minting Analysis}
    (hwritten : (final result).written = before)
    (hliteral : ∀ covered len failures s', result ≠ .ok (.rebuildable covered len failures) s') :
    LeavesRebuild host tools resolve item image spans before result :=
  ⟨0, [], [], by simpa using hwritten, List.Forall₂.nil, nofun,
    fun covered len failures s' hrun => (hliteral covered len failures s' hrun).elim⟩

theorem splitAndMint_leaves (published : Bool) (himage : image.length < u64Limit)
    (hsane : Sane image.length 0 (ranges.map Range.toSpan))
    (hskeleton : resolve (host.blake3 (skeletonFrom image 0 (splitSpans tools image ranges))) =
      some (skeletonFrom image 0 (splitSpans tools image ranges)))
    (hstreams : ∀ span ∈ splitSpans tools image ranges,
      resolve (host.blake3 (span.bytes image)) = some (span.bytes image)) (s : Minting) :
    LeavesRebuild host tools resolve item image (splitSpans tools image ranges) s.written
      (splitAndMint host tools published item image.length image ranges s) := by
  have hwithin : ∀ range ∈ ranges, range.start + range.len ≤ image.length := fun range hrange =>
    hsane.within (List.mem_map_of_mem hrange)
  obtain ⟨hwritten, hcovered⟩ := splitMembers_spec host tools hwithin s
  unfold splitAndMint
  rw [Moves.bind_apply]
  cases hsplit : splitMembers host tools image ranges s with
  | error e s₁ =>
    rw [hsplit] at hwritten
    exact leavesRebuild_of_nothing hwritten (fun _ _ _ _ hrun => by cases hrun)
  | ok found s₁ =>
    obtain ⟨covered, failures⟩ := found
    rw [hsplit] at hwritten
    have hkept : s₁.written = s.written := hwritten
    obtain ⟨hspans, hfrom⟩ := hcovered _ _ _ hsplit
    simp only
    split
    · exact leavesRebuild_of_nothing hkept (fun _ _ _ _ hrun => by cases hrun)
    split
    · exact leavesRebuild_of_nothing hkept (fun _ _ _ _ hrun => by cases hrun)
    · have hrecreates : ∀ done, List.Forall₂ (RecreatesStream host tools image)
          ((covered.map Covered.toSpan).take done)
          ((covered.take done).map (recreateRecipe (host.blake3 tools.component))) := by
        intro done
        rw [← List.map_take, List.forall₂_map_left_iff, List.forall₂_map_right_iff,
          List.forall₂_same]
        exact fun one hone => (hfrom one (List.mem_of_mem_take hone)).recreates
      rw [← hspans] at hskeleton hstreams ⊢
      have hsaneCovered : Sane image.length 0 (covered.map Covered.toSpan) := by
        rw [hspans]
        exact hsane.sublist List.filter_sublist
      obtain ⟨done, rebuilds, hminted, hyields, hdone⟩ := mintContainer_written published
        himage hsaneCovered hfrom hskeleton
        (fun one hone => hstreams _ (List.mem_map_of_mem hone)) s₁
      refine ⟨done, _, rebuilds, ?_, hrecreates done, hyields, ?_⟩
      · rw [← hkept, ← hminted, Moves.final_bind_pure]
      · intro covered' skeletonLen failures' s' hrun
        obtain ⟨len, s₂, hmint, hpure⟩ := Moves.bind_eq_ok hrun
        cases hpure
        obtain ⟨hall, hone, hlen⟩ := hdone _ _ hmint
        exact ⟨by simpa using hall, hone, hlen⟩

/-- What an analysis of a zip leaves behind. Over a skeleton and streams that resolve by their
addresses, the recipe for the container yields it byte for byte, whichever streams could be
split; a run that calls the container rebuildable has written a recreation of every stream
that can be split, and then that recipe. -/
theorem preflate_rebuilds (host : Host) (tools : Tools) (resolve : Blake3 → Option Bytes)
    (published : Bool) (item : Blake3) (size : Option Nat) (image : Bytes) (s : Minting)
    (hsize : ∀ known, size = some known → known = image.length)
    (himage : image.length < u64Limit)
    (hskeleton : resolve (host.blake3 (skeletonFrom image 0 (coveredSpans tools image))) =
      some (skeletonFrom image 0 (coveredSpans tools image)))
    (hstreams : ∀ span ∈ coveredSpans tools image,
      resolve (host.blake3 (span.bytes image)) = some (span.bytes image)) :
    LeavesRebuild host tools resolve item image (coveredSpans tools image) s.written
      (analyze host tools published item size image s) := by
  have hlength : size.getD image.length = image.length := by
    cases size with
    | none => rfl
    | some known => exact hsize known rfl
  have hliteral : ∀ analysis : Analysis,
      (∀ covered len failures, analysis ≠ .rebuildable covered len failures) →
      LeavesRebuild host tools resolve item image (coveredSpans tools image) s.written
        (.ok analysis s) := fun analysis hne =>
    leavesRebuild_of_nothing rfl fun covered len failures s' hrun =>
      hne covered len failures (by cases hrun; rfl)
  unfold analyze
  rw [hlength]
  simp only
  split
  · exact hliteral _ nofun
  cases hparsed : tools.parseMembers image with
  | error error => exact hliteral _ nofun
  | ok parsed =>
    simp only
    split
    · exact hliteral _ nofun
    split
    · exact hliteral _ nofun
    split
    · exact hliteral _ nofun
    · rename_i hsane
      have hspans : coveredSpans tools image = splitSpans tools image
          (deflateRanges (parsed.members.filter (·.method = .deflate))) := by
        rw [coveredSpans, hparsed]
      rw [hspans] at hskeleton hstreams ⊢
      exact splitAndMint_leaves published himage
        (sane_of_rangesSane (Nat.zero_le _) (by simpa using hsane)) hskeleton hstreams s

/-! ## A container of which one stream can be split -/

def pairImage : Bytes := [0x50, 0x4b, 3, 4, 1, 2, 5, 6, 7, 8]

/-- Two deflate members; the second one refuses. -/
def pairTools : Tools where
  parseMembers _ := .ok ⟨[⟨"b", .deflate, 2, 7⟩, ⟨"a", .deflate, 2, 4⟩], []⟩
  split stream := if stream = [1, 2] then .ok ([9, 9, 9], [8]) else .error "no deflate stream"
  component := [0]

def pairSkeleton : Bytes := [0x50, 0x4b, 3, 4, 5, 6, 7, 8]

def pairResolve (hash : Blake3) : Option Bytes :=
  if hash = Host.sample.blake3 pairSkeleton then some pairSkeleton
  else if hash = Host.sample.blake3 [1, 2] then some [1, 2]
  else none

theorem coveredSpans_pair : coveredSpans pairTools pairImage = [⟨4, 2⟩] := by decide +kernel

/-- The refusing stream stays in the skeleton, and the container comes back. -/
theorem preflate_rebuilds_pair :
    LeavesRebuild Host.sample pairTools pairResolve 77 pairImage [⟨4, 2⟩] []
        (analyze Host.sample pairTools false 77 (some 10) pairImage ⟨Db.empty, Store.empty, []⟩) ∧
      (final (analyze Host.sample pairTools false 77 (some 10) pairImage
        ⟨Db.empty, Store.empty, []⟩)).written.length = 2 := by
  refine ⟨?_, by decide +kernel⟩
  rw [← coveredSpans_pair]
  refine preflate_rebuilds Host.sample pairTools pairResolve false 77 (some 10) pairImage
    ⟨Db.empty, Store.empty, []⟩ ?_ (by decide) ?_ ?_
  · intro known hknown
    cases hknown
    rfl
  · rw [coveredSpans_pair]
    decide +kernel
  · rw [coveredSpans_pair]
    decide +kernel

end Preflate

end Datboi
