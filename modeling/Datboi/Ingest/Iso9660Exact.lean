import Datboi.Ingest.Iso9660

/-!
# ISO 9660 coverage is exact

The coverage walk never trusts what it is handed: an extent that starts behind the cursor,
or ends behind the image, leaves a gap that cannot be subtracted or read. So a map that
comes out tiles the image, whatever the tree declared and however its runs were merged.
-/

namespace Datboi

open Reader (slice)
open Nds (Coverage Region)

namespace Nds

/-- A gap that was subtracted and classified ends where it should: one that wrapped around
reaches behind any image. -/
theorem gap_of_classifyGap {ρ : Type} {checks : Bool} {image : Bytes} {cursor stop gap : Nat}
    {map map' : Coverage} (himage : image.length < u64Limit) (hcursor : cursor < u64Limit)
    (hsub : subU64 (ρ := ρ) checks stop cursor = .ok gap)
    (hclassify : classifyGap (ρ := ρ) image cursor gap map = .ok map') :
    cursor ≤ stop ∧ gap = stop - cursor := by
  by_cases hle : cursor ≤ stop
  · rw [subU64_of_le hle] at hsub
    cases hsub
    exact ⟨hle, rfl⟩
  · obtain ⟨_, rfl⟩ := subU64_eq_ok_of_lt (by omega) hsub
    have herror : classifyGap (ρ := ρ) image cursor (u64Limit + stop - cursor) map = .error .io :=
      Coverage.classifyGap_eq_error (by omega) (by omega)
    rw [herror] at hclassify
    cases hclassify

theorem readAt_eq_ok {ρ : Type} {image : Bytes} {start len : Nat} {out : Bytes}
    (hread : readAt (ρ := ρ) image start len = .ok out) :
    out = slice image start len ∧ out.length = len := by
  unfold readAt at hread
  split at hread
  · cases hread
    refine ⟨rfl, ?_⟩
    rw [Reader.length_slice]
    omega
  · cases hread

end Nds

namespace Iso9660

/-! ## Extents of the walk -/

/-- An extent of the volume: nonempty, within the limit, of 32-bit fields. -/
structure Entry.Sound (limit : Nat) (e : Entry) : Prop where
  lba_lt : e.lba < 2 ^ 32
  len_lt : e.len < 2 ^ 32
  nonempty : 0 < e.len
  within : e.lba * sector + e.len ≤ limit

/-- A directory on the stack comes from 32-bit fields. -/
def Dir.Fits (dir : Dir) : Prop := dir.lba < 2 ^ 32 ∧ dir.len < 2 ^ 32

structure Scan.Sound (limit : Nat) (scan : Scan) : Prop where
  entries : ∀ e ∈ scan.walk.entries, e.Sound limit
  stack : ∀ dir ∈ scan.stack, dir.Fits

variable {lossy : Bytes → String} {dir : Dir} {limit : Nat}

theorem Walk.entries_countFile (walk : Walk) (ordinal : Nat) :
    (walk.countFile ordinal).entries = walk.entries := by
  unfold countFile
  split
  · rfl
  split <;> rfl

variable {scan scan' : Scan} {base : Nat} {vol : Volume} {map : Coverage}

theorem Scan.capped_eq_ok (hcapped : Scan.capped dir scan = .ok scan') : scan' = scan := by
  unfold capped at hcapped
  split at hcapped
  · cases hcapped
  · cases hcapped
    rfl

theorem fileRecord_sound {full : String} {lba len : Nat} {flags : UInt8} (hlba : lba < 2 ^ 32)
    (hlen : len < 2 ^ 32) (hscan : scan.Sound limit)
    (hrecord : fileRecord dir limit full lba len flags scan = .ok scan') : scan'.Sound limit := by
  unfold fileRecord at hrecord
  simp only at hrecord
  split at hrecord
  · cases hrecord
    exact ⟨hscan.entries, hscan.stack⟩
  split at hrecord
  · cases hrecord
    exact ⟨fun e he => hscan.entries e (by rwa [Walk.entries_countFile] at he), hscan.stack⟩
  split at hrecord
  · cases hrecord
  rename_i hpos hlimit
  rw [Scan.capped_eq_ok hrecord]
  refine ⟨?_, hscan.stack⟩
  intro e he
  rw [Walk.entries_countFile] at he
  rcases List.mem_append.mp he with hold | hnew
  · exact hscan.entries e hold
  · rw [List.mem_singleton.mp hnew]
    exact ⟨hlba, hlen, Nat.pos_of_ne_zero hpos, Nat.le_of_not_lt hlimit⟩

theorem record_sound {bytes : Bytes} (hscan : scan.Sound limit)
    (hrecord : record lossy dir limit bytes scan = .ok scan') : scan'.Sound limit := by
  unfold record at hrecord
  simp only at hrecord
  split at hrecord
  · cases hrecord
  split at hrecord
  · cases hrecord
    exact hscan
  split at hrecord
  · cases hrecord
  split at hrecord
  · rw [Scan.capped_eq_ok hrecord]
    refine ⟨hscan.entries, ?_⟩
    rw [List.forall_mem_cons]
    exact ⟨⟨u32At_lt _ _, u32At_lt _ _⟩, hscan.stack⟩
  · exact fileRecord_sound (u32At_lt _ _) (u32At_lt _ _) hscan hrecord

theorem records_sound {table : Bytes} {off : Nat} (hscan : scan.Sound limit)
    (hrecords : records lossy dir limit table off scan = .ok scan') : scan'.Sound limit := by
  induction off, scan using records.induct lossy dir limit table with
  | case1 off scan hend =>
    rw [records, if_pos hend] at hrecords
    cases hrecords
    exact hscan
  | case2 off scan hmore recLen hpad ih =>
    rw [records, if_neg hmore] at hrecords
    exact ih hscan ((if_pos hpad).symm.trans hrecords)
  | case3 off scan hmore recLen hpad hbad =>
    rw [records, if_neg hmore] at hrecords
    have hrefused := ((if_neg hpad).trans (if_pos hbad)).symm.trans hrecords
    cases hrefused
  | case4 off scan hmore recLen hpad hfits e herror =>
    rw [records, if_neg hmore] at hrecords
    have hfailed := ((if_neg hpad).trans (if_neg hfits)).symm.trans hrecords
    rw [herror] at hfailed
    cases hfailed
  | case5 off scan hmore recLen hpad hfits next hrecord ih =>
    rw [records, if_neg hmore] at hrecords
    have hrest := ((if_neg hpad).trans (if_neg hfits)).symm.trans hrecords
    rw [hrecord] at hrest
    exact ih (record_sound hscan hrecord) hrest

theorem visit_sound {image : Bytes} {seen : List Nat} {walk walk' : Walk} {stack : List Dir}
    (hentries : ∀ e ∈ walk.entries, e.Sound limit) (hstack : ∀ dir ∈ stack, dir.Fits)
    (hvisit : visit lossy image base limit seen walk stack = .ok walk') :
    ∀ e ∈ walk'.entries, e.Sound limit := by
  -- every visited table leaves fewer unseen ones
  induction hleft : (unseen limit seen).length using Nat.strongRecOn generalizing seen walk stack
  rename_i left ih
  cases stack with
  | nil =>
    rw [visit] at hvisit
    cases hvisit
    exact hentries
  | cons dir stack =>
    rw [List.forall_mem_cons] at hstack
    rw [visit] at hvisit
    split at hvisit
    · cases hvisit
    rename_i hadmitted
    simp only at hvisit
    split at hvisit
    · cases hvisit
    split at hvisit
    · cases hvisit
    rename_i scan hrecords
    obtain ⟨hpos, hwithin, _⟩ := admit_eq_ok hadmitted
    have htable : ∀ e ∈ walk.entries ++
        [⟨if dir.path = "" then "/" else dir.path, dir.lba, dir.len, true⟩], e.Sound limit := by
      intro e he
      rcases List.mem_append.mp he with hold | hnew
      · exact hentries e hold
      · rw [List.mem_singleton.mp hnew]
        exact ⟨hstack.1.1, hstack.1.2, hpos, hwithin⟩
    have hscan := records_sound ⟨htable, hstack.2⟩ hrecords
    exact ih _ (hleft ▸ unseen_lt hadmitted) hscan.entries hscan.stack hvisit rfl

/-- What a parsed volume is made of. -/
theorem parseVolume_eq_ok {image : Bytes} (hparse : parseVolume lossy image base limit = .ok vol) :
    ∃ root walk, descriptorSet image base limit 1 = .ok vol.descriptorSectors ∧
      visit lossy image base limit [] {} [⟨u32At root 2, u32At root 10, "", 0⟩] = .ok walk ∧
        vol.entries = walk.entries := by
  unfold parseVolume at hparse
  split at hparse
  · cases hparse
  split at hparse
  · cases hparse
  simp only at hparse
  split at hparse
  · cases hparse
  split at hparse
  · cases hparse
  split at hparse
  · cases hparse
  split at hparse
  · cases hparse
  rename_i hset
  split at hparse
  · cases hparse
  rename_i walk hvisit
  cases hparse
  exact ⟨_, walk, hset, hvisit, rfl⟩

/-- Every extent of a parsed volume lies within the limit. -/
theorem parseVolume_sound {image : Bytes} (hparse : parseVolume lossy image base limit = .ok vol) :
    ∀ e ∈ vol.entries, e.Sound limit := by
  obtain ⟨root, walk, _, hvisit, hentries⟩ := parseVolume_eq_ok hparse
  have hempty : ∀ e ∈ ({} : Walk).entries, e.Sound limit := fun e he => by cases he
  rw [hentries]
  refine visit_sound hempty ?_ hvisit
  intro dir hdir
  rw [List.mem_singleton.mp hdir]
  exact ⟨u32At_lt _ _, u32At_lt _ _⟩

theorem descriptorSet_le {image : Bytes} {n found : Nat}
    (hset : descriptorSet image base limit n = .ok found) : found ≤ maxDescriptors + 1 := by
  induction n using descriptorSet.induct image base limit with
  | case1 n start hstop =>
    rw [descriptorSet] at hset
    cases (if_pos hstop).symm.trans hset
  | case2 n start hmore e herror =>
    rw [descriptorSet] at hset
    have hread := (if_neg hmore).symm.trans hset
    rw [herror] at hread
    cases hread
  | case3 n start hmore vd hvd id hother =>
    rw [descriptorSet] at hset
    have hread := (if_neg hmore).symm.trans hset
    rw [hvd] at hread
    cases (if_pos hother).symm.trans hread
  | case4 n start hmore vd hvd id hknown hterminator =>
    rw [descriptorSet] at hset
    have hread := (if_neg hmore).symm.trans hset
    rw [hvd] at hread
    cases (if_pos hterminator).symm.trans ((if_neg hknown).symm.trans hread)
    omega
  | case5 n start hmore vd hvd id hknown hgoes ih =>
    rw [descriptorSet] at hset
    have hread := (if_neg hmore).symm.trans hset
    rw [hvd] at hread
    exact ih ((if_neg hgoes).symm.trans ((if_neg hknown).symm.trans hread))

/-- Nothing a volume declares comes near the end of the 64-bit range. -/
theorem declared_lt {image : Bytes} (hparse : parseVolume lossy image base limit = .ok vol) :
    ∀ d ∈ vol.declared, d.start + d.len < 2 ^ 63 := by
  have hsound := parseVolume_sound hparse
  obtain ⟨_, _, hdescriptors, _, _⟩ := parseVolume_eq_ok hparse
  have hset := descriptorSet_le hdescriptors
  intro d hd
  rcases List.mem_append.mp hd with hentry | hlast
  · obtain ⟨e, he, rfl⟩ := List.mem_map.mp hentry
    have hlba := (hsound e he).lba_lt
    have hlen := (hsound e he).len_lt
    have hsector : sector = 2048 := rfl
    simp only [hsector]
    omega
  · rw [List.mem_singleton.mp hlast]
    have hsector : sector = 2048 := rfl
    have hpvd : pvdSector = 16 := rfl
    have hmax : maxDescriptors = 64 := rfl
    simp only [hsector, hpvd]
    omega

/-! ## Uniform files -/

/-- An extent that can be laid down: it ends at a 64-bit position, and repeats the byte it
is marked with. -/
def Marked (image : Bytes) (bound : Nat) (item : Declared × Option UInt8) : Prop :=
  item.1.start + item.1.len < bound ∧
    ∀ byte, item.2 = some byte →
      slice image item.1.start item.1.len = List.replicate item.1.len byte

theorem uniformFrom_eq_some {image : Bytes} {pos remaining : Nat} {byte : Option UInt8} {b : UInt8}
    (hscan : uniformFrom image pos remaining byte = .ok (some b)) :
    (∀ known, byte = some known → known = b) ∧
      slice image pos remaining = List.replicate remaining b := by
  induction pos, remaining, byte using uniformFrom.induct image with
  | case1 pos byte =>
    rw [uniformFrom, if_pos rfl] at hscan
    cases hscan
    refine ⟨fun known hknown => Option.some.inj hknown.symm, by simp⟩
  | case2 pos remaining byte hmore want e herror =>
    rw [uniformFrom, if_neg hmore] at hscan
    simp only [want] at herror
    simp only [herror] at hscan
    cases hscan
  | case3 pos remaining byte hmore want chunk hchunk b' hother =>
    rw [uniformFrom, if_neg hmore] at hscan
    simp only [want] at hchunk
    simp only [hchunk] at hscan
    rw [if_pos hother] at hscan
    cases hscan
  | case4 pos remaining byte hmore want chunk hchunk b' hsame ih =>
    rw [uniformFrom, if_neg hmore] at hscan
    simp only [want] at hchunk
    simp only [hchunk] at hscan
    rw [if_neg hsame] at hscan
    obtain ⟨hb, hrest⟩ := ih hscan
    have hb' : b' = b := hb b' rfl
    obtain ⟨hslice, hlength⟩ := Nds.readAt_eq_ok hchunk
    have hfirst : chunk = List.replicate want b := by
      rw [List.eq_replicate_iff]
      refine ⟨hlength, fun x hx => ?_⟩
      by_contra hne
      rw [← hb'] at hne
      exact hsame (List.any_eq_true.mpr ⟨x, hx, by simpa using hne⟩)
    refine ⟨?_, ?_⟩
    · intro known hknown
      rw [← hb']
      simp [b', hknown]
    · have hsplit : want + (remaining - want) = remaining := by omega
      rw [← hsplit, ← Reader.slice_append_slice, hrest, List.replicate_add, ← hslice, hfirst]

theorem markUniform_marked {image : Bytes} {bound : Nat} {declared : List Declared}
    {marked : List (Declared × Option UInt8)}
    (hdeclared : ∀ d ∈ declared, d.start + d.len < bound)
    (hmark : markUniform image declared = .ok marked) : ∀ item ∈ marked, Marked image bound item := by
  induction declared generalizing marked with
  | nil =>
    cases hmark
    simp
  | cons d rest ih =>
    rw [List.forall_mem_cons] at hdeclared
    unfold markUniform at hmark
    simp only at hmark
    split at hmark
    · cases hmark
    rename_i byte hbyte
    split at hmark
    · cases hmark
    rename_i tail htail
    cases hmark
    rw [List.forall_mem_cons]
    refine ⟨⟨hdeclared.1, ?_⟩, ih hdeclared.2 htail⟩
    intro b hb
    simp only at hb ⊢
    subst hb
    split at hbyte
    · exact (uniformFrom_eq_some hbyte).2
    · cases hbyte

/-! ## Runs -/

theorem roundDown_le (n : Nat) : roundDown n ≤ n := Nat.div_mul_le_self _ _

theorem le_roundUp (n : Nat) : n ≤ roundUp n := by
  change n ≤ (n + 2048 - 1) / 2048 * 2048
  omega

theorem roundUp_lt (n : Nat) : roundUp n < n + 2048 := by
  change (n + 2048 - 1) / 2048 * 2048 < n + 2048
  omega

section

variable {runs : List (Declared × Option UInt8)} {image : Bytes}
  (hruns : ∀ item ∈ runs, Marked image u64Limit item)

include hruns

/-- Runs end at 64-bit positions when the extents end well below. -/
theorem joinRun_marked {next : Declared × Option UInt8} (hnext : Marked image (2 ^ 63) next) :
    ∀ item ∈ joinRun runs next, Marked image u64Limit item := by
  obtain ⟨d, byte⟩ := next
  obtain ⟨hstop, huniform⟩ := hnext
  have hlimit : u64Limit = 2 ^ 64 := rfl
  have hup := roundUp_lt (d.start + d.len)
  have hle := le_roundUp (d.start + d.len)
  have hdown := roundDown_le d.start
  simp only at hstop huniform
  have hpush : ∀ run, Marked image u64Limit run →
      ∀ item ∈ runs ++ [run], Marked image u64Limit item := by
    intro run hrun item hitem
    rcases List.mem_append.mp hitem with hold | hnew
    · exact hruns item hold
    · rwa [List.mem_singleton.mp hnew]
  cases byte with
  | some byte => exact hpush _ ⟨by simp only; omega, huniform⟩
  | none =>
    have hfresh : Marked image u64Limit (runOf d, none) :=
      ⟨by simp only [runOf]; omega, fun byte hbyte => by cases hbyte⟩
    simp only [joinRun]
    split
    · rename_i last hlast
      split
      · have hlastStop := (hruns _ (List.mem_of_getLast? hlast)).1
        simp only at hlastStop
        intro item hitem
        rcases List.mem_append.mp hitem with hold | hnew
        · exact hruns item ((List.dropLast_sublist runs).subset hold)
        · rw [List.mem_singleton.mp hnew]
          exact ⟨by simp only; omega, fun byte hbyte => by cases hbyte⟩
      · exact hpush _ hfresh
    · exact hpush _ hfresh

theorem foldl_joinRun_marked {items : List (Declared × Option UInt8)}
    (hitems : ∀ item ∈ items, Marked image (2 ^ 63) item) :
    ∀ item ∈ items.foldl joinRun runs, Marked image u64Limit item := by
  induction items generalizing runs with
  | nil => exact hruns
  | cons first rest ih =>
    rw [List.forall_mem_cons] at hitems
    exact ih (joinRun_marked hruns hitems.1) hitems.2

end

/-! ## The coverage walk -/

variable {checks : Bool} {image : Bytes} {declared : List (Declared × Option UInt8)}

/-- The walk's cursor only moves forward. -/
theorem le_of_cover (himage : image.length < u64Limit) {cursor cursor' : Nat} {map' : Coverage}
    (hcursor : cursor < u64Limit) (hdeclared : ∀ item ∈ declared, Marked image u64Limit item)
    (hcover : cover checks image cursor map declared = .ok (cursor', map')) :
    cursor ≤ cursor' ∧ cursor' < u64Limit := by
  induction declared generalizing cursor map with
  | nil =>
    cases hcover
    exact ⟨Nat.le_refl _, hcursor⟩
  | cons item rest ih =>
    obtain ⟨d, byte⟩ := item
    rw [List.forall_mem_cons] at hdeclared
    simp only [cover] at hcover
    split at hcover
    · cases hcover
    rename_i gap hgap
    split at hcover
    · cases hcover
    rename_i map₁ hclassify
    obtain ⟨hle, _⟩ := Nds.gap_of_classifyGap himage hcursor hgap hclassify
    obtain ⟨hrest, hlt⟩ := ih hdeclared.1.1 hdeclared.2 hcover
    exact ⟨by simp only at hrest; omega, hlt⟩

/-- A walk that ends inside the image covers it up to its cursor. -/
theorem covers_of_cover (himage : image.length < u64Limit) {cursor cursor' : Nat}
    {map' : Coverage} (hcovers : map.Covers image [] cursor)
    (hdeclared : ∀ item ∈ declared, Marked image u64Limit item)
    (hcover : cover checks image cursor map declared = .ok (cursor', map'))
    (hend : cursor' ≤ image.length) : map'.Covers image [] cursor' := by
  induction declared generalizing cursor map with
  | nil =>
    cases hcover
    exact hcovers
  | cons item rest ih =>
    obtain ⟨d, byte⟩ := item
    rw [List.forall_mem_cons] at hdeclared
    obtain ⟨⟨hstop, huniform⟩, hrest⟩ := hdeclared
    simp only at hstop huniform
    simp only [cover] at hcover
    split at hcover
    · cases hcover
    rename_i gap hgap
    split at hcover
    · cases hcover
    rename_i map₁ hclassify
    have hcursor : cursor ≤ image.length := hcovers.within
    obtain ⟨hle, rfl⟩ := Nds.gap_of_classifyGap himage (by omega) hgap hclassify
    obtain ⟨hforward, _⟩ := le_of_cover himage hstop hrest hcover
    have hfits : d.start + d.len ≤ image.length := by omega
    have hgapFits : cursor + (d.start - cursor) ≤ image.length := by omega
    obtain ⟨map₁', hclassify', hcovers₁⟩ := hcovers.classifyGap (ρ := Refusal) hgapFits
    rw [hclassify, Except.ok.injEq] at hclassify'
    subst hclassify'
    rw [Nat.add_sub_cancel' hle] at hcovers₁
    cases byte with
    | some byte => exact ih (hcovers₁.pushFill hfits (huniform byte rfl)) hrest hcover
    | none => exact ih (hcovers₁.pushPiece hfits) hrest hcover

/-- A finished walk tiles the image. -/
theorem render_of_coverAll (himage : image.length < u64Limit)
    (hdeclared : ∀ item ∈ declared, Marked image u64Limit item)
    (hcover : coverAll checks image declared = .ok map) :
    Nds.render ⟨image, map.pieces, []⟩ map.regions = some image := by
  unfold coverAll at hcover
  split at hcover
  · cases hcover
  rename_i cursor map₁ hwalk
  split at hcover
  · cases hcover
  rename_i gap hgap
  obtain ⟨_, hcursor⟩ := le_of_cover himage (by decide) hdeclared hwalk
  obtain ⟨hend, rfl⟩ := Nds.gap_of_classifyGap himage hcursor hgap hcover
  have hcovers := covers_of_cover himage Coverage.Covers.empty hdeclared hwalk hend
  have hgapFits : cursor + (image.length - cursor) ≤ image.length := by omega
  obtain ⟨map', hclassify, hcovers'⟩ := hcovers.classifyGap (ρ := Refusal) hgapFits
  rw [hcover, Except.ok.injEq] at hclassify
  subst hclassify
  exact Tiling.Covers.full hcovers' (by omega)

/-- ISO 9660 coverage is exact: the regions of a layout tile the image byte for byte, be
they files or coalesced runs, and whatever the declared extents do. -/
theorem parseLayout_exact (lossy : Bytes → String) (checks : Bool) (image : Image)
    (maxPieces : Nat) (layout : Layout)
    (hparse : parseLayout lossy checks image maxPieces = .ok layout) :
    Nds.render ⟨image.bytes, layout.pieces, []⟩ layout.regions = some image.bytes := by
  unfold parseLayout at hparse
  simp only at hparse
  split at hparse
  · cases hparse
  rename_i vol hvol
  split at hparse
  · cases hparse
  split at hparse
  · cases hparse
  rename_i marked hmark
  split at hparse
  · cases hparse
  rename_i map hcover
  split at hparse
  · cases hparse
  cases hparse
  have hmarked := markUniform_marked
    (fun d hd => declared_lt hvol d (Extents.mem_of_mem_dedup_sort hd)) hmark
  refine render_of_coverAll image.fits ?_ hcover
  split
  · exact foldl_joinRun_marked (by simp) hmarked
  · intro item hitem
    have hlimit : u64Limit = 2 ^ 64 := rfl
    obtain ⟨hstop, huniform⟩ := hmarked item hitem
    exact ⟨by omega, huniform⟩

/-! ## A small volume -/

/-- Extents that come one behind the other inside the image are laid down. -/
theorem exists_cover {cursor : Nat} {map : Coverage} (hcovers : map.Covers image [] cursor)
    (hdeclared : ∀ item ∈ declared, Marked image (image.length + 1) item)
    (hfollows : Extents.Follows (fun item => item.1.span) cursor declared) :
    ∃ cursor' map', cover checks image cursor map declared = .ok (cursor', map') ∧
      map'.Covers image [] cursor' ∧ cursor ≤ cursor' ∧
        map'.residualBytes ≤ map.residualBytes + (cursor' - cursor) := by
  induction declared generalizing cursor map with
  | nil => exact ⟨cursor, map, rfl, hcovers, Nat.le_refl _, Nat.le_add_right _ _⟩
  | cons item rest ih =>
    obtain ⟨d, byte⟩ := item
    rw [List.forall_mem_cons] at hdeclared
    obtain ⟨⟨hstop, huniform⟩, hrest⟩ := hdeclared
    obtain ⟨hle, hfollows⟩ := hfollows
    simp only at hstop huniform
    have hle : cursor ≤ d.start := hle
    have hfollows : Extents.Follows (fun item : Declared × Option UInt8 => item.1.span)
      (d.start + d.len) rest := hfollows
    have hgapFits : cursor + (d.start - cursor) ≤ image.length := by omega
    obtain ⟨map₁, hclassify, hcovers₁⟩ := hcovers.classifyGap (ρ := Refusal) hgapFits
    have hresidual := Coverage.residualBytes_classifyGap hclassify
    rw [Nat.add_sub_cancel' hle] at hcovers₁
    simp only [cover, subU64_of_le hle, hclassify]
    cases byte with
    | some byte =>
      have hpushed : (map₁.pushRegion (.fill byte d.len)).Covers image [] (d.start + d.len) :=
        hcovers₁.pushFill (by omega) (huniform byte rfl)
      obtain ⟨cursor', map', hrun, hfinal, hforward, hcount⟩ := ih hpushed hrest hfollows
      refine ⟨cursor', map', hrun, hfinal, by omega, ?_⟩
      have hsame : (map₁.pushRegion (.fill byte d.len)).residualBytes = map₁.residualBytes := rfl
      omega
    | none =>
      have hpushed : (map₁.pushPiece ⟨d.name, d.start, d.len⟩).Covers image []
          (d.start + d.len) := hcovers₁.pushPiece (by omega)
      obtain ⟨cursor', map', hrun, hfinal, hforward, hcount⟩ := ih hpushed hrest hfollows
      refine ⟨cursor', map', hrun, hfinal, by omega, ?_⟩
      have hsame : (map₁.pushPiece ⟨d.name, d.start, d.len⟩).residualBytes =
        map₁.residualBytes := rfl
      omega

/-- Such extents cover the image, and the residue is no longer than the image. -/
theorem exists_coverAll (hdeclared : ∀ item ∈ declared, Marked image (image.length + 1) item)
    (hfollows : Extents.Follows (fun item => item.1.span) 0 declared) :
    ∃ map, coverAll checks image declared = .ok map ∧ map.residualBytes ≤ image.length := by
  obtain ⟨cursor, map, hcover, hcovers, _, hresidual⟩ :=
    @exists_cover checks image declared 0 {} Coverage.Covers.empty hdeclared hfollows
  have hwithin : cursor ≤ image.length := hcovers.within
  have hgapFits : cursor + (image.length - cursor) ≤ image.length := by omega
  obtain ⟨map', hclassify, _⟩ := hcovers.classifyGap (ρ := Refusal) hgapFits
  have hresidual' := Coverage.residualBytes_classifyGap hclassify
  have hzero : ({} : Coverage).residualBytes = 0 := rfl
  refine ⟨map', ?_, by omega⟩
  simp only [coverAll, hcover, subU64_of_le hwithin, hclassify]

/-- The root record: a directory of one sector at block 18. -/
def sampleRoot : Bytes :=
  [34, 0, 18, 0, 0, 0, 0, 0, 0, 18, 0, 8, 0, 0, 0, 0, 8, 0] ++ List.replicate 7 0 ++ [2] ++
    List.replicate 8 0

def samplePvd : Bytes :=
  [pvdType] ++ standardId ++ List.replicate 74 0 ++ [19, 0, 0, 0] ++ List.replicate 44 0 ++ [0, 8] ++
    List.replicate 26 0 ++ sampleRoot ++ List.replicate 1858 0

def sampleTerminator : Bytes := [terminatorType] ++ standardId ++ [0]

/-- A system area, a descriptor, its terminator, an empty root, and a stray end. -/
def sampleBytes : Bytes :=
  List.replicate 32768 0 ++ (samplePvd ++ (sampleTerminator ++ (List.replicate 2041 0 ++
    (List.replicate 2048 0 ++ [1, 2, 3]))))

theorem length_samplePvd : samplePvd.length = 2048 := by decide +kernel

theorem length_sampleBytes : sampleBytes.length = 38915 := by
  simp only [sampleBytes, List.length_append, List.length_replicate, length_samplePvd]
  decide

def sampleImage : Image where
  bytes := sampleBytes
  fits := by rw [length_sampleBytes]; decide

-- stated for any bytes, so that the sample's own are never compared one by one
theorem bytes_mk (bytes : Bytes) (hfits : bytes.length < u64Limit) :
    (Image.mk bytes hfits).bytes = bytes := rfl

theorem bytes_sampleImage : sampleImage.bytes = sampleBytes := bytes_mk _ _

theorem readAt_middle {ρ : Type} {front middle back : Bytes} {start len : Nat}
    (hstart : start = front.length) (hlen : len = middle.length) :
    readAt (ρ := ρ) (front ++ (middle ++ back)) start len = .ok middle := by
  subst hstart hlen
  have hfits : middle.length ≤ (front ++ (middle ++ back)).length - front.length := by
    simp only [List.length_append]
    omega
  rw [readAt, if_pos hfits, Reader.slice_middle]

/-- A table of one sector that starts with a zero has no records. -/
theorem records_empty {lossy : Bytes → String} {dir : Dir} {limit : Nat} {table : Bytes}
    (hlength : table.length = 2048) (hzero : table.getD 0 0 = 0) (scan : Scan) :
    records lossy dir limit table 0 scan = .ok scan := by
  have hrecLen : (table.getD 0 0).toNat = 0 := by rw [hzero]; rfl
  have hnext : (0 / sector + 1) * sector = 2048 := by decide
  rw [records, if_neg (by omega)]
  simp only
  rw [if_pos hrecLen, hnext, records, if_pos (by omega)]

/-- A visit whose one table has no records ends with the directory itself. -/
theorem visit_empty {lossy : Bytes → String} {image table : Bytes} {base limit : Nat} {dir : Dir}
    (hadmitted : admits limit [] dir = .ok ())
    (htable : readAt (ρ := Refusal) image (base + dir.lba * sector) dir.len = .ok table)
    (hrecords : ∀ scan, records lossy dir limit table 0 scan = .ok scan) :
    visit lossy image base limit [] {} [dir] =
      .ok { entries := [⟨if dir.path = "" then "/" else dir.path, dir.lba, dir.len, true⟩]
            dirCount := 1 } := by
  rw [visit]
  split
  · rename_i e herror
    rw [hadmitted] at herror
    cases herror
  · simp only [htable, hrecords, visit, List.nil_append]

/-- What it takes for a volume to parse. -/
theorem parseVolume_of_parts {lossy : Bytes → String} {image pvd : Bytes} {limit sectors : Nat}
    {walk : Walk} (hlong : ¬ limit < pvdSector * sector + sector)
    (hpvd : readAt (ρ := Refusal) image (base + pvdSector * sector) 2048 = .ok pvd)
    (hlooks : looksLikePvd pvd = true) (hblock : u16At pvd 128 = 2048)
    (hdir : (slice pvd 156 34).getD 25 0 &&& flagDirectory ≠ 0)
    (hset : descriptorSet image base limit 1 = .ok sectors)
    (hvisit : visit lossy image base limit [] {}
      [⟨u32At (slice pvd 156 34) 2, u32At (slice pvd 156 34) 10, "", 0⟩] = .ok walk) :
    parseVolume lossy image base limit = .ok
      { sectors := u32At pvd 80, entries := walk.entries, fileCount := walk.fileCount
        dirCount := walk.dirCount, emptyFiles := walk.emptyFiles
        multiExtentFiles := walk.multiExtentFiles, descriptorSectors := sectors } := by
  rw [parseVolume, if_neg hlong]
  simp only [hpvd]
  rw [if_neg (by rw [hlooks]; decide), if_neg (not_not.mpr hblock), if_neg hdir]
  simp only [hset, hvisit]

theorem samplePvd_fields :
    looksLikePvd samplePvd = true ∧ u16At samplePvd 128 = 2048 ∧
      (slice samplePvd 156 34).getD 25 0 &&& flagDirectory ≠ 0 ∧
      u32At (slice samplePvd 156 34) 2 = 18 ∧ u32At (slice samplePvd 156 34) 10 = 2048 ∧
      u32At samplePvd 80 = 19 := by
  decide +kernel

theorem sample_descriptorSet : descriptorSet sampleBytes 0 38915 1 = .ok 2 := by
  have hterminator : readAt (ρ := Refusal) sampleBytes (0 + (pvdSector + 1) * sector) 7 =
      .ok sampleTerminator := by
    rw [sampleBytes, ← List.append_assoc]
    refine readAt_middle ?_ rfl
    rw [List.length_append, List.length_replicate, length_samplePvd]
    rfl
  rw [descriptorSet, if_neg (by decide)]
  simp only [hterminator]
  rw [if_neg (by decide), if_pos (by decide)]

theorem sample_table :
    readAt (ρ := Refusal) sampleBytes (0 + 18 * sector) 2048 = .ok (List.replicate 2048 0) := by
  rw [sampleBytes, ← List.append_assoc, ← List.append_assoc, ← List.append_assoc]
  have hterminatorLength : sampleTerminator.length = 7 := rfl
  refine readAt_middle ?_ (by rw [List.length_replicate])
  simp only [List.length_append, List.length_replicate, length_samplePvd, hterminatorLength]
  rfl

theorem sample_parseVolume :
    parseVolume (fun _ => "") sampleBytes 0 38915 = .ok
      { sectors := 19, entries := [⟨"/", 18, 2048, true⟩], fileCount := 0, dirCount := 1,
        emptyFiles := 0, multiExtentFiles := 0, descriptorSectors := 2 } := by
  obtain ⟨hlooks, hblock, hdir, hlba, hlen, hsectors⟩ := samplePvd_fields
  have hpvd : readAt (ρ := Refusal) sampleBytes (0 + pvdSector * sector) 2048 = .ok samplePvd :=
    readAt_middle (by rw [List.length_replicate]; rfl) length_samplePvd.symm
  have hvisit := @visit_empty (fun _ => "") _ _ _ 38915 ⟨18, 2048, "", 0⟩ (by decide) sample_table
    (records_empty (List.length_replicate ..) rfl)
  rw [← hlba, ← hlen] at hvisit
  rw [parseVolume_of_parts (by decide) hpvd hlooks hblock hdir sample_descriptorSet hvisit, hsectors]
  simp only [if_true, hlba, hlen]

def sampleMarked : List (Declared × Option UInt8) :=
  [(⟨"descriptors", 32768, 4096⟩, none), (⟨"dir:/", 36864, 2048⟩, none)]

/-- What it takes for a volume to have a layout, up to the floor on its residue. -/
theorem exists_parseLayout {lossy : Bytes → String} {checks : Bool} {image : Image}
    {maxPieces : Nat} {marked : List (Declared × Option UInt8)}
    (hparse : parseVolume lossy image.bytes 0 image.bytes.length = .ok vol)
    (hoverlap : Extents.overlap? Declared.span
      (Extents.dedup Declared.span (Extents.sort Declared.span vol.declared)) = none)
    (hmark : markUniform image.bytes
      (Extents.dedup Declared.span (Extents.sort Declared.span vol.declared)) = .ok marked)
    (hfew : (Extents.dedup Declared.span (Extents.sort Declared.span vol.declared)).length ≤ maxPieces)
    (hcover : coverAll checks image.bytes marked = .ok map)
    (hresidual : map.residualBytes ≤ residueFloor) :
    ∃ layout, parseLayout lossy checks image maxPieces = .ok layout := by
  have hcoalesced : decide (maxPieces <
      (Extents.dedup Declared.span (Extents.sort Declared.span vol.declared)).length) = false :=
    decide_eq_false (Nat.not_lt.mpr hfew)
  unfold parseLayout
  simp only [hparse, hoverlap, hmark, hcoalesced, Bool.false_eq_true, if_false, hcover]
  rw [if_neg (fun hlarge => Nat.not_lt.mpr hresidual hlarge.2)]
  exact ⟨_, rfl⟩

/-- The sample has a layout. -/
theorem sample_parseLayout :
    ∃ layout, parseLayout (fun _ => "") true sampleImage 8 = .ok layout := by
  have hlength := length_sampleBytes
  have hdeclared : Extents.dedup Declared.span (Extents.sort Declared.span
      (Volume.declared ⟨19, [⟨"/", 18, 2048, true⟩], 0, 1, 0, 0, 2⟩)) =
        [⟨"descriptors", 32768, 4096⟩, ⟨"dir:/", 36864, 2048⟩] := by decide +kernel
  have hmark : markUniform sampleBytes
      [⟨"descriptors", 32768, 4096⟩, ⟨"dir:/", 36864, 2048⟩] = .ok sampleMarked := by
    have hshort : ¬ uniformFileMin ≤ 4096 ∧ ¬ uniformFileMin ≤ 2048 := by decide
    simp only [markUniform, hshort.1, hshort.2, false_and, if_false]
    rfl
  have hmarked : ∀ item ∈ sampleMarked, Marked sampleBytes (sampleBytes.length + 1) item := by
    intro item hitem
    simp only [sampleMarked, List.mem_cons, List.not_mem_nil, or_false] at hitem
    rcases hitem with rfl | rfl <;>
      exact ⟨by rw [hlength]; decide, fun byte hbyte => by cases hbyte⟩
  have hfollows : Extents.Follows (fun item : Declared × Option UInt8 => item.1.span) 0
      sampleMarked := ⟨by decide, by decide, trivial⟩
  obtain ⟨map, hcoverAll, hresidual⟩ := @exists_coverAll true sampleBytes _ hmarked hfollows
  have hsmall : map.residualBytes ≤ residueFloor := by
    have hfloor : residueFloor = 4194304 := by decide
    omega
  have hvolume := sample_parseVolume
  rw [← hlength, ← bytes_sampleImage] at hvolume
  have hmark' : markUniform sampleImage.bytes _ = _ := bytes_sampleImage ▸ hmark
  have hcoverAll' : coverAll true sampleImage.bytes _ = _ := bytes_sampleImage ▸ hcoverAll
  rw [← hdeclared] at hmark'
  refine exists_parseLayout hvolume ?_ hmark' ?_ hcoverAll' hsmall
  · rw [hdeclared]
    rfl
  · rw [hdeclared]
    decide

/-- The sample is tiled, stray end and all. -/
theorem parseLayout_exact_sample :
    ∃ layout, parseLayout (fun _ => "") true sampleImage 8 = .ok layout ∧
      Nds.render ⟨sampleImage.bytes, layout.pieces, []⟩ layout.regions = some sampleImage.bytes := by
  obtain ⟨layout, hparse⟩ := sample_parseLayout
  exact ⟨layout, hparse, parseLayout_exact _ _ _ _ _ hparse⟩

end Iso9660

end Datboi
