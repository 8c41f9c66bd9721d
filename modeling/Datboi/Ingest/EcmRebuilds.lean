import Datboi.Ingest.EcmSplit

/-!
# Splitting and recreating are inverse

A list of records gives stripped bytes a meaning, the image they expand to. The splitter
keeps its records expanding what it handed out, together with what is pending, to what
it took from the blob; the component writes that expansion.
-/

namespace Datboi.Ecm

open Guest (Program)
open Reader (slice length_slice)
open Xf (collect)

/-! ## Sectors that regenerate -/

variable {kind : UInt8} {records : List LayoutRecord}

/-- The three kinds that are sectors. -/
theorem mem_candidates {mode : UInt8} (hkind : kind ∈ candidates mode) :
    kind = 1 ∨ kind = 2 ∨ kind = 3 := by
  rw [candidates] at hkind
  split_ifs at hkind
  · exact .inl (List.mem_singleton.mp hkind)
  · simp only [List.mem_cons, List.not_mem_nil, or_false] at hkind
    exact .inr hkind
  · exact absurd hkind List.not_mem_nil

theorem length_stripAs (hkind : kind = 1 ∨ kind = 2 ∨ kind = 3) {raw : Bytes}
    (hlen : SECTOR ≤ raw.length) :
    strippedLen kind = some (stripAs kind raw).length ∧ (stripAs kind raw).length ≤ SECTOR := by
  simp only [SECTOR] at hlen ⊢
  rcases hkind with rfl | rfl | rfl
  · have hstripped : (stripAs 1 raw).length = 2051 := by
      rw [stripAs, if_pos rfl, List.length_append, length_slice, length_slice]
      omega
    rw [hstripped]
    exact ⟨rfl, by decide⟩
  · have hstripped : (stripAs 2 raw).length = 2059 := by
      rw [stripAs, if_neg (by decide), if_pos rfl, List.length_append, List.length_append,
        length_slice, length_slice, length_slice]
      omega
    rw [hstripped]
    exact ⟨rfl, by decide⟩
  · have hstripped : (stripAs 3 raw).length = 2335 := by
      rw [stripAs, if_neg (by decide), if_neg (by decide), List.length_append, List.length_append,
        length_slice, length_slice, length_slice]
      omega
    rw [hstripped]
    exact ⟨rfl, by decide⟩

/-- A classified sector is rebuilt from its stripped bytes. -/
theorem classifySector_eq_some {raw stripped : Bytes}
    (hclass : classifySector raw = some (kind, stripped)) :
    SECTOR ≤ raw.length ∧ (kind = 1 ∨ kind = 2 ∨ kind = 3) ∧
      strippedLen kind = some stripped.length ∧ stripped.length ≤ SECTOR ∧
      rebuildSector kind stripped = raw.take SECTOR := by
  rw [classifySector] at hclass
  split at hclass
  · cases hclass
  · rename_i hplausible
    have hlen : SECTOR ≤ raw.length := Nat.not_lt.mp (not_or.mp hplausible).1
    obtain ⟨candidate, hcandidate, hfound⟩ := List.exists_of_findSome?_eq_some hclass
    have hkind := mem_candidates hcandidate
    split at hfound
    · rename_i hrebuilt
      cases hfound
      obtain ⟨hstripped, hshort⟩ := length_stripAs hkind hlen
      exact ⟨hlen, hkind, hstripped, hshort, hrebuilt⟩
    · cases hfound

/-! ## What a layout means -/

/-- The bytes a record's run of stripped bytes stands for. -/
def LayoutRecord.expand (r : LayoutRecord) (bytes : Bytes) : Bytes :=
  match strippedLen r.kind with
  | none => bytes
  | some per =>
    (List.range r.count.toNat).flatMap fun i => rebuildSector r.kind (slice bytes (i * per) per)

/-- The image a layout and stripped bytes stand for. -/
def expandAll : List LayoutRecord → Bytes → Bytes
  | [], _ => []
  | r :: records, bytes =>
    r.expand (bytes.take r.span) ++ expandAll records (bytes.drop r.span)

/-- How many stripped bytes the records cover. -/
def covered (records : List LayoutRecord) : Nat := (records.map LayoutRecord.span).sum

@[simp] theorem covered_nil : covered [] = 0 := rfl

@[simp] theorem covered_cons (r : LayoutRecord) (records : List LayoutRecord) :
    covered (r :: records) = r.span + covered records := by
  simp [covered]

@[simp] theorem covered_append (front back : List LayoutRecord) :
    covered (front ++ back) = covered front + covered back := by
  simp [covered]

theorem expandAll_append (front back : List LayoutRecord) (bytes : Bytes) :
    expandAll (front ++ back) bytes =
      expandAll front bytes ++ expandAll back (bytes.drop (covered front)) := by
  induction front generalizing bytes with
  | nil => simp [expandAll]
  | cons r front ih =>
    rw [List.cons_append, expandAll, ih, expandAll, List.drop_drop, covered_cons,
      List.append_assoc]

/-- Bytes that no record covers do not matter. -/
theorem expandAll_append_right (records : List LayoutRecord) {bytes : Bytes} (more : Bytes)
    (hcovered : covered records ≤ bytes.length) :
    expandAll records (bytes ++ more) = expandAll records bytes := by
  induction records generalizing bytes with
  | nil => rfl
  | cons r records ih =>
    rw [covered_cons] at hcovered
    have hr : r.span ≤ bytes.length := by omega
    rw [expandAll, expandAll, List.take_append_of_le_length hr, List.drop_append_of_le_length hr,
      ih (by rw [List.length_drop]; omega)]

/-- One record more. -/
theorem expandAll_concat {r : LayoutRecord} {bytes piece : Bytes}
    (hcovered : covered records = bytes.length) (hpiece : piece.length = r.span) :
    expandAll (records ++ [r]) (bytes ++ piece) = expandAll records bytes ++ r.expand piece := by
  rw [expandAll_append, expandAll_append_right _ _ (Nat.le_of_eq hcovered), hcovered,
    List.drop_left, expandAll, expandAll, List.append_nil, ← hpiece, List.take_length]

/-- Two runs of one kind in a row are one run. -/
theorem expand_merge {first second merged : LayoutRecord} {x y : Bytes}
    (hkind : second.kind = first.kind) (hmerged : merged.kind = first.kind)
    (hcount : merged.count.toNat = first.count.toNat + second.count.toNat)
    (hx : x.length = first.span) :
    merged.expand (x ++ y) = first.expand x ++ second.expand y := by
  cases hper : strippedLen first.kind with
  | none => simp only [LayoutRecord.expand, hkind, hmerged, hper]
  | some per =>
    have hspan : x.length = first.count.toNat * per := by
      rw [hx, LayoutRecord.span, hper, Option.getD_some]
    simp only [LayoutRecord.expand, hkind, hmerged, hper, hcount, Chunks.flatMap_range_add]
    refine congrArg₂ (· ++ ·) (List.flatMap_congr fun i hi => ?_)
      (List.flatMap_congr fun i _ => ?_)
    · rw [List.mem_range] at hi
      have hfits : i * per + per ≤ x.length := by
        rw [hspan, ← Nat.succ_mul]
        exact Nat.mul_le_mul_right _ hi
      rw [Reader.slice_append]
      have hnone : per - (x.length - i * per) = 0 := by omega
      rw [hnone, Reader.slice_zero_right, List.append_nil]
    · have hoffset : (first.count.toNat + i) * per = x.length + i * per := by
        rw [hspan, Nat.add_mul]
      rw [hoffset, slice, List.drop_append, List.drop_eq_nil_of_le (Nat.le_add_right _ _),
        List.nil_append, Nat.add_sub_cancel_left, slice]

/-! ## Layout blobs -/

theorem parseRecord_encodeRecord {r : LayoutRecord} (hkind : r.kind ≤ 3) (hcount : r.count ≠ 0) :
    parseRecord (encodeRecord r) = .ok (some r) := by
  have hfits : r.count.toNat < 256 ^ 4 := r.count.toNat_lt
  rw [encodeRecord, parseRecord, if_neg (by rw [Wire.length_toLe]; decide),
    if_neg (UInt8.not_lt.mpr hkind)]
  simp only [Wire.ofLe_toLe hfits, UInt32.ofNat_toNat, if_neg hcount]

theorem length_encodeRecord (r : LayoutRecord) : (encodeRecord r).length = 5 := by
  rw [encodeRecord, List.length_cons, Wire.length_toLe]

theorem length_encodeLayout (records : List LayoutRecord) :
    (encodeLayout records).length = records.length * 5 := by
  induction records with
  | nil => rfl
  | cons r records ih =>
    rw [encodeLayout, List.flatMap_cons, List.length_append, length_encodeRecord, ← encodeLayout,
      ih, List.length_cons]
    omega

/-- The component reads back the records that were written. -/
theorem parseLayout_encodeLayout (hkinds : ∀ r ∈ records, r.kind ≤ 3)
    (hcounts : ∀ r ∈ records, r.count ≠ 0) : parseLayout (encodeLayout records) = .ok records := by
  have hloop : ∀ fuel, (encodeLayout records).length ≤ fuel →
      parseLayoutLoop fuel (encodeLayout records) = .ok records := by
    induction records with
    | nil =>
      intro fuel _
      cases fuel <;> rfl
    | cons r records ih =>
      intro fuel hfuel
      have hencoded : encodeLayout (r :: records) = encodeRecord r ++ encodeLayout records := rfl
      rw [length_encodeLayout, List.length_cons] at hfuel
      cases fuel with
      | zero => omega
      | succ fuel =>
        have hne : encodeRecord r ++ encodeLayout records ≠ [] := by
          rw [encodeRecord, List.cons_append]
          exact List.cons_ne_nil _ _
        rw [hencoded, parseLayoutLoop, if_neg hne, List.take_left' (length_encodeRecord r),
          List.drop_left' (length_encodeRecord r),
          parseRecord_encodeRecord (hkinds r (List.mem_cons_self ..))
            (hcounts r (List.mem_cons_self ..)),
          ih (fun r hr => hkinds r (List.mem_cons_of_mem _ hr))
            (fun r hr => hcounts r (List.mem_cons_of_mem _ hr)) fuel
            (by rw [length_encodeLayout]; omega)]
        rfl
  exact hloop _ (Nat.le_refl _)

/-! ## The component writes the expansion -/

section Recreate

variable {layout stripped written : Bytes} {other : Guest.Input IoError UInt8}

theorem readAllLoop_run {next : Bytes → Program UInt8} {fuel pos : Nat} (hpos : pos ≤ layout.length)
    (hfuel : layout.length < pos + fuel) :
    (readAllLoop 0 next fuel (layout.take pos)).run maxRead
        ⟨[.sequential (.feed layout pos), other], [.open written]⟩ =
      (next layout).run maxRead
        ⟨[.sequential (.feed layout layout.length), other], [.open written]⟩ := by
  induction fuel generalizing pos with
  | zero => omega
  | succ fuel ih =>
    rw [readAllLoop, Program.run_read_feed_upTo rfl (by decide) hpos]
    simp only [List.set_cons_zero]
    by_cases hend : pos = layout.length
    · have hnil : slice layout pos (1 <<< 20) = [] := Reader.slice_eq_nil_iff.mpr
        (.inr (Nat.le_of_eq hend.symm))
      have hmin : min (pos + 1 <<< 20) layout.length = layout.length := by omega
      rw [if_pos hnil, hmin, hend, List.take_length]
    · have hne : slice layout pos (1 <<< 20) ≠ [] := by
        rw [ne_eq, Reader.slice_eq_nil_iff]
        have hpiece : 1 <<< 20 ≠ 0 := by decide
        omega
      have htaken : layout.take pos ++ slice layout pos (1 <<< 20) =
          layout.take (min (pos + 1 <<< 20) layout.length) := by
        rw [slice, ← List.take_add, List.take_eq_take_iff]
        omega
      have hstep : 0 < 1 <<< 20 := by decide
      rw [if_neg hne, htaken]
      exact ih (Nat.min_le_right _ _) (by omega)

theorem literalRun_run {next : Program UInt8} {fuel pos remaining : Nat}
    (hfits : pos + remaining ≤ stripped.length) (hfuel : remaining < fuel) :
    (literalRun next fuel remaining).run maxRead
        ⟨[other, .sequential (.feed stripped pos)], [.open written]⟩ =
      next.run maxRead ⟨[other, .sequential (.feed stripped (pos + remaining))],
        [.open (written ++ slice stripped pos remaining)]⟩ := by
  induction fuel generalizing pos remaining written with
  | zero => omega
  | succ fuel ih =>
    rw [literalRun]
    by_cases hdone : remaining = 0
    · simp [hdone]
    · have hmax : min remaining CHUNK ≤ maxRead := Nat.le_trans (Nat.min_le_right _ _) (by decide)
      have hread : pos + min remaining CHUNK ≤ stripped.length := by omega
      have hlen : (slice stripped pos (min remaining CHUNK)).length = min remaining CHUNK := by
        rw [length_slice]
        omega
      have hpositive : 0 < CHUNK := by decide
      rw [if_neg hdone, readExactSeq, Program.run_read_feed rfl hmax hread]
      simp only [List.set_cons_succ, List.set_cons_zero, hlen, ne_eq, not_true_eq_false, if_false]
      rw [Program.run_write_open rfl]
      simp only [List.set_cons_zero]
      rw [ih (by omega) (by omega), List.append_assoc, Reader.slice_append_slice]
      have hsum : min remaining CHUNK + (remaining - min remaining CHUNK) = remaining := by omega
      rw [Nat.add_assoc, hsum]

theorem sectorRun_run {kind : UInt8} {per : Nat} {next : Program UInt8} {count pos : Nat}
    (hper : per ≤ maxRead) (hfits : pos + count * per ≤ stripped.length) :
    (sectorRun kind per next count).run maxRead
        ⟨[other, .sequential (.feed stripped pos)], [.open written]⟩ =
      next.run maxRead ⟨[other, .sequential (.feed stripped (pos + count * per))],
        [.open (written ++ (List.range count).flatMap fun i =>
          rebuildSector kind (slice stripped (pos + i * per) per))]⟩ := by
  induction count generalizing pos written with
  | zero => simp [sectorRun]
  | succ count ih =>
    rw [Nat.succ_mul] at hfits
    have hread : pos + per ≤ stripped.length := by omega
    have hlen : (slice stripped pos per).length = per := by
      rw [length_slice]
      omega
    rw [sectorRun, readExactSeq, Program.run_read_feed rfl hper hread]
    simp only [List.set_cons_succ, List.set_cons_zero, hlen, ne_eq, not_true_eq_false, if_false]
    rw [Program.run_write_open rfl]
    simp only [List.set_cons_zero]
    have hnext : pos + per + count * per = pos + (count + 1) * per := by
      rw [Nat.succ_mul]
      omega
    rw [ih (by omega), hnext, Nat.add_comm count 1, Chunks.flatMap_range_add, List.append_assoc]
    have hshift : ∀ i, pos + per + i * per = pos + (1 + i) * per := by
      intro i
      rw [Nat.add_mul]
      omega
    simp [hshift]

theorem strippedLen_le {kind : UInt8} {per : Nat} (hper : strippedLen kind = some per) :
    kind ≠ 0 ∧ 0 < per ∧ per ≤ SECTOR := by
  rw [strippedLen] at hper
  split_ifs at hper with hone htwo hthree
  · cases hper
    exact ⟨hone ▸ by decide, by decide, by decide⟩
  · cases hper
    exact ⟨htwo ▸ by decide, by decide, by decide⟩
  · cases hper
    exact ⟨hthree ▸ by decide, by decide, by decide⟩

theorem strippedLen_eq_none {kind : UInt8} (hkind : kind ≤ 3) (hnone : strippedLen kind = none) :
    kind = 0 := by
  rw [strippedLen] at hnone
  split_ifs at hnone with hone htwo hthree
  have hlt : kind.toNat ≤ 3 := UInt8.le_iff_toNat_le.mp hkind
  have hone' : kind.toNat ≠ 1 := fun heq => hone (UInt8.toNat_inj.mp heq)
  have htwo' : kind.toNat ≠ 2 := fun heq => htwo (UInt8.toNat_inj.mp heq)
  have hthree' : kind.toNat ≠ 3 := fun heq => hthree (UInt8.toNat_inj.mp heq)
  have hzero : kind.toNat = 0 := by omega
  exact UInt8.toNat_inj.mp hzero

/-- The records in order write what they expand to, and cover the stripped bytes. -/
theorem recreateRecords_run {records : List LayoutRecord} (hkinds : ∀ r ∈ records, r.kind ≤ 3)
    {pos : Nat} (hcovered : pos + covered records = stripped.length) :
    ∃ inputs, (recreateRecords records pos).run maxRead
        ⟨[other, .sequential (.feed stripped pos)], [.open written]⟩ =
      (.done, ⟨inputs, [.open (written ++ expandAll records (stripped.drop pos))]⟩) := by
  induction records generalizing pos written with
  | nil =>
    rw [covered_nil, Nat.add_zero] at hcovered
    refine ⟨[other, .sequential (.feed stripped pos)], ?_⟩
    have hlen : (Guest.Input.sequential (.feed stripped pos) : Guest.Input IoError UInt8).len =
        pos := hcovered.symm
    simp [recreateRecords, Program.run, hlen, expandAll]
  | cons r records ih =>
    rw [covered_cons] at hcovered
    have hkind := hkinds r (List.mem_cons_self ..)
    have hrest := fun r hr => hkinds r (List.mem_cons_of_mem _ hr)
    rw [recreateRecords, expandAll, List.drop_drop, ← List.append_assoc]
    cases hper : strippedLen r.kind with
    | none =>
      have hzero := strippedLen_eq_none hkind hper
      have hspan : r.span = r.count.toNat := by
        rw [LayoutRecord.span, hper, Option.getD_none, Nat.mul_one]
      have hexpand : r.expand ((stripped.drop pos).take r.span) =
          slice stripped pos r.count.toNat := by
        rw [LayoutRecord.expand, hper, hspan]
        rfl
      rw [hspan] at hcovered
      simp only [if_pos hzero]
      rw [literalRun_run (by omega) (Nat.lt_succ_self _), hexpand, hspan]
      exact ih hrest (by omega)
    | some per =>
      obtain ⟨hne, -, hle⟩ := strippedLen_le hper
      have hspan : r.span = r.count.toNat * per := by
        rw [LayoutRecord.span, hper, Option.getD_some]
      have hexpand : r.expand ((stripped.drop pos).take r.span) =
          (List.range r.count.toNat).flatMap fun i =>
            rebuildSector r.kind (slice stripped (pos + i * per) per) := by
        rw [LayoutRecord.expand, hper]
        refine List.flatMap_congr fun i hi => ?_
        rw [List.mem_range] at hi
        have hinside : i * per + per ≤ r.span := by
          rw [hspan, ← Nat.succ_mul]
          exact Nat.mul_le_mul_right _ hi
        rw [← slice, Reader.slice_slice _ _ _ _ _ hinside]
      rw [hspan] at hcovered
      simp only [if_neg hne]
      rw [sectorRun_run (Nat.le_trans hle (by decide)) (by omega), hexpand, hspan]
      exact ih hrest (by omega)

end Recreate

/-- The component rebuilds what a valid layout expands to. -/
theorem recreate_eq {stripped : Bytes} (hvalid : ValidLayout records stripped)
    (hlimit : (encodeLayout records).length ≤ MAX_LAYOUT) :
    recreate (encodeLayout records) stripped = some (expandAll records stripped) := by
  have hlen : (Guest.Input.sequential (.feed (encodeLayout records) 0) :
      Guest.Input IoError UInt8).len = (encodeLayout records).length := rfl
  obtain ⟨inputs, hrun⟩ := @recreateRecords_run stripped []
    (.sequential (.feed (encodeLayout records) (encodeLayout records).length)) records
    hvalid.kinds 0 (by rw [Nat.zero_add]; exact hvalid.partitions)
  have hread := @readAllLoop_run (encodeLayout records) [] (.sequential (.feed stripped 0))
    (recreateLayout .sequential) ((encodeLayout records).length + 1) 0 (Nat.zero_le _) (by omega)
  rw [List.take_zero, recreateLayout, parseLayout_encodeLayout hvalid.kinds hvalid.counts] at hread
  simp only [ne_eq, not_true_eq_false, if_false, hrun] at hread
  rw [recreate, run]
  simp only [ne_eq, not_true_eq_false, if_false, readAllSeq, Program.run, List.getElem?_cons_zero,
    hlen, if_neg (Nat.not_lt.mpr hlimit), hread]
  rfl

/-! ## The splitter -/

namespace EcmSplitReader

section

variable {stripped : Bytes} {records : List LayoutRecord} (hvalid : ValidLayout records stripped)

include hvalid

theorem covered_eq_of_valid : covered records = stripped.length :=
  hvalid.partitions

/-- A further run keeps the layout valid and expands to its own bytes more. -/
theorem pushRun_spec {piece : Bytes} {kind : UInt8} {count : UInt32} (hkind : kind ≤ 3)
    (hcount : count ≠ 0) (hpiece : piece.length = (LayoutRecord.mk kind count).span) :
    ValidLayout (pushRun records kind count) (stripped ++ piece) ∧
      expandAll (pushRun records kind count) (stripped ++ piece) =
        expandAll records stripped ++ (LayoutRecord.mk kind count).expand piece := by
  have hcovered := covered_eq_of_valid hvalid
  -- A new record of its own.
  have happend : ValidLayout (records ++ [⟨kind, count⟩]) (stripped ++ piece) ∧
      expandAll (records ++ [⟨kind, count⟩]) (stripped ++ piece) =
        expandAll records stripped ++ (LayoutRecord.mk kind count).expand piece := by
    refine ⟨⟨fun r hr => ?_, fun r hr => ?_, ?_⟩, expandAll_concat hcovered hpiece⟩
    · rcases List.mem_append.mp hr with hold | hnew
      · exact hvalid.kinds r hold
      · rw [List.mem_singleton.mp hnew]
        exact hkind
    · rcases List.mem_append.mp hr with hold | hnew
      · exact hvalid.counts r hold
      · rw [List.mem_singleton.mp hnew]
        exact hcount
    · rw [List.map_append, List.sum_append, hvalid.partitions, List.length_append, hpiece]
      simp
  rw [pushRun]
  cases hlast : records.getLast? with
  | none =>
    have hnil : records = [] := List.getLast?_eq_none_iff.mp hlast
    subst hnil
    exact happend
  | some last =>
    simp only
    split
    · rename_i hmerge
      obtain ⟨hsame, hfits⟩ := hmerge
      obtain ⟨init, rfl⟩ := List.getLast?_eq_some_iff.mp hlast
      rw [List.dropLast_concat]
      have hmem : last ∈ init ++ [last] := List.mem_append_right _ (List.mem_singleton_self _)
      have hlastCount := hvalid.counts last hmem
      have hsum : (last.count + count).toNat = last.count.toNat + count.toNat := by
        rw [UInt32.toNat_add, Nat.mod_eq_of_lt hfits]
      have hspan : (LayoutRecord.mk last.kind (last.count + count)).span =
          last.span + piece.length := by
        rw [hpiece, LayoutRecord.span, LayoutRecord.span, LayoutRecord.span, ← hsame]
        simp only
        rw [hsum, Nat.add_mul]
      rw [covered_append, covered_cons, covered_nil, Nat.add_zero] at hcovered
      -- The last run's stripped bytes are the last of all.
      have hsplit : stripped = stripped.take (covered init) ++ stripped.drop (covered init) :=
        (List.take_append_drop _ _).symm
      have hfront : covered init = (stripped.take (covered init)).length := by
        rw [List.length_take]
        omega
      have hback : (stripped.drop (covered init)).length = last.span := by
        rw [List.length_drop]
        omega
      refine ⟨⟨fun r hr => ?_, fun r hr => ?_, ?_⟩, ?_⟩
      · rcases List.mem_append.mp hr with hold | hnew
        · exact hvalid.kinds r (List.mem_append_left _ hold)
        · rw [List.mem_singleton.mp hnew]
          exact hvalid.kinds last hmem
      · rcases List.mem_append.mp hr with hold | hnew
        · exact hvalid.counts r (List.mem_append_left _ hold)
        · rw [List.mem_singleton.mp hnew]
          intro hzero
          have hzero' : (last.count + count).toNat = 0 := by
            simp only at hzero
            rw [hzero]
            rfl
          have hpositive : last.count.toNat ≠ 0 := fun heq =>
            hlastCount (UInt32.toNat_inj.mp heq)
          omega
      · have hpartition : covered (init ++ [⟨last.kind, last.count + count⟩]) =
            (stripped ++ piece).length := by
          rw [covered_append, covered_cons, covered_nil, hspan, List.length_append]
          omega
        exact hpartition
      · have hkindPiece : (LayoutRecord.mk kind count).kind = last.kind := hsame.symm
        have hgrown : (stripped.drop (covered init) ++ piece).length =
            (LayoutRecord.mk last.kind (last.count + count)).span := by
          rw [List.length_append, hback, hspan]
        have hexpand : expandAll (init ++ [last]) stripped =
            expandAll init (stripped.take (covered init)) ++
              last.expand (stripped.drop (covered init)) := by
          conv_lhs => rw [hsplit]
          exact expandAll_concat hfront hback
        rw [hexpand, List.append_assoc, ← @expand_merge last ⟨kind, count⟩
          ⟨last.kind, last.count + count⟩ _ _ hkindPiece rfl hsum hback]
        conv_lhs => rw [hsplit, List.append_assoc]
        exact expandAll_concat hfront hgrown
    · exact happend

end

/-- What the reader handed out and what is pending expand to what it took. -/
structure Splits (data got : Bytes) (reader : EcmSplitReader) : Prop where
  remaining_eq : reader.remaining = reader.src.length
  pos_le : reader.pendingPos ≤ reader.pending.length
  valid : ValidLayout reader.records (got ++ reader.pending.drop reader.pendingPos)
  expands : expandAll reader.records (got ++ reader.pending.drop reader.pendingPos) ++ reader.src =
    data

/-- The bytes that can still be handed out. -/
def left (reader : EcmSplitReader) : Nat :=
  reader.pending.length - reader.pendingPos + reader.remaining

theorem splits_new (data : Bytes) : Splits data [] (new data data.length) where
  remaining_eq := rfl
  pos_le := Nat.le_refl _
  valid := ⟨fun _ hr => absurd hr List.not_mem_nil, fun _ hr => absurd hr List.not_mem_nil, rfl⟩
  expands := rfl

variable {data got : Bytes} {reader : EcmSplitReader}

section

variable (hsplits : reader.Splits data got)

include hsplits

/-- With nothing pending, a step takes a sector or the rest. -/
theorem Splits.advance (hempty : reader.pendingPos = reader.pending.length)
    (hmore : reader.remaining ≠ 0) :
    ∃ after, reader.advance = .ok after ∧ after.Splits data got ∧
      after.pendingPos < after.pending.length ∧ after.left ≤ reader.left := by
  have hremaining := hsplits.remaining_eq
  have htake : min reader.remaining SECTOR ≠ 0 := by
    simp only [SECTOR]
    omega
  have hfits : ¬ reader.src.length < min reader.remaining SECTOR := by omega
  have hnil : reader.pending.drop reader.pendingPos = [] :=
    List.drop_eq_nil_of_le (Nat.le_of_eq hempty.symm)
  have hrawLen : (reader.src.take (min reader.remaining SECTOR)).length =
      min reader.remaining SECTOR := by
    rw [List.length_take]
    omega
  have hvalid := hsplits.valid
  have hexpands := hsplits.expands
  rw [hnil, List.append_nil] at hvalid hexpands
  rw [EcmSplitReader.advance]
  simp only [if_neg htake, if_neg hfits]
  cases hclass : classifySector (reader.src.take (min reader.remaining SECTOR)) with
  | some found =>
    obtain ⟨kind, stripped⟩ := found
    obtain ⟨hfull, hkind, hper, hshort, hrebuilt⟩ := classifySector_eq_some hclass
    have hle : kind ≤ 3 := by
      rcases hkind with rfl | rfl | rfl <;> decide
    have hpiece : stripped.length = (LayoutRecord.mk kind 1).span := by
      rw [LayoutRecord.span, hper, Option.getD_some]
      exact (Nat.one_mul _).symm
    have hpositive := (strippedLen_le hper).2.1
    have hone : (LayoutRecord.mk kind 1).expand stripped =
        reader.src.take (min reader.remaining SECTOR) := by
      have hrange : List.range (1 : UInt32).toNat = [0] := rfl
      rw [LayoutRecord.expand, hper]
      simp only [hrange, List.flatMap_singleton, Nat.zero_mul, Reader.slice_zero_length]
      rw [hrebuilt, List.take_of_length_le]
      rw [hrawLen]
      exact Nat.min_le_right _ _
    obtain ⟨hvalidAfter, hexpandAfter⟩ := pushRun_spec hvalid hle (by decide) hpiece
    refine ⟨_, rfl, ⟨?_, Nat.zero_le _, hvalidAfter, ?_⟩, hpositive, ?_⟩
    · rw [List.length_drop, hremaining]
    · simp only [List.drop_zero]
      rw [hexpandAfter, hone, List.append_assoc, List.take_append_drop]
      exact hexpands
    · rw [hrawLen] at hfull
      simp only [left]
      omega
  | none =>
    have hcount : (UInt32.ofNat (reader.src.take (min reader.remaining SECTOR)).length).toNat =
        (reader.src.take (min reader.remaining SECTOR)).length := by
      apply UInt32.toNat_ofNat_of_lt'
      rw [hrawLen]
      exact Nat.lt_of_le_of_lt (Nat.min_le_right _ _) (by decide)
    have hne : UInt32.ofNat (reader.src.take (min reader.remaining SECTOR)).length ≠ 0 := by
      intro hzero
      rw [hzero, hrawLen] at hcount
      exact htake hcount.symm
    have hpiece : (reader.src.take (min reader.remaining SECTOR)).length =
        (LayoutRecord.mk 0
          (UInt32.ofNat (reader.src.take (min reader.remaining SECTOR)).length)).span := by
      rw [LayoutRecord.span, hcount]
      exact (Nat.mul_one _).symm
    obtain ⟨hvalidAfter, hexpandAfter⟩ := pushRun_spec hvalid (by decide) hne hpiece
    refine ⟨_, rfl, ⟨?_, Nat.zero_le _, hvalidAfter, ?_⟩, ?_, ?_⟩
    · rw [List.length_drop, hremaining]
    · have hliteral : (LayoutRecord.mk 0
          (UInt32.ofNat (reader.src.take (min reader.remaining SECTOR)).length)).expand
          (reader.src.take (min reader.remaining SECTOR)) =
          reader.src.take (min reader.remaining SECTOR) := rfl
      simp only [List.drop_zero]
      rw [hexpandAfter, hliteral, List.append_assoc, List.take_append_drop]
      exact hexpands
    · simp only
      rw [hrawLen]
      omega
    · simp only [left, hrawLen]
      omega

/-- Filling goes through: either bytes are pending, or there are none any more. -/
theorem Splits.fill {fuel : Nat} (hfuel : reader.remaining < fuel) :
    (∃ filled, EcmSplitReader.fill fuel reader = .ok (some filled) ∧ filled.Splits data got ∧
      filled.pendingPos < filled.pending.length ∧ filled.left ≤ reader.left) ∨
    (EcmSplitReader.fill fuel reader = .ok none ∧ reader.left = 0) := by
  have hpos := hsplits.pos_le
  cases fuel with
  | zero => omega
  | succ fuel =>
    rw [EcmSplitReader.fill]
    by_cases hempty : reader.pendingPos = reader.pending.length
    · by_cases hdone : reader.remaining = 0
      · rw [if_pos hempty, if_pos hdone]
        refine .inr ⟨rfl, ?_⟩
        rw [left, hdone]
        omega
      · obtain ⟨after, hadvance, hafter, hpending, hleft⟩ := hsplits.advance hempty hdone
        rw [if_pos hempty, if_neg hdone, hadvance]
        refine .inl ⟨after, ?_, hafter, hpending, hleft⟩
        -- A step leaves bytes pending, so the next round ends.
        cases fuel with
        | zero => omega
        | succ fuel =>
          change EcmSplitReader.fill (fuel + 1) after = _
          rw [EcmSplitReader.fill, if_neg (Nat.ne_of_lt hpending)]
    · rw [if_neg hempty]
      exact .inl ⟨reader, rfl, hsplits, by omega, Nat.le_refl _⟩

/-- A read goes through, and gives something unless there is nothing to give or to fill. -/
theorem Splits.read (count : Nat) :
    ∃ bytes after, reader.read count = .ok (bytes, after) ∧ after.Splits data (got ++ bytes) ∧
      bytes.length + after.left ≤ reader.left ∧
      (bytes = [] → count = 0 ∨ reader.left = 0) := by
  rw [EcmSplitReader.read]
  obtain ⟨filled, hfill, hfilled, hpending, hleft⟩ | ⟨hfill, hleft⟩ :=
    hsplits.fill (Nat.lt_succ_self _)
  · rw [hfill]
    have hlen : ((filled.pending.drop filled.pendingPos).take
        (min (filled.pending.length - filled.pendingPos) count)).length =
        min (filled.pending.length - filled.pendingPos) count := by
      rw [List.length_take, List.length_drop]
      omega
    have hrest : got ++ (filled.pending.drop filled.pendingPos).take
        (min (filled.pending.length - filled.pendingPos) count) ++
        filled.pending.drop (filled.pendingPos +
          min (filled.pending.length - filled.pendingPos) count) =
        got ++ filled.pending.drop filled.pendingPos := by
      rw [List.append_assoc, ← List.drop_drop, List.take_append_drop]
    refine ⟨_, _, rfl, ⟨hfilled.remaining_eq, ?_, ?_, ?_⟩, ?_, fun hnil => ?_⟩
    · simp only
      omega
    · simp only
      rw [hrest]
      exact hfilled.valid
    · simp only
      rw [hrest]
      exact hfilled.expands
    · rw [hlen]
      simp only [left] at hleft ⊢
      omega
    · rw [hnil, List.length_nil] at hlen
      omega
  · rw [hfill]
    refine ⟨[], reader, rfl, ?_, ?_, fun _ => .inr hleft⟩
    · rw [List.append_nil]
      exact hsplits
    · rw [List.length_nil]
      omega

/-- Nothing is left exactly when no buffer gets any more bytes. -/
theorem Splits.drained_iff : reader.Drained ↔ reader.left = 0 := by
  constructor
  · intro hdrained
    obtain ⟨after, hread⟩ := hdrained 1
    obtain ⟨bytes, after', hread', -, -, hnil⟩ := hsplits.read 1
    rw [hread', Except.ok.injEq, Prod.mk.injEq] at hread
    exact (hnil hread.1).resolve_left (by decide)
  · intro hleft count
    obtain ⟨bytes, after, hread, -, hle, -⟩ := hsplits.read count
    have hnil : bytes = [] := List.eq_nil_of_length_eq_zero (by omega)
    exact ⟨after, hnil ▸ hread⟩

/-- Reading goes through, whatever the buffers; every buffer with room takes a byte, until
nothing is left. -/
theorem Splits.readAll (counts : List Nat) :
    ∃ bytes after, reader.readAll counts = .ok (bytes, after) ∧
      after.Splits data (got ++ bytes) ∧
      (after.left = 0 ∨ after.left + counts.countP (0 < ·) ≤ reader.left) := by
  induction counts generalizing reader got with
  | nil =>
    refine ⟨[], reader, rfl, ?_, .inr (Nat.le_refl _)⟩
    rw [List.append_nil]
    exact hsplits
  | cons count counts ih =>
    obtain ⟨first, middle, hfirst, hmiddle, hleft, hnil⟩ := hsplits.read count
    obtain ⟨rest, after, hrest, hafter, hprogress⟩ := ih hmiddle
    refine ⟨first ++ rest, after, ?_, ?_, ?_⟩
    · rw [EcmSplitReader.readAll, hfirst]
      simp only [bind, Except.bind, hrest]
      rfl
    · rw [← List.append_assoc]
      exact hafter
    · rcases hprogress with hdone | hprogress
      · exact .inl hdone
      · rw [List.countP_cons]
        by_cases hcount : count = 0
        · subst hcount
          right
          simp only [Nat.lt_irrefl, decide_false, Bool.false_eq_true, if_false, Nat.add_zero]
          omega
        · by_cases hempty : first = []
          · have hzero := (hnil hempty).resolve_left hcount
            left
            omega
          · have hpositive := List.length_pos_iff.mpr hempty
            right
            split <;> omega

end

end EcmSplitReader

/-! ## The round trip -/

/-- Reading a byte string to its end, in buffers of whatever sizes, gives stripped bytes
that the records partition, and the component recreates the byte string from the two.
More buffers with room than there are bytes read it to its end. -/
theorem split_recreates (data : Bytes) (sizes : List Nat) :
    ∃ stripped reader,
      (EcmSplitReader.new data data.length).readAll sizes = .ok (stripped, reader) ∧
      (data.length < sizes.countP (0 < ·) → reader.Drained) ∧
      (reader.Drained → ValidLayout reader.records stripped ∧
        ((encodeLayout reader.records).length ≤ MAX_LAYOUT →
          recreate (encodeLayout reader.records) stripped = some data)) := by
  have hstart := EcmSplitReader.splits_new data
  obtain ⟨stripped, reader, hread, hsplits, hprogress⟩ := hstart.readAll sizes
  rw [List.nil_append] at hsplits
  refine ⟨stripped, reader, hread, fun henough => ?_, fun hdrained => ?_⟩
  · rw [hsplits.drained_iff]
    have hleft : (EcmSplitReader.new data data.length).left = data.length := by
      simp [EcmSplitReader.left, EcmSplitReader.new]
    omega
  · have hleft := hsplits.drained_iff.mp hdrained
    have hnothing : reader.pending.drop reader.pendingPos = [] := by
      apply List.drop_eq_nil_of_le
      rw [EcmSplitReader.left] at hleft
      omega
    have hsrc : reader.src = [] := by
      apply List.eq_nil_of_length_eq_zero
      rw [← hsplits.remaining_eq]
      rw [EcmSplitReader.left] at hleft
      omega
    have hvalid := hsplits.valid
    have hexpands := hsplits.expands
    rw [hnothing, List.append_nil] at hvalid hexpands
    rw [hsrc, List.append_nil] at hexpands
    refine ⟨hvalid, fun hlimit => ?_⟩
    rw [recreate_eq hvalid hlimit, hexpands]

end Datboi.Ecm
