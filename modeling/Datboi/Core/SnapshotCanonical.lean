import Datboi.Core.Snapshot

/-!
# One encoding for each batch and snapshot

The rows, the batches, the payload and the envelope are each read exactly: the decoder accepts
what the encoder writes and nothing else.
-/

namespace Datboi

open Cbor (Value)
open Decoding
open Fields (optEntry Inverts)

namespace Snapshot

/-! ## Rows -/

def RowFields.written (fields : RowFields) : List (UInt64 × Value) :=
  optEntry rowkeyBlake3 (fields.blake3.map fun hash => .bytes hash.toBytes) ++
    optEntry rowkeySize (fields.size.map .uint) ++
    optEntry rowkeyCrc32 (fields.crc32.map fun crc32 => .bytes crc32.toList) ++
    optEntry rowkeyMd5 (fields.md5.map fun md5 => .bytes md5.toList) ++
    optEntry rowkeySha1 (fields.sha1.map fun sha1 => .bytes sha1.toList) ++
    optEntry rowkeySha256 (fields.sha256.map fun sha256 => .bytes sha256.toList)

theorem rowField_written : Appends rowField RowFields.written := by
  intro fields key v next _ habove hstep
  simp only [RowFields.written, List.forall_mem_append, optEntry_below, Option.map_eq_none_iff]
    at habove ⊢
  unfold rowField at hstep
  -- Each branch sets the field of its key, and the fields after it are still unset.
  repeat' split at hstep
  case isFalse => cases hstep
  all_goals
    obtain ⟨_, hv, hnext⟩ := bind_eq_ok.mp hstep
    cases hnext
    simp_all [rowkeyBlake3, rowkeySize, rowkeyCrc32, rowkeyMd5, rowkeySha1, rowkeySha256]

theorem rowFromValue_inverts : Inverts rowFromValue rowToValue IsCanonical fun _ => True where
  sound := by
    intro v row hcanonical hdecode
    simp only [rowFromValue, bind_eq_ok, asMap_eq_ok, required_eq_ok] at hdecode
    obtain ⟨entries, rfl, fields, hrun, blake3, hblake3, size, hsize, crc32, hcrc32, md5, hmd5, sha1,
      hsha1, sha256, hsha256, hrow⟩ := hdecode
    cases hrow
    have hwritten := written_eq rfl rowField_written hcanonical hrun
    rw [← hwritten, RowFields.written, hblake3, hsize, hcrc32, hmd5, hsha1, hsha256]
    exact ⟨trivial, rfl⟩
  complete := by
    rintro ⟨size, crc32, md5, sha1, sha256, blake3⟩ -
    simp [rowFromValue, rowToValue, rowField, asMap, asUint, required, rowkeyBlake3, rowkeySize,
      rowkeyCrc32, rowkeyMd5, rowkeySha1, rowkeySha256]

def AnalysisFields.written (fields : AnalysisFields) : List (UInt64 × Value) :=
  optEntry anrowBlob (fields.blob.map fun hash => .bytes hash.toBytes) ++
    optEntry anrowAnalyzer (fields.analyzer.map fun hash => .bytes hash.toBytes) ++
    optEntry anrowOutcome (fields.outcome.map fun positive => .uint (if positive then 1 else 0)) ++
    optEntry anrowDetail (fields.detail.map .text)

theorem analysisRowField_written : Appends analysisRowField AnalysisFields.written := by
  intro fields key v next _ habove hstep
  simp only [AnalysisFields.written, List.forall_mem_append, optEntry_below, Option.map_eq_none_iff]
    at habove ⊢
  unfold analysisRowField at hstep
  repeat' split at hstep
  case isFalse => cases hstep
  all_goals
    obtain ⟨_, hv, hnext⟩ := bind_eq_ok.mp hstep
    repeat' split at hnext
    all_goals
      cases hnext
      try simp_all [anrowBlob, anrowAnalyzer, anrowOutcome, anrowDetail]

theorem analysisRowField_detail (fields : AnalysisFields) (entry : UInt64 × Value)
    (next : AnalysisFields) (_ : IsCanonical entry.2) (hdetail : fields.detail ≠ some "")
    (hstep : analysisRowField fields entry = .ok next) : next.detail ≠ some "" := by
  unfold analysisRowField at hstep
  repeat' split at hstep
  case isFalse => cases hstep
  all_goals
    obtain ⟨_, hv, hnext⟩ := bind_eq_ok.mp hstep
    repeat' split at hnext
    all_goals
      cases hnext
      try simp_all

theorem analysisRowFromValue_inverts :
    Inverts analysisRowFromValue analysisRowToValue IsCanonical fun row => row.detail ≠ some "" where
  sound := by
    intro v row hcanonical hdecode
    simp only [analysisRowFromValue, bind_eq_ok, asMap_eq_ok, required_eq_ok] at hdecode
    obtain ⟨entries, rfl, fields, hrun, blob, hblob, analyzer, hanalyzer, outcome, houtcome, hrow⟩ :=
      hdecode
    cases hrow
    have hwritten := written_eq rfl analysisRowField_written hcanonical hrun
    refine ⟨Fields.foldlM_preserves analysisRowField_detail hcanonical.of_map.2 (by simp) hrun, ?_⟩
    rw [← hwritten, AnalysisFields.written, hblob, hanalyzer, houtcome]
    rfl
  complete := by
    rintro ⟨blob, analyzer, positive, detail⟩ hdetail
    cases positive <;> cases detail <;>
      simp_all [analysisRowFromValue, analysisRowToValue, analysisRowField, asMap, asUint, asText,
        required, anrowBlob, anrowAnalyzer, anrowOutcome, anrowDetail]

/-! ## Batches -/

section Items

variable {α : Type} {parse : Value → Except SnapshotError α} {encode : α → Value}
  {valid : α → Prop}

theorem itemsFromValue_inverts (message : String)
    (hinverts : Inverts parse encode IsCanonical valid) :
    Inverts (itemsFromValue message parse) (fun items => .array (items.map encode)) IsCanonical
      fun items => ∀ item ∈ items, valid item where
  sound := by
    intro v items hcanonical hdecode
    cases v with
    | array values =>
      obtain ⟨hvalid, hitems⟩ := hinverts.mapM.sound hcanonical.of_array hdecode
      exact ⟨hvalid, congrArg Value.array hitems⟩
    | uint n => cases hdecode
    | bytes b => cases hdecode
    | text t => cases hdecode
    | map entries => cases hdecode
  complete := fun hvalid => hinverts.mapM.complete hvalid

variable {κ : Type} [LinearOrder κ] {key : α → κ}

theorem batchField_eq_ok {unknown : String} (hinverts : Inverts parse encode IsCanonical valid)
    {before after : Option (List α)} {entry : UInt64 × Value} (hcanonical : IsCanonical entry.2)
    (hstep : batchField unknown parse before entry = .ok after) :
    ∃ rows, after = some rows ∧ (∀ row ∈ rows, valid row) ∧
      entry = (batchkeyRows, .array (rows.map encode)) := by
  unfold batchField at hstep
  split at hstep
  · rename_i hkey
    obtain ⟨rows, hitems, hnext⟩ := bind_eq_ok.mp hstep
    cases hnext
    obtain ⟨hvalid, hv⟩ := (itemsFromValue_inverts _ hinverts).sound hcanonical hitems
    exact ⟨rows, rfl, hvalid, Prod.ext hkey hv⟩
  · cases hstep

/-- A batch is read exactly when its rows are, and only in ascending order. -/
theorem batchFromValue_inverts {unknown disorder : String}
    (hinverts : Inverts parse encode IsCanonical valid) :
    Inverts (batchFromValue key unknown disorder parse) (batchToValue encode) IsCanonical
      fun rows => (∀ row ∈ rows, valid row) ∧ Rows.Ascending key rows where
  sound := by
    intro v rows hcanonical hdecode
    simp only [batchFromValue, bind_eq_ok, asMap_eq_ok, required_eq_ok] at hdecode
    obtain ⟨entries, rfl, found, hrun, _, rfl, hordered⟩ := hdecode
    split at hordered
    · cases hordered
    rename_i hwindows
    cases hordered
    rw [Bool.not_eq_true, Rows.windowsAny_le_eq_false] at hwindows
    obtain ⟨hascending, hinner⟩ := hcanonical.of_map
    cases entries with
    | nil => cases hrun
    | cons first rest =>
      rw [List.forall_mem_cons] at hinner
      obtain ⟨next, hfirst, hrest⟩ := Fields.foldlM_cons_eq_ok.mp hrun
      obtain ⟨rows, rfl, hvalid, rfl⟩ := batchField_eq_ok hinverts hinner.1 hfirst
      cases rest with
      | nil =>
        cases hrest
        exact ⟨⟨hvalid, hwindows⟩, rfl⟩
      | cons second rest =>
        -- A second entry would have the same key.
        obtain ⟨_, hsecond, _⟩ := Fields.foldlM_cons_eq_ok.mp hrest
        rw [List.forall_mem_cons] at hinner
        obtain ⟨_, _, _, rfl⟩ := batchField_eq_ok hinverts hinner.2.1 hsecond
        exact absurd (hascending.lt_of_mem List.mem_cons_self) (lt_irrefl _)
  complete := by
    rintro rows ⟨hvalid, hascending⟩
    have hitems := (itemsFromValue_inverts "rows must be an array" hinverts).complete hvalid
    rw [← Rows.windowsAny_le_eq_false] at hascending
    simp [batchFromValue, batchToValue, batchField, asMap, required, hitems, hascending]

end Items

theorem batchToValue_shaped {α : Type} {encode : α → Value} {levels : Nat} (rows : List α)
    (hrows : ∀ row, Value.Shaped levels (encode row)) :
    Value.Shaped (levels + 2) (batchToValue encode rows) := by
  simp_all [batchToValue, Rows.Ascending]

theorem rowToValue_shaped (levels : Nat) (row : AliasTuple) :
    Value.Shaped (levels + 2) (rowToValue row) := by
  simp [rowToValue, Rows.Ascending, rowkeyBlake3, rowkeySize, rowkeyCrc32, rowkeyMd5, rowkeySha1,
    rowkeySha256]

theorem analysisRowToValue_shaped (levels : Nat) (row : AnalysisRow) :
    Value.Shaped (levels + 2) (analysisRowToValue row) := by
  obtain ⟨blob, analyzer, positive, detail⟩ := row
  cases detail <;>
    simp [analysisRowToValue, Rows.Ascending, anrowBlob, anrowAnalyzer, anrowOutcome, anrowDetail]

theorem aliasesHeader_eq : aliasesHeader = Object.header .aliasBatch aliasesVersion := by decide

theorem analysisHeader_eq : analysisHeader = Object.header .analysisBatch analysisVersion := by
  decide

theorem statesnapHeader_eq : statesnapHeader = Object.header .stateSnapshot statesnapVersion := by
  decide

end Snapshot

open Snapshot

variable {bytes : Bytes} {verify : PublicKey → Bytes → Signature → Bool}

/-- The alias batches that decode are the encodings of ascending rows. -/
theorem AliasBatch.decode_eq_ok {batch : AliasBatch} :
    AliasBatch.decode bytes = .ok batch ↔
      Rows.Ascending AliasTuple.key batch.rows ∧
        Value.Canonical (Cbor.maxDepth + 1) (batchToValue rowToValue batch.rows) ∧
        bytes = aliasesHeader ++ (batchToValue rowToValue batch.rows).encoded := by
  simp only [AliasBatch.decode, bind_eq_ok, expectObject_eq_ok (show aliasesVersion < 10 by decide),
    decodeBody_eq_ok, ← aliasesHeader_eq]
  constructor
  · rintro ⟨body, rfl, v, ⟨hcanonical, rfl⟩, rows, hrows, ⟨⟩⟩
    obtain ⟨⟨_, hascending⟩, rfl⟩ :=
      (batchFromValue_inverts rowFromValue_inverts).sound ⟨_, hcanonical⟩ hrows
    exact ⟨hascending, hcanonical, rfl⟩
  · rintro ⟨hascending, hcanonical, rfl⟩
    exact ⟨_, rfl, _, ⟨hcanonical, rfl⟩, batch.rows,
      (batchFromValue_inverts rowFromValue_inverts).complete ⟨fun _ _ => trivial, hascending⟩, rfl⟩

theorem AliasBatch.encode_eq_ok {batch : AliasBatch} {levels : Nat}
    (hdistinct : (batch.rows.map AliasTuple.key).Nodup)
    (hshaped : Value.Shaped levels
      (batchToValue rowToValue (Rows.sortBy AliasTuple.key batch.rows))) :
    batch.encode = .ok (aliasesHeader ++
      (batchToValue rowToValue (Rows.sortBy AliasTuple.key batch.rows)).encoded) := by
  rw [← Rows.windowsAny_sortBy_eq_false] at hdistinct
  simp only [AliasBatch.encode, hdistinct, encodeBody_eq_ok hshaped]
  rfl

/-- The analysis batches that decode are the encodings of ascending rows without empty
details. -/
theorem AnalysisBatch.decode_eq_ok {batch : AnalysisBatch} :
    AnalysisBatch.decode bytes = .ok batch ↔
      ((∀ row ∈ batch.rows, row.detail ≠ some "") ∧ Rows.Ascending AnalysisRow.key batch.rows) ∧
        Value.Canonical (Cbor.maxDepth + 1) (batchToValue analysisRowToValue batch.rows) ∧
        bytes = analysisHeader ++ (batchToValue analysisRowToValue batch.rows).encoded := by
  simp only [AnalysisBatch.decode, bind_eq_ok,
    expectObject_eq_ok (show analysisVersion < 10 by decide), decodeBody_eq_ok, ← analysisHeader_eq]
  constructor
  · rintro ⟨body, rfl, v, ⟨hcanonical, rfl⟩, rows, hrows, ⟨⟩⟩
    obtain ⟨hvalid, rfl⟩ :=
      (batchFromValue_inverts analysisRowFromValue_inverts).sound ⟨_, hcanonical⟩ hrows
    exact ⟨hvalid, hcanonical, rfl⟩
  · rintro ⟨hvalid, hcanonical, rfl⟩
    exact ⟨_, rfl, _, ⟨hcanonical, rfl⟩, batch.rows,
      (batchFromValue_inverts analysisRowFromValue_inverts).complete hvalid, rfl⟩

theorem AnalysisBatch.encode_eq_ok {batch : AnalysisBatch} {levels : Nat}
    (hdistinct : (batch.rows.map AnalysisRow.key).Nodup)
    (hdetails : ∀ row ∈ batch.rows, row.detail ≠ some "")
    (hshaped : Value.Shaped levels
      (batchToValue analysisRowToValue (Rows.sortBy AnalysisRow.key batch.rows))) :
    batch.encode = .ok (analysisHeader ++
      (batchToValue analysisRowToValue (Rows.sortBy AnalysisRow.key batch.rows)).encoded) := by
  have hscan : ¬ (Rows.sortBy AnalysisRow.key batch.rows).any fun row => row.detail = some "" := by
    simpa using hdetails
  rw [← Rows.windowsAny_sortBy_eq_false] at hdistinct
  simp only [AnalysisBatch.encode, hdistinct, hscan, encodeBody_eq_ok hshaped]
  rfl

namespace Snapshot

/-! ## The payload -/

theorem asHash_inverts : Inverts (asHash SnapshotError.invalid) hashToValue IsCanonical fun _ => True where
  sound _ hdecode := ⟨trivial, asHash_eq_ok.mp hdecode⟩
  complete _ := asHash_eq_ok.mpr rfl

def SourceFields.written (fields : SourceFields) : List (UInt64 × Value) :=
  optEntry srckeyProvider (fields.provider.map .text) ++
    optEntry srckeySystem (fields.system.map .text) ++
    optEntry srckeyDatBlob (fields.datBlob.map fun hash => .bytes hash.toBytes) ++
    optEntry srckeyImportedAt (fields.importedAt.map .uint)

theorem sourceField_written : Appends sourceField SourceFields.written := by
  intro fields key v next _ habove hstep
  simp only [SourceFields.written, List.forall_mem_append, optEntry_below, Option.map_eq_none_iff]
    at habove ⊢
  unfold sourceField at hstep
  repeat' split at hstep
  case isFalse => cases hstep
  all_goals
    obtain ⟨_, hv, hnext⟩ := bind_eq_ok.mp hstep
    cases hnext
    simp_all [srckeyProvider, srckeySystem, srckeyDatBlob, srckeyImportedAt]

theorem sourceFromValue_inverts :
    Inverts sourceFromValue sourceToValue IsCanonical fun _ => True where
  sound := by
    intro v source hcanonical hdecode
    simp only [sourceFromValue, bind_eq_ok, asMap_eq_ok, required_eq_ok] at hdecode
    obtain ⟨entries, rfl, fields, hrun, provider, hprovider, system, hsystem, datBlob, hdatBlob,
      importedAt, himportedAt, hsource⟩ := hdecode
    cases hsource
    have hwritten := written_eq rfl sourceField_written hcanonical hrun
    rw [← hwritten, SourceFields.written, hprovider, hsystem, hdatBlob, himportedAt]
    exact ⟨trivial, rfl⟩
  complete := by
    rintro ⟨provider, system, datBlob, importedAt⟩ -
    simp [sourceFromValue, sourceToValue, sourceField, asMap, asText, asUint, required,
      srckeyProvider, srckeySystem, srckeyDatBlob, srckeyImportedAt]

def TagFields.written (fields : TagFields) : List (UInt64 × Value) :=
  optEntry tagkeyName (fields.name.map .text) ++
    optEntry tagkeyHash (fields.hash.map fun hash => .bytes hash.toBytes)

theorem tagField_written : Appends tagField TagFields.written := by
  intro fields key v next _ habove hstep
  simp only [TagFields.written, List.forall_mem_append, optEntry_below, Option.map_eq_none_iff]
    at habove ⊢
  unfold tagField at hstep
  split at hstep
  · cases v with
    | text name =>
      cases hstep
      simp_all [tagkeyName, tagkeyHash]
    | uint n => cases hstep
    | bytes b => cases hstep
    | array items => cases hstep
    | map entries => cases hstep
  split at hstep
  · obtain ⟨hash, hv, hnext⟩ := bind_eq_ok.mp hstep
    cases hnext
    simp_all [tagkeyName, tagkeyHash]
  · cases hstep

theorem tagFromValue_inverts : Inverts tagFromValue tagToValue IsCanonical fun _ => True where
  sound := by
    intro v tag hcanonical hdecode
    simp only [tagFromValue, bind_eq_ok, asMap_eq_ok, required_eq_ok] at hdecode
    obtain ⟨entries, rfl, fields, hrun, name, hname, hash, hhash, htag⟩ := hdecode
    cases htag
    have hwritten := written_eq rfl tagField_written hcanonical hrun
    rw [← hwritten, TagFields.written, hname, hhash]
    exact ⟨trivial, rfl⟩
  complete := by
    rintro ⟨name, hash⟩ -
    simp [tagFromValue, tagToValue, tagField, asMap, required, tagkeyName, tagkeyHash]

def ConfigFields.written (fields : ConfigFields) : List (UInt64 × Value) :=
  optEntry cfgkeyKey (fields.key.map .text) ++ optEntry cfgkeyValue (fields.value.map .bytes)

theorem configField_written : Appends configField ConfigFields.written := by
  intro fields key v next _ habove hstep
  simp only [ConfigFields.written, List.forall_mem_append, optEntry_below, Option.map_eq_none_iff]
    at habove ⊢
  unfold configField at hstep
  split at hstep
  · cases v with
    | text name =>
      cases hstep
      simp_all [cfgkeyKey, cfgkeyValue]
    | uint n => cases hstep
    | bytes b => cases hstep
    | array items => cases hstep
    | map entries => cases hstep
  split at hstep
  · cases v with
    | bytes value =>
      cases hstep
      simp_all [cfgkeyKey, cfgkeyValue]
    | uint n => cases hstep
    | text t => cases hstep
    | array items => cases hstep
    | map entries => cases hstep
  · cases hstep

theorem configFromValue_inverts :
    Inverts configFromValue configToValue IsCanonical fun _ => True where
  sound := by
    intro v entry hcanonical hdecode
    simp only [configFromValue, bind_eq_ok, asMap_eq_ok, required_eq_ok] at hdecode
    obtain ⟨entries, rfl, fields, hrun, key, hkey, value, hvalue, hentry⟩ := hdecode
    cases hentry
    have hwritten := written_eq rfl configField_written hcanonical hrun
    rw [← hwritten, ConfigFields.written, hkey, hvalue]
    exact ⟨trivial, rfl⟩
  complete := by
    rintro ⟨key, value⟩ -
    simp [configFromValue, configToValue, configField, asMap, required, cfgkeyKey, cfgkeyValue]

theorem filledFromValue_inverts {α : Type} {parse : Value → Except SnapshotError α}
    {encode : α → Value} {valid : α → Prop} (kind empty : String)
    (hinverts : Inverts parse encode IsCanonical valid) :
    Inverts (filledFromValue kind empty parse) (fun items => .array (items.map encode)) IsCanonical
      fun items => items ≠ [] ∧ ∀ item ∈ items, valid item where
  sound := by
    intro v items hcanonical hdecode
    cases v with
    | array values =>
      simp only [filledFromValue] at hdecode
      split at hdecode
      · cases hdecode
      rename_i hfilled
      obtain ⟨hvalid, hitems⟩ := hinverts.mapM.sound hcanonical.of_array hdecode
      refine ⟨⟨?_, hvalid⟩, congrArg Value.array hitems⟩
      rintro rfl
      exact hfilled hitems
    | uint n => cases hdecode
    | bytes b => cases hdecode
    | text t => cases hdecode
    | map entries => cases hdecode
  complete := by
    rintro items ⟨hfilled, hvalid⟩
    simp only [filledFromValue]
    rw [if_neg (by simpa using hfilled)]
    exact hinverts.mapM.complete hvalid

def PayloadFields.written (fields : PayloadFields) : List (UInt64 × Value) :=
  optEntry paykeySequence (fields.sequence.map .uint) ++
    optEntry paykeyCreatedAt (fields.createdAt.map .uint) ++
    optEntry paykeySources (fields.sources.map fun sources => .array (sources.map sourceToValue)) ++
    optEntry paykeyAliasFanout (fields.fanout.map .uint) ++
    optEntry paykeyAliasBatches (fields.batches.map fun batches => .array (batches.map hashToValue)) ++
    optEntry paykeyAnalysisFanout (fields.analysisFanout.map .uint) ++
    optEntry paykeyAnalysisBatches
      (fields.analysisBatches.map fun batches => .array (batches.map hashToValue)) ++
    optEntry paykeyTags (fields.tags.map fun tags => .array (tags.map tagToValue)) ++
    optEntry paykeyConfig (fields.config.map fun config => .array (config.map configToValue))

theorem payloadField_written : Appends payloadField PayloadFields.written := by
  intro fields key v next hcanonical habove hstep
  simp only [PayloadFields.written, List.forall_mem_append, optEntry_below, Option.map_eq_none_iff]
    at habove ⊢
  unfold payloadField at hstep
  split at hstep
  · obtain ⟨sequence, hv, hnext⟩ := bind_eq_ok.mp hstep
    cases hnext
    simp_all [paykeySequence, paykeyCreatedAt, paykeySources, paykeyAliasFanout,
      paykeyAliasBatches, paykeyAnalysisFanout, paykeyAnalysisBatches, paykeyTags, paykeyConfig]
  split at hstep
  · obtain ⟨createdAt, hv, hnext⟩ := bind_eq_ok.mp hstep
    cases hnext
    simp_all [paykeySequence, paykeyCreatedAt, paykeySources, paykeyAliasFanout,
      paykeyAliasBatches, paykeyAnalysisFanout, paykeyAnalysisBatches, paykeyTags, paykeyConfig]
  split at hstep
  · obtain ⟨sources, hv, hnext⟩ := bind_eq_ok.mp hstep
    cases hnext
    have hv := ((itemsFromValue_inverts _ sourceFromValue_inverts).sound hcanonical hv).2
    simp_all [paykeySequence, paykeyCreatedAt, paykeySources, paykeyAliasFanout,
      paykeyAliasBatches, paykeyAnalysisFanout, paykeyAnalysisBatches, paykeyTags, paykeyConfig]
  split at hstep
  · obtain ⟨fanout, hv, hnext⟩ := bind_eq_ok.mp hstep
    cases hnext
    simp_all [paykeySequence, paykeyCreatedAt, paykeySources, paykeyAliasFanout,
      paykeyAliasBatches, paykeyAnalysisFanout, paykeyAnalysisBatches, paykeyTags, paykeyConfig]
  split at hstep
  · obtain ⟨batches, hv, hnext⟩ := bind_eq_ok.mp hstep
    cases hnext
    have hv := ((itemsFromValue_inverts _ asHash_inverts).sound hcanonical hv).2
    simp_all [paykeySequence, paykeyCreatedAt, paykeySources, paykeyAliasFanout,
      paykeyAliasBatches, paykeyAnalysisFanout, paykeyAnalysisBatches, paykeyTags, paykeyConfig]
  split at hstep
  · obtain ⟨parsed, hv, hnext⟩ := bind_eq_ok.mp hstep
    split at hnext
    · cases hnext
    cases hnext
    simp_all [paykeySequence, paykeyCreatedAt, paykeySources, paykeyAliasFanout,
      paykeyAliasBatches, paykeyAnalysisFanout, paykeyAnalysisBatches, paykeyTags, paykeyConfig]
  split at hstep
  · obtain ⟨batches, hv, hnext⟩ := bind_eq_ok.mp hstep
    cases hnext
    have hv := ((itemsFromValue_inverts _ asHash_inverts).sound hcanonical hv).2
    simp_all [paykeySequence, paykeyCreatedAt, paykeySources, paykeyAliasFanout,
      paykeyAliasBatches, paykeyAnalysisFanout, paykeyAnalysisBatches, paykeyTags, paykeyConfig]
  split at hstep
  · obtain ⟨tags, hv, hnext⟩ := bind_eq_ok.mp hstep
    cases hnext
    have hv := ((filledFromValue_inverts _ _ tagFromValue_inverts).sound hcanonical hv).2
    simp_all [paykeySequence, paykeyCreatedAt, paykeySources, paykeyAliasFanout,
      paykeyAliasBatches, paykeyAnalysisFanout, paykeyAnalysisBatches, paykeyTags, paykeyConfig]
  split at hstep
  · obtain ⟨config, hv, hnext⟩ := bind_eq_ok.mp hstep
    cases hnext
    have hv := ((filledFromValue_inverts _ _ configFromValue_inverts).sound hcanonical hv).2
    simp_all [paykeySequence, paykeyCreatedAt, paykeySources, paykeyAliasFanout,
      paykeyAliasBatches, paykeyAnalysisFanout, paykeyAnalysisBatches, paykeyTags, paykeyConfig]
  · cases hstep

/-- A field that is left out when it would be zero or empty is not read as such. -/
def PayloadFields.Valid (fields : PayloadFields) : Prop :=
  (∀ n ∈ fields.analysisFanout, n ≠ 0) ∧ (∀ tags ∈ fields.tags, tags ≠ []) ∧
    ∀ config ∈ fields.config, config ≠ []

theorem payloadField_valid (fields : PayloadFields) (entry : UInt64 × Value) (next : PayloadFields)
    (hcanonical : IsCanonical entry.2) (hvalid : fields.Valid)
    (hstep : payloadField fields entry = .ok next) : next.Valid := by
  obtain ⟨hfanout, htags, hconfig⟩ := hvalid
  unfold payloadField at hstep
  iterate 5
    split at hstep
    · obtain ⟨_, _, hnext⟩ := bind_eq_ok.mp hstep
      cases hnext
      exact ⟨hfanout, htags, hconfig⟩
  split at hstep
  · obtain ⟨parsed, _, hnext⟩ := bind_eq_ok.mp hstep
    split at hnext
    · cases hnext
    rename_i hnonzero
    cases hnext
    refine ⟨?_, htags, hconfig⟩
    rintro _ ⟨⟩
    exact hnonzero
  split at hstep
  · obtain ⟨batches, _, hnext⟩ := bind_eq_ok.mp hstep
    cases hnext
    exact ⟨hfanout, htags, hconfig⟩
  split at hstep
  · obtain ⟨tags, hv, hnext⟩ := bind_eq_ok.mp hstep
    cases hnext
    refine ⟨hfanout, ?_, hconfig⟩
    rintro _ ⟨⟩
    exact ((filledFromValue_inverts _ _ tagFromValue_inverts).sound hcanonical hv).1.1
  split at hstep
  · obtain ⟨config, hv, hnext⟩ := bind_eq_ok.mp hstep
    cases hnext
    refine ⟨hfanout, htags, ?_⟩
    rintro _ ⟨⟩
    exact ((filledFromValue_inverts _ _ configFromValue_inverts).sound hcanonical hv).1.1
  · cases hstep

/-- A payload that the wire can hold: a zero analysis fanout comes without batches. -/
def PayloadWire (payload : SnapshotPayload) : Prop :=
  payload.aliasFanout < 2 ^ 64 ∧ payload.analysisFanout < 2 ^ 64 ∧
    (payload.analysisFanout = 0 → payload.analysisBatches = [])

theorem optEntry_listField {α : Type} {toValue : α → Value} {field : Option (List α)} {key : UInt64}
    (hfilled : ∀ items ∈ field, items ≠ []) :
    optEntry key (listField toValue (field.getD [])) =
      optEntry key (field.map fun items => .array (items.map toValue)) := by
  cases field with
  | none => rfl
  | some items => simp [listField, hfilled items rfl]

/-- Payloads have one spelling. -/
theorem payloadFromValue_inverts :
    Inverts payloadFromValue payloadToValue IsCanonical PayloadWire where
  sound := by
    intro v payload hcanonical hdecode
    simp only [payloadFromValue, bind_eq_ok, asMap_eq_ok] at hdecode
    obtain ⟨entries, rfl, fields, hrun, hdecode⟩ := hdecode
    split at hdecode
    · cases hdecode
    rename_i htogether
    rw [ne_eq, not_not] at htogether
    simp only [bind_eq_ok, required_eq_ok] at hdecode
    obtain ⟨sequence, hsequence, createdAt, hcreatedAt, sources, hsources, fanout, hfanout, batches,
      hbatches, hpayload⟩ := hdecode
    cases hpayload
    have hwritten := written_eq rfl payloadField_written hcanonical hrun
    have hvalid : fields.Valid := Fields.foldlM_preserves payloadField_valid hcanonical.of_map.2
      ⟨by simp, by simp, by simp⟩ hrun
    obtain ⟨hnonzero, htags, hconfig⟩ := hvalid
    rw [← hwritten]
    simp only [PayloadFields.written, payloadToValue, hsequence, hcreatedAt, hsources, hfanout,
      hbatches, optEntry_listField htags, optEntry_listField hconfig, UInt64.ofNat_toNat]
    cases hanalysis : fields.analysisFanout with
    | none =>
      rw [hanalysis, Option.isSome_none, eq_comm, Option.isSome_eq_false_iff,
        Option.isNone_iff_eq_none] at htogether
      refine ⟨⟨fanout.toNat_lt, by simp, by simp [htogether]⟩, ?_⟩
      simp [htogether]
    | some n =>
      rw [hanalysis, Option.isSome_some, eq_comm, Option.isSome_iff_exists] at htogether
      obtain ⟨analysisBatches, hanalysisBatches⟩ := htogether
      have hpos : 0 < n.toNat := by
        have hne : n.toNat ≠ 0 := fun heq => hnonzero n hanalysis (UInt64.toNat_inj.mp heq)
        omega
      refine ⟨⟨fanout.toNat_lt, n.toNat_lt, ?_⟩, ?_⟩
      · intro hzero
        simp at hzero
        omega
      · simp [hanalysisBatches, hpos]
  complete := by
    rintro ⟨sequence, createdAt, sources, aliasFanout, aliasBatches, analysisFanout,
      analysisBatches, tags, config⟩ ⟨halias, hanalysis, hbatches⟩
    simp only at halias hanalysis hbatches
    have hsources := (itemsFromValue_inverts "sources must be an array"
      sourceFromValue_inverts).complete (b := sources) fun _ _ => trivial
    have haliasBatches := (itemsFromValue_inverts "alias batches must be an array"
      asHash_inverts).complete (b := aliasBatches) fun _ _ => trivial
    have hanalysisBatches := (itemsFromValue_inverts "analysis batches must be an array"
      asHash_inverts).complete (b := analysisBatches) fun _ _ => trivial
    have hfanout := Cbor.toNat_ofNat_length halias
    have hanalysisFanout := Cbor.toNat_ofNat_length hanalysis
    have htags : tags ≠ [] → filledFromValue "tags must be an array" "tags present but empty"
        tagFromValue (.array (tags.map tagToValue)) = .ok tags := fun hfilled =>
      (filledFromValue_inverts _ _ tagFromValue_inverts).complete ⟨hfilled, fun _ _ => trivial⟩
    have hconfig : config ≠ [] → filledFromValue "config must be an array"
        "config present but empty" configFromValue (.array (config.map configToValue)) =
          .ok config := fun hfilled =>
      (filledFromValue_inverts _ _ configFromValue_inverts).complete ⟨hfilled, fun _ _ => trivial⟩
    have hpresent : 0 < analysisFanout → UInt64.ofNat analysisFanout ≠ 0 := by
      intro hpos heq
      rw [heq, UInt64.toNat_zero] at hanalysisFanout
      omega
    by_cases hpos : 0 < analysisFanout <;> by_cases htagsEmpty : tags = [] <;>
      by_cases hconfigEmpty : config = [] <;>
      simp_all [payloadFromValue, payloadToValue, payloadField, asMap, asUint, required, listField,
        paykeySequence, paykeyCreatedAt, paykeySources, paykeyAliasFanout, paykeyAliasBatches,
        paykeyAnalysisFanout, paykeyAnalysisBatches, paykeyTags, paykeyConfig]

/-! ## The envelope -/

def EnvelopeFields.written (fields : EnvelopeFields) : List (UInt64 × Value) :=
  optEntry envkeyPayload (fields.payload.map .bytes) ++
    optEntry envkeyPublicKey (fields.publicKey.map fun publicKey => .bytes publicKey.toList) ++
    optEntry envkeySignature (fields.signature.map fun signature => .bytes signature.toList)

theorem envelopeField_written : Appends envelopeField EnvelopeFields.written := by
  intro fields key v next _ habove hstep
  simp only [EnvelopeFields.written, List.forall_mem_append, optEntry_below, Option.map_eq_none_iff]
    at habove ⊢
  unfold envelopeField at hstep
  repeat' split at hstep
  case isFalse => cases hstep
  all_goals
    obtain ⟨_, hv, hnext⟩ := bind_eq_ok.mp hstep
    cases hnext
    simp_all [envkeyPayload, envkeyPublicKey, envkeySignature]

theorem envelopeFromValue_inverts :
    Inverts envelopeFromValue (fun r => envelopeToValue r.1 r.2.1 r.2.2) IsCanonical
      fun _ => True where
  sound := by
    intro v envelope hcanonical hdecode
    simp only [envelopeFromValue, bind_eq_ok, asMap_eq_ok, required_eq_ok] at hdecode
    obtain ⟨entries, rfl, fields, hrun, payload, hpayload, publicKey, hpublicKey, signature,
      hsignature, henvelope⟩ := hdecode
    cases henvelope
    have hwritten := written_eq rfl envelopeField_written hcanonical hrun
    rw [← hwritten, EnvelopeFields.written, hpayload, hpublicKey, hsignature]
    exact ⟨trivial, rfl⟩
  complete := by
    rintro ⟨payload, publicKey, signature⟩ -
    simp [envelopeFromValue, envelopeToValue, envelopeField, asMap, asBytes, required,
      envkeyPayload, envkeyPublicKey, envkeySignature]

variable {payload : SnapshotPayload}

theorem payloadFromBytes_eq_ok {bytes : Bytes} :
    payloadFromBytes bytes = .ok payload ↔
      PayloadWire payload ∧ Value.Canonical (Cbor.maxDepth + 1) (payloadToValue payload) ∧
        bytes = (payloadToValue payload).encoded := by
  simp only [payloadFromBytes, bind_eq_ok, decodeBody_eq_ok]
  constructor
  · rintro ⟨v, ⟨hcanonical, rfl⟩, hdecode⟩
    obtain ⟨hwire, rfl⟩ := payloadFromValue_inverts.sound ⟨_, hcanonical⟩ hdecode
    exact ⟨hwire, hcanonical, rfl⟩
  · rintro ⟨hwire, hcanonical, rfl⟩
    exact ⟨_, ⟨hcanonical, rfl⟩, payloadFromValue_inverts.complete hwire⟩

theorem payloadBytes_eq_ok {levels : Nat} (hvalidate : payload.validate = .ok ())
    (hshaped : Value.Shaped levels (payloadToValue payload)) :
    payload.payloadBytes = .ok (payloadToValue payload).encoded := by
  rw [SnapshotPayload.payloadBytes, hvalidate, ok_bind, encodeBody_eq_ok hshaped]

/-- The fanouts of a valid payload are small, and count the batches. -/
theorem payloadWire_of_validate (hvalidate : payload.validate = .ok ()) : PayloadWire payload := by
  unfold SnapshotPayload.validate at hvalidate
  split at hvalidate
  · cases hvalidate
  rename_i halias
  split at hvalidate
  · cases hvalidate
  split at hvalidate
  · cases hvalidate
  rename_i hanalysis
  split at hvalidate
  · cases hvalidate
  rename_i hbatches
  simp only [maxAliasFanout] at halias hanalysis
  refine ⟨by omega, by omega, ?_⟩
  intro hzero
  rw [not_not, hzero] at hbatches
  exact List.length_eq_zero_iff.mp hbatches

end Snapshot

/-- The snapshots that decode are the envelopes of valid payloads under a signature that
verifies. -/
theorem StateSnapshot.decode_eq_ok {snapshot : StateSnapshot} :
    StateSnapshot.decode verify bytes = .ok snapshot ↔
      ∃ signature,
        verify snapshot.publicKey (statesnapHeader ++ (payloadToValue snapshot.payload).encoded)
          signature = true ∧
        snapshot.payload.validate = .ok () ∧
        Value.Canonical (Cbor.maxDepth + 1) (payloadToValue snapshot.payload) ∧
        Value.Canonical (Cbor.maxDepth + 1) (envelopeToValue
          (payloadToValue snapshot.payload).encoded snapshot.publicKey signature) ∧
        bytes = statesnapHeader ++ (envelopeToValue
          (payloadToValue snapshot.payload).encoded snapshot.publicKey signature).encoded := by
  simp only [StateSnapshot.decode, bind_eq_ok,
    expectObject_eq_ok (show statesnapVersion < 10 by decide), decodeBody_eq_ok,
    ← statesnapHeader_eq]
  constructor
  · rintro ⟨body, rfl, v, ⟨hcanonical, rfl⟩, ⟨payload, publicKey, signature⟩, henvelope, hdecode⟩
    obtain ⟨_, rfl⟩ := envelopeFromValue_inverts.sound ⟨_, hcanonical⟩ henvelope
    split at hdecode
    · cases hdecode
    rename_i hverify
    rw [not_not] at hverify
    obtain ⟨decoded, hpayload, hvalid⟩ := bind_eq_ok.mp hdecode
    obtain ⟨⟨⟩, hvalidate, hsnapshot⟩ := bind_eq_ok.mp hvalid
    cases hsnapshot
    obtain ⟨_, hpayloadCanonical, rfl⟩ := payloadFromBytes_eq_ok.mp hpayload
    exact ⟨signature, hverify, hvalidate, hpayloadCanonical, hcanonical, rfl⟩
  · rintro ⟨signature, hverify, hvalidate, hpayloadCanonical, hcanonical, rfl⟩
    have henvelope := envelopeFromValue_inverts.complete
      (b := ((payloadToValue snapshot.payload).encoded, snapshot.publicKey, signature)) trivial
    refine ⟨_, rfl, _, ⟨hcanonical, rfl⟩, _, henvelope, ?_⟩
    rw [if_neg (not_not.mpr hverify)]
    refine bind_eq_ok.mpr ⟨snapshot.payload, payloadFromBytes_eq_ok.mpr
      ⟨payloadWire_of_validate hvalidate, hpayloadCanonical, rfl⟩, ?_⟩
    rw [hvalidate]
    rfl

namespace Snapshot

theorem payloadToValue_shaped (payload : SnapshotPayload) (levels : Nat) :
    Value.Shaped (levels + 4) (payloadToValue payload) := by
  have hsources := @shaped_array_map (levels + 2) _ _ payload.sources fun source =>
    show Value.Shaped _ (sourceToValue source) by
      simp [sourceToValue, Rows.Ascending, srckeyProvider, srckeySystem, srckeyDatBlob,
        srckeyImportedAt]
  have hhashes := fun hashes : List Blake3 => @shaped_array_map (levels + 2) _ _ hashes
    fun hash => show Value.Shaped _ (hashToValue hash) by simp [hashToValue]
  have htags := @shaped_array_map (levels + 2) _ _ payload.tags fun tag =>
    show Value.Shaped _ (tagToValue tag) by
      simp [tagToValue, Rows.Ascending, tagkeyName, tagkeyHash]
  have hconfig := @shaped_array_map (levels + 2) _ _ payload.config fun entry =>
    show Value.Shaped _ (configToValue entry) by
      simp [configToValue, Rows.Ascending, cfgkeyKey, cfgkeyValue]
  by_cases hanalysis : 0 < payload.analysisFanout <;> by_cases hnoTags : payload.tags = [] <;>
    by_cases hnoConfig : payload.config = [] <;>
    simp [payloadToValue, Rows.Ascending, listField, paykeySequence, paykeyCreatedAt,
      paykeySources, paykeyAliasFanout, paykeyAliasBatches, paykeyAnalysisFanout,
      paykeyAnalysisBatches, paykeyTags, paykeyConfig, hsources, hhashes, htags, hconfig,
      hanalysis, hnoTags, hnoConfig, -shaped_array]

theorem envelopeToValue_shaped (payload : Bytes) (publicKey : PublicKey) (signature : Signature)
    (levels : Nat) : Value.Shaped (levels + 2) (envelopeToValue payload publicKey signature) := by
  simp [envelopeToValue, Rows.Ascending, envkeyPayload, envkeyPublicKey, envkeySignature]

end Snapshot

/-! ## The codecs -/

theorem AliasBatch.encode_of_decode {batch : AliasBatch}
    (hdecode : AliasBatch.decode bytes = .ok batch) : batch.encode = .ok bytes := by
  obtain ⟨hascending, hcanonical, rfl⟩ := AliasBatch.decode_eq_ok.mp hdecode
  have hsorted := Rows.sortBy_eq_self hascending
  rw [AliasBatch.encode_eq_ok hascending.nodup (by rw [hsorted]; exact hcanonical.shaped), hsorted]

theorem AliasBatch.decode_of_encode {batch : AliasBatch}
    (hdistinct : (batch.rows.map AliasTuple.key).Nodup) :
    ∃ bytes, batch.encode = .ok bytes ∧ (bytes.length < 2 ^ 64 →
      AliasBatch.decode bytes = .ok ⟨Rows.sortBy AliasTuple.key batch.rows⟩) := by
  have hshaped := batchToValue_shaped (Rows.sortBy AliasTuple.key batch.rows)
    (rowToValue_shaped (Cbor.maxDepth - 3))
  refine ⟨_, AliasBatch.encode_eq_ok hdistinct hshaped, fun hlength => ?_⟩
  exact AliasBatch.decode_eq_ok.mpr
    ⟨Rows.ascending_sortBy.mpr hdistinct, canonical_of_length hshaped hlength, rfl⟩

theorem AnalysisBatch.encode_of_decode {batch : AnalysisBatch}
    (hdecode : AnalysisBatch.decode bytes = .ok batch) : batch.encode = .ok bytes := by
  obtain ⟨⟨hdetails, hascending⟩, hcanonical, rfl⟩ := AnalysisBatch.decode_eq_ok.mp hdecode
  have hsorted := Rows.sortBy_eq_self hascending
  rw [AnalysisBatch.encode_eq_ok hascending.nodup hdetails
    (by rw [hsorted]; exact hcanonical.shaped), hsorted]

theorem AnalysisBatch.decode_of_encode {batch : AnalysisBatch}
    (hdistinct : (batch.rows.map AnalysisRow.key).Nodup)
    (hdetails : ∀ row ∈ batch.rows, row.detail ≠ some "") :
    ∃ bytes, batch.encode = .ok bytes ∧ (bytes.length < 2 ^ 64 →
      AnalysisBatch.decode bytes = .ok ⟨Rows.sortBy AnalysisRow.key batch.rows⟩) := by
  have hshaped := batchToValue_shaped (Rows.sortBy AnalysisRow.key batch.rows)
    (analysisRowToValue_shaped (Cbor.maxDepth - 3))
  refine ⟨_, AnalysisBatch.encode_eq_ok hdistinct hdetails hshaped, fun hlength => ?_⟩
  refine AnalysisBatch.decode_eq_ok.mpr ⟨⟨?_, Rows.ascending_sortBy.mpr hdistinct⟩,
    canonical_of_length hshaped hlength, rfl⟩
  intro row hrow
  exact hdetails row (Rows.mem_sortBy.mp hrow)

theorem StateSnapshot.encode_of_decode {snapshot : StateSnapshot}
    (hdecode : StateSnapshot.decode verify bytes = .ok snapshot) :
    ∃ payload signature body, snapshot.payload.payloadBytes = .ok payload ∧
      verify snapshot.publicKey (statesnapHeader ++ payload) signature = true ∧
      Cbor.encode (envelopeToValue payload snapshot.publicKey signature) = .ok body ∧
      bytes = statesnapHeader ++ body := by
  obtain ⟨signature, hverify, hvalidate, hpayload, hcanonical, rfl⟩ :=
    StateSnapshot.decode_eq_ok.mp hdecode
  exact ⟨_, signature, _, payloadBytes_eq_ok hvalidate hpayload.shaped, hverify,
    Cbor.encode_eq_ok_of_shaped hcanonical.shaped, rfl⟩

theorem SnapshotPayload.encodeSigned_eq_ok {payload : SnapshotPayload} (identity : Identity)
    (hvalidate : payload.validate = .ok ()) :
    payload.encodeSigned identity = .ok (statesnapHeader ++
      (envelopeToValue (payloadToValue payload).encoded identity.publicKey
        (identity.sign (statesnapHeader ++ (payloadToValue payload).encoded))).encoded) := by
  have hshaped := envelopeToValue_shaped (payloadToValue payload).encoded identity.publicKey
    (identity.sign (statesnapHeader ++ (payloadToValue payload).encoded)) 0
  rw [SnapshotPayload.encodeSigned,
    payloadBytes_eq_ok hvalidate (payloadToValue_shaped payload 0), ok_bind]
  simp only [encodeBody_eq_ok hshaped, ok_bind]

/-- The envelope adds two fields of fixed length and a few heads. -/
theorem length_encoded_envelope (payload : Bytes) (publicKey : PublicKey) (signature : Signature) :
    (envelopeToValue payload publicKey signature).encoded.length ≤ payload.length + 160 := by
  simp only [envelopeToValue, Cbor.Value.encoded, Cbor.Value.encodedEntries, Cbor.putLength,
    List.length_append, List.length_nil, Vector.length_toList]
  refine le_trans (b := 9 + (9 + (9 + payload.length) + (9 + (9 + 32) + (9 + (9 + 64) + 0)))) ?_
    (by omega)
  gcongr <;> exact Cbor.length_putHead_le _ _

theorem StateSnapshot.decode_of_encodeSigned {payload : SnapshotPayload} {identity : Identity}
    (hverify : ∀ message, verify identity.publicKey message (identity.sign message) = true)
    (hvalidate : payload.validate = .ok ()) :
    ∃ bytes, payload.encodeSigned identity = .ok bytes ∧ (bytes.length < 2 ^ 64 →
      StateSnapshot.decode verify bytes = .ok ⟨payload, identity.publicKey⟩) := by
  refine ⟨_, payload.encodeSigned_eq_ok identity hvalidate, fun hlength => ?_⟩
  have hcanonical := canonical_of_length
    (envelopeToValue_shaped _ _ _ (Cbor.maxDepth - 1)) hlength
  -- The payload is a byte string of the envelope, so it fits in memory with it.
  have hinner : (payloadToValue payload).encoded.length < 2 ^ 64 :=
    hcanonical.2.2 (envkeyPayload, .bytes (payloadToValue payload).encoded) List.mem_cons_self
  have hpayload := (payloadToValue_shaped payload (Cbor.maxDepth - 3)).canonical
    (Value.inMemory_of_length hinner)
  exact StateSnapshot.decode_eq_ok.mpr
    ⟨_, hverify _, hvalidate, hpayload, hcanonical, rfl⟩

/-- The three codecs are canonical. Accepted bytes are the encoding of what they decode to, for
a snapshot under the key and signature it carries; and a value that passes the encoder's checks
decodes from its encoding with its rows in key order. `verify` accepts what `sign` produced, and
encodings fit in memory. -/
theorem Snapshot.codecs_canonical (verify : PublicKey → Bytes → Signature → Bool) :
    ((∀ bytes batch, AliasBatch.decode bytes = .ok batch → batch.encode = .ok bytes) ∧
      ∀ batch : AliasBatch, (batch.rows.map AliasTuple.key).Nodup →
        ∃ bytes, batch.encode = .ok bytes ∧ (bytes.length < 2 ^ 64 →
          AliasBatch.decode bytes = .ok ⟨Rows.sortBy AliasTuple.key batch.rows⟩)) ∧
    ((∀ bytes batch, AnalysisBatch.decode bytes = .ok batch → batch.encode = .ok bytes) ∧
      ∀ batch : AnalysisBatch, (batch.rows.map AnalysisRow.key).Nodup →
        (∀ row ∈ batch.rows, row.detail ≠ some "") →
        ∃ bytes, batch.encode = .ok bytes ∧ (bytes.length < 2 ^ 64 →
          AnalysisBatch.decode bytes = .ok ⟨Rows.sortBy AnalysisRow.key batch.rows⟩)) ∧
    (∀ bytes snapshot, StateSnapshot.decode verify bytes = .ok snapshot →
      ∃ payload signature body, snapshot.payload.payloadBytes = .ok payload ∧
        verify snapshot.publicKey (statesnapHeader ++ payload) signature = true ∧
        Cbor.encode (envelopeToValue payload snapshot.publicKey signature) = .ok body ∧
        bytes = statesnapHeader ++ body) ∧
    ∀ (payload : SnapshotPayload) (identity : Identity),
      (∀ message, verify identity.publicKey message (identity.sign message) = true) →
      payload.validate = .ok () →
      ∃ bytes, payload.encodeSigned identity = .ok bytes ∧ (bytes.length < 2 ^ 64 →
        StateSnapshot.decode verify bytes = .ok ⟨payload, identity.publicKey⟩) :=
  ⟨⟨fun _ _ => AliasBatch.encode_of_decode, fun _ => AliasBatch.decode_of_encode⟩,
    ⟨fun _ _ => AnalysisBatch.encode_of_decode, fun _ => AnalysisBatch.decode_of_encode⟩,
    fun _ _ => StateSnapshot.encode_of_decode, fun _ _ => StateSnapshot.decode_of_encodeSigned⟩

/-- A row that is known by its digest only. -/
def aliasRow (blake3 : Blake3) : AliasTuple :=
  ⟨3, .replicate 4 0, .replicate 16 0, .replicate 20 0, .replicate 32 0, blake3⟩

/-- Two rows against key order. -/
def unsortedAliases : AliasBatch := ⟨[aliasRow 2, aliasRow 1]⟩

def unsortedAnalysis : AnalysisBatch := ⟨[⟨2, 7, false, none⟩, ⟨1, 7, true, some "torrentzip"⟩]⟩

def smallPayload : SnapshotPayload :=
  ⟨1, 10, [⟨"no-intro", "gba", 5, 9⟩], 1, [6], 0, [], [("live", 7)], []⟩

/-- Signs with the length of the message. -/
def checksumIdentity : Identity :=
  ⟨.replicate 32 1, fun message => .replicate 64 (UInt8.ofNat message.length)⟩

def checksumVerify (_ : PublicKey) (message : Bytes) (signature : Signature) : Bool :=
  signature = .replicate 64 (UInt8.ofNat message.length)

/-- The rows come back sorted, and the payload as it was. -/
theorem Snapshot.codecs_unsorted :
    (∃ bytes, unsortedAliases.encode = .ok bytes ∧
      AliasBatch.decode bytes = .ok ⟨[aliasRow 1, aliasRow 2]⟩) ∧
    (∃ bytes, unsortedAnalysis.encode = .ok bytes ∧ AnalysisBatch.decode bytes =
      .ok ⟨[⟨1, 7, true, some "torrentzip"⟩, ⟨2, 7, false, none⟩]⟩) ∧
    ∃ bytes, smallPayload.encodeSigned checksumIdentity = .ok bytes ∧
      StateSnapshot.decode checksumVerify bytes =
        .ok ⟨smallPayload, checksumIdentity.publicKey⟩ := by
  obtain ⟨⟨-, haliases⟩, ⟨-, hanalysis⟩, -, hsnapshot⟩ := Snapshot.codecs_canonical checksumVerify
  refine ⟨?_, ?_, ?_⟩
  · obtain ⟨bytes, hencode, hdecode⟩ := haliases unsortedAliases (by decide)
    have hfits : ∀ bytes ∈ unsortedAliases.encode.toOption, bytes.length < 2 ^ 64 := by
      decide +kernel
    exact ⟨bytes, hencode, hdecode (hfits bytes (by rw [hencode]; rfl))⟩
  · obtain ⟨bytes, hencode, hdecode⟩ := hanalysis unsortedAnalysis (by decide) (by decide)
    have hfits : ∀ bytes ∈ unsortedAnalysis.encode.toOption, bytes.length < 2 ^ 64 := by
      decide +kernel
    exact ⟨bytes, hencode, hdecode (hfits bytes (by rw [hencode]; rfl))⟩
  · obtain ⟨bytes, hencode, hdecode⟩ := hsnapshot smallPayload checksumIdentity
      (fun message => decide_eq_true rfl) (by decide +kernel)
    have hfits : ∀ bytes ∈ (smallPayload.encodeSigned checksumIdentity).toOption,
        bytes.length < 2 ^ 64 := by
      decide +kernel
    exact ⟨bytes, hencode, hdecode (hfits bytes (by rw [hencode]; rfl))⟩

end Datboi
