import Datboi.Core.Snapshot

/-!
# View snapshots

The manifest of an evaluated view: rows sorted by path, and the dat revisions they were read
from. The current version leaves the evaluation time out; the decoder still reads the first
version, which carried it. Payload keys that are missing are read as their defaults, so only a
payload that carries all of them is the encoding of what it decodes to.
-/

namespace Datboi

open Cbor (Value textBytes)
open Decoding
open Fields (optEntry Inverts)

namespace ViewSnap

def viewsnapHeader : Bytes := textBytes "datboi/viewsnap/2\n"
def viewsnapVersion : Nat := 2
/-- The encoding that carried the evaluation time: still decoded, never written. -/
def viewsnapVersionV1 : Nat := 1

def paykeyCreatedAtV1 : UInt64 := 1
def paykeyViewName : UInt64 := 2
def paykeySources : UInt64 := 3
def paykeyRows : UInt64 := 4
def srckeyProvider : UInt64 := 1
def srckeySystem : UInt64 := 2
def srckeyDatBlob : UInt64 := 3
def srckeyRevision : UInt64 := 4
def rowkeyPath : UInt64 := 1
def rowkeyHash : UInt64 := 2
def rowkeySize : UInt64 := 3
def rowkeySeek : UInt64 := 4

end ViewSnap

/-- One dat revision the evaluation read. -/
structure ViewSource where
  provider : String
  system : String
  datBlob : Blake3
  revision : UInt64
  deriving DecidableEq, Repr

/-- One manifest row. The seek class is 0 (affine), 1 (manifest-seekable) or 2 (opaque). -/
structure ViewRow where
  path : String
  hash : Blake3
  size : UInt64
  seek : UInt8
  deriving DecidableEq, Repr

structure ViewSnapshot where
  /-- Evaluation time of a version 1 object; not part of the encoding. -/
  createdAtV1 : UInt64 := 0
  viewName : String := ""
  sources : List ViewSource := []
  rows : List ViewRow := []
  deriving DecidableEq, Repr

namespace ViewSnap

/-- Relative, forward-slash, no empty, `.` or `..` components, no NUL. -/
def pathIsCanonical (path : String) : Bool :=
  path ≠ "" && !path.toList.contains '\x00' &&
    (path.toList.splitOn '/').all fun c => c ≠ [] && c ≠ ['.'] && c ≠ ['.', '.']

def sourceToValue (source : ViewSource) : Value :=
  .map [(srckeyProvider, .text source.provider),
    (srckeySystem, .text source.system),
    (srckeyDatBlob, .bytes source.datBlob.toBytes),
    (srckeyRevision, .uint source.revision)]

def rowToValue (row : ViewRow) : Value :=
  .map [(rowkeyPath, .text row.path),
    (rowkeyHash, .bytes row.hash.toBytes),
    (rowkeySize, .uint row.size),
    (rowkeySeek, .uint row.seek.toUInt64)]

def toValue (viewName : String) (sources : List ViewSource) (rows : List ViewRow) : Value :=
  .map [(paykeyViewName, .text viewName),
    (paykeySources, .array (sources.map sourceToValue)),
    (paykeyRows, .array (rows.map rowToValue))]

/-- A digest of 32 bytes. -/
def hashFromBytes (message : String) (bytes : Bytes) : Except SnapshotError Blake3 :=
  if bytes.length = 32 then .ok (Blake3.ofBytes bytes) else .error (.invalid message)

structure SourceFields where
  provider : Option String := none
  system : Option String := none
  datBlob : Option Blake3 := none
  revision : Option UInt64 := none

def sourceField (fields : SourceFields) : UInt64 × Value → Except SnapshotError SourceFields
  | (key, .text v) =>
    if key = srckeyProvider then .ok { fields with provider := some v }
    else if key = srckeySystem then .ok { fields with system := some v }
    else .error (.invalid "unknown source key")
  | (key, .bytes v) =>
    if key = srckeyDatBlob then do
      let datBlob ← hashFromBytes "dat blob hash is not 32 bytes" v
      .ok { fields with datBlob := some datBlob }
    else .error (.invalid "unknown source key")
  | (key, .uint v) =>
    if key = srckeyRevision then .ok { fields with revision := some v }
    else .error (.invalid "unknown source key")
  | _ => .error (.invalid "unknown source key")

def decodeSource : Value → Except SnapshotError ViewSource
  | .map pairs => do
      let fields ← pairs.foldlM sourceField {}
      let provider ← required .invalid fields.provider "source missing provider"
      let system ← required .invalid fields.system "source missing system"
      let datBlob ← required .invalid fields.datBlob "source missing dat blob"
      let revision ← required .invalid fields.revision "source missing revision"
      .ok ⟨provider, system, datBlob, revision⟩
  | _ => .error (.invalid "source is not a map")

structure RowFields where
  path : Option String := none
  hash : Option Blake3 := none
  size : Option UInt64 := none
  seek : Option UInt8 := none

def rowField (fields : RowFields) : UInt64 × Value → Except SnapshotError RowFields
  | (key, .text v) =>
    if key = rowkeyPath then .ok { fields with path := some v }
    else .error (.invalid "unknown row key")
  | (key, .bytes v) =>
    if key = rowkeyHash then do
      let hash ← hashFromBytes "row hash is not 32 bytes" v
      .ok { fields with hash := some hash }
    else .error (.invalid "unknown row key")
  | (key, .uint v) =>
    if key = rowkeySize then .ok { fields with size := some v }
    else if key = rowkeySeek then
      if v.toNat < 256 then .ok { fields with seek := some v.toUInt8 }
      else .error (.invalid "seek class out of range")
    else .error (.invalid "unknown row key")
  | _ => .error (.invalid "unknown row key")

def decodeRow : Value → Except SnapshotError ViewRow
  | .map pairs => do
      let fields ← pairs.foldlM rowField {}
      let path ← required .invalid fields.path "row missing path"
      let hash ← required .invalid fields.hash "row missing hash"
      let size ← required .invalid fields.size "row missing size"
      let seek ← required .invalid fields.seek "row missing seek class"
      .ok ⟨path, hash, size, seek⟩
  | _ => .error (.invalid "row is not a map")

/-- One payload entry. Only a version 1 object may carry the evaluation time. -/
def payloadField (version : Nat) (snap : ViewSnapshot) :
    UInt64 × Value → Except SnapshotError ViewSnapshot
  | (key, .uint v) =>
    if key = paykeyCreatedAtV1 ∧ version = viewsnapVersionV1 then
      .ok { snap with createdAtV1 := v }
    else .error (.invalid "unknown payload key")
  | (key, .text v) =>
    if key = paykeyViewName then .ok { snap with viewName := v }
    else .error (.invalid "unknown payload key")
  | (key, .array items) =>
    if key = paykeySources then do
      let sources ← items.mapM decodeSource
      .ok { snap with sources := snap.sources ++ sources }
    else if key = paykeyRows then do
      let rows ← items.mapM decodeRow
      .ok { snap with rows := snap.rows ++ rows }
    else .error (.invalid "unknown payload key")
  | _ => .error (.invalid "unknown payload key")

/-- What the encoder asks of each row. -/
def checkRow (row : ViewRow) : Except SnapshotError Unit :=
  if ¬ pathIsCanonical row.path then .error (.invalid "non-canonical manifest path")
  else if 2 < row.seek then .error (.invalid "unknown seek class code")
  else .ok ()

end ViewSnap

open ViewSnap

/-- Encode the rows in path order, unless a path repeats or a row is ill-formed. -/
def ViewSnapshot.encode (snap : ViewSnapshot) : Except SnapshotError Bytes := do
  let rows := Rows.sortBy ViewRow.path snap.rows
  if Rows.windowsAny (fun a b => a.path = b.path) rows then
    .error (.invalid "duplicate path in manifest")
  else do
    rows.forM checkRow
    let body ← encodeBody (.panic "static keys") (toValue snap.viewName snap.sources rows)
    .ok (viewsnapHeader ++ body)

def ViewSnapshot.decode (bytes : Bytes) : Except SnapshotError ViewSnapshot :=
  match Object.sniff bytes with
  | none => .error (.wrongKind "viewsnap")
  | some (kind, version, bodyAt) =>
    if kind ≠ .viewSnapshot then .error (.wrongKind "viewsnap")
    else if version ≠ viewsnapVersion ∧ version ≠ viewsnapVersionV1 then
      .error (.version "viewsnap" version)
    else do
      let map ← decodeBody .cbor (bytes.drop bodyAt)
      match map with
      | .map pairs =>
        let snap ← pairs.foldlM (payloadField version) {}
        if Rows.windowsAny (fun a b => b.path ≤ a.path) snap.rows then
          .error (.invalid "manifest rows not sorted by path")
        else if snap.rows.any fun row => ¬ pathIsCanonical row.path ∨ 2 < row.seek then
          .error (.invalid "non-canonical manifest row")
        else .ok snap
      | _ => .error (.invalid "payload is not a map")

namespace ViewSnap

/-! ## Rows and sources -/

@[simp] theorem hashFromBytes_eq_ok {message : String} {bytes : Bytes} {hash : Blake3} :
    hashFromBytes message bytes = .ok hash ↔ bytes = hash.toBytes := by
  unfold hashFromBytes
  constructor
  · intro hparse
    split at hparse
    · rename_i hlength
      rw [← Except.ok.inj hparse, Blake3.toBytes_ofBytes hlength]
    · cases hparse
  · intro hbytes
    rw [hbytes, if_pos hash.length_toBytes, Blake3.ofBytes_toBytes]

@[simp] theorem hashFromBytes_toBytes {message : String} (hash : Blake3) :
    hashFromBytes message hash.toBytes = .ok hash :=
  hashFromBytes_eq_ok.mpr rfl

theorem toUInt64_toUInt8 {v : UInt64} (hv : v.toNat < 256) : v.toUInt8.toUInt64 = v := by
  rw [← UInt64.toNat_inj, UInt8.toNat_toUInt64, UInt64.toNat_toUInt8, Nat.mod_eq_of_lt hv]

def SourceFields.written (fields : SourceFields) : List (UInt64 × Value) :=
  optEntry srckeyProvider (fields.provider.map .text) ++
    optEntry srckeySystem (fields.system.map .text) ++
    optEntry srckeyDatBlob (fields.datBlob.map fun hash => .bytes hash.toBytes) ++
    optEntry srckeyRevision (fields.revision.map .uint)

theorem sourceField_written : Appends sourceField SourceFields.written := by
  intro fields key v next _ habove hstep
  simp only [SourceFields.written, List.forall_mem_append, optEntry_below, Option.map_eq_none_iff]
    at habove ⊢
  cases v with
  | text v =>
    simp only [sourceField] at hstep
    repeat' split at hstep
    all_goals
      cases hstep
      try simp_all [srckeyProvider, srckeySystem, srckeyDatBlob, srckeyRevision]
  | bytes v =>
    simp only [sourceField] at hstep
    split at hstep
    · obtain ⟨hash, hparse, hnext⟩ := bind_eq_ok.mp hstep
      cases hnext
      simp_all [srckeyProvider, srckeySystem, srckeyDatBlob, srckeyRevision]
    · cases hstep
  | uint v =>
    simp only [sourceField] at hstep
    split at hstep
    · cases hstep
      simp_all [srckeyProvider, srckeySystem, srckeyDatBlob, srckeyRevision]
    · cases hstep
  | array items => cases hstep
  | map entries => cases hstep

theorem decodeSource_inverts : Inverts decodeSource sourceToValue IsCanonical fun _ => True where
  sound := by
    intro v source hcanonical hdecode
    cases v with
    | map entries =>
      simp only [decodeSource, bind_eq_ok, required_eq_ok] at hdecode
      obtain ⟨fields, hrun, provider, hprovider, system, hsystem, datBlob, hdatBlob, revision,
        hrevision, hsource⟩ := hdecode
      cases hsource
      have hwritten := written_eq rfl sourceField_written hcanonical hrun
      rw [← hwritten, SourceFields.written, hprovider, hsystem, hdatBlob, hrevision]
      exact ⟨trivial, rfl⟩
    | uint n => cases hdecode
    | bytes b => cases hdecode
    | text t => cases hdecode
    | array items => cases hdecode
  complete := by
    rintro ⟨provider, system, datBlob, revision⟩ -
    simp [decodeSource, sourceToValue, sourceField, required, srckeyProvider, srckeySystem,
      srckeyDatBlob, srckeyRevision]

def RowFields.written (fields : RowFields) : List (UInt64 × Value) :=
  optEntry rowkeyPath (fields.path.map .text) ++
    optEntry rowkeyHash (fields.hash.map fun hash => .bytes hash.toBytes) ++
    optEntry rowkeySize (fields.size.map .uint) ++
    optEntry rowkeySeek (fields.seek.map fun seek => .uint seek.toUInt64)

theorem rowField_written : Appends rowField RowFields.written := by
  intro fields key v next _ habove hstep
  simp only [RowFields.written, List.forall_mem_append, optEntry_below, Option.map_eq_none_iff]
    at habove ⊢
  cases v with
  | text v =>
    simp only [rowField] at hstep
    split at hstep
    · cases hstep
      simp_all [rowkeyPath, rowkeyHash, rowkeySize, rowkeySeek]
    · cases hstep
  | bytes v =>
    simp only [rowField] at hstep
    split at hstep
    · obtain ⟨hash, hparse, hnext⟩ := bind_eq_ok.mp hstep
      cases hnext
      simp_all [rowkeyPath, rowkeyHash, rowkeySize, rowkeySeek]
    · cases hstep
  | uint v =>
    simp only [rowField] at hstep
    split at hstep
    · cases hstep
      simp_all [rowkeyPath, rowkeyHash, rowkeySize, rowkeySeek]
    split at hstep
    · split at hstep
      · rename_i hsmall
        cases hstep
        have hseek := toUInt64_toUInt8 hsmall
        simp_all [rowkeyPath, rowkeyHash, rowkeySize, rowkeySeek]
      · cases hstep
    · cases hstep
  | array items => cases hstep
  | map entries => cases hstep

theorem decodeRow_inverts : Inverts decodeRow rowToValue IsCanonical fun _ => True where
  sound := by
    intro v row hcanonical hdecode
    cases v with
    | map entries =>
      simp only [decodeRow, bind_eq_ok, required_eq_ok] at hdecode
      obtain ⟨fields, hrun, path, hpath, hash, hhash, size, hsize, seek, hseek, hrow⟩ := hdecode
      cases hrow
      have hwritten := written_eq rfl rowField_written hcanonical hrun
      rw [← hwritten, RowFields.written, hpath, hhash, hsize, hseek]
      exact ⟨trivial, rfl⟩
    | uint n => cases hdecode
    | bytes b => cases hdecode
    | text t => cases hdecode
    | array items => cases hdecode
  complete := by
    rintro ⟨path, hash, size, seek⟩ -
    have hsmall := seek.toNat_lt
    simp_all [decodeRow, rowToValue, rowField, required, rowkeyPath, rowkeyHash, rowkeySize,
      rowkeySeek]

/-! ## The payload -/

/-- The keys of a current payload. -/
def payloadKeys : List UInt64 := [paykeyViewName, paykeySources, paykeyRows]

theorem payloadField_key (snap : ViewSnapshot) (entry : UInt64 × Value) (next : ViewSnapshot)
    (hstep : payloadField viewsnapVersion snap entry = .ok next) : entry.1 ∈ payloadKeys := by
  obtain ⟨key, v⟩ := entry
  cases v <;> simp only [payloadField] at hstep
  all_goals
    repeat' split at hstep
    all_goals first
      | cases hstep
        done
      | simp_all [payloadKeys, viewsnapVersion, viewsnapVersionV1]

/-- Ascending entries that have the three keys of a payload and no other. -/
theorem entries_eq_of_keys {entries : List (UInt64 × Value)}
    (hascending : Rows.Ascending (fun entry => entry.1.toNat) entries)
    (honly : ∀ entry ∈ entries, entry.1 ∈ payloadKeys)
    (hall : ∀ key ∈ payloadKeys, key ∈ entries.map Prod.fst) :
    ∃ name sources rows,
      entries = [(paykeyViewName, name), (paykeySources, sources), (paykeyRows, rows)] := by
  have hpairwise : (entries.map Prod.fst).Pairwise fun a b => a.toNat < b.toNat :=
    List.pairwise_map.mpr hascending
  have hkeys : entries.map Prod.fst = payloadKeys := by
    refine List.Perm.eq_of_pairwise ?_ hpairwise (by decide) ?_
    · intro a b _ _ hab hba
      omega
    · refine (List.perm_ext_iff_of_nodup ?_ (by decide)).mpr fun key => ⟨?_, hall key⟩
      · exact hpairwise.imp fun hlt heq => absurd (congrArg UInt64.toNat heq) hlt.ne
      · intro hkey
        obtain ⟨entry, hentry, rfl⟩ := List.mem_map.mp hkey
        exact honly entry hentry
  match entries, hkeys with
  | [(k₁, name), (k₂, sources), (k₃, rows)], hkeys =>
    simp only [payloadKeys, List.map_cons, List.map_nil, List.cons.injEq, and_true] at hkeys
    obtain ⟨rfl, rfl, rfl⟩ := hkeys
    exact ⟨name, sources, rows, rfl⟩

variable {snap next : ViewSnapshot}

theorem payloadField_viewName {v : Value}
    (hstep : payloadField viewsnapVersion snap (paykeyViewName, v) = .ok next) :
    ∃ name, v = .text name ∧ next = { snap with viewName := name } := by
  cases v with
  | text name =>
    cases hstep
    exact ⟨name, rfl, rfl⟩
  | uint n => cases hstep
  | bytes b => cases hstep
  | array items => cases hstep
  | map entries => cases hstep

theorem payloadField_sources {v : Value} (hcanonical : IsCanonical v)
    (hstep : payloadField viewsnapVersion snap (paykeySources, v) = .ok next) :
    ∃ sources, v = .array (sources.map sourceToValue) ∧
      next = { snap with sources := snap.sources ++ sources } := by
  cases v with
  | array items =>
    obtain ⟨sources, hitems, hnext⟩ := bind_eq_ok.mp hstep
    cases hnext
    obtain ⟨_, rfl⟩ := decodeSource_inverts.mapM.sound hcanonical.of_array hitems
    exact ⟨sources, rfl, rfl⟩
  | uint n => cases hstep
  | bytes b => cases hstep
  | text t => cases hstep
  | map entries => cases hstep

theorem payloadField_rows {v : Value} (hcanonical : IsCanonical v)
    (hstep : payloadField viewsnapVersion snap (paykeyRows, v) = .ok next) :
    ∃ rows, v = .array (rows.map rowToValue) ∧
      next = { snap with rows := snap.rows ++ rows } := by
  cases v with
  | array items =>
    obtain ⟨rows, hitems, hnext⟩ := bind_eq_ok.mp hstep
    cases hnext
    obtain ⟨_, rfl⟩ := decodeRow_inverts.mapM.sound hcanonical.of_array hitems
    exact ⟨rows, rfl, rfl⟩
  | uint n => cases hstep
  | bytes b => cases hstep
  | text t => cases hstep
  | map entries => cases hstep

/-- A payload with all its keys is read exactly. -/
theorem payload_eq_toValue {entries : List (UInt64 × Value)}
    (hcanonical : IsCanonical (.map entries))
    (hall : ∀ key ∈ payloadKeys, key ∈ entries.map Prod.fst)
    (hrun : entries.foldlM (payloadField viewsnapVersion) {} = .ok snap) :
    snap.createdAtV1 = 0 ∧ .map entries = toValue snap.viewName snap.sources snap.rows := by
  obtain ⟨hascending, hinner⟩ := hcanonical.of_map
  have honly := Fields.foldlM_accepted payloadField_key hrun
  obtain ⟨name, sources, rows, rfl⟩ := entries_eq_of_keys hascending honly hall
  simp only [List.forall_mem_cons] at hinner
  obtain ⟨named, hname, hrun⟩ := Fields.foldlM_cons_eq_ok.mp hrun
  obtain ⟨sourced, hsourced, hrun⟩ := Fields.foldlM_cons_eq_ok.mp hrun
  obtain ⟨final, hfinal, hrun⟩ := Fields.foldlM_cons_eq_ok.mp hrun
  cases hrun
  obtain ⟨name, rfl, rfl⟩ := payloadField_viewName hname
  obtain ⟨sources, rfl, rfl⟩ := payloadField_sources hinner.2.1 hsourced
  obtain ⟨rows, rfl, rfl⟩ := payloadField_rows hinner.2.2.1 hfinal
  exact ⟨rfl, rfl⟩

theorem payload_toValue (viewName : String) (sources : List ViewSource) (rows : List ViewRow) :
    [(paykeyViewName, Value.text viewName), (paykeySources, .array (sources.map sourceToValue)),
      (paykeyRows, .array (rows.map rowToValue))].foldlM (payloadField viewsnapVersion) {} =
        .ok ⟨0, viewName, sources, rows⟩ := by
  have hsources := decodeSource_inverts.mapM.complete (b := sources) fun _ _ => trivial
  have hrows := decodeRow_inverts.mapM.complete (b := rows) fun _ _ => trivial
  simp [payloadField, paykeyViewName, paykeySources, paykeyRows, hsources, hrows]

theorem toValue_shaped (viewName : String) (sources : List ViewSource) (rows : List ViewRow)
    (levels : Nat) : Value.Shaped (levels + 4) (toValue viewName sources rows) := by
  have hsources := @shaped_array_map (levels + 2) _ _ sources fun source =>
    show Value.Shaped _ (sourceToValue source) by
      simp [sourceToValue, Rows.Ascending, srckeyProvider, srckeySystem, srckeyDatBlob,
        srckeyRevision]
  have hrows := @shaped_array_map (levels + 2) _ _ rows fun row =>
    show Value.Shaped _ (rowToValue row) by
      simp [rowToValue, Rows.Ascending, rowkeyPath, rowkeyHash, rowkeySize, rowkeySeek]
  simp [toValue, Rows.Ascending, paykeyViewName, paykeySources, paykeyRows, hsources, hrows,
    -shaped_array]

/-- What both directions ask of a row. -/
def RowValid (row : ViewRow) : Prop := pathIsCanonical row.path ∧ row.seek ≤ 2

theorem checkRow_eq_ok {row : ViewRow} : checkRow row = .ok () ↔ RowValid row := by
  unfold checkRow RowValid
  split <;> rename_i hpath
  · simp [hpath]
  · rw [not_not] at hpath
    split <;> rename_i hseek
    · simp [UInt8.not_le.mpr hseek]
    · simp [hpath, UInt8.not_lt.mp hseek]

theorem viewsnapHeader_eq : viewsnapHeader = Object.header .viewSnapshot viewsnapVersion := by
  decide

end ViewSnap

theorem ViewSnapshot.encode_eq_ok {snap : ViewSnapshot} {bytes : Bytes} :
    snap.encode = .ok bytes ↔
      (snap.rows.map ViewRow.path).Nodup ∧ (∀ row ∈ snap.rows, RowValid row) ∧
        bytes = viewsnapHeader ++
          (toValue snap.viewName snap.sources (Rows.sortBy ViewRow.path snap.rows)).encoded := by
  have hbody := @encodeBody_eq_ok _ (SnapshotError.panic "static keys") _ _
    (toValue_shaped snap.viewName snap.sources (Rows.sortBy ViewRow.path snap.rows) 0)
  simp only [ViewSnapshot.encode]
  rw [← Rows.windowsAny_sortBy_eq_false]
  split <;> rename_i hwindows
  · simp [hwindows]
  · rw [Bool.not_eq_true] at hwindows
    simp only [hwindows, bind_eq_ok, hbody, true_and, Except.ok.injEq]
    have hrows : (Rows.sortBy ViewRow.path snap.rows).forM checkRow = .ok () ↔
        ∀ row ∈ snap.rows, RowValid row := by
      simp only [Fields.forM_eq_ok, checkRow_eq_ok, Rows.mem_sortBy]
    rw [← hrows]
    constructor
    · rintro ⟨⟨⟩, hvalid, body, rfl, rfl⟩
      exact ⟨hvalid, rfl⟩
    · rintro ⟨hvalid, rfl⟩
      exact ⟨(), hvalid, _, rfl, rfl⟩

/-- An object of the current version with all payload keys decodes to what it encodes. -/
theorem ViewSnapshot.decode_eq_ok {body : Bytes} {entries : List (UInt64 × Value)}
    {snap : ViewSnapshot} (hbody : Cbor.decode body = .ok (.map entries))
    (hall : ∀ key ∈ payloadKeys, key ∈ entries.map Prod.fst) :
    ViewSnapshot.decode (viewsnapHeader ++ body) = .ok snap ↔
      Rows.Ascending ViewRow.path snap.rows ∧ (∀ row ∈ snap.rows, RowValid row) ∧
        snap.createdAtV1 = 0 ∧ .map entries = toValue snap.viewName snap.sources snap.rows := by
  have hcanonical : IsCanonical (.map entries) := ⟨_, (Cbor.decode_eq_ok.mp hbody).1⟩
  have hsniff : Object.sniff (viewsnapHeader ++ body) =
      some (.viewSnapshot, viewsnapVersion, viewsnapHeader.length) := by
    rw [viewsnapHeader_eq]
    exact (Object.sniff_eq_some (by decide)).mpr ⟨rfl, body, rfl⟩
  have hdecode : decodeBody SnapshotError.cbor body = .ok (.map entries) := by
    rw [decodeBody, hbody]
  have hrows : (∀ row ∈ snap.rows, RowValid row) ↔
      (snap.rows.any fun row => ¬ pathIsCanonical row.path ∨ 2 < row.seek) = false := by
    simp [RowValid, List.any_eq_false]
  have hrun : ViewSnapshot.decode (viewsnapHeader ++ body) =
      (entries.foldlM (payloadField viewsnapVersion) {} >>= fun snap =>
        if Rows.windowsAny (fun a b => b.path ≤ a.path) snap.rows then
          .error (.invalid "manifest rows not sorted by path")
        else if snap.rows.any fun row => ¬ pathIsCanonical row.path ∨ 2 < row.seek then
          .error (.invalid "non-canonical manifest row")
        else .ok snap) := by
    rw [ViewSnapshot.decode, hsniff]
    simp only [List.drop_left, hdecode, ok_bind]
    rfl
  rw [hrun, bind_eq_ok, ← Rows.windowsAny_le_eq_false, hrows]
  constructor
  · rintro ⟨decoded, hrun, hchecks⟩
    split at hchecks
    · cases hchecks
    rename_i hwindows
    split at hchecks
    · cases hchecks
    rename_i hany
    cases hchecks
    exact ⟨Bool.not_eq_true _ ▸ hwindows, Bool.not_eq_true _ ▸ hany,
      payload_eq_toValue hcanonical hall hrun⟩
  · rintro ⟨hwindows, hany, hcreated, hentries⟩
    cases hentries
    refine ⟨snap, ?_, ?_⟩
    · obtain ⟨createdAtV1, viewName, sources, rows⟩ := snap
      cases hcreated
      exact payload_toValue viewName sources rows
    · rw [hwindows, hany]
      rfl

/-- The manifest codec is canonical on complete payloads. Accepted bytes of the current version
that carry every payload key are the encoding of what they decode to; and a snapshot that
encodes comes back with its rows in path order and without an evaluation time. Encodings fit in
memory. -/
theorem ViewSnapshot.manifest_canonical :
    (∀ body entries snap, Cbor.decode body = .ok (.map entries) →
      (∀ key ∈ payloadKeys, key ∈ entries.map Prod.fst) →
      ViewSnapshot.decode (viewsnapHeader ++ body) = .ok snap →
      snap.encode = .ok (viewsnapHeader ++ body)) ∧
    ∀ snap bytes, ViewSnapshot.encode snap = .ok bytes → bytes.length < 2 ^ 64 →
      ViewSnapshot.decode bytes =
        .ok { snap with createdAtV1 := 0, rows := Rows.sortBy ViewRow.path snap.rows } := by
  refine ⟨?_, ?_⟩
  · intro body entries snap hbody hall hdecode
    obtain ⟨hascending, hvalid, _, hentries⟩ := (ViewSnapshot.decode_eq_ok hbody hall).mp hdecode
    obtain ⟨_, rfl⟩ := Cbor.decode_eq_ok.mp hbody
    rw [ViewSnapshot.encode_eq_ok, Rows.sortBy_eq_self hascending, ← hentries]
    exact ⟨hascending.nodup, hvalid, rfl⟩
  · intro snap bytes hencode hlength
    obtain ⟨hdistinct, hvalid, rfl⟩ := ViewSnapshot.encode_eq_ok.mp hencode
    have hcanonical := canonical_of_length
      (toValue_shaped snap.viewName snap.sources (Rows.sortBy ViewRow.path snap.rows)
        (Cbor.maxDepth - 3)) hlength
    refine (ViewSnapshot.decode_eq_ok (Cbor.decode_eq_ok.mpr ⟨hcanonical, rfl⟩)
      fun key hkey => hkey).mpr ⟨Rows.ascending_sortBy.mpr hdistinct, ?_, rfl, rfl⟩
    intro row hrow
    exact hvalid row (Rows.mem_sortBy.mp hrow)

/-- Two rows against path order, with an evaluation time. -/
def unsortedManifest : ViewSnapshot :=
  ⟨5, "gba", [⟨"no-intro", "gba", 3, 7⟩], [⟨"b/beta.gba", 1, 42, 0⟩, ⟨"a/alpha.gba", 2, 7, 2⟩]⟩

/-- The same manifest as it comes back. -/
def sortedManifest : ViewSnapshot :=
  ⟨0, "gba", [⟨"no-intro", "gba", 3, 7⟩], [⟨"a/alpha.gba", 2, 7, 2⟩, ⟨"b/beta.gba", 1, 42, 0⟩]⟩

theorem ViewSnapshot.manifest_unsorted :
    ∃ bytes, unsortedManifest.encode = .ok bytes ∧
      ViewSnapshot.decode bytes = .ok sortedManifest ∧ sortedManifest.encode = .ok bytes := by
  have hencode : unsortedManifest.encode = .ok (viewsnapHeader ++
      (toValue "gba" sortedManifest.sources sortedManifest.rows).encoded) := by
    decide +kernel
  have hlength : (viewsnapHeader ++
      (toValue "gba" sortedManifest.sources sortedManifest.rows).encoded).length < 2 ^ 64 := by
    decide +kernel
  have hcanonical := canonical_of_length
    (toValue_shaped "gba" sortedManifest.sources sortedManifest.rows (Cbor.maxDepth - 3)) hlength
  have hdecode := ViewSnapshot.manifest_canonical.2 unsortedManifest _ hencode hlength
  rw [show Rows.sortBy ViewRow.path unsortedManifest.rows = sortedManifest.rows by decide]
    at hdecode
  exact ⟨_, hencode, hdecode, ViewSnapshot.manifest_canonical.1 _ _ sortedManifest
    (Cbor.decode_eq_ok.mpr ⟨hcanonical, rfl⟩) (fun _ hkey => hkey) hdecode⟩

/-- An empty payload is a second spelling of the empty manifest, and a manifest with unsorted
rows and an evaluation time does not come back as it was. -/
theorem ViewSnapshot.second_spelling :
    (ViewSnapshot.decode (viewsnapHeader ++ [0xa0]) = .ok {} ∧
      ViewSnapshot.encode {} ≠ .ok (viewsnapHeader ++ [0xa0])) ∧
    (unsortedManifest.encode = .ok (viewsnapHeader ++
        (toValue "gba" sortedManifest.sources sortedManifest.rows).encoded) ∧
      ViewSnapshot.decode (viewsnapHeader ++
        (toValue "gba" sortedManifest.sources sortedManifest.rows).encoded) ≠
          .ok unsortedManifest) := by
  decide +kernel

end Datboi
