import Datboi.Core.Decoding
import Mathlib.Data.Prod.Lex
import Mathlib.Data.String.Basic

/-!
# State snapshots, alias batches and analysis batches

A batch lists rows in strictly ascending key order; the encoder sorts them and rejects
duplicates, the decoder rejects disorder. The state snapshot is a signed envelope whose
signature covers the header and the payload bytes as they stand in the blob. Fields that are
empty are left out, and rejected when present.
-/

namespace Datboi

open Cbor (Value textBytes)
open Decoding

inductive SnapshotError where
  | wrongKind (what : String)
  | version (what : String) (found : Nat)
  | cbor (e : Cbor.DecodeError)
  | invalid (what : String)
  | badSignature
  /-- An expectation of the code that failed. -/
  | panic (message : String)
  deriving DecidableEq, Repr

namespace Snapshot

def aliasesVersion : Nat := 1
def analysisVersion : Nat := 1
def statesnapVersion : Nat := 1

def aliasesHeader : Bytes := textBytes "datboi/aliases/1\n"
def analysisHeader : Bytes := textBytes "datboi/analysis/1\n"
def statesnapHeader : Bytes := textBytes "datboi/statesnap/1\n"

/-- One shard for each value of the leading byte. -/
def maxAliasFanout : Nat := 256

def batchkeyRows : UInt64 := 1
def rowkeyBlake3 : UInt64 := 1
def rowkeySize : UInt64 := 2
def rowkeyCrc32 : UInt64 := 3
def rowkeyMd5 : UInt64 := 4
def rowkeySha1 : UInt64 := 5
def rowkeySha256 : UInt64 := 6

def anrowBlob : UInt64 := 1
def anrowAnalyzer : UInt64 := 2
def anrowOutcome : UInt64 := 3
def anrowDetail : UInt64 := 4

def envkeyPayload : UInt64 := 1
def envkeyPublicKey : UInt64 := 2
def envkeySignature : UInt64 := 3

def paykeySequence : UInt64 := 1
def paykeyCreatedAt : UInt64 := 2
def paykeySources : UInt64 := 3
def paykeyAliasFanout : UInt64 := 4
def paykeyAliasBatches : UInt64 := 5
def paykeyAnalysisFanout : UInt64 := 6
def paykeyAnalysisBatches : UInt64 := 7
def paykeyTags : UInt64 := 8
def paykeyConfig : UInt64 := 9

def tagkeyName : UInt64 := 1
def tagkeyHash : UInt64 := 2
def cfgkeyKey : UInt64 := 1
def cfgkeyValue : UInt64 := 2
def srckeyProvider : UInt64 := 1
def srckeySystem : UInt64 := 2
def srckeyDatBlob : UInt64 := 3
def srckeyImportedAt : UInt64 := 4

end Snapshot

/-! ## Batches -/

/-- The hashes of one blob's bytes. -/
structure AliasTuple where
  size : UInt64
  crc32 : Vector UInt8 4
  md5 : Vector UInt8 16
  sha1 : Vector UInt8 20
  sha256 : Vector UInt8 32
  blake3 : Blake3
  deriving DecidableEq, Repr

structure AliasBatch where
  rows : List AliasTuple := []
  deriving DecidableEq, Repr

/-- What an analyzer concluded about a blob's bytes. -/
structure AnalysisRow where
  blob : Blake3
  analyzer : Blake3
  positive : Bool
  detail : Option String
  deriving DecidableEq, Repr

structure AnalysisBatch where
  rows : List AnalysisRow := []
  deriving DecidableEq, Repr

/-- Digests compare byte by byte, which is the order of the numbers they spell. -/
def AliasTuple.key (row : AliasTuple) : Nat := row.blake3.toNat

def AnalysisRow.key (row : AnalysisRow) : Nat ×ₗ Nat := toLex (row.blob.toNat, row.analyzer.toNat)

namespace Snapshot

def rowToValue (row : AliasTuple) : Value :=
  .map [(rowkeyBlake3, .bytes row.blake3.toBytes),
    (rowkeySize, .uint row.size),
    (rowkeyCrc32, .bytes row.crc32.toList),
    (rowkeyMd5, .bytes row.md5.toList),
    (rowkeySha1, .bytes row.sha1.toList),
    (rowkeySha256, .bytes row.sha256.toList)]

def analysisRowToValue (row : AnalysisRow) : Value :=
  .map ([(anrowBlob, .bytes row.blob.toBytes),
    (anrowAnalyzer, .bytes row.analyzer.toBytes),
    (anrowOutcome, .uint (if row.positive then 1 else 0))] ++
    Fields.optEntry anrowDetail (row.detail.map .text))

/-- The body of a batch: its rows under one key. -/
def batchToValue {ρ : Type} (toValue : ρ → Value) (rows : List ρ) : Value :=
  .map [(batchkeyRows, .array (rows.map toValue))]

structure RowFields where
  blake3 : Option Blake3 := none
  size : Option UInt64 := none
  crc32 : Option (Vector UInt8 4) := none
  md5 : Option (Vector UInt8 16) := none
  sha1 : Option (Vector UInt8 20) := none
  sha256 : Option (Vector UInt8 32) := none

def rowField (fields : RowFields) (entry : UInt64 × Value) : Except SnapshotError RowFields :=
  if entry.1 = rowkeyBlake3 then do
    let blake3 ← asHash .invalid entry.2
    .ok { fields with blake3 := some blake3 }
  else if entry.1 = rowkeySize then do
    let size ← asUint .invalid entry.2
    .ok { fields with size := some size }
  else if entry.1 = rowkeyCrc32 then do
    let crc32 ← asFixed .invalid 4 "crc32 must be 4 bytes" entry.2
    .ok { fields with crc32 := some crc32 }
  else if entry.1 = rowkeyMd5 then do
    let md5 ← asFixed .invalid 16 "md5 must be 16 bytes" entry.2
    .ok { fields with md5 := some md5 }
  else if entry.1 = rowkeySha1 then do
    let sha1 ← asFixed .invalid 20 "sha1 must be 20 bytes" entry.2
    .ok { fields with sha1 := some sha1 }
  else if entry.1 = rowkeySha256 then do
    let sha256 ← asFixed .invalid 32 "sha256 must be 32 bytes" entry.2
    .ok { fields with sha256 := some sha256 }
  else .error (.invalid "unknown alias row key")

def rowFromValue (v : Value) : Except SnapshotError AliasTuple := do
  let entries ← asMap .invalid v
  let fields ← entries.foldlM rowField {}
  let blake3 ← required .invalid fields.blake3 "row missing blake3"
  let size ← required .invalid fields.size "row missing size"
  let crc32 ← required .invalid fields.crc32 "row missing crc32"
  let md5 ← required .invalid fields.md5 "row missing md5"
  let sha1 ← required .invalid fields.sha1 "row missing sha1"
  let sha256 ← required .invalid fields.sha256 "row missing sha256"
  .ok ⟨size, crc32, md5, sha1, sha256, blake3⟩

structure AnalysisFields where
  blob : Option Blake3 := none
  analyzer : Option Blake3 := none
  outcome : Option Bool := none
  detail : Option String := none

def analysisRowField (fields : AnalysisFields) (entry : UInt64 × Value) :
    Except SnapshotError AnalysisFields :=
  if entry.1 = anrowBlob then do
    let blob ← asHash .invalid entry.2
    .ok { fields with blob := some blob }
  else if entry.1 = anrowAnalyzer then do
    let analyzer ← asHash .invalid entry.2
    .ok { fields with analyzer := some analyzer }
  else if entry.1 = anrowOutcome then do
    let outcome ← asUint .invalid entry.2
    if outcome = 0 then .ok { fields with outcome := some false }
    else if outcome = 1 then .ok { fields with outcome := some true }
    else .error (.invalid "outcome must be 0 or 1")
  else if entry.1 = anrowDetail then do
    let text ← asText .invalid entry.2
    if text = "" then .error (.invalid "empty analysis detail")
    else .ok { fields with detail := some text }
  else .error (.invalid "unknown analysis row key")

def analysisRowFromValue (v : Value) : Except SnapshotError AnalysisRow := do
  let entries ← asMap .invalid v
  let fields ← entries.foldlM analysisRowField {}
  let blob ← required .invalid fields.blob "row missing blob"
  let analyzer ← required .invalid fields.analyzer "row missing analyzer"
  let positive ← required .invalid fields.outcome "row missing outcome"
  .ok ⟨blob, analyzer, positive, fields.detail⟩

/-- The elements of an array, each parsed. -/
def itemsFromValue {α : Type} (message : String) (parse : Value → Except SnapshotError α) :
    Value → Except SnapshotError (List α)
  | .array items => items.mapM parse
  | _ => .error (.invalid message)

def batchField {ρ : Type} (unknown : String) (fromValue : Value → Except SnapshotError ρ)
    (_ : Option (List ρ)) (entry : UInt64 × Value) : Except SnapshotError (Option (List ρ)) :=
  if entry.1 = batchkeyRows then do
    let rows ← itemsFromValue "rows must be an array" fromValue entry.2
    .ok (some rows)
  else .error (.invalid unknown)

/-- The rows of a batch object, in strictly ascending order. -/
def batchFromValue {ρ κ : Type} [LinearOrder κ] (key : ρ → κ) (unknown disorder : String)
    (fromValue : Value → Except SnapshotError ρ) (v : Value) : Except SnapshotError (List ρ) := do
  let entries ← asMap .invalid v
  let rows ← entries.foldlM (batchField unknown fromValue) none
  let rows ← required .invalid rows "missing rows"
  if Rows.windowsAny (fun a b => key b ≤ key a) rows then .error (.invalid disorder)
  else .ok rows

end Snapshot

open Snapshot

/-- Encode to canonical object bytes; rows are sorted here and duplicates rejected. -/
def AliasBatch.encode (batch : AliasBatch) : Except SnapshotError Bytes := do
  let rows := Rows.sortBy AliasTuple.key batch.rows
  if Rows.windowsAny (fun a b => a.key = b.key) rows then
    .error (.invalid "duplicate blake3 in alias batch")
  else do
    let body ← encodeBody (.panic "single constant key") (batchToValue rowToValue rows)
    .ok (aliasesHeader ++ body)

def AliasBatch.decode (bytes : Bytes) : Except SnapshotError AliasBatch := do
  let body ← expectObject (.wrongKind "aliases") (.version "aliases") .aliasBatch aliasesVersion bytes
  let v ← decodeBody .cbor body
  let rows ← batchFromValue AliasTuple.key "unknown alias batch key"
    "alias rows not strictly ascending" rowFromValue v
  .ok ⟨rows⟩

def AnalysisBatch.encode (batch : AnalysisBatch) : Except SnapshotError Bytes := do
  let rows := Rows.sortBy AnalysisRow.key batch.rows
  if Rows.windowsAny (fun a b => a.key = b.key) rows then
    .error (.invalid "duplicate (blob, analyzer) in analysis batch")
  else if rows.any fun row => row.detail = some "" then .error (.invalid "empty analysis detail")
  else do
    let body ← encodeBody (.panic "single constant key") (batchToValue analysisRowToValue rows)
    .ok (analysisHeader ++ body)

def AnalysisBatch.decode (bytes : Bytes) : Except SnapshotError AnalysisBatch := do
  let body ←
    expectObject (.wrongKind "analysis") (.version "analysis") .analysisBatch analysisVersion bytes
  let v ← decodeBody .cbor body
  let rows ← batchFromValue AnalysisRow.key "unknown analysis batch key"
    "analysis rows not strictly ascending" analysisRowFromValue v
  .ok ⟨rows⟩

/-! ## The snapshot payload -/

/-- What `recover` needs to replay an import. -/
structure SourceRef where
  provider : String
  system : String
  datBlob : Blake3
  importedAt : UInt64
  deriving DecidableEq, Repr

def SourceRef.key (source : SourceRef) : String ×ₗ String := toLex (source.provider, source.system)

structure SnapshotPayload where
  sequence : UInt64
  createdAt : UInt64
  sources : List SourceRef
  aliasFanout : Nat
  aliasBatches : List Blake3
  analysisFanout : Nat
  analysisBatches : List Blake3
  tags : List (String × Blake3)
  config : List (String × Bytes)
  deriving DecidableEq, Repr

/-- The checks a payload passes before it is signed and after it is decoded. -/
def SnapshotPayload.validate (payload : SnapshotPayload) : Except SnapshotError Unit :=
  if payload.aliasFanout < 1 ∨ maxAliasFanout < payload.aliasFanout then
    .error (.invalid "alias fanout must be 1..=256")
  else if payload.aliasBatches.length ≠ payload.aliasFanout then
    .error (.invalid "alias batch count != fanout")
  else if maxAliasFanout < payload.analysisFanout then
    .error (.invalid "analysis fanout must be 0..=256")
  else if payload.analysisBatches.length ≠ payload.analysisFanout then
    .error (.invalid "analysis batch count != fanout")
  else if Rows.windowsAny (fun a b => b.key ≤ a.key) payload.sources then
    .error (.invalid "sources not sorted by provider/system")
  else if payload.sources.any fun source => source.provider = "" ∨ source.system = "" then
    .error (.invalid "empty source provider or system")
  else if Rows.windowsAny (fun a b => b.1 ≤ a.1) payload.tags then
    .error (.invalid "tags not sorted/unique by name")
  else if payload.tags.any fun tag => tag.1 = "" then .error (.invalid "empty tag name")
  else if Rows.windowsAny (fun a b => b.1 ≤ a.1) payload.config then
    .error (.invalid "config not sorted/unique by key")
  else if payload.config.any fun entry => entry.1 = "" then .error (.invalid "empty config key")
  else .ok ()

namespace Snapshot

def sourceToValue (source : SourceRef) : Value :=
  .map [(srckeyProvider, .text source.provider),
    (srckeySystem, .text source.system),
    (srckeyDatBlob, .bytes source.datBlob.toBytes),
    (srckeyImportedAt, .uint source.importedAt)]

def hashToValue (hash : Blake3) : Value := .bytes hash.toBytes

def tagToValue (tag : String × Blake3) : Value :=
  .map [(tagkeyName, .text tag.1), (tagkeyHash, .bytes tag.2.toBytes)]

def configToValue (entry : String × Bytes) : Value :=
  .map [(cfgkeyKey, .text entry.1), (cfgkeyValue, .bytes entry.2)]

/-- A field that an empty list leaves out. -/
def listField {α : Type} (toValue : α → Value) (items : List α) : Option Value :=
  if items = [] then none else some (.array (items.map toValue))

def payloadToValue (payload : SnapshotPayload) : Value :=
  .map ([(paykeySequence, .uint payload.sequence),
    (paykeyCreatedAt, .uint payload.createdAt),
    (paykeySources, .array (payload.sources.map sourceToValue)),
    (paykeyAliasFanout, .uint (UInt64.ofNat payload.aliasFanout)),
    (paykeyAliasBatches, .array (payload.aliasBatches.map hashToValue))] ++
    (if 0 < payload.analysisFanout then
      [(paykeyAnalysisFanout, .uint (UInt64.ofNat payload.analysisFanout)),
        (paykeyAnalysisBatches, .array (payload.analysisBatches.map hashToValue))]
    else []) ++
    Fields.optEntry paykeyTags (listField tagToValue payload.tags) ++
    Fields.optEntry paykeyConfig (listField configToValue payload.config))

structure SourceFields where
  provider : Option String := none
  system : Option String := none
  datBlob : Option Blake3 := none
  importedAt : Option UInt64 := none

def sourceField (fields : SourceFields) (entry : UInt64 × Value) :
    Except SnapshotError SourceFields :=
  if entry.1 = srckeyProvider then do
    let provider ← asText .invalid entry.2
    .ok { fields with provider := some provider }
  else if entry.1 = srckeySystem then do
    let system ← asText .invalid entry.2
    .ok { fields with system := some system }
  else if entry.1 = srckeyDatBlob then do
    let datBlob ← asHash .invalid entry.2
    .ok { fields with datBlob := some datBlob }
  else if entry.1 = srckeyImportedAt then do
    let importedAt ← asUint .invalid entry.2
    .ok { fields with importedAt := some importedAt }
  else .error (.invalid "unknown source key")

def sourceFromValue (v : Value) : Except SnapshotError SourceRef := do
  let entries ← asMap .invalid v
  let fields ← entries.foldlM sourceField {}
  let provider ← required .invalid fields.provider "source missing provider"
  let system ← required .invalid fields.system "source missing system"
  let datBlob ← required .invalid fields.datBlob "source missing dat blob"
  let importedAt ← required .invalid fields.importedAt "source missing imported_at"
  .ok ⟨provider, system, datBlob, importedAt⟩

structure TagFields where
  name : Option String := none
  hash : Option Blake3 := none

def tagField (fields : TagFields) (entry : UInt64 × Value) : Except SnapshotError TagFields :=
  if entry.1 = tagkeyName then
    match entry.2 with
    | .text name => .ok { fields with name := some name }
    | _ => .error (.invalid "tag name must be text")
  else if entry.1 = tagkeyHash then do
    let hash ← asHash .invalid entry.2
    .ok { fields with hash := some hash }
  else .error (.invalid "unknown tag key")

def tagFromValue (v : Value) : Except SnapshotError (String × Blake3) := do
  let entries ← asMap .invalid v
  let fields ← entries.foldlM tagField {}
  let name ← required .invalid fields.name "tag missing name"
  let hash ← required .invalid fields.hash "tag missing hash"
  .ok (name, hash)

structure ConfigFields where
  key : Option String := none
  value : Option Bytes := none

def configField (fields : ConfigFields) (entry : UInt64 × Value) :
    Except SnapshotError ConfigFields :=
  if entry.1 = cfgkeyKey then
    match entry.2 with
    | .text key => .ok { fields with key := some key }
    | _ => .error (.invalid "config key must be text")
  else if entry.1 = cfgkeyValue then
    match entry.2 with
    | .bytes value => .ok { fields with value := some value }
    | _ => .error (.invalid "config value must be bytes")
  else .error (.invalid "unknown config entry key")

def configFromValue (v : Value) : Except SnapshotError (String × Bytes) := do
  let entries ← asMap .invalid v
  let fields ← entries.foldlM configField {}
  let key ← required .invalid fields.key "config entry missing key"
  let value ← required .invalid fields.value "config entry missing value"
  .ok (key, value)

/-- A list that may be left out, but not be present and empty. -/
def filledFromValue {α : Type} (kind empty : String) (parse : Value → Except SnapshotError α)
    (v : Value) : Except SnapshotError (List α) :=
  match v with
  | .array items => if items = [] then .error (.invalid empty) else items.mapM parse
  | _ => .error (.invalid kind)

structure PayloadFields where
  sequence : Option UInt64 := none
  createdAt : Option UInt64 := none
  sources : Option (List SourceRef) := none
  fanout : Option UInt64 := none
  batches : Option (List Blake3) := none
  analysisFanout : Option UInt64 := none
  analysisBatches : Option (List Blake3) := none
  tags : Option (List (String × Blake3)) := none
  config : Option (List (String × Bytes)) := none

/-- One payload entry. A 64-bit machine takes every fanout the wire can hold. -/
def payloadField (fields : PayloadFields) (entry : UInt64 × Value) :
    Except SnapshotError PayloadFields :=
  if entry.1 = paykeySequence then do
    let sequence ← asUint .invalid entry.2
    .ok { fields with sequence := some sequence }
  else if entry.1 = paykeyCreatedAt then do
    let createdAt ← asUint .invalid entry.2
    .ok { fields with createdAt := some createdAt }
  else if entry.1 = paykeySources then do
    let sources ← itemsFromValue "sources must be an array" sourceFromValue entry.2
    .ok { fields with sources := some sources }
  else if entry.1 = paykeyAliasFanout then do
    let fanout ← asUint .invalid entry.2
    .ok { fields with fanout := some fanout }
  else if entry.1 = paykeyAliasBatches then do
    let batches ← itemsFromValue "alias batches must be an array" (asHash .invalid) entry.2
    .ok { fields with batches := some batches }
  else if entry.1 = paykeyAnalysisFanout then do
    let parsed ← asUint .invalid entry.2
    if parsed = 0 then .error (.invalid "analysis fanout present but zero")
    else .ok { fields with analysisFanout := some parsed }
  else if entry.1 = paykeyAnalysisBatches then do
    let batches ← itemsFromValue "analysis batches must be an array" (asHash .invalid) entry.2
    .ok { fields with analysisBatches := some batches }
  else if entry.1 = paykeyTags then do
    let tags ← filledFromValue "tags must be an array" "tags present but empty" tagFromValue entry.2
    .ok { fields with tags := some tags }
  else if entry.1 = paykeyConfig then do
    let config ←
      filledFromValue "config must be an array" "config present but empty" configFromValue entry.2
    .ok { fields with config := some config }
  else .error (.invalid "unknown payload key")

def payloadFromValue (v : Value) : Except SnapshotError SnapshotPayload := do
  let entries ← asMap .invalid v
  let fields ← entries.foldlM payloadField {}
  if fields.analysisFanout.isSome ≠ fields.analysisBatches.isSome then
    .error (.invalid "analysis fanout and batches must appear together")
  else do
    let sequence ← required .invalid fields.sequence "missing sequence"
    let createdAt ← required .invalid fields.createdAt "missing created_at"
    let sources ← required .invalid fields.sources "missing sources"
    let aliasFanout ← required .invalid fields.fanout "missing alias fanout"
    let aliasBatches ← required .invalid fields.batches "missing alias batches"
    .ok {
      sequence := sequence
      createdAt := createdAt
      sources := sources
      aliasFanout := aliasFanout.toNat
      aliasBatches := aliasBatches
      analysisFanout := (fields.analysisFanout.map UInt64.toNat).getD 0
      analysisBatches := fields.analysisBatches.getD []
      tags := fields.tags.getD []
      config := fields.config.getD [] }

def payloadFromBytes (bytes : Bytes) : Except SnapshotError SnapshotPayload := do
  let v ← decodeBody .cbor bytes
  payloadFromValue v

end Snapshot

def SnapshotPayload.payloadBytes (payload : SnapshotPayload) : Except SnapshotError Bytes := do
  payload.validate
  encodeBody (.panic "field keys are distinct constants") (payloadToValue payload)

/-! ## The signed envelope -/

abbrev PublicKey := Vector UInt8 32

abbrev Signature := Vector UInt8 64

/-- The snapshot-signing half of an instance's identity. -/
structure Identity where
  publicKey : PublicKey
  sign : Bytes → Signature

structure StateSnapshot where
  payload : SnapshotPayload
  publicKey : PublicKey
  deriving DecidableEq, Repr

namespace Snapshot

def envelopeToValue (payload : Bytes) (publicKey : PublicKey) (signature : Signature) : Value :=
  .map [(envkeyPayload, .bytes payload),
    (envkeyPublicKey, .bytes publicKey.toList),
    (envkeySignature, .bytes signature.toList)]

structure EnvelopeFields where
  payload : Option Bytes := none
  publicKey : Option PublicKey := none
  signature : Option Signature := none

def envelopeField (fields : EnvelopeFields) (entry : UInt64 × Value) :
    Except SnapshotError EnvelopeFields :=
  if entry.1 = envkeyPayload then do
    let payload ← asBytes .invalid entry.2
    .ok { fields with payload := some payload }
  else if entry.1 = envkeyPublicKey then do
    let publicKey ← asFixed .invalid 32 "public key must be 32 bytes" entry.2
    .ok { fields with publicKey := some publicKey }
  else if entry.1 = envkeySignature then do
    let signature ← asFixed .invalid 64 "signature must be 64 bytes" entry.2
    .ok { fields with signature := some signature }
  else .error (.invalid "unknown envelope key")

def envelopeFromValue (v : Value) : Except SnapshotError (Bytes × PublicKey × Signature) := do
  let entries ← asMap .invalid v
  let fields ← entries.foldlM envelopeField {}
  let payload ← required .invalid fields.payload "missing payload"
  let publicKey ← required .invalid fields.publicKey "missing public key"
  let signature ← required .invalid fields.signature "missing signature"
  .ok (payload, publicKey, signature)

end Snapshot

/-- Encode and sign: the signature covers the header and the payload bytes. -/
def SnapshotPayload.encodeSigned (payload : SnapshotPayload) (identity : Identity) :
    Except SnapshotError Bytes := do
  let bytes ← payload.payloadBytes
  let signature := identity.sign (statesnapHeader ++ bytes)
  let body ← encodeBody (.panic "field keys are distinct constants")
    (envelopeToValue bytes identity.publicKey signature)
  .ok (statesnapHeader ++ body)

/-- Decode a snapshot whose signature verifies under its own key. -/
def StateSnapshot.decode (verify : PublicKey → Bytes → Signature → Bool) (bytes : Bytes) :
    Except SnapshotError StateSnapshot := do
  let body ←
    expectObject (.wrongKind "statesnap") (.version "statesnap") .stateSnapshot statesnapVersion bytes
  let v ← decodeBody .cbor body
  let (payload, publicKey, signature) ← envelopeFromValue v
  if ¬ verify publicKey (statesnapHeader ++ payload) signature then .error .badSignature
  else do
    let decoded ← payloadFromBytes payload
    decoded.validate
    .ok ⟨decoded, publicKey⟩

end Datboi
