import Datboi.Core.Assemble
import Datboi.Index.Db
import Datboi.Lib.Guest

/-!
# What the executor is linked against

The hash function and its outboard trees, the canonical codecs, the inflate
decoder and the component runtime are used through a fixed interface. The model
takes them as the fields of `Host`; results hold for every host, under the stated
assumptions where the code relies on one.
-/

namespace Datboi

/-- An `io::Error`, reduced to whether it carries the deterministic verdict of a
producer that would fail again on the same inputs. -/
structure IoError where
  deterministic : Bool := false
  deriving DecidableEq, Repr

abbrev ByteStream := Reader.Stream IoError UInt8

abbrev ByteSource := Reader.Source IoError UInt8

inductive RuntimeError where
  | component
  | instantiate
  | trap (outOfFuel : Bool)
  | transform (message : String)
  | inputLengthMismatch (inputIx claimed actual : Nat)
  deriving DecidableEq, Repr

/-- A transform's static capability metadata. -/
structure Descriptor where
  seek : SeekClass
  randomAccessInputs : List Nat
  deriving DecidableEq, Repr

/-- One row of a pinned view snapshot. -/
structure SnapshotRow where
  hash : Blake3
  seek : Nat
  deriving DecidableEq, Repr

/-- Which span of which output a range call should produce. -/
structure RangeRequest where
  outputIx : Nat
  offset : Nat
  len : Nat
  deriving DecidableEq, Repr

structure Host where
  /-- BLAKE3. -/
  blake3 : Bytes → Blake3
  /-- The pre-order outboard of a blob. -/
  outboard : Bytes → Bytes
  /-- Does a group of a blob of the given root and length validate against the
  sidecar, reading the group's bytes through the given window? -/
  groupValid : (root : Blake3) → (len : Nat) → (sidecar : Bytes) →
    (read : Nat → Nat → Option Bytes) → (group : Nat) → Bool
  encodeRecipe : Recipe → Bytes
  decodeRecipe : Bytes → Except String Recipe
  decodeAssembleParams : Bytes → Except String AssembleParams
  decodeDeflateWindow : Bytes → Except String (Nat × Nat)
  decodeExtractorParams : Bytes → Except String Nat
  decodeSnapshot : Bytes → Except String (List SnapshotRow)
  /-- The raw deflate decoder, over a compressed stream. -/
  inflate : ByteStream → ByteStream
  /-- Compile a transform component; compilation is a function of the bytes. -/
  loadTransform : Bytes → Except RuntimeError Unit
  describe : (component : Bytes) → (op : String) → Except RuntimeError Descriptor
  /-- Instantiate a transform's `run` under a fuel budget. -/
  runTransform : (component : Bytes) → (op : String) → (params : Bytes) → (fuel : Nat) →
    Except RuntimeError (Guest.Program UInt8)
  /-- Instantiate a transform's `serve-range` under a fuel budget. -/
  serveRange : (component : Bytes) → (op : String) → (params : Bytes) → RangeRequest →
    (fuel : Nat) → Except RuntimeError (Guest.Program UInt8)
  loadExtractor : Bytes → Except RuntimeError Unit
  /-- Instantiate an extractor's `extract` for one member under a fuel budget. -/
  runExtractor : (component : Bytes) → (memberIx fuel : Nat) →
    Except RuntimeError (Guest.Program UInt8)
  /-- The identity of a sealed pack with these members. -/
  packHash : List (Blake3 × Bytes) → Blake3

/-- A concrete host for runs on small inputs: a digest that separates short byte
strings, codecs that refuse, components that compile and do nothing. A run overrides
the fields it exercises. -/
def Host.sample : Host where
  blake3 bytes := BitVec.ofNat 256 (bytes.foldl (fun acc byte => acc * 257 + byte.toNat + 1) 0)
  outboard _ := []
  groupValid _ _ _ _ _ := true
  encodeRecipe _ := []
  decodeRecipe _ := .error "not a recipe"
  decodeAssembleParams _ := .error "not assemble parameters"
  decodeDeflateWindow _ := .error "not a window"
  decodeExtractorParams _ := .error "not extractor parameters"
  decodeSnapshot _ := .error "not a snapshot"
  inflate reader := reader
  loadTransform _ := .ok ()
  describe _ _ := .ok ⟨.opaqueSeek, []⟩
  runTransform _ _ _ _ := .ok (.done)
  serveRange _ _ _ _ _ := .ok (.done)
  loadExtractor _ := .ok ()
  runExtractor _ _ _ := .ok (.done)
  packHash members := BitVec.ofNat 256 (members.foldl (fun acc member =>
    acc * 257 + member.1.toNat + 1) 0)

end Datboi
