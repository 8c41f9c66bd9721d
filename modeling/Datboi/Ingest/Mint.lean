import Datboi.Core.AssembleReader
import Datboi.Core.RecipeCodec
import Datboi.Ingest.Coverage
import Datboi.Index.Db
import Datboi.Lib.Moves
import Datboi.Store.Store

/-!
# Minting a decomposition

A coverage map becomes recipes: one that slices each piece out of the container, and one
that rebuilds the container from its regions. The rebuild's inputs are deduplicated by
address, so regions refer to them by the place where the address came up first.
-/

namespace Datboi

open Nds (Region)

/-- What ends a mint early. -/
inductive MintError where
  | params (e : AssembleParamsError)
  | recipe (e : RecipeError)
  | store (e : StoreError)
  | index (e : IndexError)
  | io
  | missingExtern (input count : Nat)
  | panicked

/-- What minting changes, and the recipes whose objects were written so far. -/
structure Minting where
  db : Db
  store : Store
  written : List Recipe := []

abbrev MintM := EStateM MintError Minting

/-- `mint_recipe`: publish the object, then index it unless its blob is indexed already.
The index is written in one transaction, which a failure rolls back. -/
def mintRecipe (host : Host) (recipe : Recipe) (seek : SeekClass) : MintM Nat := fun s =>
  match recipe.encode with
  | .error e => .error (.recipe e) s
  | .ok encoded =>
    let recipeHash := host.blake3 encoded
    match s.store.put host .metadata recipeHash ⟨encoded, none⟩ with
    | .error e => .error (.store e) s
    | .ok (_, store) =>
      let s := { s with store := store, written := s.written ++ [recipe] }
      let (db, recipeBlobId) :=
        s.db.upsertBlob recipeHash (some encoded.length) .metadata .resident
      match db.recipeIdForBlob recipeBlobId with
      | some existing => .ok existing { s with db := db }
      | none =>
        match db.indexRecipe recipeBlobId recipe seek .localIngest with
        | .error e => .error (.index e) s
        | .ok (db, recipeId) =>
          match db.setVerifyState recipeId .verified with
          | .error e => .error (.index e) s
          | .ok db => .ok recipeId { s with db := db }

/-- An absent row for a claimed blob that the index does not know yet. -/
def claimAbsent (hash : Blake3) (size : Nat) : MintM Unit := fun s =>
  match s.db.blobByHash hash with
  | some _ => .ok () s
  | none => .ok () { s with db := (s.db.upsertBlob hash (some size) .data .absent).1 }

/-- The recipe of the assemble builtin over encoded parameters. -/
def assembleRecipe (inputs : List InputRef) (output : OutputRef) (segments : List Segment) :
    Except MintError Recipe :=
  match AssembleParams.encode ⟨segments⟩ with
  | .error e => .error (.params e)
  | .ok params => .ok ⟨.builtin "assemble" 1, inputs, [output], params⟩

/-- The hash of a range of the container. -/
def hashRange (host : Host) (image : Bytes) (start len : Nat) : Except MintError Blake3 :=
  match readAt (ρ := Empty) image start len with
  | .error _ => .error .io
  | .ok bytes => .ok (host.blake3 bytes)

/-- An outcome without effects. -/
def MintM.lift {α : Type} (outcome : Except MintError α) : MintM α := fun s =>
  match outcome with
  | .ok a => .ok a s
  | .error e => .error e s

theorem MintM.lift_bind {α β : Type} (outcome : Except MintError α) (f : α → MintM β)
    (s : Minting) :
    (MintM.lift outcome >>= f) s = match outcome with
      | .ok a => f a s
      | .error e => .error e s := by
  cases outcome <;> rfl

/-- A piece's hash, read from its range unless the walk already hashed it. -/
def pieceHash (host : Host) (image : Bytes) (prehashed : Option Blake3) (piece : Nds.Piece) :
    Except MintError Blake3 :=
  match prehashed with
  | some hash => .ok hash
  | none => hashRange host image piece.start piece.len

/-- Claim one piece, and mint its slice of the container. -/
def mintPiece (host : Host) (container : Blake3) (image : Bytes) (prehashed : Option Blake3)
    (piece : Nds.Piece) : MintM Blake3 := do
  let hash ← MintM.lift (pieceHash host image prehashed piece)
  claimAbsent hash piece.len
  let recipe ← MintM.lift (assembleRecipe [⟨container, none⟩]
    ⟨hash, piece.len, some piece.name⟩ [.blobRange 0 piece.start piece.len])
  let _ ← mintRecipe host recipe .affine
  pure hash

/-- Every piece in turn; `ix` counts those that went before. -/
def mintPieces (host : Host) (container : Blake3) (image : Bytes)
    (prehashed : Nat → Option Blake3) : Nat → List Nds.Piece → MintM (List Blake3)
  | _, [] => pure []
  | ix, piece :: rest => do
      let hash ← mintPiece host container image (prehashed ix) piece
      let hashes ← mintPieces host container image prehashed (ix + 1) rest
      pure (hash :: hashes)

/-- Ground the empty blob, which no recipe can yield. -/
def groundEmpty (host : Host) (emptyFiles : Nat) : MintM Unit := fun s =>
  if emptyFiles = 0 then .ok () s
  else
    let empty := host.blake3 []
    match s.store.put host .data empty ⟨[], none⟩ with
    | .error e => .error (.store e) s
    | .ok (_, store) =>
      .ok () { s with store := store, db := (s.db.upsertBlob empty (some 0) .data .resident).1 }

/-- The rebuild's inputs so far, and where each address stands among them. -/
structure Wiring where
  inputs : List InputRef := []
  inputIx : List (Blake3 × Nat) := []

/-- The place of an address, which becomes a new input when it first comes up. -/
def Wiring.entry (wiring : Wiring) (hash : Blake3) (role : Option String) :
    Except MintError (Nat × Wiring) :=
  match wiring.inputIx.lookup hash with
  | some ix => .ok (ix, wiring)
  | none =>
    let ix := wiring.inputs.length
    if ix < 2 ^ 32 then
      .ok (ix, ⟨wiring.inputs ++ [⟨hash, role⟩], (hash, ix) :: wiring.inputIx⟩)
    else .error .panicked

/-- What the regions of a map are resolved against. -/
structure MintScope where
  image : Bytes
  pieces : List Nds.Piece
  pieceHashes : List Blake3
  externs : List (Blake3 × String)

/-- The segment of one region. -/
def wireRegion (scope : MintScope) (wiring : Wiring) : Region → Except MintError (Segment × Wiring)
  | .piece ix =>
    match scope.pieceHashes[ix]?, scope.pieces[ix]? with
    | some hash, some piece =>
      match wiring.entry hash none with
      | .error e => .error e
      | .ok (inputIx, wiring) => .ok (.blobRange inputIx 0 piece.len, wiring)
    | _, _ => .error .panicked
  | .fill byte len => .ok (.fill byte len, wiring)
  | .literal start len =>
    match readAt (ρ := Empty) scope.image start len with
    | .error _ => .error .io
    | .ok bytes => .ok (.literal bytes, wiring)
  | .external input offset len =>
    match scope.externs[input]? with
    | none => .error (.missingExtern input scope.externs.length)
    | some (hash, role) =>
      match wiring.entry hash (some role) with
      | .error e => .error e
      | .ok (inputIx, wiring) => .ok (.blobRange inputIx offset len, wiring)

/-- The map verbatim, a segment for each region. -/
def wireRegions (scope : MintScope) (wiring : Wiring) :
    List Region → Except MintError (List Segment × Wiring)
  | [] => .ok ([], wiring)
  | region :: rest =>
    match wireRegion scope wiring region with
    | .error e => .error e
    | .ok (segment, wiring) =>
      match wireRegions scope wiring rest with
      | .error e => .error e
      | .ok (segments, wiring) => .ok (segment :: segments, wiring)

/-- The recipe that rebuilds the container. -/
def rebuildRecipe (scope : MintScope) (container : Blake3) (totalLen : Nat)
    (regions : List Region) : Except MintError Recipe :=
  match wireRegions scope {} regions with
  | .error e => .error e
  | .ok (segments, wiring) => assembleRecipe wiring.inputs ⟨container, totalLen, none⟩ segments

/-- `mint_decomposition`. -/
def mintDecomposition (host : Host) (container : Blake3) (totalLen : Nat)
    (pieces : List Nds.Piece) (regions : List Region) (emptyFiles : Nat)
    (externs : List (Blake3 × String)) (prehashed : Nat → Option Blake3) (image : Bytes) :
    MintM Unit := do
  let pieceHashes ← mintPieces host container image prehashed 0 pieces
  groundEmpty host emptyFiles
  let rebuild ← MintM.lift
    (rebuildRecipe ⟨image, pieces, pieceHashes, externs⟩ container totalLen regions)
  let _ ← mintRecipe host rebuild .affine

/-- Run a recipe of the assemble builtin over the bytes of its inputs. -/
def Recipe.assemble (resolve : Blake3 → Option Bytes) (want : Nat → Nat) (recipe : Recipe) :
    Option Bytes :=
  if recipe.op = .builtin "assemble" 1 then
    match recipe.inputs.mapM fun input => resolve input.hash with
    | none => none
    | some sources =>
      match AssembleParams.decode recipe.params with
      | .error _ => none
      | .ok params => (params.materialize sources want).toOption
  else none

end Datboi
