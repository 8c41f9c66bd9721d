import Datboi.Core.Decoding

/-!
# Recipe objects

A recipe object is a header line and the canonical CBOR of its op, inputs, outputs and
parameters. Optional fields are left out when absent and rejected when present but empty, so
that a recipe has one object and one hash.
-/

namespace Datboi

open Cbor (Value)
open Decoding

def recipeVersion : Nat := 1

def recipeHeader : Bytes := Cbor.textBytes "datboi/recipe/1\n"

namespace RecipeCodec

def keyOp : UInt64 := 1
def keyInputs : UInt64 := 2
def keyOutputs : UInt64 := 3
def keyParams : UInt64 := 4

def opkeyKind : UInt64 := 1
def opkeyNameOrComponent : UInt64 := 2
def opkeyMajorOrWorld : UInt64 := 3
def opkeyExport : UInt64 := 4

def refkeyHash : UInt64 := 1
def inkeyRole : UInt64 := 2
def outkeySize : UInt64 := 2
def outkeyName : UInt64 := 3

end RecipeCodec

inductive RecipeError where
  | notARecipe
  | version (found : Nat)
  | cbor (e : Cbor.DecodeError)
  | noOutputs
  | invalid (what : String)
  /-- An expectation of the code that failed. -/
  | panic (message : String)
  deriving DecidableEq, Repr

/-- Only the exact canonical spellings become known worlds. -/
def World.parse (s : String) : World :=
  if s = "datboi:transform@1" then .transform1
  else if s = "datboi:extractor@1" then .extractor1
  else .other s

theorem World.asStr_parse (s : String) : (World.parse s).asStr = s := by
  unfold World.parse
  split
  · rename_i heq
    exact heq.symm
  split
  · rename_i heq
    exact heq.symm
  · rfl

/-- A world that some wire spelling yields: a known one under another name is not. -/
def World.Parsed (world : World) : Prop := ∃ s, World.parse s = world

theorem World.Parsed.parse_asStr {world : World} (hparsed : world.Parsed) :
    World.parse world.asStr = world := by
  obtain ⟨s, rfl⟩ := hparsed
  rw [asStr_parse]

/-- The checks a recipe passes before it is encoded and after it is decoded. -/
def Recipe.validate (recipe : Recipe) : Except RecipeError Unit :=
  if recipe.outputs = [] then .error .noOutputs
  else if ((recipe.inputs.map InputRef.role ++ recipe.outputs.map OutputRef.name).filterMap id).any
      (· = "") then .error (.invalid "empty optional text field")
  else match recipe.op with
    | .builtin name _ =>
      if name = "" then .error (.invalid "empty builtin name") else .ok ()
    | .wasm _ world exportName =>
      if world.asStr = "" ∨ exportName = "" then .error (.invalid "empty wasm world or export")
      else .ok ()

namespace RecipeCodec

/-! ## Encoding -/

def opToValue : Op → Value
  | .builtin name major => .map
      [(opkeyKind, .text "b"),
        (opkeyNameOrComponent, .text name),
        (opkeyMajorOrWorld, .uint (UInt64.ofNat major))]
  | .wasm component world exportName => .map
      [(opkeyKind, .text "w"),
        (opkeyNameOrComponent, .bytes component.toBytes),
        (opkeyMajorOrWorld, .text world.asStr),
        (opkeyExport, .text exportName)]

def inputToValue (input : InputRef) : Value :=
  .map ([(refkeyHash, .bytes input.hash.toBytes)] ++ Fields.optEntry inkeyRole (input.role.map .text))

def outputToValue (output : OutputRef) : Value :=
  .map ([(refkeyHash, .bytes output.hash.toBytes), (outkeySize, .uint (UInt64.ofNat output.size))] ++
    Fields.optEntry outkeyName (output.name.map .text))

/-- Parameters, unless they are empty. -/
def paramsField (params : Bytes) : Option Value := if params = [] then none else some (.bytes params)

def toValue (recipe : Recipe) : Value :=
  .map ([(keyOp, opToValue recipe.op),
    (keyInputs, .array (recipe.inputs.map inputToValue)),
    (keyOutputs, .array (recipe.outputs.map outputToValue))] ++
    Fields.optEntry keyParams (paramsField recipe.params))

end RecipeCodec

open RecipeCodec in
/-- Encode to the canonical object bytes. -/
def Recipe.encode (recipe : Recipe) : Except RecipeError Bytes := do
  recipe.validate
  let body ← encodeBody (.panic "field keys are distinct constants") (toValue recipe)
  .ok (recipeHeader ++ body)

namespace RecipeCodec

/-! ## Decoding -/

structure BuiltinFields where
  name : Option String := none
  major : Option UInt32 := none

def builtinField (fields : BuiltinFields) (entry : UInt64 × Value) :
    Except RecipeError BuiltinFields :=
  if entry.1 = opkeyKind then .ok fields
  else if entry.1 = opkeyNameOrComponent then do
    let name ← asText .invalid entry.2
    .ok { fields with name := some name }
  else if entry.1 = opkeyMajorOrWorld then do
    let raw ← asUint .invalid entry.2
    if raw.toNat < 2 ^ 32 then .ok { fields with major := some raw.toUInt32 }
    else .error (.invalid "builtin major out of range")
  else .error (.invalid "unknown builtin op key")

structure WasmFields where
  component : Option Blake3 := none
  world : Option World := none
  exportName : Option String := none

def wasmField (fields : WasmFields) (entry : UInt64 × Value) : Except RecipeError WasmFields :=
  if entry.1 = opkeyKind then .ok fields
  else if entry.1 = opkeyNameOrComponent then do
    let component ← asHash .invalid entry.2
    .ok { fields with component := some component }
  else if entry.1 = opkeyMajorOrWorld then do
    let world ← asText .invalid entry.2
    .ok { fields with world := some (World.parse world) }
  else if entry.1 = opkeyExport then do
    let exportName ← asText .invalid entry.2
    .ok { fields with exportName := some exportName }
  else .error (.invalid "unknown wasm op key")

def opFromValue (v : Value) : Except RecipeError Op := do
  let entries ← asMap .invalid v
  let kind ← required .invalid (entries.find? fun entry => entry.1 = opkeyKind) "op missing kind"
  let kind ← asText .invalid kind.2
  if kind = "b" then do
    let fields ← entries.foldlM builtinField {}
    let name ← required .invalid fields.name "builtin missing name"
    let major ← required .invalid fields.major "builtin missing major"
    .ok (.builtin name major.toNat)
  else if kind = "w" then do
    let fields ← entries.foldlM wasmField {}
    let component ← required .invalid fields.component "wasm missing component"
    let world ← required .invalid fields.world "wasm missing world"
    let exportName ← required .invalid fields.exportName "wasm missing export"
    .ok (.wasm component world exportName)
  else .error (.invalid "unknown op kind")

/-- Parse every element of an array. -/
def refsFromValue {α : Type} (parse : Value → Except RecipeError α) :
    Value → Except RecipeError (List α)
  | .array items => items.mapM parse
  | _ => .error (.invalid "expected array")

structure InputFields where
  hash : Option Blake3 := none
  role : Option String := none

def inputField (fields : InputFields) (entry : UInt64 × Value) : Except RecipeError InputFields :=
  if entry.1 = refkeyHash then do
    let hash ← asHash .invalid entry.2
    .ok { fields with hash := some hash }
  else if entry.1 = inkeyRole then do
    let role ← asText .invalid entry.2
    .ok { fields with role := some role }
  else .error (.invalid "unknown input key")

def inputFromValue (v : Value) : Except RecipeError InputRef := do
  let entries ← asMap .invalid v
  let fields ← entries.foldlM inputField {}
  let hash ← required .invalid fields.hash "input missing hash"
  .ok ⟨hash, fields.role⟩

structure OutputFields where
  hash : Option Blake3 := none
  size : Option UInt64 := none
  name : Option String := none

def outputField (fields : OutputFields) (entry : UInt64 × Value) :
    Except RecipeError OutputFields :=
  if entry.1 = refkeyHash then do
    let hash ← asHash .invalid entry.2
    .ok { fields with hash := some hash }
  else if entry.1 = outkeySize then do
    let size ← asUint .invalid entry.2
    .ok { fields with size := some size }
  else if entry.1 = outkeyName then do
    let name ← asText .invalid entry.2
    .ok { fields with name := some name }
  else .error (.invalid "unknown output key")

def outputFromValue (v : Value) : Except RecipeError OutputRef := do
  let entries ← asMap .invalid v
  let fields ← entries.foldlM outputField {}
  let hash ← required .invalid fields.hash "output missing hash"
  let size ← required .invalid fields.size "output missing size"
  .ok ⟨hash, size.toNat, fields.name⟩

structure RecipeFields where
  op : Option Op := none
  inputs : Option (List InputRef) := none
  outputs : Option (List OutputRef) := none
  params : Bytes := []

def recipeField (fields : RecipeFields) (entry : UInt64 × Value) :
    Except RecipeError RecipeFields :=
  if entry.1 = keyOp then do
    let op ← opFromValue entry.2
    .ok { fields with op := some op }
  else if entry.1 = keyInputs then do
    let inputs ← refsFromValue inputFromValue entry.2
    .ok { fields with inputs := some inputs }
  else if entry.1 = keyOutputs then do
    let outputs ← refsFromValue outputFromValue entry.2
    .ok { fields with outputs := some outputs }
  else if entry.1 = keyParams then do
    let params ← asBytes .invalid entry.2
    if params = [] then .error (.invalid "params present but empty")
    else .ok { fields with params := params }
  else .error (.invalid "unknown recipe key")

def fromValue (v : Value) : Except RecipeError Recipe := do
  let entries ← asMap .invalid v
  let fields ← entries.foldlM recipeField {}
  let op ← required .invalid fields.op "missing op"
  let inputs ← required .invalid fields.inputs "missing inputs"
  let outputs ← required .invalid fields.outputs "missing outputs"
  let recipe : Recipe := ⟨op, inputs, outputs, fields.params⟩
  recipe.validate
  .ok recipe

end RecipeCodec

def Recipe.decode (bytes : Bytes) : Except RecipeError Recipe := do
  let body ← expectObject .notARecipe .version .recipe recipeVersion bytes
  let v ← decodeBody .cbor body
  RecipeCodec.fromValue v

end Datboi
