import Mathlib.Algebra.Group.Int.Defs
import Mathlib.Algebra.GroupWithZero.Nat

/-!
# Content addresses and recipes

A blob is addressed by its BLAKE3 digest. A recipe object says that an operation,
applied to the listed inputs, yields the listed outputs; several recipes may claim
one output, and chains of recipes may form cycles.
-/

namespace Datboi

/-- A 32-byte digest. -/
abbrev Blake3 := BitVec 256

instance : LawfulBEq Blake3 := inferInstance

abbrev Bytes := List UInt8

/-- The component worlds an `Op.wasm` may name. -/
inductive World where
  | transform1
  | extractor1
  | other (name : String)
  deriving DecidableEq, Repr

/-- The text form of a world, as recipes spell it. -/
def World.asStr : World → String
  | .transform1 => "datboi:transform@1"
  | .extractor1 => "datboi:extractor@1"
  | .other name => name

/-- The export a world fixes, if it has only one. -/
def World.requiredExport : World → Option String
  | .transform1 => none
  | .extractor1 => some "extract"
  | .other _ => none

inductive Op where
  | builtin (name : String) (major : Nat)
  | wasm (component : Blake3) (world : World) (exportName : String)
  deriving DecidableEq, Repr

/-- The component blob an operation runs, for the component worlds. -/
def Op.component? : Op → Option Blake3
  | .builtin _ _ => none
  | .wasm component _ _ => some component

structure InputRef where
  hash : Blake3
  role : Option String := none
  deriving DecidableEq, Repr

structure OutputRef where
  hash : Blake3
  size : Nat
  name : Option String := none
  deriving DecidableEq, Repr

structure Recipe where
  op : Op
  inputs : List InputRef
  outputs : List OutputRef
  params : Bytes
  deriving DecidableEq, Repr

/-- The outputs a recipe claims, each with its size. -/
def Recipe.claims (recipe : Recipe) : List (Blake3 × Nat) :=
  recipe.outputs.map fun output => (output.hash, output.size)

end Datboi
