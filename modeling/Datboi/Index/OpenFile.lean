import Datboi.Index.Schema
import Mathlib.Logic.Function.Basic

/-!
# Opening a database file

Openers are processes that run `open_file` on one path. A step of an opener is one connection,
one read of a header field, one transaction or one stamp, and each of them is atomic. The path
names a file; a file that was deleted stays open for whoever has it open.
-/

namespace Datboi.OpenFile

open SqlBatch

/-- A database file. No function reads `applied`, the ladder steps that ran on the file. -/
structure DbFile where
  appId : Nat := 0
  userVersion : Nat := 0
  data : Database := {}
  applied : List Nat := []
  deriving DecidableEq, Repr

inductive OpenError where
  | sqlite
  | wrongApplicationId (found : Nat)
  | schemaVersion (found expected : Nat)
  deriving DecidableEq, Repr

/-- Where an opener stands. The number is the file that it has open. -/
inductive Phase where
  | start
  | opened (file : Nat)
  | readApp (file app : Nat)
  | creating (file : Nat)
  | stampApp (file : Nat)
  | stampVersion (file : Nat)
  | migrating (file step : Nat)
  | recreating
  | done (file : Nat)
  | failed (error : OpenError)
  | crashed
  deriving DecidableEq, Repr

namespace Phase

/-- The opener has created the tables and not yet stamped the version. -/
def inWindow : Phase → Bool
  | .stampApp _ | .stampVersion _ => true
  | .start | .opened _ | .readApp .. | .creating _ | .migrating .. | .recreating | .done _
  | .failed _ | .crashed => false

def ended : Phase → Bool
  | .done _ | .failed _ | .crashed => true
  | .start | .opened _ | .readApp .. | .creating _ | .stampApp _ | .stampVersion _
  | .migrating .. | .recreating => false

end Phase

namespace Schema

variable (schema : Schema)

/-- A migration that fails: the cache is deleted and created again, the other database is
never dropped. -/
def migrationFailed (error : OpenError) : Phase :=
  match schema.onOlder with
  | .migrateOrRecreate => .recreating
  | .migrate => .failed error

/-- The start of a migration, which is refused if the ladder does not reach. -/
def migrateInPlace (file found : Nat) : Phase :=
  if schema.version - 1 > schema.ladder.length ∨ found = 0 then
    schema.migrationFailed (.schemaVersion found schema.version)
  else .migrating file found

/-- What an opener does with a file, by the header that it has read. -/
def classify (file app found : Nat) : Phase :=
  if app = 0 ∧ found = 0 then .creating file
  else if app ≠ schema.appId then .failed (.wrongApplicationId app)
  else if found > schema.version then .failed (.schemaVersion found schema.version)
  else if found < schema.version then schema.migrateInPlace file found
  else .done file

end Schema

/-- The files by number, the path, the next number of a file, and the openers. -/
structure World where
  files : Nat → DbFile
  path : Option Nat
  nextFile : Nat
  phase : Nat → Phase

namespace World

/-- What the openers find: no file, or one file at the path. -/
def initial (file : Option DbFile) : World where
  files := fun _ => file.getD {}
  path := file.map fun _ => 0
  nextFile := if file.isSome then 1 else 0
  phase := fun _ => .start

def goto (w : World) (i : Nat) (phase : Phase) : World :=
  { w with phase := Function.update w.phase i phase }

def write (w : World) (file : Nat) (contents : DbFile) : World :=
  { w with files := Function.update w.files file contents }

/-- Open the file at the path, or an empty one that is created there. -/
def connect (w : World) (i : Nat) : World :=
  match w.path with
  | some file => w.goto i (.opened file)
  | none =>
    { w with
      files := Function.update w.files w.nextFile {}
      path := some w.nextFile
      nextFile := w.nextFile + 1
      phase := Function.update w.phase i (.opened w.nextFile) }

/-- Create the tables in a fresh file, in one transaction. -/
def create (schema : Schema) (w : World) (i file : Nat) : World :=
  match (w.files file).data.executeBatch schema.ddl with
  | none => w.goto i (.failed .sqlite)
  | some data => (w.write file { w.files file with data := data }).goto i (.stampApp file)

/-- One round of the migration's loop. The version is read again inside the transaction, which
runs the step and stamps the version after it. -/
def migrateStep (schema : Schema) (w : World) (i file step : Nat) : World :=
  if schema.version ≤ step then w.goto i (.done file)
  else if (w.files file).userVersion ≠ step then w.goto i (.migrating file (step + 1))
  else
    match (w.files file).data.executeBatch (schema.ladder.getD (step - 1) []) with
    | none => w.goto i (schema.migrationFailed .sqlite)
    | some data =>
      (w.write file
        { w.files file with
          data := data
          userVersion := step + 1
          applied := (w.files file).applied ++ [step] }).goto i (.migrating file (step + 1))

/-- The next step of an opener. -/
def step (schema : Schema) (w : World) (i : Nat) : World :=
  match w.phase i with
  | .start => w.connect i
  | .opened file => w.goto i (.readApp file (w.files file).appId)
  | .readApp file app => w.goto i (schema.classify file app (w.files file).userVersion)
  | .creating file => w.create schema i file
  | .stampApp file =>
    (w.write file { w.files file with appId := schema.appId }).goto i (.stampVersion file)
  | .stampVersion file =>
    (w.write file { w.files file with userVersion := schema.version }).goto i (.done file)
  | .migrating file step => w.migrateStep schema i file step
  | .recreating => { w with path := none }.goto i .start
  | .done _ | .failed _ | .crashed => w

end World

/-- An opener makes a step, or its process dies. -/
inductive Move where
  | step (i : Nat)
  | crash (i : Nat)
  deriving DecidableEq, Repr

def World.next (schema : Schema) (w : World) : Move → World
  | .step i => w.step schema i
  | .crash i => if (w.phase i).ended then w else w.goto i .crashed

end Datboi.OpenFile
