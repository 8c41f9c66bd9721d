import Mathlib.Data.List.Basic

/-!
# Batches of schema statements

A database is a list of tables with their rows, and the names of the indexes. A statement
fails on a name that exists already or that does not exist, as the case may be; a batch that
fails is a transaction rolled back. Whether a batch succeeds depends on the shape of the
database only, which is the database without its rows. Types and constraints are left out.
-/

namespace SqlBatch

inductive Value where
  | null
  | integer (value : Int)
  | text (value : String)
  | blob (value : List UInt8)
  deriving DecidableEq, Repr

structure Table where
  name : String
  columns : List String
  rows : List (List Value) := []
  deriving DecidableEq, Repr

/-- An index is its name and the table it is on. -/
structure Database where
  tables : List Table := []
  indexes : List (String × String) := []
  deriving DecidableEq, Repr

inductive Statement where
  | createTable (name : String) (columns : List String)
  | createIndex (name table : String)
  | dropTable (name : String)
  | dropIndex (name : String)
  | addColumn (table column : String) (default : Value)
  | dropColumn (table column : String)
  | insertRow (table : String) (row : List Value)
  | insertSelect (into : String) (columns : List String) (source : String)
  deriving DecidableEq, Repr

namespace Table

def addColumn (table : Table) (column : String) (default : Value) : Table :=
  { table with
    columns := table.columns ++ [column]
    rows := table.rows.map (· ++ [default]) }

def dropColumn (table : Table) (column : String) : Table :=
  { table with
    columns := table.columns.eraseIdx (table.columns.idxOf column)
    rows := table.rows.map (·.eraseIdx (table.columns.idxOf column)) }

def insert (table : Table) (rows : List (List Value)) : Table :=
  { table with rows := table.rows ++ rows }

/-- The values of a row in the named columns. -/
def project (table : Table) (columns : List String) (row : List Value) : List Value :=
  columns.map fun column => row.getD (table.columns.idxOf column) .null

/-- A table without its rows. -/
def shape (table : Table) : Table := { table with rows := [] }

theorem shape_shape (table : Table) : table.shape.shape = table.shape := rfl

/-- The second table has the columns and the rows of the first, with further columns that
hold one value each in those rows. -/
def Extends (table later : Table) : Prop :=
  later.name = table.name ∧ ∃ columns values, later.columns = table.columns ++ columns ∧
    later.rows = table.rows.map (· ++ values)

theorem Extends.refl (table : Table) : table.Extends table :=
  ⟨rfl, [], [], by simp, by simp⟩

theorem Extends.trans {a b c : Table} (hab : a.Extends b) (hbc : b.Extends c) : a.Extends c := by
  obtain ⟨hname, columns, values, hcolumns, hrows⟩ := hab
  obtain ⟨hname', columns', values', hcolumns', hrows'⟩ := hbc
  refine ⟨hname'.trans hname, columns ++ columns', values ++ values', ?_, ?_⟩
  · rw [hcolumns', hcolumns, List.append_assoc]
  · rw [hrows', hrows, List.map_map]
    refine List.map_congr_left fun row _ => ?_
    exact List.append_assoc row values values'

end Table

namespace Database

variable (db : Database)

def table? (name : String) : Option Table := db.tables.find? fun table => table.name = name

def mapTable (name : String) (f : Table → Table) : Database :=
  { db with tables := db.tables.map fun table => if table.name = name then f table else table }

def dropTable (name : String) : Database where
  tables := db.tables.filter fun table => table.name ≠ name
  indexes := db.indexes.filter fun index => index.2 ≠ name

def hasIndex (name : String) : Bool := db.indexes.any fun index => index.1 = name

def execute : Statement → Option Database
  | .createTable name columns =>
    if (db.table? name).isSome then none
    else some { db with tables := db.tables ++ [{ name := name, columns := columns }] }
  | .createIndex name table =>
    if db.hasIndex name ∨ (db.table? table).isNone then none
    else some { db with indexes := db.indexes ++ [(name, table)] }
  | .dropTable name => if (db.table? name).isNone then none else some (db.dropTable name)
  | .dropIndex name =>
    if db.hasIndex name then
      some { db with indexes := db.indexes.filter fun index => index.1 ≠ name }
    else none
  | .addColumn name column default =>
    match db.table? name with
    | none => none
    | some table =>
      if column ∈ table.columns then none
      else some (db.mapTable name (·.addColumn column default))
  | .dropColumn name column =>
    match db.table? name with
    | none => none
    | some table =>
      if column ∈ table.columns then some (db.mapTable name (·.dropColumn column)) else none
  | .insertRow name row =>
    match db.table? name with
    | none => none
    | some table =>
      if row.length = table.columns.length then some (db.mapTable name (·.insert [row]))
      else none
  | .insertSelect into columns source =>
    match db.table? into, db.table? source with
    | some target, some table =>
      if columns.length = target.columns.length ∧ ∀ column ∈ columns, column ∈ table.columns
      then some (db.mapTable into (·.insert (table.rows.map (table.project columns))))
      else none
    | _, _ => none

/-- The batch in one transaction. -/
def executeBatch (batch : List Statement) : Option Database := batch.foldlM execute db

def shape : Database := { db with tables := db.tables.map Table.shape }

/-! ## The shape decides whether a batch succeeds -/

theorem table?_shape (name : String) : db.shape.table? name = (db.table? name).map Table.shape := by
  unfold table? shape
  rw [List.find?_map]
  rfl

theorem shape_mapTable {name : String} {f g : Table → Table}
    (hshape : ∀ table, (f table.shape).shape = (g table).shape) :
    (db.shape.mapTable name f).shape = (db.mapTable name g).shape := by
  unfold mapTable shape
  simp only [List.map_map, mk.injEq, and_true]
  refine List.map_congr_left fun table _ => ?_
  simp only [Function.comp_apply]
  by_cases hname : table.name = name
  · rw [if_pos hname, if_pos (show table.shape.name = name from hname), hshape]
  · rw [if_neg hname, if_neg (show ¬table.shape.name = name from hname)]
    rfl

theorem execute_shape (statement : Statement) :
    (db.shape.execute statement).map shape = (db.execute statement).map shape := by
  cases statement with
  | createTable name columns =>
    simp only [execute, table?_shape, Option.isSome_map]
    split
    · rfl
    · simp [shape, Table.shape_shape]
  | createIndex name table =>
    simp only [execute, table?_shape, Option.isNone_map]
    by_cases hfree : db.hasIndex name = true ∨ (db.table? table).isNone = true
    · rw [if_pos hfree]
      exact congrArg (Option.map shape) (if_pos hfree)
    · rw [if_neg hfree]
      refine (congrArg (Option.map shape) (if_neg hfree)).trans ?_
      simp [shape, Table.shape_shape]
  | dropTable name =>
    simp only [execute, table?_shape, Option.isNone_map]
    split
    · rfl
    · simp only [Option.map_some, shape, dropTable, List.filter_map, List.map_map]
      rfl
  | dropIndex name =>
    simp only [execute]
    by_cases hindex : db.hasIndex name = true
    · rw [if_pos hindex, if_pos (show db.shape.hasIndex name = true from hindex)]
      simp [shape, Table.shape_shape]
    · rw [if_neg hindex, if_neg (show ¬db.shape.hasIndex name = true from hindex)]
  | addColumn name column default =>
    simp only [execute, table?_shape]
    cases db.table? name with
    | none => rfl
    | some table =>
      simp only [Option.map_some, Table.shape]
      split
      · rfl
      · exact congrArg some (shape_mapTable db fun table => rfl)
  | dropColumn name column =>
    simp only [execute, table?_shape]
    cases db.table? name with
    | none => rfl
    | some table =>
      simp only [Option.map_some, Table.shape]
      split
      · exact congrArg some (shape_mapTable db fun table => rfl)
      · rfl
  | insertRow name row =>
    simp only [execute, table?_shape]
    cases db.table? name with
    | none => rfl
    | some table =>
      simp only [Option.map_some, Table.shape]
      split
      · exact congrArg some (shape_mapTable db fun table => rfl)
      · rfl
  | insertSelect into columns source =>
    simp only [execute, table?_shape]
    cases db.table? into with
    | none => rfl
    | some target =>
      cases db.table? source with
      | none => rfl
      | some table =>
        simp only [Option.map_some, Table.shape]
        split
        · exact congrArg some (shape_mapTable db fun table => rfl)
        · rfl

variable {db}

theorem execute_congr {other : Database} (hshape : db.shape = other.shape)
    (statement : Statement) :
    (db.execute statement).map shape = (other.execute statement).map shape := by
  rw [← execute_shape db, ← execute_shape other, hshape]

theorem executeBatch_congr {other : Database} (hshape : db.shape = other.shape)
    (batch : List Statement) :
    (db.executeBatch batch).map shape = (other.executeBatch batch).map shape := by
  induction batch generalizing db other with
  | nil => exact congrArg some hshape
  | cons statement batch ih =>
    have hfirst := execute_congr hshape statement
    unfold executeBatch
    rw [List.foldlM_cons, List.foldlM_cons]
    cases hdb : db.execute statement with
    | none =>
      rw [hdb, Option.map_none] at hfirst
      rw [Option.map_eq_none_iff.mp hfirst.symm]
    | some next =>
      rw [hdb, Option.map_some] at hfirst
      obtain ⟨next', hother, hnext⟩ := Option.map_eq_some_iff.mp hfirst.symm
      rw [hother]
      exact ih hnext.symm

/-- Two batches in turn are one batch. -/
theorem executeBatch_append (first second : List Statement) :
    db.executeBatch (first ++ second) =
      (db.executeBatch first).bind fun next => next.executeBatch second :=
  List.foldlM_append

/-- A database with the shape of one that a batch succeeds on. -/
theorem executeBatch_of_shape {other next : Database} {batch : List Statement}
    (hshape : db.shape = other.shape) (hother : other.executeBatch batch = some next) :
    ∃ later, db.executeBatch batch = some later ∧ later.shape = next.shape := by
  have hcongr := executeBatch_congr hshape batch
  rw [hother, Option.map_some] at hcongr
  obtain ⟨later, hlater, heq⟩ := Option.map_eq_some_iff.mp hcongr
  exact ⟨later, hlater, heq⟩

end Database

/-! ## Additive batches -/

/-- The statements that add to the database and leave what is there. -/
def Statement.additive : Statement → Bool
  | .createTable .. | .createIndex .. | .addColumn .. => true
  | .dropTable _ | .dropIndex _ | .dropColumn .. | .insertRow .. | .insertSelect .. => false

namespace Database

/-- Every table of the first database is in the second, extended. -/
def Extends (db later : Database) : Prop :=
  ∀ table ∈ db.tables, ∃ table' ∈ later.tables, table.Extends table'

theorem Extends.refl (db : Database) : db.Extends db :=
  fun table hmem => ⟨table, hmem, Table.Extends.refl table⟩

theorem Extends.trans {a b c : Database} (hab : a.Extends b) (hbc : b.Extends c) :
    a.Extends c := by
  intro table hmem
  obtain ⟨middle, hmiddle, hfirst⟩ := hab table hmem
  obtain ⟨last, hlast, hsecond⟩ := hbc middle hmiddle
  exact ⟨last, hlast, hfirst.trans hsecond⟩

theorem extends_addColumn (db : Database) (name column : String) (default : Value) :
    db.Extends (db.mapTable name (·.addColumn column default)) := by
  intro table hmem
  refine ⟨_, List.mem_map.mpr ⟨table, hmem, rfl⟩, ?_⟩
  dsimp only
  split
  · exact ⟨rfl, [column], [default], rfl, rfl⟩
  · exact Table.Extends.refl table

theorem execute_extends {db next : Database} {statement : Statement}
    (hadditive : statement.additive = true) (hnext : db.execute statement = some next) :
    db.Extends next := by
  cases statement with
  | createTable name columns =>
    simp only [execute, Option.ite_none_left_eq_some, Option.some.injEq] at hnext
    rw [← hnext.2]
    exact fun table hmem => ⟨table, List.mem_append_left _ hmem, Table.Extends.refl table⟩
  | createIndex name table =>
    simp only [execute, Option.ite_none_left_eq_some, Option.some.injEq] at hnext
    rw [← hnext.2]
    exact fun table hmem => ⟨table, hmem, Table.Extends.refl table⟩
  | addColumn name column default =>
    simp only [execute] at hnext
    split at hnext
    · cases hnext
    · rw [Option.ite_none_left_eq_some, Option.some.injEq] at hnext
      rw [← hnext.2]
      exact extends_addColumn db name column default
  | dropTable name => cases hadditive
  | dropIndex name => cases hadditive
  | dropColumn name column => cases hadditive
  | insertRow name row => cases hadditive
  | insertSelect into columns source => cases hadditive

theorem executeBatch_extends {db next : Database} {batch : List Statement}
    (hadditive : ∀ statement ∈ batch, statement.additive = true)
    (hnext : db.executeBatch batch = some next) : db.Extends next := by
  induction batch generalizing db with
  | nil =>
    obtain rfl : db = next := Option.some.inj hnext
    exact Extends.refl db
  | cons statement batch ih =>
    unfold executeBatch at hnext
    rw [List.foldlM_cons] at hnext
    obtain ⟨middle, hmiddle, hrest⟩ := Option.bind_eq_some_iff.mp hnext
    exact (execute_extends (hadditive statement List.mem_cons_self) hmiddle).trans
      (ih (fun other hother => hadditive other (List.mem_cons_of_mem _ hother)) hrest)

end Database

end SqlBatch
