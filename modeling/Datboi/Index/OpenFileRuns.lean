import Datboi.Index.OpenFile
import Datboi.Lib.Runs
import Mathlib.Data.List.GetD
import Mathlib.Logic.Function.Iterate

/-!
# Opening over runs

Any number of openers take steps in any order, and any of them may die between two steps. A
fresh file gets its tables in one transaction and its two stamps after it, and an opener that
dies in between leaves a file that no later opener accepts. In the runs where none does, a
later opener succeeds, each step of the ladder has run once, and an existing state.db has all
its rows.
-/

namespace Datboi.OpenFile

open SqlBatch

/-! ## What is known of the schemas -/

namespace Schema

variable (schema : Schema)

/-- A database that was created at version 1 and migrated to a version. -/
def built (version : Nat) : Option Database :=
  ({} : Database).executeBatch (schema.floor ++ (schema.ladder.take (version - 1)).flatten)

/-- The database of a fresh file. -/
def fresh : Database := (({} : Database).executeBatch schema.ddl).getD {}

/-- The data has the shape of a version. -/
def Valid (version : Nat) (data : Database) : Prop :=
  (∃ db, schema.built version = some db ∧ data.shape = db.shape) ∨
    version = schema.version ∧ data.shape = schema.fresh.shape

def SameTables (db other : Database) : Prop :=
  (∀ table ∈ db.shape.tables, table ∈ other.shape.tables) ∧
    ∀ table ∈ other.shape.tables, table ∈ db.shape.tables

instance (db other : Database) : Decidable (SameTables db other) :=
  inferInstanceAs (Decidable (_ ∧ _))

def Additive : Prop := ∀ batch ∈ schema.ladder, ∀ statement ∈ batch, statement.additive = true

structure Lawful : Prop where
  appId : schema.appId ≠ 0
  version : 1 ≤ schema.version
  long : schema.version ≤ schema.ladder.length + 1
  fresh : ({} : Database).executeBatch schema.ddl = some schema.fresh
  conflict : schema.fresh.executeBatch schema.ddl = none
  built : ∀ version ∈ List.range' 1 schema.version, (schema.built version).isSome = true
  same : ∀ db, schema.built schema.version = some db → SameTables db schema.fresh

theorem stateSchema_lawful : stateSchema.Lawful where
  appId := by decide
  version := by decide
  long := by decide
  fresh := by decide +kernel
  conflict := by decide +kernel
  built := by decide +kernel
  same := by decide +kernel

theorem cacheSchema_lawful : cacheSchema.Lawful where
  appId := by decide
  version := by decide
  long := by decide
  fresh := by decide +kernel
  conflict := by decide +kernel
  built := by decide +kernel
  same := by decide +kernel

theorem stateSchema_additive : stateSchema.Additive := by
  unfold Additive
  decide

end Schema

namespace Schema

variable {schema : Schema}

/-- A step of the ladder takes data of its version to data of the next one. -/
theorem Lawful.valid_step (hlawful : schema.Lawful) {version : Nat} {data : Database}
    (hpos : 1 ≤ version) (hlt : version < schema.version) (hvalid : schema.Valid version data) :
    ∃ later, data.executeBatch (schema.ladder.getD (version - 1) []) = some later ∧
      schema.Valid (version + 1) later := by
  obtain ⟨db, hdb, hshape⟩ := hvalid.resolve_right fun heq => by omega
  have hnext : schema.built (version + 1) =
      (schema.built version).bind
        fun db => db.executeBatch (schema.ladder.getD (version - 1) []) := by
    have htake : schema.ladder.take version =
        schema.ladder.take (version - 1) ++ [schema.ladder.getD (version - 1) []] := by
      have hlong := hlawful.long
      have hin : version - 1 < schema.ladder.length := by omega
      rw [List.getD_eq_getElem _ _ hin, ← List.take_succ_eq_append_getElem hin,
        Nat.sub_add_cancel hpos]
    unfold Schema.built
    rw [Nat.add_sub_cancel, htake, List.flatten_append, ← List.append_assoc,
      Database.executeBatch_append, List.flatten_singleton]
  have hsome := hlawful.built (version + 1) (List.mem_range'_1.mpr ⟨by omega, by omega⟩)
  obtain ⟨next, hbuilt⟩ := Option.isSome_iff_exists.mp hsome
  rw [hnext, hdb, Option.bind_some] at hbuilt
  obtain ⟨later, hlater, heq⟩ := Database.executeBatch_of_shape hshape hbuilt
  refine ⟨later, hlater, Or.inl ⟨next, ?_, heq⟩⟩
  rw [hnext, hdb, Option.bind_some, hbuilt]

theorem Lawful.sameTables (hlawful : schema.Lawful) {data : Database}
    (hvalid : schema.Valid schema.version data) : SameTables data schema.fresh := by
  rcases hvalid with ⟨db, hdb, hshape⟩ | ⟨-, hshape⟩
  · have hsame := hlawful.same db hdb
    unfold SameTables at hsame ⊢
    rwa [hshape]
  · unfold SameTables
    rw [hshape]
    exact ⟨fun _ hmem => hmem, fun _ hmem => hmem⟩

end Schema

namespace Phase

/-- The file that an opener has open. -/
def file : Phase → Option Nat
  | .opened file | .readApp file _ | .creating file | .stampApp file | .stampVersion file
  | .migrating file _ | .done file => some file
  | .start | .recreating | .failed _ | .crashed => none

/-- The file that an opener has created and not stamped. -/
def creates : Phase → Option Nat
  | .stampApp file | .stampVersion file => some file
  | .start | .opened _ | .readApp .. | .creating _ | .migrating .. | .recreating | .done _
  | .failed _ | .crashed => none

theorem creates_eq_none {phase : Phase} (hwindow : phase.inWindow = false) :
    phase.creates = none := by
  cases phase <;> first | rfl | cases hwindow

end Phase

/-- No process dies between creating the tables of a file and stamping the file. -/
def Allowed (w : World) (move : Move) : Prop :=
  ∀ i, move = .crash i → (w.phase i).inWindow = false

namespace World

variable {schema : Schema} {w : World} {i j file : Nat} {phase : Phase}

@[simp] theorem goto_phase_self : (w.goto i phase).phase i = phase := Function.update_self ..

theorem goto_phase_of_ne (hne : j ≠ i) : (w.goto i phase).phase j = w.phase j :=
  Function.update_of_ne hne ..

@[simp] theorem goto_files : (w.goto i phase).files = w.files := rfl

variable {contents : DbFile} {n : Nat}

@[simp] theorem write_phase : (w.write file contents).phase = w.phase := rfl

@[simp] theorem write_self :
    (w.write file contents).files file = contents := Function.update_self ..

theorem write_of_ne {other : Nat} (hne : other ≠ file) :
    (w.write file contents).files other = w.files other := Function.update_of_ne hne ..

/-! ## Files that start from nothing -/

variable (schema) in
/-- The file after its tables were created, after its first stamp, and after its second. -/
def tablesOnly : DbFile := { data := schema.fresh }

variable (schema) in
def appStamped : DbFile := { appId := schema.appId, data := schema.fresh }

variable (schema) in
def current : DbFile :=
  { appId := schema.appId, userVersion := schema.version, data := schema.fresh }

/-- Every file is empty, current, or being created by an opener that is alive. -/
structure SoundFresh (schema : Schema) (w : World) : Prop where
  pathLt : ∀ file, w.path = some file → file < w.nextFile
  fileLt : ∀ i file, (w.phase i).file = some file → file < w.nextFile
  tables : ∀ i file, w.phase i = .stampApp file → w.files file = tablesOnly schema
  stamped : ∀ i file, w.phase i = .stampVersion file → w.files file = appStamped schema
  unique : ∀ i j file, (w.phase i).creates = some file → (w.phase j).creates = some file → i = j
  files : ∀ file < w.nextFile, w.files file = {} ∨ w.files file = current schema ∨
    ∃ i, (w.phase i).creates = some file
  done : ∀ i file, w.phase i = .done file → w.files file = current schema
  readApp : ∀ i file app, w.phase i = .readApp file app → app = 0 ∨ app = schema.appId
  notMigrating : ∀ i file step, w.phase i ≠ .migrating file step

section

variable (hsound : SoundFresh schema w)

include hsound

/-- A move of an opener that neither writes nor enters or leaves a creation. -/
theorem goto_sound (hold : (w.phase i).creates = none) (hnew : phase.creates = none)
    (hfile : ∀ file, phase.file = some file → file < w.nextFile)
    (hdone : ∀ file, phase = .done file → w.files file = current schema)
    (hread : ∀ file app, phase = .readApp file app → app = 0 ∨ app = schema.appId)
    (hmigrating : ∀ file step, phase = .migrating file step → False) :
    SoundFresh schema (w.goto i phase) := by
  have hcases : ∀ j, (w.goto i phase).phase j = phase ∨
      (w.goto i phase).phase j = w.phase j := by
    intro j
    by_cases hne : j = i
    · subst hne
      exact Or.inl goto_phase_self
    · exact Or.inr (goto_phase_of_ne hne)
  have hcreates : ∀ {j file}, ((w.goto i phase).phase j).creates = some file →
      (w.phase j).creates = some file := by
    intro j file hj
    rcases hcases j with heq | heq
    · rw [heq, hnew] at hj
      cases hj
    · rwa [heq] at hj
  refine ⟨hsound.pathLt, ?_, ?_, ?_, ?_, ?_, ?_, ?_, ?_⟩
  · intro j file hj
    rcases hcases j with heq | heq
    · exact hfile file (heq ▸ hj)
    · exact hsound.fileLt j file (heq ▸ hj)
  · intro j file hj
    rcases hcases j with heq | heq
    · rw [← heq, hj] at hnew
      cases hnew
    · exact hsound.tables j file (heq ▸ hj)
  · intro j file hj
    rcases hcases j with heq | heq
    · rw [← heq, hj] at hnew
      cases hnew
    · exact hsound.stamped j file (heq ▸ hj)
  · intro j k file hj hk
    exact hsound.unique j k file (hcreates hj) (hcreates hk)
  · intro file hlt
    refine (hsound.files file hlt).imp_right (Or.imp_right ?_)
    intro hcreator
    obtain ⟨j, hj⟩ := hcreator
    refine ⟨j, ?_⟩
    rw [goto_phase_of_ne, hj]
    intro heq
    rw [← heq, hj] at hold
    cases hold
  · intro j file hj
    rcases hcases j with heq | heq
    · exact hdone file (heq ▸ hj)
    · exact hsound.done j file (heq ▸ hj)
  · intro j file app hj
    rcases hcases j with heq | heq
    · exact hread file app (heq ▸ hj)
    · exact hsound.readApp j file app (heq ▸ hj)
  · intro j file step hj
    rcases hcases j with heq | heq
    · exact hmigrating file step (heq ▸ hj)
    · exact hsound.notMigrating j file step (heq ▸ hj)

/-- An opener writes to the file that it creates, which no other opener is at. -/
theorem advance_sound (hlt : file < w.nextFile)
    (halone : ∀ j, j ≠ i → (w.phase j).creates ≠ some file)
    (hown : ∀ other, (w.phase i).creates = some other → other = file)
    (hnotDone : w.files file ≠ current schema)
    (hstage : phase = .stampApp file ∧ contents = tablesOnly schema ∨
      phase = .stampVersion file ∧ contents = appStamped schema ∨
      phase = .done file ∧ contents = current schema) :
    SoundFresh schema ((w.write file contents).goto i phase) := by
  have hcases : ∀ j, (j = i ∧ ((w.write file contents).goto i phase).phase j = phase) ∨
      (j ≠ i ∧ ((w.write file contents).goto i phase).phase j = w.phase j) := by
    intro j
    by_cases hne : j = i
    · subst hne
      exact Or.inl ⟨rfl, goto_phase_self⟩
    · exact Or.inr ⟨hne, goto_phase_of_ne hne⟩
  have hself : ((w.write file contents).goto i phase).files file = contents := write_self
  have hother : ∀ {other}, other ≠ file →
      ((w.write file contents).goto i phase).files other = w.files other := write_of_ne
  have hfile : phase.file = some file ∧ ∀ other, phase.creates = some other → other = file := by
    rcases hstage with ⟨rfl, -⟩ | ⟨rfl, -⟩ | ⟨rfl, -⟩
    · exact ⟨rfl, fun other heq => (Option.some.inj heq).symm⟩
    · exact ⟨rfl, fun other heq => (Option.some.inj heq).symm⟩
    · exact ⟨rfl, fun other heq => by cases heq⟩
  have hne : ∀ {j other}, j ≠ i → (w.phase j).creates = some other → other ≠ file :=
    fun hj hcreates heq => halone _ hj (heq ▸ hcreates)
  refine ⟨hsound.pathLt, ?_, ?_, ?_, ?_, ?_, ?_, ?_, ?_⟩
  · intro j other hj
    rcases hcases j with ⟨-, heq⟩ | ⟨-, heq⟩
    · rw [heq, hfile.1, Option.some.injEq] at hj
      exact hj ▸ hlt
    · exact hsound.fileLt j other (heq ▸ hj)
  · intro j other hj
    rcases hcases j with ⟨-, heq⟩ | ⟨hji, heq⟩
    · rw [heq] at hj
      subst hj
      rcases hstage with ⟨hphase, hcontents⟩ | ⟨hphase, -⟩ | ⟨hphase, -⟩
      · obtain rfl : other = file := Phase.stampApp.inj hphase
        rw [hself, hcontents]
      · cases hphase
      · cases hphase
    · rw [heq] at hj
      rw [hother (hne hji (by rw [hj]; rfl))]
      exact hsound.tables j other hj
  · intro j other hj
    rcases hcases j with ⟨-, heq⟩ | ⟨hji, heq⟩
    · rw [heq] at hj
      subst hj
      rcases hstage with ⟨hphase, -⟩ | ⟨hphase, hcontents⟩ | ⟨hphase, -⟩
      · cases hphase
      · obtain rfl : other = file := Phase.stampVersion.inj hphase
        rw [hself, hcontents]
      · cases hphase
    · rw [heq] at hj
      rw [hother (hne hji (by rw [hj]; rfl))]
      exact hsound.stamped j other hj
  · intro j k other hj hk
    rcases hcases j with ⟨rfl, hj'⟩ | ⟨hji, hj'⟩
    · rcases hcases k with ⟨rfl, -⟩ | ⟨hki, hk'⟩
      · rfl
      · rw [hj'] at hj
        rw [hk', hfile.2 other hj] at hk
        exact absurd hk (halone k hki)
    · rw [hj'] at hj
      rcases hcases k with ⟨rfl, hk'⟩ | ⟨-, hk'⟩
      · rw [hk'] at hk
        rw [hfile.2 other hk] at hj
        exact absurd hj (halone j hji)
      · exact hsound.unique j k other hj (hk' ▸ hk)
  · intro other hother'
    by_cases heq : other = file
    · subst heq
      rcases hstage with ⟨rfl, -⟩ | ⟨rfl, -⟩ | ⟨-, hcontents⟩
      · exact Or.inr (Or.inr ⟨i, by rw [goto_phase_self]; rfl⟩)
      · exact Or.inr (Or.inr ⟨i, by rw [goto_phase_self]; rfl⟩)
      · exact Or.inr (Or.inl (hself.trans hcontents))
    · rw [hother heq]
      refine (hsound.files other hother').imp_right (Or.imp_right ?_)
      intro hcreator
      obtain ⟨j, hj⟩ := hcreator
      refine ⟨j, ?_⟩
      rw [goto_phase_of_ne, write_phase, hj]
      intro hji
      exact heq (hown other (hji ▸ hj))
  · intro j other hj
    rcases hcases j with ⟨-, heq⟩ | ⟨-, heq⟩
    · rw [heq] at hj
      subst hj
      rcases hstage with ⟨hphase, -⟩ | ⟨hphase, -⟩ | ⟨hphase, hcontents⟩
      · cases hphase
      · cases hphase
      · obtain rfl : other = file := Phase.done.inj hphase
        rw [hself, hcontents]
    · rw [heq] at hj
      have hcurrent := hsound.done j other hj
      rwa [hother]
      intro hsame
      exact hnotDone (hsame ▸ hcurrent)
  · intro j other app hj
    rcases hcases j with ⟨-, heq⟩ | ⟨-, heq⟩
    · rw [heq] at hj
      subst hj
      rcases hstage with ⟨hphase, -⟩ | ⟨hphase, -⟩ | ⟨hphase, -⟩ <;> cases hphase
    · exact hsound.readApp j other app (heq ▸ hj)
  · intro j other step hj
    rcases hcases j with ⟨-, heq⟩ | ⟨-, heq⟩
    · rw [heq] at hj
      subst hj
      rcases hstage with ⟨hphase, -⟩ | ⟨hphase, -⟩ | ⟨hphase, -⟩ <;> cases hphase
    · exact hsound.notMigrating j other step (heq ▸ hj)

theorem connect_sound (hold : (w.phase i).creates = none) : SoundFresh schema (w.connect i) := by
  unfold connect
  cases hpath : w.path with
  | some file =>
    refine goto_sound hsound hold rfl ?_ ?_ ?_ ?_
    · intro other heq
      rw [← Option.some.inj heq]
      exact hsound.pathLt file hpath
    · intro other heq
      cases heq
    · intro other app heq
      cases heq
    · intro other step heq
      cases heq
  | none =>
    -- the new file is empty, and the openers are at the files there were
    have hgoto : SoundFresh schema ({ w with
        files := Function.update w.files w.nextFile {}
        path := some w.nextFile
        nextFile := w.nextFile + 1 } : World) := by
      have hfiles : ∀ {file}, file < w.nextFile →
          Function.update w.files w.nextFile {} file = w.files file :=
        fun hlt => Function.update_of_ne (Nat.ne_of_lt hlt) ..
      refine ⟨?_, ?_, ?_, ?_, hsound.unique, ?_, ?_, hsound.readApp, hsound.notMigrating⟩
      · intro file heq
        rw [← Option.some.inj heq]
        exact Nat.lt_succ_self _
      · exact fun j file hj => Nat.lt_succ_of_lt (hsound.fileLt j file hj)
      · intro j file hj
        exact (hfiles (hsound.fileLt j file (by rw [hj]; rfl))).trans (hsound.tables j file hj)
      · intro j file hj
        exact (hfiles (hsound.fileLt j file (by rw [hj]; rfl))).trans (hsound.stamped j file hj)
      · intro file hlt
        rcases Nat.lt_succ_iff_lt_or_eq.mp hlt with hlt | rfl
        · have hfile := hsound.files file hlt
          rwa [← hfiles hlt] at hfile
        · exact Or.inl (Function.update_self ..)
      · intro j file hj
        exact (hfiles (hsound.fileLt j file (by rw [hj]; rfl))).trans (hsound.done j file hj)
    refine goto_sound hgoto hold rfl ?_ ?_ ?_ ?_
    · intro other heq
      rw [← Option.some.inj heq]
      exact Nat.lt_succ_self _
    · intro other heq
      cases heq
    · intro other app heq
      cases heq
    · intro other step heq
      cases heq

theorem recreate_sound (hold : (w.phase i).creates = none) :
    SoundFresh schema ({ w with path := none }.goto i .start) := by
  have hpath : SoundFresh schema { w with path := none } :=
    ⟨fun file heq => (by cases heq), hsound.fileLt, hsound.tables, hsound.stamped, hsound.unique,
      hsound.files, hsound.done, hsound.readApp, hsound.notMigrating⟩
  refine goto_sound hpath hold rfl ?_ ?_ ?_ ?_ <;> intros <;> contradiction

end

section

variable (hlawful : schema.Lawful) (hsound : SoundFresh schema w)

include hlawful hsound

/-- The database of a file decides whether the tables can be created in it. -/
theorem create_sound (hphase : w.phase i = .creating file) :
    SoundFresh schema (w.create schema i file) := by
  have hlt : file < w.nextFile := hsound.fileLt i file (by rw [hphase]; rfl)
  have hold : (w.phase i).creates = none := by rw [hphase]; rfl
  have hfailed : SoundFresh schema (w.goto i (.failed .sqlite)) := by
    refine goto_sound hsound hold rfl ?_ ?_ ?_ ?_ <;> intros <;> contradiction
  have hconflict : (w.files file).data = schema.fresh →
      SoundFresh schema (w.create schema i file) := by
    intro hdata
    rw [create, hdata, hlawful.conflict]
    exact hfailed
  rcases hsound.files file hlt with hempty | hcurrent | ⟨j, hj⟩
  · rw [create, hempty, hlawful.fresh]
    refine advance_sound hsound hlt ?_ ?_ ?_ (Or.inl ⟨rfl, rfl⟩)
    · intro j _ hj
      have happ : ∀ contents : DbFile, w.files file = contents → contents.data = schema.fresh →
          False := by
        intro contents heq hdata
        have hfresh := hlawful.fresh
        have hconf := hlawful.conflict
        rw [← hdata, ← heq, hempty] at hconf
        rw [hconf] at hfresh
        cases hfresh
      cases hphase : w.phase j <;> rw [hphase] at hj <;> try cases hj
      · exact happ _ (hsound.tables j file hphase) rfl
      · exact happ _ (hsound.stamped j file hphase) rfl
    · intro other heq
      rw [hold] at heq
      cases heq
    · intro heq
      rw [hempty] at heq
      exact hlawful.appId (congrArg DbFile.appId heq).symm
  · exact hconflict (by rw [hcurrent]; rfl)
  · cases hphase : w.phase j <;> rw [hphase] at hj <;> try cases hj
    · exact hconflict (by rw [hsound.tables j file hphase]; rfl)
    · exact hconflict (by rw [hsound.stamped j file hphase]; rfl)

/-- What an opener does with the header of a fresh file. -/
theorem classify_sound {app : Nat} (hphase : w.phase i = .readApp file app) :
    SoundFresh schema (w.goto i (schema.classify file app (w.files file).userVersion)) := by
  have hlt : file < w.nextFile := hsound.fileLt i file (by rw [hphase]; rfl)
  have hold : (w.phase i).creates = none := by rw [hphase]; rfl
  have hversion : (w.files file).userVersion = 0 ∨ w.files file = current schema := by
    rcases hsound.files file hlt with hempty | hcurrent | ⟨j, hj⟩
    · exact Or.inl (by rw [hempty])
    · exact Or.inr hcurrent
    · cases hphase : w.phase j <;> rw [hphase] at hj <;> try cases hj
      · exact Or.inl (by rw [hsound.tables j file hphase]; rfl)
      · exact Or.inl (by rw [hsound.stamped j file hphase]; rfl)
  have hpos := hlawful.version
  unfold Schema.classify
  split_ifs with hzero happ hnewer holder
  · refine goto_sound hsound hold rfl ?_ ?_ ?_ ?_ <;> intros <;> try contradiction
    rename_i heq
    rwa [← Option.some.inj heq]
  · refine goto_sound hsound hold rfl ?_ ?_ ?_ ?_ <;> intros <;> contradiction
  · refine goto_sound hsound hold rfl ?_ ?_ ?_ ?_ <;> intros <;> contradiction
  · rcases hversion with hversion | hcurrent
    · rw [Schema.migrateInPlace, if_pos (Or.inr hversion), Schema.migrationFailed]
      cases schema.onOlder <;> dsimp only <;>
        refine goto_sound hsound hold rfl ?_ ?_ ?_ ?_ <;> intros <;> contradiction
    · rw [hcurrent] at holder
      exact absurd holder (Nat.lt_irrefl _)
  · have hcurrent : w.files file = current schema := by
      refine hversion.resolve_left ?_
      intro hzero
      omega
    refine goto_sound hsound hold rfl ?_ ?_ ?_ ?_ <;> intros <;> try contradiction
    · rename_i heq
      rwa [← Option.some.inj heq]
    · rename_i heq
      obtain rfl := Phase.done.inj heq
      exact hcurrent

theorem step_sound (i : Nat) : SoundFresh schema (w.step schema i) := by
  have hwindow : ∀ {file}, (w.phase i).creates = some file →
      file < w.nextFile ∧ (∀ j, j ≠ i → (w.phase j).creates ≠ some file) ∧
        (∀ other, (w.phase i).creates = some other → other = file) := by
    intro file hi
    refine ⟨?_, ?_, ?_⟩
    · refine hsound.fileLt i file ?_
      cases hphase : w.phase i <;> rw [hphase] at hi <;> first | exact hi | cases hi
    · exact fun j hne hj => hne (hsound.unique j i file hj hi)
    · intro other hother
      rw [hi] at hother
      exact (Option.some.inj hother).symm
  unfold step
  split
  · rename_i hphase
    exact connect_sound hsound (by rw [hphase]; rfl)
  · rename_i file hphase
    have hlt : file < w.nextFile := hsound.fileLt i file (by rw [hphase]; rfl)
    refine goto_sound hsound (by rw [hphase]; rfl) rfl ?_ ?_ ?_ ?_ <;> intros <;> try contradiction
    · rename_i heq
      rwa [← Option.some.inj heq]
    · rename_i heq
      obtain ⟨rfl, rfl⟩ := Phase.readApp.inj heq
      rcases hsound.files file hlt with hempty | hcurrent | ⟨j, hj⟩
      · exact Or.inl (by rw [hempty])
      · exact Or.inr (by rw [hcurrent]; rfl)
      · cases hphase : w.phase j <;> rw [hphase] at hj <;> try cases hj
        · exact Or.inl (by rw [hsound.tables j file hphase]; rfl)
        · exact Or.inr (by rw [hsound.stamped j file hphase]; rfl)
  · rename_i file app hphase
    exact classify_sound hlawful hsound hphase
  · rename_i file hphase
    exact create_sound hlawful hsound hphase
  · rename_i file hphase
    obtain ⟨hlt, halone, hown⟩ := hwindow (by rw [hphase]; rfl)
    have hfile := hsound.tables i file hphase
    refine advance_sound hsound hlt halone hown ?_ (Or.inr (Or.inl ⟨rfl, ?_⟩))
    · intro heq
      rw [hfile] at heq
      exact hlawful.appId (congrArg DbFile.appId heq).symm
    · rw [hfile]
      rfl
  · rename_i file hphase
    obtain ⟨hlt, halone, hown⟩ := hwindow (by rw [hphase]; rfl)
    have hfile := hsound.stamped i file hphase
    refine advance_sound hsound hlt halone hown ?_ (Or.inr (Or.inr ⟨rfl, ?_⟩))
    · intro heq
      rw [hfile] at heq
      have hpos := hlawful.version
      have hzero : 0 = schema.version := congrArg DbFile.userVersion heq
      omega
    · rw [hfile]
      rfl
  · rename_i file step hphase
    exact absurd hphase (hsound.notMigrating i file step)
  · rename_i hphase
    exact recreate_sound hsound (by rw [hphase]; rfl)
  · exact hsound
  · exact hsound
  · exact hsound

end

theorem next_soundFresh (hlawful : schema.Lawful) (w : World) (move : Move)
    (hsound : SoundFresh schema w) (hallowed : Allowed w move) :
    SoundFresh schema (w.next schema move) := by
  cases move with
  | step i => exact step_sound hlawful hsound i
  | crash i =>
    unfold next
    dsimp only
    split
    · exact hsound
    · refine goto_sound hsound (Phase.creates_eq_none (hallowed i rfl)) rfl ?_ ?_ ?_ ?_ <;>
        intros <;> contradiction

theorem initial_soundFresh : SoundFresh schema (initial none) := by
  refine ⟨?_, ?_, ?_, ?_, ?_, ?_, ?_, ?_, ?_⟩ <;> intros <;> try contradiction
  exact Phase.noConfusion

/-! ## A file that was stamped before -/

/-- A file that a build left, at a version that this build can reach. -/
structure Stamped (schema : Schema) (file : DbFile) : Prop where
  appId : file.appId = schema.appId
  versionPos : 1 ≤ file.userVersion
  versionLe : file.userVersion ≤ schema.version
  valid : schema.Valid file.userVersion file.data
  applied : file.applied = []

/-- What an opener can be at while the file has a version. -/
def PhaseOk (schema : Schema) (version : Nat) : Phase → Prop
  | .start | .crashed => True
  | .opened file => file = 0
  | .readApp file app => file = 0 ∧ app = schema.appId
  | .migrating file step => file = 0 ∧ step ≤ version
  | .done file => file = 0 ∧ version = schema.version
  | .creating _ | .stampApp _ | .stampVersion _ | .recreating | .failed _ => False

structure SoundStamped (schema : Schema) (old : DbFile) (w : World) : Prop where
  path : w.path = some 0
  appId : (w.files 0).appId = schema.appId
  versionGe : old.userVersion ≤ (w.files 0).userVersion
  versionLe : (w.files 0).userVersion ≤ schema.version
  valid : schema.Valid (w.files 0).userVersion (w.files 0).data
  applied : (w.files 0).applied =
    List.range' old.userVersion ((w.files 0).userVersion - old.userVersion)
  keeps : schema.Additive → old.data.Extends (w.files 0).data
  phases : ∀ i, PhaseOk schema (w.files 0).userVersion (w.phase i)

variable {old : DbFile}

theorem initial_soundStamped (hold : Stamped schema old) :
    SoundStamped schema old (initial (some old)) where
  path := rfl
  appId := hold.appId
  versionGe := Nat.le_refl _
  versionLe := hold.versionLe
  valid := hold.valid
  applied := by
    change old.applied = List.range' old.userVersion (old.userVersion - old.userVersion)
    rw [hold.applied, Nat.sub_self]
    rfl
  keeps := fun _ => Database.Extends.refl _
  phases := fun _ => trivial

theorem goto_stamped (hsound : SoundStamped schema old w)
    (hphase : PhaseOk schema (w.files 0).userVersion phase) :
    SoundStamped schema old (w.goto i phase) := by
  refine ⟨hsound.path, hsound.appId, hsound.versionGe, hsound.versionLe, hsound.valid,
    hsound.applied, hsound.keeps, ?_⟩
  intro j
  by_cases hne : j = i
  · subst hne
    rw [goto_phase_self]
    exact hphase
  · rw [goto_phase_of_ne hne]
    exact hsound.phases j

section

variable (hlawful : schema.Lawful) (hold : Stamped schema old)

include hlawful hold

/-- One round of the loop skips a step that another opener has made, and makes it otherwise. -/
theorem migrateStep_stamped (hsound : SoundStamped schema old w) {step : Nat}
    (hphase : w.phase i = .migrating 0 step) :
    SoundStamped schema old (w.migrateStep schema i 0 step) ∧
      (w.migrateStep schema i 0 step).phase i =
        if schema.version ≤ step then .done 0 else .migrating 0 (step + 1) := by
  have hstep : step ≤ (w.files 0).userVersion := by
    have hok := hsound.phases i
    rw [hphase] at hok
    exact hok.2
  have hle := hsound.versionLe
  have hge := hsound.versionGe
  have hpos := hold.versionPos
  unfold migrateStep
  split_ifs with hend hskip
  · exact ⟨goto_stamped hsound ⟨rfl, by omega⟩, goto_phase_self⟩
  · exact ⟨goto_stamped hsound ⟨rfl, by omega⟩, goto_phase_self⟩
  · obtain rfl : (w.files 0).userVersion = step := not_not.mp hskip
    obtain ⟨later, hlater, hvalid⟩ :=
      hlawful.valid_step (by omega) (Nat.lt_of_not_le hend) hsound.valid
    rw [hlater]
    refine ⟨goto_stamped ⟨hsound.path, ?_, ?_, ?_, ?_, ?_, ?_, ?_⟩ ?_, goto_phase_self⟩
    · rw [write_self]
      exact hsound.appId
    · rw [write_self]
      exact Nat.le_succ_of_le hge
    · rw [write_self]
      exact Nat.lt_of_not_le hend
    · rw [write_self]
      exact hvalid
    · rw [write_self]
      dsimp only
      rw [hsound.applied, Nat.succ_sub hge, List.range'_concat]
      congr 2
      omega
    · rw [write_self]
      intro hadditive
      refine (hsound.keeps hadditive).trans (Database.executeBatch_extends ?_ hlater)
      have hlong := hlawful.long
      rw [List.getD_eq_getElem _ _ (by omega)]
      exact hadditive _ (List.getElem_mem _)
    · -- an opener that is done saw the last version, which this file was not at
      rw [write_self]
      intro j
      have hok := hsound.phases j
      rw [write_phase]
      cases hj : w.phase j <;> rw [hj] at hok <;> try exact hok
      · exact ⟨hok.1, Nat.le_succ_of_le hok.2⟩
      · exact absurd (Nat.le_of_eq hok.2.symm) hend
    · rw [write_self]
      exact ⟨rfl, Nat.le_refl _⟩

theorem step_stamped (hsound : SoundStamped schema old w) (i : Nat) :
    SoundStamped schema old (w.step schema i) := by
  have hok := hsound.phases i
  have hge := hsound.versionGe
  have hle := hsound.versionLe
  have hpos := hold.versionPos
  unfold step
  split <;> rename_i hphase <;> rw [hphase] at hok <;> try exact False.elim hok
  · rw [connect, hsound.path]
    exact goto_stamped hsound rfl
  · obtain rfl : _ = 0 := hok
    exact goto_stamped hsound ⟨rfl, hsound.appId⟩
  · obtain ⟨rfl, rfl⟩ := hok
    refine goto_stamped hsound ?_
    have hlong := hlawful.long
    rw [Schema.classify, if_neg (fun hzero => hlawful.appId hzero.1), if_neg (not_not.mpr rfl),
      if_neg (Nat.not_lt_of_le hle)]
    split
    · rw [Schema.migrateInPlace, if_neg (by omega)]
      exact ⟨rfl, Nat.le_refl _⟩
    · exact ⟨rfl, by omega⟩
  · obtain ⟨rfl, -⟩ := hok
    exact (migrateStep_stamped hlawful hold hsound hphase).1
  · exact hsound
  · exact hsound

theorem next_stamped (w : World) (move : Move) (hsound : SoundStamped schema old w)
    (_ : Allowed w move) : SoundStamped schema old (w.next schema move) := by
  cases move with
  | step i => exact step_stamped hlawful hold hsound i
  | crash i =>
    unfold next
    dsimp only
    split
    · exact hsound
    · exact goto_stamped hsound trivial

end

/-! ## A later opener -/

/-- An opener's step leaves the others where they stand. -/
theorem step_phase_of_ne (hne : j ≠ i) : (w.step schema i).phase j = w.phase j := by
  unfold step connect create migrateStep
  split <;> (try split_ifs) <;> (try split) <;>
    first
    | rfl
    | exact Function.update_of_ne hne ..

/-- An opener that no move speaks of stands where it stood. -/
theorem run_phase_of_forall_ne {moves : List Move}
    (hmoves : ∀ move ∈ moves, move ≠ .step j ∧ move ≠ .crash j) :
    (Runs.run (next schema) w moves).phase j = w.phase j := by
  induction moves generalizing w with
  | nil => rfl
  | cons move moves ih =>
    rw [Runs.run_cons, ih fun other hother => hmoves other (List.mem_cons_of_mem _ hother)]
    obtain ⟨hstep, hcrash⟩ := hmoves move List.mem_cons_self
    cases move with
    | step i => exact step_phase_of_ne fun heq => hstep (by rw [heq])
    | crash i =>
      unfold next
      dsimp only
      split
      · rfl
      · exact goto_phase_of_ne fun heq => hcrash (by rw [heq])

variable (schema) in
/-- An opener takes some steps while no other does. -/
def alone (w : World) (i n : Nat) : World := (fun w => w.step schema i)^[n] w

theorem alone_zero : alone schema w i 0 = w := rfl

theorem alone_succ (n : Nat) : alone schema w i (n + 1) = alone schema (w.step schema i) i n := rfl

theorem alone_add (m n : Nat) :
    alone schema w i (m + n) = alone schema (alone schema w i m) i n := by
  unfold alone
  rw [Nat.add_comm, Function.iterate_add_apply]

theorem alone_done (hdone : w.phase i = .done file) (n : Nat) : alone schema w i n = w := by
  refine Function.iterate_fixed ?_ n
  rw [step, hdone]

section

variable (hlawful : schema.Lawful)

include hlawful

/-- An opener that finds an empty file creates it. -/
theorem alone_empty (hphase : w.phase i = .opened file) (hempty : w.files file = {}) :
    (alone schema w i 5).phase i = .done file ∧ (alone schema w i 5).path = w.path ∧
      (alone schema w i 5).files file = current schema := by
  rw [alone_succ, step, hphase]
  dsimp only
  rw [alone_succ, step, goto_phase_self]
  dsimp only
  rw [goto_files, hempty, Schema.classify, if_pos ⟨rfl, rfl⟩, alone_succ, step, goto_phase_self]
  dsimp only
  rw [create, goto_files, goto_files, hempty, hlawful.fresh]
  dsimp only
  rw [alone_succ, step, goto_phase_self]
  dsimp only
  rw [alone_succ, step, goto_phase_self]
  dsimp only
  refine ⟨goto_phase_self, rfl, ?_⟩
  simp only [alone_zero, goto_files, write_self]
  rfl

/-- An opener that finds a current file takes it. -/
theorem alone_current (hphase : w.phase i = .opened file)
    (hcurrent : w.files file = current schema) :
    (alone schema w i 2).phase i = .done file ∧ (alone schema w i 2).path = w.path ∧
      (alone schema w i 2).files file = current schema := by
  rw [alone_succ, step, hphase]
  dsimp only
  rw [alone_succ, step, goto_phase_self]
  dsimp only
  have hclassify : schema.classify file (w.files file).appId (w.files file).userVersion =
      .done file := by
    rw [hcurrent, Schema.classify, if_neg (fun hzero => hlawful.appId hzero.1)]
    simp [current]
  rw [goto_files, hclassify]
  exact ⟨goto_phase_self, rfl, hcurrent⟩

theorem fresh_later (hsound : SoundFresh schema w) (hquiet : ∀ i, (w.phase i).inWindow = false)
    (hstart : w.phase i = .start) (hn : 6 ≤ n) :
    ∃ file, (alone schema w i n).phase i = .done file ∧ (alone schema w i n).path = some file ∧
      (alone schema w i n).files file = current schema := by
  obtain ⟨file, hphase, hpath, hfile⟩ : ∃ file, (w.step schema i).phase i = .opened file ∧
      (w.step schema i).path = some file ∧
      ((w.step schema i).files file = {} ∨ (w.step schema i).files file = current schema) := by
    rw [step, hstart]
    dsimp only
    rw [connect]
    cases hpath : w.path with
    | some file =>
      refine ⟨file, goto_phase_self, hpath, ?_⟩
      rcases hsound.files file (hsound.pathLt file hpath) with hempty | hcurrent | ⟨j, hj⟩
      · exact Or.inl hempty
      · exact Or.inr hcurrent
      · rw [Phase.creates_eq_none (hquiet j)] at hj
        cases hj
    | none =>
      exact ⟨w.nextFile, Function.update_self .., rfl, Or.inl (Function.update_self ..)⟩
  refine ⟨file, ?_⟩
  rcases hfile with hempty | hcurrent
  · obtain ⟨hdone, hpath', hfile⟩ := alone_empty hlawful hphase hempty
    obtain ⟨m, rfl⟩ := Nat.exists_eq_add_of_le hn
    rw [alone_add, show 6 = 5 + 1 from rfl, alone_succ, alone_done hdone]
    exact ⟨hdone, hpath'.trans hpath, hfile⟩
  · obtain ⟨hdone, hpath', hfile⟩ := alone_current hlawful hphase hcurrent
    obtain ⟨m, rfl⟩ := Nat.exists_eq_add_of_le (show 3 ≤ n by omega)
    rw [alone_add, show 3 = 2 + 1 from rfl, alone_succ, alone_done hdone]
    exact ⟨hdone, hpath'.trans hpath, hfile⟩

theorem alone_stamped (hold : Stamped schema old) (hsound : SoundStamped schema old w) (n : Nat) :
    SoundStamped schema old (alone schema w i n) := by
  induction n generalizing w with
  | zero => exact hsound
  | succ n ih => exact ih (step_stamped hlawful hold hsound i)

/-- The loop reaches its end: every round goes on to the next step. -/
theorem alone_migrating (hold : Stamped schema old) (hsound : SoundStamped schema old w)
    {step : Nat} (hphase : w.phase i = .migrating 0 step) (hle : step ≤ schema.version)
    (hn : schema.version < step + n) : (alone schema w i n).phase i = .done 0 := by
  induction n generalizing w step with
  | zero => omega
  | succ n ih =>
    obtain ⟨hnext, hphase'⟩ := migrateStep_stamped hlawful hold hsound hphase
    have heq : w.step schema i = w.migrateStep schema i 0 step := by
      rw [World.step, hphase]
    rw [alone_succ, heq]
    split at hphase'
    · rw [alone_done hphase']
      exact hphase'
    · exact ih hnext hphase' (by omega) (by omega)

theorem stamped_later (hold : Stamped schema old) (hsound : SoundStamped schema old w)
    (hstart : w.phase i = .start) (hn : schema.version + 6 ≤ n) :
    (alone schema w i n).phase i = .done 0 := by
  have hthird : ∃ later, alone schema w i 3 = later ∧ SoundStamped schema old later ∧
      (later.phase i = .done 0 ∨ ∃ step, later.phase i = .migrating 0 step) := by
    refine ⟨_, rfl, alone_stamped hlawful hold hsound 3, ?_⟩
    have hphase : (alone schema w i 3).phase i =
        schema.classify 0 schema.appId (w.files 0).userVersion := by
      rw [alone_succ, step, hstart]
      dsimp only
      rw [connect, hsound.path, alone_succ, step, goto_phase_self]
      dsimp only
      rw [goto_files, hsound.appId, alone_succ, step, goto_phase_self]
      exact goto_phase_self
    have hlong := hlawful.long
    have hpos := hold.versionPos
    have hge := hsound.versionGe
    rw [hphase, Schema.classify, if_neg (fun hzero => hlawful.appId hzero.1),
      if_neg (not_not.mpr rfl), if_neg (Nat.not_lt_of_le hsound.versionLe)]
    split
    · rw [Schema.migrateInPlace, if_neg (by omega)]
      exact Or.inr ⟨_, rfl⟩
    · exact Or.inl rfl
  obtain ⟨later, hlater, hsound', hphase⟩ := hthird
  obtain ⟨m, rfl⟩ := Nat.exists_eq_add_of_le (show 3 ≤ n by omega)
  rw [alone_add, hlater]
  rcases hphase with hdone | ⟨step, hmigrating⟩
  · rw [alone_done hdone]
    exact hdone
  · have hok := hsound'.phases i
    rw [hmigrating] at hok
    have hle := hsound'.versionLe
    have hstep : step ≤ (later.files 0).userVersion := hok.2
    exact alone_migrating hlawful hold hsound' hmigrating (by omega) (by omega)

end

/-! ## The later opener succeeds -/

/-- The version that a file has before the openers come, the current one if there is none. -/
def startVersion (schema : Schema) (start : Option DbFile) : Nat :=
  start.elim schema.version DbFile.userVersion

/-- What a later opener that runs to its end finds and leaves: it succeeds, the file at the
path is current, every step of the ladder from the start's version on has run once, and
the rows of an old state.db are there. -/
structure Accepted (schema : Schema) (start : Option DbFile) (w : World) (i file : Nat) : Prop where
  done : w.phase i = .done file
  path : w.path = some file
  appId : (w.files file).appId = schema.appId
  version : (w.files file).userVersion = schema.version
  tables : Schema.SameTables (w.files file).data schema.fresh
  applied : (w.files file).applied =
    List.range' (startVersion schema start) (schema.version - startVersion schema start)
  keeps : ∀ old, start = some old → schema = stateSchema → old.data.Extends (w.files file).data

/-- After any run in which no process dies while it creates the file, and at any moment at
which none is creating it, an opener that starts and runs to its end succeeds. -/
theorem laterOpen_succeeds (schema : Schema) (hschema : schema ∈ [stateSchema, cacheSchema])
    (start : Option DbFile) (hstart : ∀ old, start = some old → Stamped schema old)
    (moves : List Move) (halong : Runs.Along (next schema) Allowed (initial start) moves)
    (hquiet : ∀ i, ((Runs.run (next schema) (initial start) moves).phase i).inWindow = false)
    (i : Nat) (hi : (Runs.run (next schema) (initial start) moves).phase i = .start)
    (n : Nat) (hn : schema.version + 6 ≤ n) :
    ∃ file, Accepted schema start
      (alone schema (Runs.run (next schema) (initial start) moves) i n) i file := by
  have hlawful : schema.Lawful := by
    simp only [List.mem_cons, List.not_mem_nil, or_false] at hschema
    rcases hschema with rfl | rfl
    · exact Schema.stateSchema_lawful
    · exact Schema.cacheSchema_lawful
  cases start with
  | none =>
    have hsound : SoundFresh schema (Runs.run (next schema) (initial none) moves) :=
      halong.invariant (next_soundFresh hlawful) initial_soundFresh
    obtain ⟨file, hdone, hpath, hfile⟩ :=
      fresh_later hlawful hsound hquiet hi (show 6 ≤ n by omega)
    refine ⟨file, hdone, hpath, ?_, ?_, ?_, ?_, ?_⟩
    · rw [hfile]
      rfl
    · rw [hfile]
      rfl
    · rw [hfile]
      exact ⟨fun _ hmem => hmem, fun _ hmem => hmem⟩
    · rw [hfile]
      change [] = List.range' schema.version (schema.version - schema.version)
      rw [Nat.sub_self]
      rfl
    · intro old heq
      cases heq
  | some old =>
    have hold := hstart old rfl
    have hsound : SoundStamped schema old (Runs.run (next schema) (initial (some old)) moves) :=
      halong.invariant (next_stamped hlawful hold) (initial_soundStamped hold)
    have hdone := stamped_later hlawful hold hsound hi hn
    have hlater := alone_stamped (i := i) hlawful hold hsound n
    have hversion : ((alone schema (Runs.run (next schema) (initial (some old)) moves) i
        n).files 0).userVersion = schema.version := by
      have hok := hlater.phases i
      rw [hdone] at hok
      exact hok.2
    refine ⟨0, hdone, hlater.path, hlater.appId, hversion, ?_, ?_, ?_⟩
    · exact hlawful.sameTables (hversion ▸ hlater.valid)
    · rw [hlater.applied, hversion]
      rfl
    · intro file heq hstate
      obtain rfl := Option.some.inj heq
      exact hlater.keeps (hstate ▸ Schema.stateSchema_additive)

/-- Two openers race for a fresh cache.db, the second dies, and a third comes. -/
theorem laterOpen_succeeds_afterRace :
    ∃ file, Accepted cacheSchema none
      (alone cacheSchema (Runs.run (next cacheSchema) (initial none)
        [.step 0, .step 1, .step 0, .step 0, .step 0, .step 1, .crash 1, .step 0, .step 0]) 2 15)
      2 file := by
  refine laterOpen_succeeds cacheSchema (by simp) none (fun _ heq => (by cases heq)) _ ?_ ?_ 2
    ?_ 15 (by decide)
  · refine ⟨?_, ?_, ?_, ?_, ?_, ?_, ?_, ?_, ?_, trivial⟩ <;> intro i heq <;> cases heq
    decide +kernel
  · intro i
    by_cases hi : i < 2
    · have hboth : ∀ i < 2, ((Runs.run (next cacheSchema) (initial none)
          [.step 0, .step 1, .step 0, .step 0, .step 0, .step 1, .crash 1, .step 0,
            .step 0]).phase i).inWindow = false := by
        decide +kernel
      exact hboth i hi
    · rw [run_phase_of_forall_ne]
      · rfl
      · intro move hmove
        simp only [List.mem_cons, List.not_mem_nil, or_false] at hmove
        rcases hmove with rfl | rfl | rfl | rfl | rfl | rfl | rfl | rfl | rfl <;>
          exact ⟨fun heq => by cases heq <;> omega, fun heq => by cases heq <;> omega⟩
  · decide +kernel

/-- A process that dies after it created the tables of a fresh state.db leaves a file in which
no later opener can create them. One that dies between the two stamps leaves a file without a
version, which the ladder refuses. -/
theorem crashed_creation_refused :
    let created := Runs.run (next stateSchema) (initial none)
      [.step 0, .step 0, .step 0, .step 0, .crash 0]
    let unstamped := Runs.run (next stateSchema) (initial none)
      [.step 0, .step 0, .step 0, .step 0, .step 0, .crash 0]
    (alone stateSchema created 1 9).phase 1 = .failed .sqlite ∧
      (alone stateSchema unstamped 1 9).phase 1 = .failed (.schemaVersion 0 3) := by
  decide +kernel

end World

end Datboi.OpenFile
