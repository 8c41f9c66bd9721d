import Datboi.Core.Recipe
import Mathlib.Data.String.Basic

/-!
# state.db

The tables that only snapshots back up: tags and configuration by name, and the log of the
snapshots that were minted. The log's sequence numbers are row ids, which are signed 64-bit
integers, so the number after the largest one does not exist.
-/

namespace Datboi

/-- The largest row id. -/
def maxRowId : Nat := 2 ^ 63 - 1

structure TagRow where
  hash : Blake3
  createdAt : Int
  deriving DecidableEq, Repr

structure SnapshotLogRow where
  hash : Blake3
  createdAt : Int
  deriving DecidableEq, Repr

structure StateDb where
  tags : Std.ExtTreeMap String TagRow := ∅
  config : Std.ExtTreeMap String Bytes := ∅
  snapshotLog : Std.ExtTreeMap Nat SnapshotLogRow := ∅
  deriving DecidableEq

namespace StateDb

/-- Create or move a tag. -/
def setTag (db : StateDb) (name : String) (hash : Blake3) (createdAt : Int) : StateDb :=
  { db with tags := db.tags.insert name ⟨hash, createdAt⟩ }

def getTag (db : StateDb) (name : String) : Option Blake3 := db.tags[name]?.map TagRow.hash

def deleteTag (db : StateDb) (name : String) : StateDb :=
  { db with tags := db.tags.erase name }

/-- The tags by name. -/
def listTags (db : StateDb) : List (String × Blake3) :=
  db.tags.toList.map fun (name, row) => (name, row.hash)

def configSet (db : StateDb) (key : String) (value : Bytes) : StateDb :=
  { db with config := db.config.insert key value }

/-- The configuration rows whose key starts with a text, by key. -/
def configListPrefix (db : StateDb) (start : String) : List (String × Bytes) :=
  db.config.toList.filter fun (key, _) => key.toList.take start.length = start.toList

/-- The largest sequence number of the log, zero if it has none. -/
def lastSeq (db : StateDb) : Nat := db.snapshotLog.keys.max?.getD 0

/-- The number that the next snapshot will get, if there is one. -/
def nextSnapshotSeq (db : StateDb) : Option Nat :=
  if db.lastSeq < maxRowId then some (db.lastSeq + 1) else none

/-- Re-seed the log under a number that a snapshot carries. -/
def snapshotLogRestore (db : StateDb) (seq : Nat) (hash : Blake3) (createdAt : Int) : StateDb :=
  { db with snapshotLog := db.snapshotLog.insert seq ⟨hash, createdAt⟩ }

/-- The newest snapshot that the log knows. -/
def latestSnapshot (db : StateDb) : Option (Blake3 × Nat) := do
  let seq ← db.snapshotLog.keys.max?
  let row ← db.snapshotLog[seq]?
  some (row.hash, seq)

/-- Log a snapshot under the next number, which is returned. When the last row id is taken the
database looks for a free one elsewhere: `free` is the one it finds, if it does. -/
def snapshotLogAppend (db : StateDb) (free : Option Nat) (hash : Blake3) (createdAt : Int) :
    Option (StateDb × Nat) :=
  match db.nextSnapshotSeq with
  | some seq => some (db.snapshotLogRestore seq hash createdAt, seq)
  | none =>
    match free with
    | some seq =>
      if seq ∈ db.snapshotLog then none
      else some (db.snapshotLogRestore seq hash createdAt, seq)
    | none => none

/-! ## What the log numbers -/

variable {db db' : StateDb} {seq : Nat} {hash : Blake3} {createdAt : Int} {free : Option Nat}

@[simp] theorem tags_setTag (name : String) :
    (db.setTag name hash createdAt).tags = db.tags.insert name ⟨hash, createdAt⟩ := rfl

@[simp] theorem config_setTag (name : String) :
    (db.setTag name hash createdAt).config = db.config := rfl

@[simp] theorem snapshotLog_setTag (name : String) :
    (db.setTag name hash createdAt).snapshotLog = db.snapshotLog := rfl

@[simp] theorem snapshotLog_deleteTag (name : String) :
    (db.deleteTag name).snapshotLog = db.snapshotLog := rfl

@[simp] theorem tags_configSet (key : String) (value : Bytes) :
    (db.configSet key value).tags = db.tags := rfl

@[simp] theorem config_configSet (key : String) (value : Bytes) :
    (db.configSet key value).config = db.config.insert key value := rfl

@[simp] theorem snapshotLog_configSet (key : String) (value : Bytes) :
    (db.configSet key value).snapshotLog = db.snapshotLog := rfl

@[simp] theorem tags_snapshotLogRestore :
    (db.snapshotLogRestore seq hash createdAt).tags = db.tags := rfl

@[simp] theorem config_snapshotLogRestore :
    (db.snapshotLogRestore seq hash createdAt).config = db.config := rfl

@[simp] theorem snapshotLog_snapshotLogRestore :
    (db.snapshotLogRestore seq hash createdAt).snapshotLog =
      db.snapshotLog.insert seq ⟨hash, createdAt⟩ := rfl

theorem nextSnapshotSeq_eq_some :
    db.nextSnapshotSeq = some seq ↔ seq = db.lastSeq + 1 ∧ seq ≤ maxRowId := by
  unfold nextSnapshotSeq
  split
  · rw [Option.some.injEq]
    omega
  · simp only [reduceCtorEq, false_iff]
    omega

theorem max?_keys_eq_some :
    db.snapshotLog.keys.max? = some seq ↔
      seq ∈ db.snapshotLog ∧ ∀ other ∈ db.snapshotLog, other ≤ seq := by
  simp only [List.max?_eq_some_iff, Std.ExtTreeMap.mem_keys]

theorem le_lastSeq (hmem : seq ∈ db.snapshotLog) : seq ≤ db.lastSeq := by
  unfold lastSeq
  cases hmax : db.snapshotLog.keys.max? with
  | none =>
    rw [List.max?_eq_none_iff] at hmax
    rw [← Std.ExtTreeMap.mem_keys, hmax] at hmem
    cases hmem
  | some last => exact (max?_keys_eq_some.mp hmax).2 seq hmem

theorem le_lastSeq_of_row {row : SnapshotLogRow} (hrow : db.snapshotLog[seq]? = some row) :
    seq ≤ db.lastSeq := by
  refine le_lastSeq ?_
  rw [Std.ExtTreeMap.mem_iff_isSome_getElem?, hrow]
  rfl

/-- A log under a number that no row exceeds ends with that number. -/
theorem lastSeq_restore (hlast : db.lastSeq ≤ seq) :
    (db.snapshotLogRestore seq hash createdAt).lastSeq = seq := by
  have hmax : (db.snapshotLogRestore seq hash createdAt).snapshotLog.keys.max? = some seq := by
    refine max?_keys_eq_some.mpr ⟨by simp, fun other hother => ?_⟩
    rw [snapshotLog_snapshotLogRestore, Std.ExtTreeMap.mem_insert] at hother
    rcases hother with heq | hold
    · exact (Nat.compare_eq_eq.mp heq).ge
    · exact (le_lastSeq hold).trans hlast
  rw [lastSeq, hmax, Option.getD_some]

theorem snapshotLogAppend_of_next (hnext : db.nextSnapshotSeq = some seq) :
    db.snapshotLogAppend free hash createdAt =
      some (db.snapshotLogRestore seq hash createdAt, seq) := by
  simp only [snapshotLogAppend, hnext]

end StateDb

end Datboi
