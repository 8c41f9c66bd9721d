import Datboi.Catalog.StatesnapRuns

/-!
# What recovery writes to state.db

Recovery rebuilds cache.db from the store and then writes the selected snapshot's configuration
and tags over state.db, whether or not it still has them: each row is an upsert, so what
state.db was given after the snapshot is lost.
-/

namespace Datboi.Recover

open Statesnap

/-- A row of state.db by its key. -/
inductive Slot where
  | config (key : String)
  | tag (name : String)
  | log (seq : Nat)
  deriving DecidableEq, Repr

/-- A statement of the restore. -/
inductive StateWrite where
  | config (key : String) (value : Bytes)
  | tag (name : String) (row : TagRow)
  | log (seq : Nat) (row : SnapshotLogRow)
  deriving DecidableEq, Repr

namespace StateWrite

def slot : StateWrite → Slot
  | .config key _ => .config key
  | .tag name _ => .tag name
  | .log seq _ => .log seq

def apply (db : StateDb) : StateWrite → StateDb
  | .config key value => db.configSet key value
  | .tag name row => db.setTag name row.hash row.createdAt
  | .log seq row => db.snapshotLogRestore seq row.hash row.createdAt

end StateWrite

/-- A signed 64-bit time, or zero when it does not fit. -/
def i64OrZero (n : UInt64) : Int := if n.toNat < 2 ^ 63 then n.toNat else 0

/-- Tags and configuration come back verbatim from the payload, and the log is re-seeded. -/
def restoreWrites (hash : Blake3) (snap : StateSnapshot) : List StateWrite :=
  (snap.payload.config.map fun (key, value) => .config key value) ++
    (snap.payload.tags.map fun (name, target) =>
      .tag name ⟨target, i64OrZero snap.payload.createdAt⟩) ++
    [.log (min snap.payload.sequence.toNat maxRowId) ⟨hash, i64OrZero snap.payload.createdAt⟩]

/-- The restore of a recovery that finds these objects under this identity, if it has one. The
scan, the imports and the analysis rows before it write cache.db only; where the run ends
early, `reached` counts the writes it still made. -/
def writes (host : Host) (verify : PublicKey → Bytes → Signature → Bool)
    (identity : Option PublicKey) (store : Store) (listing : List Blake3) (reached : Nat) :
    List StateWrite :=
  match identity with
  | none => []
  | some publicKey =>
    match selectSnapshot verify publicKey (snapshotCandidates host store listing) with
    | none => []
    | some (hash, snap) => (restoreWrites hash snap).take reached

/-- state.db after such a recovery. -/
def recoverState (host : Host) (verify : PublicKey → Bytes → Signature → Bool)
    (identity : Option PublicKey) (store : Store) (listing : List Blake3) (reached : Nat)
    (db : StateDb) : StateDb :=
  (writes host verify identity store listing reached).foldl StateWrite.apply db

/-- Every tag and every configuration row is as it was, and new ones have new names. -/
structure LosesNothing (db db' : StateDb) : Prop where
  tags : ∀ (name : String) (row : TagRow), db.tags[name]? = some row → db'.tags[name]? = some row
  config : ∀ (key : String) (value : Bytes),
    db.config[key]? = some value → db'.config[key]? = some value
  newTags : ∀ (name : String) (row : TagRow), db'.tags[name]? = some row →
    db.tags[name]? = none ∨ db.tags[name]? = some row
  newConfig : ∀ (key : String) (value : Bytes), db'.config[key]? = some value →
    db.config[key]? = none ∨ db.config[key]? = some value

/-- The write finds no row under its key, or the row that it writes. -/
def Agrees (db : StateDb) : StateWrite → Prop
  | .config key value => ∀ old, db.config[key]? = some old → old = value
  | .tag name row => ∀ old, db.tags[name]? = some old → old = row
  | .log _ _ => True

/-! ## Rows after writes -/

/-- The row under a key, as the write that would make it. -/
def rowAt (db : StateDb) : Slot → Option StateWrite
  | .config key => db.config[key]?.map (.config key)
  | .tag name => db.tags[name]?.map (.tag name)
  | .log seq => db.snapshotLog[seq]?.map (.log seq)

variable {db db' : StateDb} {write : StateWrite} {slot : Slot}

theorem rowAt_apply :
    rowAt (write.apply db) slot = if write.slot = slot then some write else rowAt db slot := by
  cases write with
  | config key value =>
    cases slot with
    | config key' =>
      by_cases hkey : key = key'
      · subst hkey
        simp [rowAt, StateWrite.apply, StateWrite.slot]
      · simp [rowAt, StateWrite.apply, StateWrite.slot, hkey, Std.ExtTreeMap.getElem?_insert]
    | tag | log => rfl
  | tag name row =>
    cases slot with
    | tag name' =>
      by_cases hname : name = name'
      · subst hname
        simp [rowAt, StateWrite.apply, StateWrite.slot]
      · simp [rowAt, StateWrite.apply, StateWrite.slot, hname, Std.ExtTreeMap.getElem?_insert]
    | config | log => rfl
  | log seq row =>
    cases slot with
    | log seq' =>
      by_cases hseq : seq = seq'
      · subst hseq
        simp [rowAt, StateWrite.apply, StateWrite.slot]
      · simp [rowAt, StateWrite.apply, StateWrite.slot, hseq, Std.ExtTreeMap.getElem?_insert]
    | config | tag => rfl

/-- Under distinct keys each write's row is there in the end, and all others are as before. -/
theorem rowAt_foldl {list : List StateWrite} (hdistinct : (list.map StateWrite.slot).Nodup) :
    rowAt (list.foldl StateWrite.apply db) slot =
      (list.find? fun write => write.slot = slot).or (rowAt db slot) := by
  induction list generalizing db with
  | nil => rfl
  | cons write list ih =>
    rw [List.map_cons, List.nodup_cons] at hdistinct
    rw [List.foldl_cons, ih hdistinct.2, rowAt_apply, List.find?_cons]
    by_cases hslot : write.slot = slot
    · have hnone : (list.find? fun other => other.slot = slot) = none := by
        rw [List.find?_eq_none]
        intro other hother
        rw [decide_eq_true_eq, ← hslot]
        exact fun heq => hdistinct.1 (heq ▸ List.mem_map_of_mem hother)
      simp [hslot, hnone]
    · simp [hslot]

theorem rowAt_config {key : String} {value : Bytes} :
    rowAt db (.config key) = some (.config key value) ↔ db.config[key]? = some value := by
  simp [rowAt]

theorem rowAt_tag {name : String} {row : TagRow} :
    rowAt db (.tag name) = some (.tag name row) ↔ db.tags[name]? = some row := by
  simp [rowAt]

/-- Writes under distinct keys lose nothing if each agrees with what is there, and only then. -/
theorem losesNothing_foldl {list : List StateWrite}
    (hdistinct : (list.map StateWrite.slot).Nodup) :
    LosesNothing db (list.foldl StateWrite.apply db) ↔ ∀ write ∈ list, Agrees db write := by
  constructor
  · intro hkept write hwrite
    have hfound : (list.find? fun other => other.slot = write.slot) = some write := by
      cases hfind : list.find? fun other => other.slot = write.slot with
      | none => exact absurd (decide_eq_true rfl) (List.find?_eq_none.mp hfind write hwrite)
      | some found =>
        have hslot : found.slot = write.slot := by simpa using List.find?_some hfind
        rw [List.inj_on_of_nodup_map hdistinct (List.mem_of_find?_eq_some hfind) hwrite hslot]
    have hrow : rowAt (list.foldl StateWrite.apply db) write.slot = some write := by
      rw [rowAt_foldl hdistinct, hfound, Option.some_or]
    cases write with
    | config key value =>
      intro old hold
      have hnew := rowAt_config.mp hrow
      rw [hkept.config key old hold, Option.some.injEq] at hnew
      exact hnew
    | tag name row =>
      intro old hold
      have hnew := rowAt_tag.mp hrow
      rw [hkept.tags name old hold, Option.some.injEq] at hnew
      exact hnew
    | log => trivial
  · intro hagrees
    have hconfig : ∀ (key : String) (value : Bytes), db.config[key]? = some value →
        (list.foldl StateWrite.apply db).config[key]? = some value := by
      intro key value hold
      rw [← rowAt_config, rowAt_foldl hdistinct]
      cases hfind : list.find? fun other => other.slot = .config key with
      | none => exact rowAt_config.mpr hold
      | some write =>
        have hslot : write.slot = .config key := by simpa using List.find?_some hfind
        cases write with
        | config key' value' =>
          obtain rfl := Slot.config.inj hslot
          rw [Option.some_or, hagrees _ (List.mem_of_find?_eq_some hfind) value hold]
        | tag | log => cases hslot
    have htags : ∀ (name : String) (row : TagRow), db.tags[name]? = some row →
        (list.foldl StateWrite.apply db).tags[name]? = some row := by
      intro name row hold
      rw [← rowAt_tag, rowAt_foldl hdistinct]
      cases hfind : list.find? fun other => other.slot = .tag name with
      | none => exact rowAt_tag.mpr hold
      | some write =>
        have hslot : write.slot = .tag name := by simpa using List.find?_some hfind
        cases write with
        | tag name' row' =>
          obtain rfl := Slot.tag.inj hslot
          rw [Option.some_or, hagrees _ (List.mem_of_find?_eq_some hfind) row hold]
        | config | log => cases hslot
    refine ⟨htags, hconfig, fun name row hrow => ?_, fun key value hrow => ?_⟩
    · cases hold : db.tags[name]? with
      | none => exact Or.inl rfl
      | some old => exact Or.inr ((htags name old hold).symm.trans hrow)
    · cases hold : db.config[key]? with
      | none => exact Or.inl rfl
      | some old => exact Or.inr ((hconfig key old hold).symm.trans hrow)

/-! ## The restore's keys -/

variable {host : Host} {verify : PublicKey → Bytes → Signature → Bool} {store : Store}
  {listing : List Blake3}

/-- A valid payload lists its tags and its configuration in ascending order. -/
theorem ascending_of_validate {payload : SnapshotPayload} (hvalidate : payload.validate = .ok ()) :
    Rows.Ascending Prod.fst payload.tags ∧ Rows.Ascending Prod.fst payload.config := by
  unfold SnapshotPayload.validate at hvalidate
  repeat' split at hvalidate
  all_goals cases hvalidate
  rename_i htags _ hconfig _
  rw [Bool.not_eq_true] at htags hconfig
  exact ⟨Rows.windowsAny_le_eq_false.mp htags, Rows.windowsAny_le_eq_false.mp hconfig⟩

/-- A payload that decodes names each tag and each configuration row once. -/
theorem slots_restoreWrites {hash : Blake3} {snap : StateSnapshot} {bytes : Bytes}
    (hdecode : StateSnapshot.decode verify bytes = .ok snap) :
    ((restoreWrites hash snap).map StateWrite.slot).Nodup := by
  obtain ⟨signature, -, hvalidate, -⟩ := StateSnapshot.decode_eq_ok.mp hdecode
  obtain ⟨htags, hconfig⟩ := ascending_of_validate hvalidate
  have hslots : (restoreWrites hash snap).map StateWrite.slot =
      (snap.payload.config.map Prod.fst).map Slot.config ++
        (snap.payload.tags.map Prod.fst).map Slot.tag ++
        [Slot.log (min snap.payload.sequence.toNat maxRowId)] := by
    simp only [restoreWrites, List.map_append, List.map_map, List.map_cons, List.map_nil]
    rfl
  rw [hslots, List.nodup_append, List.nodup_append]
  refine ⟨⟨hconfig.nodup.map fun _ _ => Slot.config.inj,
    htags.nodup.map fun _ _ => Slot.tag.inj, ?_⟩, List.nodup_singleton _, ?_⟩
  · intro first hfirst second hsecond heq
    obtain ⟨key, -, rfl⟩ := List.mem_map.mp hfirst
    obtain ⟨name, -, rfl⟩ := List.mem_map.mp hsecond
    cases heq
  · intro first hfirst second hsecond heq
    rw [List.mem_singleton.mp hsecond] at heq
    subst heq
    rcases List.mem_append.mp hfirst with hmem | hmem <;>
      obtain ⟨key, -, hkey⟩ := List.mem_map.mp hmem <;> cases hkey

theorem slots_writes (identity : Option PublicKey) (reached : Nat) :
    ((writes host verify identity store listing reached).map StateWrite.slot).Nodup := by
  unfold writes
  split
  · exact List.nodup_nil
  rename_i publicKey
  split
  · exact List.nodup_nil
  rename_i hash snap hselect
  rw [selectSnapshot] at hselect
  obtain ⟨-, bytes, -, -, hdecode, -⟩ :=
    mem_authenticated.mp (List.mem_reverse.mp (List.argmax_mem hselect))
  rw [List.map_take]
  exact (slots_restoreWrites hdecode).sublist (List.take_sublist _ _)

/-- A recovery leaves state.db's tags and configuration as they are exactly when each row it
writes is missing there or is there already. -/
theorem losesNothing_iff (host : Host) (verify : PublicKey → Bytes → Signature → Bool)
    (identity : Option PublicKey) (store : Store) (listing : List Blake3) (reached : Nat)
    (db : StateDb) :
    LosesNothing db (recoverState host verify identity store listing reached db) ↔
      ∀ write ∈ writes host verify identity store listing reached, Agrees db write :=
  losesNothing_foldl (slots_writes identity reached)

/-- The store after a snapshot, and the listing that recovery walks. -/
def snapshotBytes : Bytes := (smallPayload.encodeSigned checksumIdentity).toOption.getD []

def snapshotStore : Store :=
  (putMeta Host.sample .empty snapshotBytes).2.2

/-- state.db after its tag has moved on. -/
def movedTags : StateDb := ({} : StateDb).setTag "live" 9 20

/-- Recovery moves the tag back to where the snapshot had it. -/
theorem recoverState_moves_tag :
    (movedTags.getTag "live" = some 9 ∧
      (recoverState Host.sample checksumVerify (some checksumIdentity.publicKey) snapshotStore
        [Host.sample.blake3 snapshotBytes] 100 movedTags).getTag "live" = some 7) ∧
    ¬ LosesNothing movedTags
      (recoverState Host.sample checksumVerify (some checksumIdentity.publicKey) snapshotStore
        [Host.sample.blake3 snapshotBytes] 100 movedTags) := by
  have hmoved : (recoverState Host.sample checksumVerify (some checksumIdentity.publicKey)
      snapshotStore [Host.sample.blake3 snapshotBytes] 100 movedTags).getTag "live" = some 7 := by
    decide +kernel
  refine ⟨⟨by decide, hmoved⟩, fun hkept => ?_⟩
  have hold := hkept.tags "live" ⟨9, 20⟩ (by decide)
  rw [StateDb.getTag, hold] at hmoved
  revert hmoved
  decide

/-! ## Onto an empty state.db -/

theorem rowAt_log {seq : Nat} {row : SnapshotLogRow} :
    rowAt db (.log seq) = some (.log seq row) ↔ db.snapshotLog[seq]? = some row := by
  simp [rowAt]

/-- Writes under distinct keys onto nothing leave exactly their rows. -/
theorem rowAt_foldl_empty {list : List StateWrite}
    (hdistinct : (list.map StateWrite.slot).Nodup) :
    rowAt (list.foldl StateWrite.apply {}) slot = some write ↔
      write ∈ list ∧ write.slot = slot := by
  have hempty : rowAt {} slot = none := by cases slot <;> simp [rowAt]
  rw [rowAt_foldl hdistinct, hempty, Option.or_none]
  constructor
  · intro hfind
    exact ⟨List.mem_of_find?_eq_some hfind, by simpa using List.find?_some hfind⟩
  · rintro ⟨hwrite, rfl⟩
    cases hfind : list.find? fun other => other.slot = write.slot with
    | none => exact absurd (decide_eq_true rfl) (List.find?_eq_none.mp hfind write hwrite)
    | some found =>
      rw [List.inj_on_of_nodup_map hdistinct (List.mem_of_find?_eq_some hfind) hwrite
        (by simpa using List.find?_some hfind)]

/-- Where the selected snapshot recorded what a state.db held, a recovery that reaches the end
puts every configuration row and tag back into an empty one, and the log goes on behind it. -/
theorem recoverState_restores {cache : CacheRows} {state : StateDb} {publicKey : PublicKey}
    {hash : Blake3} {snap : StateSnapshot} {reached : Nat}
    (hselect : selectSnapshot verify publicKey (snapshotCandidates host store listing) =
      some (hash, snap))
    (htriple : recordedTriple snap = authoritativeTriple cache state)
    (hreached : (restoreWrites hash snap).length ≤ reached) :
    ∃ db, recoverState host verify (some publicKey) store listing reached {} = db ∧
      db.config = state.config ∧ (∀ name, db.getTag name = state.getTag name) ∧
      db.lastSeq = min snap.payload.sequence.toNat maxRowId := by
  have hwrites : writes host verify (some publicKey) store listing reached =
      restoreWrites hash snap := by
    simp only [writes, hselect, List.take_of_length_le hreached]
  have hdistinct := hwrites ▸ @slots_writes host verify store listing (some publicKey) reached
  have hconfig : snap.payload.config = _ := congrArg AuthoritativeTriple.config htriple
  have htags : snap.payload.tags = _ := congrArg AuthoritativeTriple.tags htriple
  refine ⟨_, rfl, ?_⟩
  rw [recoverState, hwrites]
  refine ⟨?_, fun name => ?_, ?_⟩
  · ext key value
    rw [← rowAt_config, rowAt_foldl_empty hdistinct]
    simp [restoreWrites, StateWrite.slot, hconfig, authoritativeTriple, StateDb.configListPrefix]
  · ext target
    simp only [StateDb.getTag, Option.map_eq_some_iff, ← rowAt_tag,
      rowAt_foldl_empty hdistinct]
    simp [restoreWrites, StateWrite.slot, htags, authoritativeTriple, StateDb.listTags, rowAt_tag]
  · have hlog : ∀ seq, seq ∈ ((restoreWrites hash snap).foldl StateWrite.apply {}).snapshotLog ↔
        seq = min snap.payload.sequence.toNat maxRowId := by
      intro seq
      rw [Std.ExtTreeMap.mem_iff_isSome_getElem?, Option.isSome_iff_exists]
      simp only [← rowAt_log, rowAt_foldl_empty hdistinct]
      simp [restoreWrites, StateWrite.slot]
    rw [StateDb.lastSeq, StateDb.max?_keys_eq_some.mpr
      ⟨(hlog _).mpr rfl, fun other hother => ((hlog other).mp hother).le⟩, Option.getD_some]

/-- What the snapshot recorded. -/
def liveTag : StateDb := ({} : StateDb).setTag "live" 7 20

theorem recoverState_restores_liveTag :
    ∃ db, recoverState Host.sample checksumVerify (some checksumIdentity.publicKey) snapshotStore
        [Host.sample.blake3 snapshotBytes] 100 {} = db ∧
      db.config = liveTag.config ∧ (∀ name, db.getTag name = liveTag.getTag name) ∧
      db.lastSeq = min 1 maxRowId :=
  @recoverState_restores Host.sample checksumVerify _ _ ⟨[⟨"no-intro", "gba", 5, 9⟩], [], []⟩ _ _
    (Host.sample.blake3 snapshotBytes) ⟨smallPayload, checksumIdentity.publicKey⟩ _
    (by decide +kernel) (by decide +kernel) (by decide)

end Datboi.Recover
