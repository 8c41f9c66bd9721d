import Datboi.Lib.Runs
import Datboi.Server.Jobs
import Mathlib.Data.List.Nodup

/-!
# Job history over runs

A run is any sequence of creations, updates and ends of jobs, with restarts of the daemon in
between. A creation's ledger insert may fail. The record of the moments at which jobs ended is
kept beside the registry, under the ids of their ledger rows.

An unrecorded job takes its id from a counter that a restart sets back to one, and the ledger
gives ids without looking at the counter. A job that ends is pruned before its detail is read
if enough finished jobs stand after it. Histories are faithful in the runs that avoid these.
-/

namespace Datboi.Jobs

/-! ## Lists of jobs -/

variable {id : Nat} {f : JobState → JobState} {jobs rest : List JobState} {job : JobState}

theorem withJob_append_cons (hid : ∀ job ∈ jobs, job.id ≠ id) (hjob : job.id = id) :
    withJob id f (jobs ++ job :: rest) = jobs ++ f job :: rest := by
  induction jobs with
  | nil => rw [List.nil_append, withJob, if_pos hjob, List.nil_append]
  | cons first jobs ih =>
    rw [List.cons_append, withJob, if_neg (hid first List.mem_cons_self),
      ih fun other hother => hid other (List.mem_cons_of_mem _ hother), List.cons_append]

/-- Under distinct ids a job with the id stands alone. -/
theorem exists_split (hnodup : (jobs.map JobState.id).Nodup) (hjob : job ∈ jobs)
    (hid : job.id = id) :
    ∃ before after, jobs = before ++ job :: after ∧
      (∀ other ∈ before, other.id ≠ id) ∧ ∀ other ∈ after, other.id ≠ id := by
  obtain ⟨before, after, rfl⟩ := List.append_of_mem hjob
  subst hid
  rw [List.map_append, List.map_cons, List.nodup_middle, List.nodup_cons] at hnodup
  refine ⟨before, after, rfl, ?_, ?_⟩
  · intro other hother heq
    exact hnodup.1 (List.mem_append_left _ (List.mem_map.mpr ⟨other, hother, heq⟩))
  · intro other hother heq
    exact hnodup.1 (List.mem_append_right _ (List.mem_map.mpr ⟨other, hother, heq⟩))

theorem find?_append_cons (hid : ∀ other ∈ jobs, other.id ≠ id) (hjob : job.id = id) :
    (jobs ++ job :: rest).find? (fun job => job.id = id) = some job := by
  have hnone : jobs.find? (fun job => job.id = id) = none := by
    rw [List.find?_eq_none]
    intro other hother
    simpa using hid other hother
  rw [List.find?_append, hnone, Option.none_or, List.find?_cons_of_pos (by simpa using hjob)]

theorem find?_of_mem (hnodup : (jobs.map JobState.id).Nodup) (hjob : job ∈ jobs)
    (hid : job.id = id) : jobs.find? (fun job => job.id = id) = some job := by
  obtain ⟨before, after, rfl, hbefore, -⟩ := exists_split hnodup hjob hid
  exact find?_append_cons hbefore hid

theorem map_withJob (hf : ∀ job, (f job).id = job.id) :
    (withJob id f jobs).map JobState.id = jobs.map JobState.id := by
  induction jobs with
  | nil => rfl
  | cons job jobs ih =>
    rw [withJob]
    split
    · rw [List.map_cons, hf, List.map_cons]
    · rw [List.map_cons, ih, List.map_cons]

/-- A job of the changed list is a job of the list, or the change of one with the id. -/
theorem mem_withJob (hjob : job ∈ withJob id f jobs) :
    job ∈ jobs ∨ ∃ old ∈ jobs, old.id = id ∧ job = f old := by
  induction jobs with
  | nil => cases hjob
  | cons first jobs ih =>
    rw [withJob] at hjob
    split at hjob
    · rename_i hid
      rcases List.mem_cons.mp hjob with rfl | hjob
      · exact Or.inr ⟨first, List.mem_cons_self, hid, rfl⟩
      · exact Or.inl (List.mem_cons_of_mem _ hjob)
    · rcases List.mem_cons.mp hjob with rfl | hjob
      · exact Or.inl List.mem_cons_self
      · rcases ih hjob with hjob | ⟨old, hold, hid, rfl⟩
        · exact Or.inl (List.mem_cons_of_mem _ hjob)
        · exact Or.inr ⟨old, List.mem_cons_of_mem _ hold, hid, rfl⟩

theorem mem_withJob_of_ne (hjob : job ∈ jobs) (hid : job.id ≠ id) : job ∈ withJob id f jobs := by
  induction jobs with
  | nil => cases hjob
  | cons first jobs ih =>
    rw [withJob]
    rcases List.mem_cons.mp hjob with rfl | hjob
    · rw [if_neg hid]
      exact List.mem_cons_self
    · split
      · exact List.mem_cons_of_mem _ hjob
      · exact List.mem_cons_of_mem _ (ih hjob)

theorem mem_withJob_or (hjob : job ∈ jobs) :
    job ∈ withJob id f jobs ∨ job.id = id ∧ f job ∈ withJob id f jobs := by
  induction jobs with
  | nil => cases hjob
  | cons first jobs ih =>
    rw [withJob]
    rcases List.mem_cons.mp hjob with rfl | hjob
    · split
      · rename_i hid
        exact Or.inr ⟨hid, List.mem_cons_self⟩
      · exact Or.inl List.mem_cons_self
    · split
      · exact Or.inl (List.mem_cons_of_mem _ hjob)
      · rcases ih hjob with hkept | ⟨hid, hchanged⟩
        · exact Or.inl (List.mem_cons_of_mem _ hkept)
        · exact Or.inr ⟨hid, List.mem_cons_of_mem _ hchanged⟩

/-- Under distinct ids the job with the id is the changed one. -/
theorem eq_of_mem_withJob (hnodup : (jobs.map JobState.id).Nodup)
    (hjob : job ∈ withJob id f jobs) (hid : job.id = id) :
    ∃ old ∈ jobs, old.id = id ∧ job = f old := by
  rcases mem_withJob hjob with hold | hchanged
  · obtain ⟨before, after, rfl, hbefore, hafter⟩ := exists_split hnodup hold hid
    rw [withJob_append_cons hbefore hid] at hjob
    rcases List.mem_append.mp hjob with hmem | hmem
    · exact absurd hid (hbefore job hmem)
    · rcases List.mem_cons.mp hmem with heq | hmem
      · exact ⟨job, hold, hid, heq⟩
      · exact absurd hid (hafter job hmem)
  · exact hchanged

theorem dropFinished_sublist (drop : Nat) : (dropFinished drop jobs).Sublist jobs := by
  induction jobs generalizing drop with
  | nil => exact List.Sublist.refl _
  | cons job jobs ih =>
    rw [dropFinished]
    split
    · exact (ih drop).cons_cons job
    · exact (ih (drop - 1)).cons job

theorem prune_sublist : (prune jobs).Sublist jobs := dropFinished_sublist _

/-- A running job is never pruned. -/
theorem mem_dropFinished_of_running (drop : Nat) (hjob : job ∈ jobs)
    (hrunning : job.state = .running) : job ∈ dropFinished drop jobs := by
  induction jobs generalizing drop with
  | nil => cases hjob
  | cons first jobs ih =>
    rw [dropFinished]
    rcases List.mem_cons.mp hjob with rfl | hjob
    · rw [if_pos (Or.inl hrunning)]
      exact List.mem_cons_self
    · split
      · exact List.mem_cons_of_mem _ (ih drop hjob)
      · exact ih (drop - 1) hjob

theorem dropFinished_zero : dropFinished 0 jobs = jobs := by
  induction jobs with
  | nil => rfl
  | cons job jobs ih => rw [dropFinished, if_pos (Or.inr rfl), ih]

theorem dropFinished_append (drop : Nat) :
    dropFinished drop (jobs ++ rest) =
      dropFinished drop jobs ++ dropFinished (drop - finishedCount jobs) rest := by
  induction jobs generalizing drop with
  | nil => rfl
  | cons job jobs ih =>
    rw [List.cons_append, dropFinished, dropFinished]
    by_cases hrunning : job.state = .running
    · have hcount : finishedCount (job :: jobs) = finishedCount jobs := by
        simp [finishedCount, hrunning]
      rw [if_pos (Or.inl hrunning), if_pos (Or.inl hrunning), ih, hcount, List.cons_append]
    · have hcount : finishedCount (job :: jobs) = finishedCount jobs + 1 := by
        simp [finishedCount, hrunning]
      rw [hcount]
      by_cases hdrop : drop = 0
      · subst hdrop
        rw [if_pos (Or.inr rfl), if_pos (Or.inr rfl), ih, List.cons_append, Nat.zero_sub,
          Nat.zero_sub]
      · rw [if_neg (by simp [hrunning, hdrop]), if_neg (by simp [hrunning, hdrop]), ih,
          Nat.sub_sub, Nat.add_comm 1]

theorem finishedCount_append :
    finishedCount (jobs ++ rest) = finishedCount jobs + finishedCount rest := by
  rw [finishedCount, List.filter_append, List.length_append]
  rfl

/-- A job stays if few finished jobs stand after it. -/
theorem mem_prune_of_few (hfew : finishedCount rest < keepFinished) :
    job ∈ prune (jobs ++ job :: rest) := by
  have hone : finishedCount (job :: rest) ≤ finishedCount rest + 1 := by
    simp only [finishedCount, List.filter_cons]
    split <;> simp
  have hzero : finishedCount (jobs ++ job :: rest) - keepFinished - finishedCount jobs = 0 := by
    rw [finishedCount_append]
    omega
  rw [prune, dropFinished_append, hzero, dropFinished_zero]
  exact List.mem_append_right _ List.mem_cons_self

/-- The finished jobs that stand after the job with an id. -/
def finishedAfter (jobs : List JobState) (id : Nat) : Nat :=
  finishedCount (jobs.dropWhile fun job => job.id ≠ id).tail

theorem finishedAfter_append_cons (hid : ∀ other ∈ jobs, other.id ≠ id) (hjob : job.id = id) :
    finishedAfter (jobs ++ job :: rest) id = finishedCount rest := by
  rw [finishedAfter, List.dropWhile_append_of_pos (by simpa using hid),
    List.dropWhile_cons_of_neg (by simpa using hjob), List.tail_cons]

theorem hydrate_id {β : Type} (codec : DetailCodec β) (row : JobRow β) :
    (hydrate codec row).id = row.jobId := by
  unfold hydrate
  split <;> rfl

theorem hydrate_owner {β : Type} (codec : DetailCodec β) (row : JobRow β) :
    (hydrate codec row).owner = none := by
  unfold hydrate
  split <;> rfl

theorem hydrate_state {β : Type} (codec : DetailCodec β) (row : JobRow β) :
    (hydrate codec row).state ≠ .running := by
  have hstate : (hydratedState row.state).1 ≠ .running := by
    cases row.state <;> exact JobRunState.noConfusion
  unfold hydrate
  split <;> exact hstate

theorem JobUpdate.apply_keeps (change : JobUpdate) (job : JobState) :
    (change.apply job).id = job.id ∧ (change.apply job).owner = job.owner ∧
      (change.apply job).state = job.state := by
  cases change <;> exact ⟨rfl, rfl, rfl⟩

/-! ## Runs -/

/-- The registry, with the detail that each job had in memory when it ended, by the id of its
ledger row. -/
structure World (β : Type) where
  registry : Registry β
  atEnd : Nat → Option JobDetail := fun _ => none

/-- A caller speaks of its job by the number of its creation in this process. -/
inductive Move where
  | create (job : NewJob) (now : Int) (inserted : Bool)
  | update (k : Nat) (change : JobUpdate)
  | finish (k : Nat) (now : Int)
  | fail (k : Nat) (error : String) (now : Int)
  | restart (now : Int)
  deriving DecidableEq, Repr

/-- The creation whose caller makes the move. -/
def Move.caller : Move → Option Nat
  | .update k _ | .finish k _ | .fail k _ _ => some k
  | .create .. | .restart _ => none

/-- Whether the move ends its caller's job. -/
def Move.ends : Move → Bool
  | .finish .. | .fail .. => true
  | .create .. | .update .. | .restart _ => false

variable {β : Type} (codec : DetailCodec β)

namespace World

/-- A daemon that starts over a ledger. -/
def start (ledger : JobLedger β) (now : Int) : World β :=
  { registry := Registry.durable codec ledger now }

def jobOf (w : World β) (k : Nat) : Option JobState :=
  w.registry.jobs.find? fun job => job.owner = some k

/-- The detail of a recorded job is noted when the job stops running. -/
def noteEnd (w : World β) (k : Nat) (creation : Creation) (mark : JobState → JobState) :
    Nat → Option JobDetail :=
  match w.jobOf k with
  | some job =>
    if creation.recorded = true ∧ job.state = .running then
      fun id => if id = creation.id then some (mark job).detailOf else w.atEnd id
    else w.atEnd
  | none => w.atEnd

/-- The caller of creation `k` ends its job. -/
def close (w : World β) (k : Nat) (mark : JobState → JobState) (state : LedgerState)
    (now : Int) : World β :=
  match w.registry.created[k]? with
  | none => w
  | some creation =>
    { registry := w.registry.close codec creation.id mark state now
      atEnd := w.noteEnd k creation mark }

def next (w : World β) : Move → World β
  | .create job now inserted => { w with registry := (w.registry.pushJob job now inserted).1 }
  | .update k change =>
    match w.registry.created[k]? with
    | none => w
    | some creation => { w with registry := w.registry.update creation.id change }
  | .finish k now => w.close codec k (Registry.markDone now) .done now
  | .fail k error now => w.close codec k (Registry.markFailed error now) .failed now
  | .restart now => { w with registry := Registry.durable codec w.registry.ledger now }

/-- The condition on a move. A creation's insert fails only while no job in memory has the
counter's id. It succeeds only if the ledger's next id was not given to an unrecorded job of
this process. A recorded job ends only while fewer finished jobs stand after it than are
kept. -/
def Allowed (w : World β) : Move → Prop
  | .create _ _ false => ∀ job ∈ w.registry.jobs, job.id ≠ w.registry.nextId
  | .create _ _ true =>
    ∀ creation ∈ w.registry.created, creation.recorded = false →
      creation.id ≠ w.registry.ledger.lastId + 1
  | .finish k _ | .fail k _ _ =>
    ∀ creation, w.registry.created[k]? = some creation → creation.recorded = true →
      ∀ job ∈ w.registry.jobs, job.owner = some k → job.state = .running →
        finishedAfter w.registry.jobs creation.id < keepFinished
  | .update .. | .restart _ => True

/-- A job that creation `k` pushed and that still runs, whose row is in the ledger. -/
def RunsRow (w : World β) (id : Nat) : Prop :=
  ∃ k creation, w.registry.created[k]? = some creation ∧ creation.recorded = true ∧
    creation.id = id ∧ ∃ job ∈ w.registry.jobs, job.owner = some k ∧ job.state = .running

/-- The rows that were inserted after the row `base` and whose job ended hold the detail that
the job had in memory at that moment. -/
def Frozen (base : Nat) (w : World β) : Prop :=
  ∀ row ∈ w.registry.ledger.rows, base < row.jobId →
    row.state = .done ∨ row.state = .failed →
      ∃ detail, w.atEnd row.jobId = some detail ∧ row.detail = codec.toVec detail

structure Sound (base : Nat) (w : World β) : Prop where
  idsNodup : (w.registry.jobs.map JobState.id).Nodup
  addressed : ∀ job ∈ w.registry.jobs, ∀ k creation, w.registry.created[k]? = some creation →
    job.id = creation.id → job.owner = some k
  owned : ∀ job ∈ w.registry.jobs, ∀ k, job.owner = some k →
    ∃ creation, w.registry.created[k]? = some creation ∧ creation.id = job.id
  hydrated : ∀ job ∈ w.registry.jobs, job.owner = none →
    job.id ≤ w.registry.ledger.lastId ∧ job.state ≠ .running
  fresh : ∀ creation ∈ w.registry.created, creation.id < w.registry.nextId
  recordedId : ∀ creation ∈ w.registry.created, creation.recorded = true →
    creation.id ≤ w.registry.ledger.lastId
  createdNodup : (w.registry.created.map Creation.id).Nodup
  running : ∀ row ∈ w.registry.ledger.rows, row.state = .running ↔ w.RunsRow row.jobId
  baseLe : base ≤ w.registry.ledger.lastId
  frozen : w.Frozen codec base

variable {codec} {base : Nat} {w : World β} {k : Nat} {creation : Creation}

section

variable (hsound : w.Sound codec base)

include hsound

theorem Sound.creation_inj {l : Nat} {other : Creation}
    (hk : w.registry.created[k]? = some creation) (hl : w.registry.created[l]? = some other)
    (hid : creation.id = other.id) : k = l := by
  have hlt : k < (w.registry.created.map Creation.id).length := by
    rw [List.length_map]
    exact (List.getElem?_eq_some_iff.mp hk).1
  refine (List.getElem?_inj hlt hsound.createdNodup).mp ?_
  rw [List.getElem?_map, List.getElem?_map, hk, hl, Option.map_some, Option.map_some, hid]

theorem Sound.job_unique {job other : JobState} (hjob : job ∈ w.registry.jobs)
    (hother : other ∈ w.registry.jobs) (hid : job.id = other.id) : job = other :=
  List.inj_on_of_nodup_map hsound.idsNodup hjob hother hid

theorem Sound.id_of_owner (hk : w.registry.created[k]? = some creation) {job : JobState}
    (hjob : job ∈ w.registry.jobs) (howner : job.owner = some k) : job.id = creation.id := by
  obtain ⟨other, hother, hid⟩ := hsound.owned job hjob k howner
  rw [hk, Option.some.injEq] at hother
  rw [hother, hid]

theorem Sound.jobOf_eq (hk : w.registry.created[k]? = some creation) {job : JobState}
    (hjob : job ∈ w.registry.jobs) (howner : job.owner = some k) : w.jobOf k = some job := by
  cases hfind : w.jobOf k with
  | none =>
    have hnone := List.find?_eq_none.mp hfind job hjob
    simp [howner] at hnone
  | some found =>
    have hmem := List.mem_of_find?_eq_some hfind
    have hfound : found.owner = some k := by simpa using List.find?_some hfind
    rw [hsound.job_unique hmem hjob
      ((hsound.id_of_owner hk hmem hfound).trans (hsound.id_of_owner hk hjob howner).symm)]

end

/-! ### A restart -/

/-- A restart forgets the callers, so what is left to check is the ledger. -/
theorem durable_sound (ledger : JobLedger β) (atEnd : Nat → Option JobDetail) (now : Int)
    (hbase : base ≤ ledger.lastId)
    (hfrozen : ∀ row ∈ ledger.rows, base < row.jobId → row.state = .done ∨ row.state = .failed →
      ∃ detail, atEnd row.jobId = some detail ∧ row.detail = codec.toVec detail) :
    Sound codec base ⟨Registry.durable codec ledger now, atEnd⟩ := by
  have hjobs : ∀ job ∈ (Registry.durable codec ledger now).jobs,
      ∃ row ∈ (ledger.interruptRunningJobs now).rows, job = hydrate codec row := by
    intro job hjob
    obtain ⟨row, hrow, heq⟩ := List.mem_map.mp hjob
    exact ⟨row, JobLedger.mem_recentJobs hrow, heq.symm⟩
  have hrows : ∀ row ∈ (ledger.interruptRunningJobs now).rows,
      row.state ≠ .running ∧ (row.state = .interrupted ∨ row ∈ ledger.rows) := by
    intro row hrow
    obtain ⟨old, hold, rfl⟩ := List.mem_map.mp hrow
    unfold JobLedger.interruptRow
    split
    · exact ⟨LedgerState.noConfusion, Or.inl rfl⟩
    · exact ⟨‹_›, Or.inr hold⟩
  refine ⟨?_, ?_, ?_, ?_, ?_, ?_, ?_, ?_, ?_, ?_⟩
  · have hids : (Registry.durable codec ledger now).jobs.map JobState.id =
        ((ledger.interruptRunningJobs now).recentJobs keepFinished).map JobRow.jobId := by
      rw [Registry.durable, List.map_map]
      exact List.map_congr_left fun row _ => hydrate_id codec row
    change ((Registry.durable codec ledger now).jobs.map JobState.id).Nodup
    rw [hids]
    exact JobLedger.recentJobs_nodup _ _
  · intro job _ k creation hk
    cases hk
  · intro job hjob k howner
    obtain ⟨row, -, rfl⟩ := hjobs job hjob
    rw [hydrate_owner] at howner
    cases howner
  · intro job hjob _
    obtain ⟨row, hrow, rfl⟩ := hjobs job hjob
    rw [hydrate_id]
    exact ⟨JobLedger.le_lastId _ hrow, hydrate_state codec row⟩
  · intro creation hcreation
    cases hcreation
  · intro creation hcreation
    cases hcreation
  · exact List.nodup_nil
  · intro row hrow
    refine ⟨fun hrunning => absurd hrunning (hrows row hrow).1, ?_⟩
    intro hruns
    obtain ⟨k, creation, hk, -⟩ := hruns
    cases hk
  · exact hbase.trans_eq (JobLedger.lastId_interruptRunningJobs ledger now).symm
  · intro row hrow hlt hended
    rcases (hrows row hrow).2 with hinterrupted | hold
    · rw [hinterrupted] at hended
      rcases hended with hended | hended <;> cases hended
    · exact hfrozen row hold hlt hended

theorem start_sound (ledger : JobLedger β) (now : Int) :
    Sound codec ledger.lastId (start codec ledger now) :=
  durable_sound ledger _ now le_rfl fun _ hrow hlt =>
    absurd (ledger.le_lastId hrow) (Nat.not_le_of_lt hlt)


/-! ### A creation -/

/-- A creation that gives its job a new id keeps the registry sound. -/
theorem pushed_sound (hsound : w.Sound codec base) {ledger : JobLedger β} {pushed : JobState}
    {id nextId : Nat} {inserted : Bool} (hid : pushed.id = id)
    (howner : pushed.owner = some w.registry.created.length) (hstate : pushed.state = .running)
    (hjobs : ∀ job ∈ w.registry.jobs, job.id ≠ id)
    (hcreated : ∀ creation ∈ w.registry.created, creation.id ≠ id)
    (hnext : w.registry.nextId ≤ nextId ∧ id < nextId)
    (hlast : w.registry.ledger.lastId ≤ ledger.lastId ∧ (inserted = true → id ≤ ledger.lastId))
    (hrows : ∀ row ∈ ledger.rows, row ∈ w.registry.ledger.rows ∧ (inserted = true → row.jobId ≠ id)
      ∨ inserted = true ∧ row.jobId = id ∧ row.state = .running) :
    Sound codec base
      ⟨⟨nextId, w.registry.jobs ++ [pushed], ledger, w.registry.created ++ [⟨id, inserted⟩]⟩,
        w.atEnd⟩ := by
  have hlength : (w.registry.created ++ [⟨id, inserted⟩])[w.registry.created.length]? =
      some ⟨id, inserted⟩ := by simp
  have hold : ∀ {k : Nat} {creation}, w.registry.created[k]? = some creation →
      (w.registry.created ++ [⟨id, inserted⟩])[k]? = some creation := by
    intro k creation hk
    rw [List.getElem?_append_left (List.getElem?_eq_some_iff.mp hk).1, hk]
  have hcases : ∀ {k : Nat} {creation},
      (w.registry.created ++ [⟨id, inserted⟩])[k]? = some creation →
      w.registry.created[k]? = some creation ∨
        k = w.registry.created.length ∧ creation = ⟨id, inserted⟩ := by
    intro k creation hk
    by_cases hlt : k < w.registry.created.length
    · rw [List.getElem?_append_left hlt] at hk
      exact Or.inl hk
    · have hle := (List.getElem?_eq_some_iff.mp hk).1
      rw [List.length_append, List.length_singleton] at hle
      obtain rfl : k = w.registry.created.length := by omega
      rw [hlength, Option.some.injEq] at hk
      exact Or.inr ⟨rfl, hk.symm⟩
  have hmem : ∀ job ∈ w.registry.jobs ++ [pushed], job ∈ w.registry.jobs ∨ job = pushed := by
    intro job hjob
    exact (List.mem_append.mp hjob).imp_right List.mem_singleton.mp
  refine ⟨?_, ?_, ?_, ?_, ?_, ?_, ?_, ?_, ?_, ?_⟩
  · change ((w.registry.jobs ++ [pushed]).map JobState.id).Nodup
    rw [List.map_append, List.nodup_append]
    refine ⟨hsound.idsNodup, List.nodup_singleton _, ?_⟩
    intro a ha b hb
    obtain ⟨job, hjob, rfl⟩ := List.mem_map.mp ha
    rw [List.mem_singleton.mp hb, hid]
    exact hjobs job hjob
  · intro job hjob k creation hk heq
    rcases hmem job hjob with hjob | rfl
    · rcases hcases hk with hk | ⟨-, rfl⟩
      · exact hsound.addressed job hjob k creation hk heq
      · exact absurd heq (hjobs job hjob)
    · rcases hcases hk with hk | ⟨rfl, -⟩
      · have hmem : creation ∈ w.registry.created := List.mem_of_getElem? hk
        exact absurd (heq.symm.trans hid) (hcreated creation hmem)
      · exact howner
  · intro job hjob k hk
    rcases hmem job hjob with hjob | rfl
    · obtain ⟨creation, hcreation, heq⟩ := hsound.owned job hjob k hk
      exact ⟨creation, hold hcreation, heq⟩
    · rw [howner, Option.some.injEq] at hk
      refine ⟨⟨id, inserted⟩, ?_, hid.symm⟩
      rw [← hk]
      exact hlength
  · intro job hjob hnone
    rcases hmem job hjob with hjob | rfl
    · obtain ⟨hle, hended⟩ := hsound.hydrated job hjob hnone
      exact ⟨hle.trans hlast.1, hended⟩
    · rw [howner] at hnone
      cases hnone
  · intro creation hcreation
    rcases List.mem_append.mp hcreation with hcreation | hcreation
    · exact Nat.lt_of_lt_of_le (hsound.fresh creation hcreation) hnext.1
    · rw [List.mem_singleton.mp hcreation]
      exact hnext.2
  · intro creation hcreation hrecorded
    rcases List.mem_append.mp hcreation with hcreation | hcreation
    · exact (hsound.recordedId creation hcreation hrecorded).trans hlast.1
    · obtain rfl := List.mem_singleton.mp hcreation
      exact hlast.2 hrecorded
  · change ((w.registry.created ++ [(⟨id, inserted⟩ : Creation)]).map Creation.id).Nodup
    rw [List.map_append, List.nodup_append]
    refine ⟨hsound.createdNodup, List.nodup_singleton _, ?_⟩
    intro a ha b hb
    obtain ⟨creation, hcreation, rfl⟩ := List.mem_map.mp ha
    rw [List.mem_singleton.mp hb]
    exact hcreated creation hcreation
  · intro row hrow
    rcases hrows row hrow with ⟨hrow, hne⟩ | ⟨rfl, hrowId, hrunning⟩
    · rw [hsound.running row hrow]
      refine ⟨?_, ?_⟩
      · rintro ⟨k, creation, hk, hrecorded, heq, job, hjob, hrest⟩
        exact ⟨k, creation, hold hk, hrecorded, heq, job, List.mem_append_left _ hjob, hrest⟩
      · rintro ⟨k, creation, hk, hrecorded, heq, job, hjob, howns, hrun⟩
        rcases hcases hk with hold | ⟨-, rfl⟩
        · rcases hmem job hjob with hjob | rfl
          · exact ⟨k, creation, hold, hrecorded, heq, job, hjob, howns, hrun⟩
          · rw [howner, Option.some.injEq] at howns
            have hlt : k < w.registry.created.length := (List.getElem?_eq_some_iff.mp hold).1
            omega
        · exact absurd heq.symm (hne hrecorded)
    · exact ⟨fun _ => ⟨w.registry.created.length, ⟨id, true⟩, hlength, rfl, hrowId.symm, pushed,
        List.mem_append_right _ List.mem_cons_self, howner, hstate⟩, fun _ => hrunning⟩
  · exact hsound.baseLe.trans hlast.1
  · intro row hrow hlt hended
    rcases hrows row hrow with ⟨hrow, -⟩ | ⟨-, -, hrunning⟩
    · exact hsound.frozen row hrow hlt hended
    · rw [hrunning] at hended
      rcases hended with hended | hended <;> cases hended

theorem create_sound (hsound : w.Sound codec base) (job : NewJob) (now : Int) (inserted : Bool)
    (hallowed : w.Allowed (.create job now inserted)) :
    Sound codec base (w.next codec (.create job now inserted)) := by
  cases inserted with
  | false =>
    refine pushed_sound hsound rfl rfl rfl hallowed ?_ ⟨by simp, by simp⟩
      ⟨le_rfl, Bool.noConfusion⟩ fun row hrow => Or.inl ⟨hrow, Bool.noConfusion⟩
    intro creation hcreation
    exact Nat.ne_of_lt (hsound.fresh creation hcreation)
  | true =>
    have hlast := w.registry.ledger.lastId_insertJob job.kind job.name now
    have hcreated : ∀ creation ∈ w.registry.created,
        creation.id ≠ w.registry.ledger.lastId + 1 := by
      intro creation hcreation
      cases hrecorded : creation.recorded with
      | false => exact hallowed creation hcreation hrecorded
      | true =>
        have hle := hsound.recordedId creation hcreation hrecorded
        omega
    refine pushed_sound hsound rfl rfl rfl ?_ hcreated ⟨by simp; omega, by simp⟩
      ⟨(Nat.le_succ _).trans hlast.ge, fun _ => hlast.ge⟩ ?_
    · intro other hother
      cases howner : other.owner with
      | none =>
        have hle := (hsound.hydrated other hother howner).1
        change other.id ≠ w.registry.ledger.lastId + 1
        omega
      | some k =>
        obtain ⟨creation, hk, heq⟩ := hsound.owned other hother k howner
        rw [← heq]
        exact hcreated creation (List.mem_of_getElem? hk)
    · intro row hrow
      rcases List.mem_append.mp hrow with hrow | hrow
      · refine Or.inl ⟨hrow, fun _ => ?_⟩
        have hle := w.registry.ledger.le_lastId hrow
        change row.jobId ≠ w.registry.ledger.lastId + 1
        omega
      · rw [List.mem_singleton.mp hrow]
        exact Or.inr ⟨rfl, rfl, rfl⟩

/-! ### An update -/

theorem mem_updated {change : JobUpdate} {id : Nat} {jobs : List JobState} {job : JobState}
    (hjob : job ∈ withJob id change.apply jobs) :
    ∃ old ∈ jobs, job.id = old.id ∧ job.owner = old.owner ∧ job.state = old.state := by
  rcases mem_withJob hjob with hold | ⟨old, hold, -, rfl⟩
  · exact ⟨job, hold, rfl, rfl, rfl⟩
  · exact ⟨old, hold, change.apply_keeps old⟩

theorem exists_updated (change : JobUpdate) (id : Nat) {jobs : List JobState} {job : JobState}
    (hjob : job ∈ jobs) :
    ∃ new ∈ withJob id change.apply jobs,
      new.id = job.id ∧ new.owner = job.owner ∧ new.state = job.state := by
  rcases mem_withJob_or hjob with hkept | ⟨-, hchanged⟩
  · exact ⟨job, hkept, rfl, rfl, rfl⟩
  · exact ⟨change.apply job, hchanged, change.apply_keeps job⟩

theorem updated_sound (hsound : w.Sound codec base) (id : Nat) (change : JobUpdate) :
    Sound codec base { w with registry := w.registry.update id change } := by
  refine ⟨?_, ?_, ?_, ?_, hsound.fresh, hsound.recordedId, hsound.createdNodup, ?_,
    hsound.baseLe, hsound.frozen⟩
  · change ((withJob id change.apply w.registry.jobs).map JobState.id).Nodup
    rw [map_withJob fun job => (change.apply_keeps job).1]
    exact hsound.idsNodup
  · intro job hjob k creation hk heq
    obtain ⟨old, hold, hid, howner, -⟩ := mem_updated hjob
    exact howner.trans (hsound.addressed old hold k creation hk (hid ▸ heq))
  · intro job hjob k hk
    obtain ⟨old, hold, hid, howner, -⟩ := mem_updated hjob
    obtain ⟨creation, hcreation, heq⟩ := hsound.owned old hold k (howner ▸ hk)
    exact ⟨creation, hcreation, heq.trans hid.symm⟩
  · intro job hjob hnone
    obtain ⟨old, hold, hid, howner, hstate⟩ := mem_updated hjob
    rw [hid, hstate]
    exact hsound.hydrated old hold (howner ▸ hnone)
  · intro row hrow
    rw [hsound.running row hrow]
    refine ⟨?_, ?_⟩
    · rintro ⟨k, creation, hk, hrecorded, heq, job, hjob, howns, hrun⟩
      obtain ⟨new, hnew, -, howner, hstate⟩ := exists_updated change id hjob
      exact ⟨k, creation, hk, hrecorded, heq, new, hnew, howner.trans howns, hstate.trans hrun⟩
    · rintro ⟨k, creation, hk, hrecorded, heq, job, hjob, howns, hrun⟩
      obtain ⟨old, hold, -, howner, hstate⟩ := mem_updated hjob
      exact ⟨k, creation, hk, hrecorded, heq, old, hold, howner ▸ howns, hstate ▸ hrun⟩


/-! ### The end of a job -/

/-- What ending a job does to it: it keeps its id and its caller, and stops running. -/
structure Ends (mark : JobState → JobState) : Prop where
  id : ∀ job, (mark job).id = job.id
  owner : ∀ job, (mark job).owner = job.owner
  state : ∀ job, (mark job).state ≠ .running

theorem ends_markDone (now : Int) : Ends (Registry.markDone now) :=
  ⟨fun _ => rfl, fun _ => rfl, fun _ => JobRunState.noConfusion⟩

theorem ends_markFailed (error : String) (now : Int) : Ends (Registry.markFailed error now) :=
  ⟨fun _ => rfl, fun _ => rfl, fun _ => JobRunState.noConfusion⟩

variable {mark : JobState → JobState} {state : LedgerState} {now : Int}

theorem mem_closed (hmark : Ends mark) {id : Nat} {jobs : List JobState} {job : JobState}
    (hjob : job ∈ prune (withJob id mark jobs)) :
    (∃ old ∈ jobs, job.id = old.id ∧ job.owner = old.owner) ∧
      (job.state = .running → job ∈ jobs) := by
  rcases mem_withJob (prune_sublist.mem hjob) with hold | ⟨old, hold, -, rfl⟩
  · exact ⟨⟨job, hold, rfl, rfl⟩, fun _ => hold⟩
  · exact ⟨⟨old, hold, hmark.id old, hmark.owner old⟩,
      fun hrunning => absurd hrunning (hmark.state old)⟩

theorem closed_nodup (hmark : Ends mark) (id : Nat) {jobs : List JobState}
    (hnodup : (jobs.map JobState.id).Nodup) :
    ((prune (withJob id mark jobs)).map JobState.id).Nodup := by
  refine List.Nodup.sublist (prune_sublist.map _) ?_
  rw [map_withJob hmark.id]
  exact hnodup

/-- Among the running jobs only the one that ends is lost. -/
theorem closed_running (hmark : Ends mark) {id : Nat} {jobs : List JobState}
    (hnodup : (jobs.map JobState.id).Nodup) {job : JobState} (hrunning : job.state = .running) :
    job ∈ prune (withJob id mark jobs) ↔ job ∈ jobs ∧ job.id ≠ id := by
  refine ⟨fun hjob => ⟨(mem_closed hmark hjob).2 hrunning, ?_⟩, ?_⟩
  · intro hid
    obtain ⟨old, -, -, rfl⟩ := eq_of_mem_withJob hnodup (prune_sublist.mem hjob) hid
    exact hmark.state old hrunning
  · intro hjob
    exact mem_dropFinished_of_running _ (mem_withJob_of_ne hjob.1 hjob.2) hrunning

theorem mem_closedRows {ledger : JobLedger β} {id : Nat} {detail : Option β} {row : JobRow β}
    (hrow : row ∈ ((ledger.finalizeJob id state now detail).pruneJobs ledgerKeep).rows) :
    (row ∈ ledger.rows ∧ ¬(row.jobId = id ∧ row.state = .running)) ∨
      ∃ old ∈ ledger.rows, old.jobId = id ∧ old.state = .running ∧
        row = { old with state := state, finishedAt := some now, detail := detail } := by
  obtain ⟨old, hold, rfl⟩ := List.mem_map.mp (JobLedger.mem_pruneJobs hrow)
  unfold JobLedger.finalizeRow
  split
  · rename_i hif
    exact Or.inr ⟨old, hold, hif.1, hif.2, rfl⟩
  · exact Or.inl ⟨hold, ‹_›⟩

section

variable (hsound : w.Sound codec base) (hmark : Ends mark)

include hsound hmark

theorem runsRow_close (id : Nat) :
    RunsRow ⟨w.registry.close codec creation.id mark state now, w.noteEnd k creation mark⟩ id ↔
      w.RunsRow id ∧ id ≠ creation.id := by
  refine ⟨?_, ?_⟩
  · intro hruns
    obtain ⟨l, other, hl, hrecorded, rfl, job, hjob, howns, hrun⟩ := hruns
    obtain ⟨hmem, hne⟩ := (closed_running hmark hsound.idsNodup hrun).mp hjob
    rw [hsound.id_of_owner hl hmem howns] at hne
    exact ⟨⟨l, other, hl, hrecorded, rfl, job, hmem, howns, hrun⟩, hne⟩
  · intro hruns
    obtain ⟨⟨l, other, hl, hrecorded, rfl, job, hjob, howns, hrun⟩, hne⟩ := hruns
    rw [← hsound.id_of_owner hl hjob howns] at hne
    exact ⟨l, other, hl, hrecorded, rfl, job,
      (closed_running hmark hsound.idsNodup hrun).mpr ⟨hjob, hne⟩, howns, hrun⟩

/-- The detail that is persisted is the one of the job in memory, if it was not pruned. -/
theorem closed_detail {job : JobState} (hjob : job ∈ w.registry.jobs)
    (hfew : finishedAfter w.registry.jobs job.id < keepFinished) :
    Registry.detail codec
      { w.registry with jobs := prune (withJob job.id mark w.registry.jobs) } job.id =
        some (mark job).detailOf := by
  have hmem : mark job ∈ prune (withJob job.id mark w.registry.jobs) := by
    obtain ⟨before, after, heq, hbefore, -⟩ := exists_split hsound.idsNodup hjob rfl
    rw [heq, finishedAfter_append_cons hbefore rfl] at hfew
    rw [heq, withJob_append_cons hbefore rfl]
    exact mem_prune_of_few hfew
  rw [Registry.detail, find?_of_mem (closed_nodup hmark _ hsound.idsNodup) hmem (hmark.id job)]

theorem closed_sound (hstate : state ≠ .running) (hk : w.registry.created[k]? = some creation)
    (hfew : creation.recorded = true → ∀ job ∈ w.registry.jobs, job.owner = some k →
      job.state = .running → finishedAfter w.registry.jobs creation.id < keepFinished) :
    Sound codec base
      ⟨w.registry.close codec creation.id mark state now, w.noteEnd k creation mark⟩ := by
  have hlast : (w.registry.close codec creation.id mark state now).ledger.lastId =
      w.registry.ledger.lastId :=
    (JobLedger.lastId_pruneJobs _ (by decide)).trans (JobLedger.lastId_finalizeJob ..)
  refine ⟨closed_nodup hmark _ hsound.idsNodup, ?_, ?_, ?_, hsound.fresh, ?_,
    hsound.createdNodup, ?_, hlast ▸ hsound.baseLe, ?_⟩
  · intro job hjob l other hl heq
    obtain ⟨old, hold, hid, howner⟩ := (mem_closed hmark hjob).1
    exact howner.trans (hsound.addressed old hold l other hl (hid ▸ heq))
  · intro job hjob l hl
    obtain ⟨old, hold, hid, howner⟩ := (mem_closed hmark hjob).1
    obtain ⟨other, hother, heq⟩ := hsound.owned old hold l (howner ▸ hl)
    exact ⟨other, hother, heq.trans hid.symm⟩
  · intro job hjob hnone
    obtain ⟨⟨old, hold, hid, howner⟩, hkept⟩ := mem_closed hmark hjob
    rw [hlast, hid]
    refine ⟨(hsound.hydrated old hold (howner ▸ hnone)).1, ?_⟩
    intro hrunning
    exact (hsound.hydrated job (hkept hrunning) hnone).2 hrunning
  · intro other hother hrecorded
    rw [hlast]
    exact hsound.recordedId other hother hrecorded
  · intro row hrow
    rw [runsRow_close hsound hmark]
    rcases mem_closedRows hrow with ⟨hold, hother⟩ | ⟨old, -, hid, -, rfl⟩
    · rw [← hsound.running row hold]
      refine ⟨fun hrunning => ⟨hrunning, fun hid => hother ⟨hid, hrunning⟩⟩, fun h => h.1⟩
    · exact ⟨fun hrunning => absurd hrunning hstate, fun h => absurd hid h.2⟩
  · intro row hrow hlt hended
    rcases mem_closedRows hrow with ⟨hold, -⟩ | ⟨old, hold, hid, hrunning, rfl⟩
    · -- a note is made only for a row that still runs
      obtain ⟨detail, hdetail, heq⟩ := hsound.frozen row hold hlt hended
      refine ⟨detail, ?_, heq⟩
      rw [noteEnd]
      split
      · rename_i job hjobOf
        split
        · rename_i hif
          dsimp only
          rw [if_neg ?_]
          · exact hdetail
          · intro hrowId
            have hruns := (hsound.running row hold).mpr ⟨k, creation, hk, hif.1, hrowId.symm,
              job, List.mem_of_find?_eq_some hjobOf, by simpa using List.find?_some hjobOf, hif.2⟩
            rw [hruns] at hended
            rcases hended with hended | hended <;> cases hended
        · exact hdetail
      · exact hdetail
    · obtain ⟨l, other, hl, hrecorded, heq, job, hjob, howns, hrun⟩ :=
        (hsound.running old hold).mp hrunning
      obtain rfl := hsound.creation_inj hk hl (hid.symm.trans heq.symm)
      rw [hk, Option.some.injEq] at hl
      subst hl
      have hjobId := hsound.id_of_owner hk hjob howns
      refine ⟨(mark job).detailOf, ?_, ?_⟩
      · rw [noteEnd, hsound.jobOf_eq hk hjob howns]
        dsimp only
        rw [if_pos ⟨hrecorded, hrun⟩, if_pos hid]
      · have hread := closed_detail hsound hmark hjob
          (hjobId ▸ hfew hrecorded job hjob howns hrun)
        rw [hjobId] at hread
        dsimp only
        rw [hread, Option.bind_some]

end

/-! ## Faithful histories -/

/-- A caller's move touches no job but its own: other jobs stay as they are, and only jobs that
have ended leave memory. In the ledger it touches its own row only. -/
structure ChangesOnly (k : Nat) (ends : Bool) (w after : World β) : Prop where
  unchanged : ∀ job ∈ after.registry.jobs, job.owner ≠ some k → job ∈ w.registry.jobs
  kept : ∀ job ∈ w.registry.jobs, job.owner ≠ some k →
    job.state = .running ∨ ends = false → job ∈ after.registry.jobs
  rows : ∀ row ∈ after.registry.ledger.rows, row ∈ w.registry.ledger.rows ∨
    ∃ creation, w.registry.created[k]? = some creation ∧ creation.recorded = true ∧
      creation.id = row.jobId

/-- The running jobs stay in memory, except for a caller that ends its own. -/
def RunningKept (move : Move) (w after : World β) : Prop :=
  ∀ job ∈ w.registry.jobs, job.state = .running →
    (move.ends = true → job.owner ≠ move.caller) →
    ∃ later ∈ after.registry.jobs,
      later.id = job.id ∧ later.owner = job.owner ∧ later.state = .running

theorem closed_changesOnly (hsound : w.Sound codec base) (hmark : Ends mark)
    (hk : w.registry.created[k]? = some creation) :
    ChangesOnly k true w
      ⟨w.registry.close codec creation.id mark state now, w.noteEnd k creation mark⟩ := by
  refine ⟨?_, ?_, ?_⟩
  · intro job hjob howner
    rcases mem_withJob (prune_sublist.mem hjob) with hold | ⟨old, hold, hid, rfl⟩
    · exact hold
    · rw [hmark.owner, hsound.addressed old hold k creation hk hid] at howner
      exact absurd rfl howner
  · intro job hjob howner hrunning
    have hrun := hrunning.resolve_right Bool.noConfusion
    refine (closed_running hmark hsound.idsNodup hrun).mpr ⟨hjob, ?_⟩
    intro hid
    exact howner (hsound.addressed job hjob k creation hk hid)
  · intro row hrow
    rcases mem_closedRows hrow with ⟨hold, -⟩ | ⟨old, hold, hid, hrunning, rfl⟩
    · exact Or.inl hold
    · obtain ⟨l, other, hl, hrecorded, heq, -⟩ := (hsound.running old hold).mp hrunning
      obtain rfl := hsound.creation_inj hk hl (hid.symm.trans heq.symm)
      exact Or.inr ⟨other, hl, hrecorded, heq⟩

theorem updated_changesOnly (hsound : w.Sound codec base) (change : JobUpdate)
    (hk : w.registry.created[k]? = some creation) :
    ChangesOnly k false w { w with registry := w.registry.update creation.id change } := by
  refine ⟨?_, ?_, fun row hrow => Or.inl hrow⟩
  · intro job hjob howner
    rcases mem_withJob hjob with hold | ⟨old, hold, hid, rfl⟩
    · exact hold
    · rw [(change.apply_keeps old).2.1, hsound.addressed old hold k creation hk hid] at howner
      exact absurd rfl howner
  · intro job hjob howner _
    refine mem_withJob_of_ne hjob ?_
    intro hid
    exact howner (hsound.addressed job hjob k creation hk hid)

theorem changesOnly_refl (k : Nat) (ends : Bool) (w : World β) : ChangesOnly k ends w w :=
  ⟨fun _ hjob _ => hjob, fun _ hjob _ _ => hjob, fun _ hrow => Or.inl hrow⟩

section

variable (hsound : w.Sound codec base)

include hsound

theorem close_changesOnly (hmark : Ends mark) :
    ChangesOnly k true w (w.close codec k mark state now) := by
  unfold close
  split
  · exact changesOnly_refl k true w
  · exact closed_changesOnly hsound hmark ‹_›

theorem next_changesOnly {move : Move} (hcaller : move.caller = some k) :
    ChangesOnly k move.ends w (w.next codec move) := by
  cases move with
  | create job now inserted => cases hcaller
  | restart now => cases hcaller
  | update l change =>
    obtain rfl : l = k := Option.some.inj hcaller
    unfold next
    dsimp only
    split
    · exact changesOnly_refl l false w
    · exact updated_changesOnly hsound change ‹_›
  | finish l now =>
    obtain rfl : l = k := Option.some.inj hcaller
    exact close_changesOnly hsound (ends_markDone now)
  | fail l error now =>
    obtain rfl : l = k := Option.some.inj hcaller
    exact close_changesOnly hsound (ends_markFailed error now)

theorem next_runningKept {move : Move} (hrestart : ∀ now, move ≠ .restart now) :
    RunningKept move w (w.next codec move) := by
  intro job hjob hrunning hother
  have hends : ∀ k, move.caller = some k → move.ends = true →
      ∃ later ∈ (w.next codec move).registry.jobs,
        later.id = job.id ∧ later.owner = job.owner ∧ later.state = .running := by
    intro k hcaller hends
    have hkept := (next_changesOnly hsound hcaller).kept job hjob (hcaller ▸ hother hends)
      (Or.inl hrunning)
    exact ⟨job, hkept, rfl, rfl, hrunning⟩
  cases move with
  | create new now inserted =>
    exact ⟨job, List.mem_append_left _ hjob, rfl, rfl, hrunning⟩
  | restart now => exact absurd rfl (hrestart now)
  | finish k now => exact hends k rfl rfl
  | fail k error now => exact hends k rfl rfl
  | update k change =>
    unfold next
    dsimp only
    split
    · exact ⟨job, hjob, rfl, rfl, hrunning⟩
    · obtain ⟨later, hlater, hid, howner, hstate⟩ := exists_updated change _ hjob
      exact ⟨later, hlater, hid, howner, hstate.trans hrunning⟩

theorem close_sound (hmark : Ends mark) (hstate : state ≠ .running)
    (hfew : ∀ creation, w.registry.created[k]? = some creation → creation.recorded = true →
      ∀ job ∈ w.registry.jobs, job.owner = some k → job.state = .running →
        finishedAfter w.registry.jobs creation.id < keepFinished) :
    Sound codec base (w.close codec k mark state now) := by
  unfold close
  split
  · exact hsound
  · rename_i creation hk
    exact closed_sound hsound hmark hstate hk (hfew creation hk)

end

theorem next_sound (w : World β) (move : Move) (hsound : w.Sound codec base)
    (hallowed : w.Allowed move) : Sound codec base (w.next codec move) := by
  cases move with
  | create job now inserted => exact create_sound hsound job now inserted hallowed
  | update k change =>
    unfold next
    dsimp only
    split
    · exact hsound
    · exact updated_sound hsound _ change
  | finish k now =>
    exact close_sound hsound (ends_markDone now) LedgerState.noConfusion hallowed
  | fail k error now =>
    exact close_sound hsound (ends_markFailed error now) LedgerState.noConfusion hallowed
  | restart now => exact durable_sound _ _ now hsound.baseLe hsound.frozen

variable (codec) in
/-- In a run whose moves meet the condition the ids in memory are distinct, a row that was
frozen holds the detail that its job had when it ended, a caller changes its own job only, and
a running job stays. -/
theorem history_faithful (ledger : JobLedger β) (now : Int) (moves : List Move)
    (halong : Runs.Along (next codec) Allowed (start codec ledger now) moves) :
    ((Runs.run (next codec) (start codec ledger now) moves).registry.jobs.map
        JobState.id).Nodup ∧
      (Runs.run (next codec) (start codec ledger now) moves).Frozen codec ledger.lastId ∧
      (∀ move k, move.caller = some k →
        ChangesOnly k move.ends (Runs.run (next codec) (start codec ledger now) moves)
          ((Runs.run (next codec) (start codec ledger now) moves).next codec move)) ∧
      ∀ move, (∀ now, move ≠ .restart now) →
        RunningKept move (Runs.run (next codec) (start codec ledger now) moves)
          ((Runs.run (next codec) (start codec ledger now) moves).next codec move) := by
  have hsound : Sound codec ledger.lastId
      (Runs.run (next codec) (start codec ledger now) moves) :=
    halong.invariant next_sound (start_sound ledger now)
  exact ⟨hsound.idsNodup, hsound.frozen, fun move k => next_changesOnly hsound,
    fun move => next_runningKept hsound⟩

/-- Details that are written and read back as they are. -/
def plainCodec : DetailCodec JobDetail := ⟨some, some⟩

/-- A job that is recorded, makes progress and finishes, with a restart after it. -/
theorem history_faithful_oneJob :
    (Runs.run (next plainCodec) (start plainCodec {} 0)
      [.create (createGc "evict" 3) 1 true, .update 0 (.refineProgress 2 3), .finish 0 2,
        .restart 3]).Frozen plainCodec 0 :=
  (history_faithful plainCodec {} 0 _ (by
    refine ⟨?_, trivial, ?_, trivial, trivial⟩
    · intro creation hcreation
      cases hcreation
    · intro creation hk _ job _ _ _
      obtain rfl : ⟨1, true⟩ = creation := Option.some.inj hk
      decide)).2.1

/-- Twenty jobs that are created and finish, while the first job runs. -/
def outlived : List Move :=
  .create (createGc "evict" 3) 1 true :: .update 0 (.refineProgress 3 3) ::
    (List.range 20).flatMap fun k => [.create (createGc "apply" 5) 2 true, .finish (k + 1) 3]

/-- After a restart the counter gives an id that a job in memory has, if the insert fails, and
the new job's caller finishes the other one. A job that twenty others outlived is pruned
before it is persisted: its row holds no progress, though the job had made some. -/
theorem history_unfaithful :
    let w := Runs.run (next plainCodec) (start plainCodec {} 0)
      [.create (createGc "evict" 3) 1 true, .finish 0 2, .restart 3,
        .create (createGc "apply" 5) 4 false]
    let late := Runs.run (next plainCodec) (start plainCodec {} 0) (outlived ++ [.finish 0 4])
    ¬(w.registry.jobs.map JobState.id).Nodup ∧
      (w.registry.jobs.map fun job => (job.owner, job.state, job.finishedAt)) =
        [(none, .done, some 2), (some 0, .running, none)] ∧
      ((w.next plainCodec (.finish 0 5)).registry.jobs.map fun job =>
        (job.owner, job.state, job.finishedAt)) =
        [(none, .done, some 5), (some 0, .running, none)] ∧
      (late.atEnd 1).map JobDetail.filesDone = some 3 ∧
      (late.registry.ledger.rows.head?.bind JobRow.detail).map JobDetail.filesDone = some 0 := by
  decide +kernel

end World

end Datboi.Jobs
