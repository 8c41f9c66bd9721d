import Datboi.Ingest.WriteOrder

/-!
# Budget, termination and the whole run

The running total of the budget saturates at the largest `u64`, so a budget of exactly
that value bounds nothing. Below it the total is exact. Termination is a measure that
every move of the writer and of a worker makes smaller: what is still to walk weighs
more than what is held, that more than what is queued, under way, back, or parked, and
a round of the loop that finds nothing owed makes progress at its first test.
-/

namespace Datboi.Ingest

variable {π κ δ ω : Type} {ingester : Ingester π κ δ ω} {whole : List (Walked π)} {origin : δ}
  {s s' : State π κ δ ω}

/-! ## The budget -/

/-- The running total is the sum of what is in flight, and within the budget. -/
structure Budgeted (ingester : Ingester π κ δ ω) (s : State π κ δ ω) : Prop where
  bytes_eq : s.inflightBytes = s.inflight ingester
  le_cap : s.inflight ingester ≤ ingester.cap
  held_le : ∀ job, s.held = some job → job.weight ≤ ingester.cap

theorem inflight_eq (hitems : (s'.items ingester).Perm (s.items ingester)) :
    s'.inflight ingester = s.inflight ingester :=
  (hitems.map _).sum_eq

theorem Budgeted.same (hbudgeted : Budgeted ingester s)
    (hitems : (s'.items ingester).Perm (s.items ingester))
    (hbytes : s'.inflightBytes = s.inflightBytes) (hheld : s'.held = s.held) :
    Budgeted ingester s' := by
  refine ⟨?_, ?_, ?_⟩
  · rw [hbytes, inflight_eq hitems, hbudgeted.bytes_eq]
  · rw [inflight_eq hitems]
    exact hbudgeted.le_cap
  · rw [hheld]
    exact hbudgeted.held_le

variable {item : Retire π ω} {move : Move}

theorem Budgeted.parked (hbudgeted : Budgeted ingester s) {seq : Nat}
    (hfresh : seq ∉ s.pending.map Prod.fst) (hfree : item.refund = 0) :
    Budgeted ingester (s.park seq item) := by
  have hsum : (s.park seq item).inflight ingester = s.inflight ingester := by
    rw [State.inflight, items_park hfresh, List.map_cons, List.sum_cons, hfree, Nat.zero_add]
    rfl
  refine ⟨?_, ?_, hbudgeted.held_le⟩
  · rw [hsum, ← hbudgeted.bytes_eq]
    rfl
  · rw [hsum]
    exact hbudgeted.le_cap

theorem weight_le_cap (ingester : Ingester π κ δ ω) (metadata : Metadata) :
    ingester.weight metadata ≤ ingester.cap := by
  unfold Ingester.weight
  split
  · exact Nat.zero_le _
  · rename_i hbuffered
    simp only [Bool.or_eq_true, decide_eq_true_eq, not_or, Nat.not_lt] at hbuffered
    exact hbuffered.2.trans (Nat.le_max_right _ _)

theorem admits_iff {inflight cap weight : Nat} : admits inflight cap weight = true ↔
    weight = 0 ∨ inflight = 0 ∨ saturatingAddU64 inflight weight ≤ cap := by
  simp [admits, or_assoc]

/-- An admitted job keeps the total exact: below the top of the range the sum that was
tested did not saturate. -/
theorem Budgeted.offered (hcap : ingester.cap < u64Bound - 1) (hbudgeted : Budgeted ingester s)
    {job : Job π κ} (hweight : job.weight ≤ ingester.cap) :
    Budgeted ingester (s.offer ingester.cap job) := by
  unfold State.offer
  split
  · rename_i hadmitted
    have hsum : (s.dispatch job).inflight ingester = job.weight + s.inflight ingester := by
      have hperm := ((perm_items_dispatch ingester s job).map fun entry => entry.2.refund).sum_eq
      rw [List.map_cons, List.sum_cons] at hperm
      exact hperm
    have hbytes := hbudgeted.bytes_eq
    have hle := hbudgeted.le_cap
    rw [admits_iff, saturatingAddU64] at hadmitted
    refine ⟨?_, ?_, nofun⟩
    · change saturatingAddU64 s.inflightBytes job.weight = (s.dispatch job).inflight ingester
      rw [hsum, saturatingAddU64]
      omega
    · change (s.dispatch job).inflight ingester ≤ ingester.cap
      rw [hsum]
      omega
  · refine ⟨hbudgeted.bytes_eq, hbudgeted.le_cap, ?_⟩
    intro other hother
    cases hother
    exact hweight

theorem budgeted_visit (hcap : ingester.cap < u64Bound - 1) (hinv : Inv ingester whole origin s)
    (hbudgeted : Budgeted ingester s) (rest : List (Walked π)) (position : Walked π) :
    Budgeted ingester (State.visit ingester (s.onward rest) position) := by
  have honward : ∀ scanned, Budgeted ingester { s.onward rest with filesScanned := scanned } :=
    fun _ => ⟨hbudgeted.bytes_eq, hbudgeted.le_cap, hbudgeted.held_le⟩
  cases position with
  | note text => exact (honward s.filesScanned).parked hinv.next_fresh rfl
  | failed path error => exact (honward s.filesScanned).parked hinv.next_fresh rfl
  | file path metadata =>
    simp only [State.visit]
    split
    · exact (honward _).parked hinv.next_fresh rfl
    · exact (honward _).parked hinv.next_fresh rfl
    · rename_i job hstage
      refine (honward _).offered hcap ?_
      rw [(stage_work hstage).2.2]
      exact weight_le_cap ingester metadata

theorem budgeted_apply (hinv : Inv ingester whole origin s) (hbudgeted : Budgeted ingester s)
    (hfound : s.pending.lookup s.retireSeq = some item) :
    Budgeted ingester (s.apply ingester item) := by
  have hsum : s.inflight ingester = item.refund + (s.apply ingester item).inflight ingester := by
    have hperm := ((hinv.perm_items_apply hfound).map fun entry => entry.2.refund).sum_eq
    rw [List.map_cons, List.sum_cons] at hperm
    exact hperm
  have hbytes := hbudgeted.bytes_eq
  have hle := hbudgeted.le_cap
  refine ⟨?_, by omega, hbudgeted.held_le⟩
  change s.inflightBytes - item.refund = _
  omega

section

variable (hcap : ingester.cap < u64Bound - 1) (hinv : Inv ingester whole origin s)
  (hbudgeted : Budgeted ingester s)

include hcap hinv hbudgeted

theorem budgeted_write (hstep : s.write ingester = some s') : Budgeted ingester s' := by
  unfold State.write at hstep
  split at hstep
  · split at hstep
    · cases hstep
      exact hbudgeted.same (List.Perm.refl _) rfl rfl
    · rename_i job hheld
      cases hstep
      exact (hbudgeted.offered hcap (hbudgeted.held_le job hheld)).same (List.Perm.refl _) rfl rfl
  · split at hstep
    · split at hstep
      · cases hstep
        exact hbudgeted.same (List.Perm.refl _) rfl rfl
      · cases hstep
        exact budgeted_visit hcap hinv hbudgeted _ _
    · cases hstep
      exact hbudgeted.same (List.Perm.refl _) rfl rfl
  · split at hstep
    · rename_i hfound
      cases hstep
      exact budgeted_apply hinv hbudgeted hfound
    · cases hstep
      exact hbudgeted.same (List.Perm.refl _) rfl rfl
  · split at hstep
    · split at hstep
      · cases hstep
        exact hbudgeted.same (List.Perm.refl _) rfl rfl
      · cases hstep
        exact hbudgeted.same (List.Perm.refl _) rfl rfl
    · cases hstep
      exact hbudgeted.same (List.Perm.refl _) rfl rfl
  · split at hstep
    · cases hstep
    · rename_i hdone
      cases hstep
      exact hbudgeted.same (hinv.perm_items_receive hdone) rfl rfl
  · cases hstep

theorem budgeted_step (hstep : s.step ingester move = some s') : Budgeted ingester s' := by
  cases move with
  | write => exact budgeted_write hcap hinv hbudgeted hstep
  | take =>
    have hitems := perm_items_take hstep
    obtain ⟨_, _, _, _, rfl⟩ := take_eq_some hstep
    exact hbudgeted.same hitems rfl rfl
  | finish i =>
    have hitems := perm_items_finish hstep
    obtain ⟨_, _, rfl⟩ := finish_eq_some hstep
    exact hbudgeted.same hitems rfl rfl

end

/-! ## Termination -/

/-- The walk loop's own test. -/
def State.hasRoom (s : State π κ δ ω) : Prop :=
  s.held.isNone ∧ s.walking ∧ s.pending.length + s.outstanding < reorderCap

instance (s : State π κ δ ω) : Decidable s.hasRoom :=
  inferInstanceAs (Decidable (_ ∧ _ ∧ _))

/-- The next round dispatches the held job or takes a position of the walk. -/
def State.ready (ingester : Ingester π κ δ ω) (s : State π κ δ ω) : Prop :=
  (∃ job ∈ s.held, admits s.inflightBytes ingester.cap job.weight) ∨ s.hasRoom

instance (s : State π κ δ ω) : Decidable (s.ready ingester) :=
  inferInstanceAs (Decidable (_ ∨ _))

/-- How far the writer is from the end of its round. -/
def State.rank (ingester : Ingester π κ δ ω) (s : State π κ δ ω) : Nat :=
  match s.pc with
  | .top => if s.ready ingester then 3 else 20
  | .walk => if s.hasRoom then 2 else 19
  | .retire => 18
  | .decide => 4
  | .waiting => 1
  | .finished => 0

/-- What is left to do. -/
def State.remaining (ingester : Ingester π κ δ ω) (s : State π κ δ ω) : Nat :=
  1000 * s.walk.length + 500 * s.walking.toNat + 200 * s.held.toList.length +
    150 * s.jobs.length + 110 * s.busy.length + 70 * s.done.length + 30 * s.pending.length +
      s.rank ingester

theorem rank_le (ingester : Ingester π κ δ ω) (s : State π κ δ ω) : s.rank ingester ≤ 20 := by
  unfold State.rank
  split
  · split <;> omega
  · split <;> omega
  · omega
  · omega
  · omega
  · omega

theorem remaining_take (hstep : s.take ingester = some s') :
    s'.remaining ingester < s.remaining ingester := by
  obtain ⟨job, rest, hjobs, _, rfl⟩ := take_eq_some hstep
  have hrank : State.rank ingester { s with jobs := rest, busy := s.busy ++ [job] } =
      s.rank ingester := rfl
  simp only [State.remaining, hrank, hjobs, List.length_append, List.length_cons, List.length_nil]
  omega

theorem remaining_finish {i : Nat} (hstep : s.finish ingester i = some s') :
    s'.remaining ingester < s.remaining ingester := by
  obtain ⟨job, hperm, rfl⟩ := finish_eq_some hstep
  have hlength := hperm.length_eq
  rw [List.length_cons] at hlength
  have hrank : State.rank ingester { s with
      busy := s.busy.eraseIdx i
      done := s.done ++ [⟨job.seq, job.path, job.weight, ingester.hashFile job⟩] } =
        s.rank ingester := rfl
  simp only [State.remaining, hrank, List.length_append, List.length_cons, List.length_nil]
  omega

theorem remaining_top_free (hpc : s.pc = .top) (hheld : s.held = none) :
    ({ s with pc := .walk } : State π κ δ ω).remaining ingester < s.remaining ingester := by
  have hready : s.ready ingester ↔ s.hasRoom := by simp [State.ready, hheld]
  have hroom : ({ s with pc := .walk } : State π κ δ ω).hasRoom ↔ s.hasRoom := Iff.rfl
  have hrank : (if s.hasRoom then 2 else 19) < if s.hasRoom then 3 else 20 := by split <;> omega
  simp only [State.remaining, State.rank, hpc, hready, hroom]
  omega

theorem remaining_top_held (hpc : s.pc = .top) {job : Job π κ} (hheld : s.held = some job) :
    ({ s.offer ingester.cap job with pc := .walk } : State π κ δ ω).remaining ingester <
      s.remaining ingester := by
  have hroom : ¬ s.hasRoom := by simp [State.hasRoom, hheld]
  unfold State.offer
  split
  · have hrank := rank_le ingester { s.dispatch job with held := none, pc := .walk }
    simp only [State.remaining, State.dispatch, hheld, Option.toList_some, Option.toList_none,
      List.length_append, List.length_cons, List.length_nil] at hrank ⊢
    omega
  · rename_i hrefused
    have hready : ¬ s.ready ingester := by simpa [State.ready, hheld, hroom] using hrefused
    have hstill : ¬ ({ s with held := some job, pc := .walk } : State π κ δ ω).hasRoom := by
      simp [State.hasRoom]
    simp only [State.remaining, State.rank, hpc, hready, hstill, hheld, if_false]
    omega

theorem length_park_le (s : State π κ δ ω) (seq : Nat) (item : Retire π ω) :
    (s.park seq item).pending.length ≤ s.pending.length + 1 := by
  simp only [State.park, List.length_cons]
  exact Nat.succ_le_succ (List.length_filter_le _ _)

/-- A position of the walk weighs more than anything it can turn into. -/
theorem remaining_visit (hheld : s.held = none) {position : Walked π} {rest : List (Walked π)}
    (hwalk : s.walk = position :: rest) :
    (State.visit ingester (s.onward rest) position).remaining ingester < s.remaining ingester := by
  have hparked : ∀ scanned item, ({ s.onward rest with filesScanned := scanned }.park s.nextSeq
      item).remaining ingester < s.remaining ingester := by
    intro scanned item
    have hlength := length_park_le { s.onward rest with filesScanned := scanned } s.nextSeq item
    have hrank := rank_le ingester
      ({ s.onward rest with filesScanned := scanned }.park s.nextSeq item)
    simp only [State.remaining, State.park, State.onward, hwalk, List.length_cons] at hlength hrank ⊢
    omega
  have hoffered : ∀ scanned job, ({ s.onward rest with filesScanned := scanned }.offer ingester.cap
      job).remaining ingester < s.remaining ingester := by
    intro scanned job
    have hrank := rank_le ingester
      ({ s.onward rest with filesScanned := scanned }.offer ingester.cap job)
    unfold State.offer at hrank ⊢
    split
    · rename_i hadmitted
      rw [if_pos hadmitted] at hrank
      simp only [State.remaining, State.dispatch, State.onward, hwalk, List.length_cons, hheld,
        List.length_append, List.length_nil] at hrank ⊢
      omega
    · rename_i hrefused
      rw [if_neg hrefused] at hrank
      simp only [State.remaining, State.onward, hwalk, List.length_cons, hheld,
        Option.toList_some, Option.toList_none, List.length_nil] at hrank ⊢
      omega
  cases position with
  | note text => exact hparked s.filesScanned _
  | failed path error => exact hparked s.filesScanned _
  | file path metadata =>
    simp only [State.visit]
    split
    · exact hparked _ _
    · exact hparked _ _
    · exact hoffered _ _

theorem remaining_apply (hinv : Inv ingester whole origin s) (hpc : s.pc = .retire)
    (hfound : s.pending.lookup s.retireSeq = some item) :
    (s.apply ingester item).remaining ingester < s.remaining ingester := by
  have hlength := (perm_of_lookup hinv.pending_nodup hfound).length_eq
  rw [List.length_cons] at hlength
  simp only [State.remaining, State.rank, State.apply, hpc] at hlength ⊢
  omega

section

variable (hinv : Inv ingester whole origin s) (hpc : s.pc = .decide) (hnone : s.outstanding = 0)
  (hleft : (!s.walking && s.pending.isEmpty && s.held.isNone) = false)

include hinv hpc hnone hleft

/-- With nothing owed and something left, the next round makes progress: the total is
zero, so the held job is admitted, and the buffer is empty, so the walk goes on. -/
theorem Inv.ready : s.ready ingester := by
  have hdrained := hinv.drained (hinv.settled (Or.inl hpc)) hnone
  have hpending : s.pending = [] := (List.append_eq_nil_iff.mp hdrained).1
  cases hheld : s.held with
  | some job =>
    refine Or.inl ⟨job, hheld, ?_⟩
    have hcounted : s.inflightBytes ≤ ((s.items ingester).map fun entry => entry.2.refund).sum :=
      hinv.orderly.counted
    rw [hdrained, List.map_nil, List.sum_nil] at hcounted
    rw [admits_iff]
    omega
  | none =>
    rw [hpending, hheld] at hleft
    have hwalking : s.walking = true := by simpa using hleft
    refine Or.inr ⟨by rw [hheld]; rfl, hwalking, ?_⟩
    rw [hpending, hnone, List.length_nil]
    exact Nat.zero_lt_succ 255

theorem remaining_decide :
    ({ s with pc := .top } : State π κ δ ω).remaining ingester < s.remaining ingester := by
  have hready : ({ s with pc := .top } : State π κ δ ω).ready ingester :=
    hinv.ready hpc hnone hleft
  simp only [State.remaining, State.rank, hpc, hready, if_true]
  omega

end

theorem remaining_receive (hpc : s.pc = .waiting) {result : Done π ω} {rest : List (Done π ω)}
    (hdone : s.done = result :: rest) :
    (s.receive result rest).remaining ingester < s.remaining ingester := by
  have hlength := length_park_le
    ({ s with done := rest, outstanding := s.outstanding - 1, pc := .top } : State π κ δ ω)
    result.seq (.work result.path result.weight result.work)
  have hrank := rank_le ingester (s.receive result rest)
  have hbefore : s.rank ingester = 1 := by simp only [State.rank, hpc]
  simp only [State.remaining, State.receive, State.park, hdone, List.length_cons, hbefore]
    at hlength hrank ⊢
  omega

theorem remaining_write (hinv : Inv ingester whole origin s) (hstep : s.write ingester = some s') :
    s'.remaining ingester < s.remaining ingester := by
  unfold State.write at hstep
  split at hstep
  · rename_i hpc
    split at hstep
    · rename_i hheld
      cases hstep
      exact remaining_top_free hpc hheld
    · rename_i hheld
      cases hstep
      exact remaining_top_held hpc hheld
  · rename_i hpc
    split at hstep
    · rename_i hroom
      split at hstep
      · cases hstep
        have hrank : s.rank ingester = 2 := by
          simp only [State.rank, hpc]
          exact if_pos hroom
        have hafter : State.rank ingester { s with walking := false, pc := .retire } = 18 := rfl
        simp only [State.remaining, hrank, hafter, hroom.2.1, Bool.toNat_true, Bool.toNat_false]
        omega
      · rename_i hwalk
        cases hstep
        exact remaining_visit (Option.isNone_iff_eq_none.mp hroom.1) hwalk
    · rename_i hroom
      cases hstep
      have hrank : s.rank ingester = 19 := by
        simp only [State.rank, hpc]
        exact if_neg hroom
      have hafter : State.rank ingester { s with pc := .retire } = 18 := rfl
      simp only [State.remaining, hrank, hafter]
      omega
  · rename_i hpc
    split at hstep
    · rename_i hfound
      cases hstep
      exact remaining_apply hinv hpc hfound
    · cases hstep
      simp only [State.remaining, State.rank, hpc]
      omega
  · rename_i hpc
    split at hstep
    · rename_i hnone
      split at hstep
      · cases hstep
        simp only [State.remaining, State.rank, hpc]
        omega
      · rename_i hleft
        cases hstep
        exact remaining_decide hinv hpc hnone (by simpa only [Bool.not_eq_true] using hleft)
    · cases hstep
      simp only [State.remaining, State.rank, hpc]
      omega
  · rename_i hpc
    split at hstep
    · cases hstep
    · rename_i hdone
      cases hstep
      exact remaining_receive hpc hdone
  · cases hstep

theorem remaining_step (hinv : Inv ingester whole origin s)
    (hstep : s.step ingester move = some s') : s'.remaining ingester < s.remaining ingester := by
  cases move with
  | write => exact remaining_write hinv hstep
  | take => exact remaining_take hstep
  | finish i => exact remaining_finish hstep

/-! ## Whole runs -/

theorem workers_pos (ingester : Ingester π κ δ ω) : 0 < ingester.workers := by
  unfold Ingester.workers IngestConfig.workers
  split
  · assumption
  · exact ingester.availableParallelism_pos

/-- Short of the return, somebody can move. -/
theorem Inv.progress (hinv : Inv ingester whole origin s) (hpc : s.pc ≠ .finished) :
    ∃ move, s.step ingester move ≠ none := by
  by_cases hwaits : s.pc = .waiting
  · cases hdone : s.done with
    | cons result rest =>
      refine ⟨.write, ?_⟩
      simp [State.step, State.write, hwaits, hdone]
    | nil =>
      -- Something is owed and nothing has come back: a worker has it, or can take it.
      have howed := hinv.waiting hwaits
      have hlengths := hinv.outstanding_eq
      rw [hdone, List.length_nil] at hlengths
      cases hbusy : s.busy with
      | cons job rest =>
        refine ⟨.finish 0, ?_⟩
        simp [State.step, State.finish, hbusy]
      | nil =>
        rw [hbusy, List.length_nil] at hlengths
        cases hjobs : s.jobs with
        | nil =>
          rw [hjobs, List.length_nil] at hlengths
          omega
        | cons job rest =>
          refine ⟨.take, ?_⟩
          simp [State.step, State.take, hjobs, hbusy, workers_pos]
  · refine ⟨.write, ?_⟩
    simp only [State.step, State.write]
    split
    · split <;> simp
    · split
      · split <;> simp
      · simp
    · split <;> simp
    · split
      · split <;> simp
      · simp
    · rename_i hpc'
      exact absurd hpc' hwaits
    · rename_i hpc'
      exact absurd hpc' hpc

theorem run_cons_eq_some {moves : List Move} (hrun : s.run ingester (move :: moves) = some s') :
    ∃ next, s.step ingester move = some next ∧ next.run ingester moves = some s' := by
  simp only [State.run, List.foldlM_cons] at hrun
  exact Option.bind_eq_some_iff.mp hrun

theorem run_spec {moves : List Move} (hinv : Inv ingester whole origin s)
    (hrun : s.run ingester moves = some s') :
    Inv ingester whole origin s' ∧
      (ingester.cap < u64Bound - 1 → Budgeted ingester s → Budgeted ingester s') ∧
      s'.remaining ingester + moves.length ≤ s.remaining ingester := by
  induction moves generalizing s with
  | nil =>
    cases hrun
    exact ⟨hinv, fun _ hbudgeted => hbudgeted, le_rfl⟩
  | cons move moves ih =>
    obtain ⟨next, hstep, hrest⟩ := run_cons_eq_some hrun
    obtain ⟨hlast, hbudget, hremaining⟩ := ih (inv_step hinv hstep) hrest
    refine ⟨hlast, ?_, ?_⟩
    · intro hcap hbudgeted
      exact hbudget hcap (budgeted_step hcap hinv hbudgeted hstep)
    · have := remaining_step hinv hstep
      rw [List.length_cons]
      omega

/-- While the writer waits, the head of the queue is with the pool. -/
theorem Inv.head_inFlight (hinv : Inv ingester whole origin s) (hpc : s.pc = .waiting) :
    ∃ entry ∈ s.jobs.map (Job.result ingester) ++ s.busy.map (Job.result ingester) ++
      s.done.map Done.result, entry.1 = s.retireSeq := by
  have hsettled := hinv.settled (Or.inr hpc)
  have howed := hinv.waiting hpc
  have hlengths := hinv.outstanding_eq
  have hitems : 0 < (s.items ingester).length := by
    simp only [State.items, List.length_append, List.length_map]
    omega
  have hleft : s.retireSeq < s.nextSeq := by
    have hlength := hinv.orderly.positions.length_eq
    simp only [View.entries, State.view, List.length_map, List.length_append,
      List.length_range'] at hlength
    omega
  rcases hinv.head hsettled hleft with hpool | ⟨job, hheld, hhead⟩
  · exact hpool
  · rw [hinv.only_held hheld hhead] at hitems
    cases hitems

theorem Inv.returned (hinv : Inv ingester whole origin s) (hpc : s.pc = .finished) :
    s.applied.length = whole.length ∧ s.items ingester = [] ∧ s.held = none ∧
      s.inflightBytes = 0 := by
  obtain ⟨hwalking, hpending, hheld, hnone⟩ := hinv.finished hpc
  have hsettled : s.pending.lookup s.retireSeq = none := by
    rw [hpending]
    rfl
  have hdrained := hinv.drained hsettled hnone
  have hcounted : s.inflightBytes ≤ ((s.items ingester).map fun entry => entry.2.refund).sum :=
    hinv.orderly.counted
  rw [hdrained, List.map_nil, List.sum_nil] at hcounted
  have hlength := hinv.orderly.positions.length_eq
  simp only [View.entries, State.view, hdrained, hheld, Option.toList_none, List.map_nil,
    List.append_nil, List.length_nil, List.length_range'] at hlength
  have hwalk : s.walk = [] := hinv.orderly.walking hwalking
  have hdrop : whole.drop s.nextSeq = [] := hinv.orderly.walk_eq.symm.trans hwalk
  have hnext := List.drop_eq_nil_iff.mp hdrop
  have happlied : s.applied.length = s.retireSeq := hinv.orderly.applied_length
  have hle : s.nextSeq ≤ whole.length := hinv.orderly.next_le
  have hretire : s.retireSeq ≤ s.nextSeq := hinv.orderly.retire_le
  exact ⟨by omega, hdrained, hheld, by omega⟩

/-- For every walk, every worker count and every schedule: outcomes are applied once
each and in walk order, a budget below the largest `u64` is never exceeded, the writer
waits only for a head that the pool already has, and every schedule comes to an end,
at a return that leaves nothing behind. -/
theorem write_loop_every_schedule (ingester : Ingester π κ δ ω) (walk : List (Walked π))
    (origin : δ) (moves : List Move) (s : State π κ δ ω)
    (hrun : (State.start walk origin).run ingester moves = some s) :
    (∀ seq item, s.applied[seq]? = some item →
      IsOutcome ingester walk origin s.applied (seq, item)) ∧
    s.applied.length = s.retireSeq ∧ s.db = ingester.after origin s.applied ∧
    (ingester.cap < u64Bound - 1 → s.inflight ingester ≤ ingester.cap) ∧
    (s.pc = .waiting → ∃ entry ∈ s.jobs.map (Job.result ingester) ++
      s.busy.map (Job.result ingester) ++ s.done.map Done.result, entry.1 = s.retireSeq) ∧
    moves.length ≤ 1000 * walk.length + 520 ∧
    ((∀ move, s.step ingester move = none) → s.pc = .finished) ∧
    (s.pc = .finished → s.applied.length = walk.length ∧ s.items ingester = [] ∧
      s.held = none ∧ s.inflightBytes = 0) := by
  obtain ⟨hinv, hbudget, hremaining⟩ := run_spec (inv_start walk origin) hrun
  refine ⟨hinv.orderly.applied, hinv.orderly.applied_length, hinv.orderly.db_eq, ?_,
    hinv.head_inFlight, ?_, ?_, hinv.returned⟩
  · intro hcap
    exact (hbudget hcap ⟨rfl, Nat.zero_le _, nofun⟩).le_cap
  · have hrank := rank_le ingester (State.start walk origin)
    simp only [State.remaining, State.start, Bool.toNat_true, Option.toList_none,
      List.length_nil] at hremaining hrank
    omega
  · intro hstuck
    by_contra hpc
    obtain ⟨move, hmove⟩ := hinv.progress hpc
    exact hmove (hstuck move)

/-! ### Three files under the largest budget -/

/-- Detectors apply to files of any size, so every file is charged. -/
def wideIngester : Ingester Nat Nat Unit Unit where
  config := { skipperCap := u64Bound - 1, skipperCap_lt := by decide }
  availableParallelism := 4
  availableParallelism_pos := by decide
  hasDetectors := true
  canonicalize _ path := .ok path
  lookupUnchangedSource _ _ _ := .ok false
  hashFile _ := ()
  retire _ _ := ()

/-- A file of the largest size a file offset can name. -/
def hugeFile (path : Nat) : Walked Nat := .file path ⟨0, 2 ^ 63 - 1, by decide⟩

/-- With the budget at the largest `u64` the running total saturates, and the third
file is admitted beyond it. -/
theorem inflight_exceeds_cap :
    ((State.start [hugeFile 0, hugeFile 1, hugeFile 2] ()).run wideIngester
        [.write, .write, .write, .write]).map (fun s => s.inflight wideIngester) =
      some (3 * (2 ^ 63 - 1)) ∧
    wideIngester.cap = 2 ^ 64 - 1 ∧ wideIngester.cap < 3 * (2 ^ 63 - 1) ∧
    2 ^ 63 - 1 ≤ wideIngester.cap := by
  decide +kernel

def plainIngester : Ingester Nat Nat Unit Unit :=
  { wideIngester with
    config := { skipperCap := 256 * 1024 * 1024, skipperCap_lt := by decide } }

/-- Up to the writer's wait, the worker's two moves, and round to the return. -/
def singleFile : List Move :=
  List.replicate 5 .write ++ [.take, .finish 0] ++ List.replicate 6 .write

def smallFile : Walked Nat := .file 0 ⟨0, 64, by decide⟩

/-- One file, from the walk to the return. -/
theorem write_loop_every_schedule_single :
    ∃ s, (State.start [smallFile] ()).run plainIngester singleFile = some s ∧
      s.applied.length = 1 ∧ s.inflight plainIngester ≤ plainIngester.cap := by
  have hpc : ((State.start [smallFile] ()).run plainIngester singleFile).map State.pc =
      some .finished := by decide +kernel
  obtain ⟨s, hrun, hfinished⟩ := Option.map_eq_some_iff.mp hpc
  obtain ⟨_, _, _, hbudget, _, _, _, hreturned⟩ :=
    write_loop_every_schedule plainIngester [smallFile] () singleFile s hrun
  exact ⟨s, hrun, (hreturned hfinished).1, hbudget (by decide +kernel)⟩

end Datboi.Ingest
