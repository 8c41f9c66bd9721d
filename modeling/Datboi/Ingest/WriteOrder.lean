import Datboi.Ingest.WriteLoop
import Mathlib.Data.List.Perm.Basic
import Mathlib.Data.List.Nodup
import Mathlib.Tactic.Linarith
import Mathlib.Algebra.BigOperators.Group.List.Basic

/-!
# The write loop under every schedule

Whatever the order in which workers finish, the loop applies the outcome of each
position once and in walk order, keeps the bytes it has handed out within the budget,
waits only for a head that is already with the pool, and returns with nothing left.
The invariant sees one list: the outcomes that are parked, queued, being computed or
on their way back. No worker move changes it but for its order.
-/

namespace Datboi.Ingest

variable {π κ δ ω : Type} (ingester : Ingester π κ δ ω)

/-! ## Outcomes -/

/-- The outcome a dispatched job will have. -/
def Job.result (job : Job π κ) : Nat × Retire π ω :=
  (job.seq, .work job.path job.weight (ingester.hashFile job))

def Done.result (done : Done π ω) : Nat × Retire π ω :=
  (done.seq, .work done.path done.weight done.work)

/-- The index and report once these outcomes have been applied. -/
def Ingester.after (origin : δ) (applied : List (Retire π ω)) : δ :=
  applied.foldl ingester.retire origin

/-- `item` is the outcome of `position`, staged against `db`. -/
def Yields (db : δ) (seq : Nat) (position : Walked π) (item : Retire π ω) : Prop :=
  match position with
  | .note text => item = .note text
  | .failed path error => item = .failed path error
  | .file path metadata =>
    match ingester.stage db seq path metadata with
    | .error error => item = .failed path error
    | .ok .unchanged => item = .unchanged
    | .ok (.work job) => item = .work path job.weight (ingester.hashFile job)

/-- `entry` is the outcome of its position, which was staged after some of the earlier
outcomes had been applied. -/
def IsOutcome (whole : List (Walked π)) (origin : δ) (applied : List (Retire π ω))
    (entry : Nat × Retire π ω) : Prop :=
  ∃ position, whole[entry.1]? = some position ∧ ∃ count ≤ applied.length, count ≤ entry.1 ∧
    Yields ingester (ingester.after origin (applied.take count)) entry.1 position entry.2

namespace State

/-- The outcomes of every position that was admitted and not yet retired. -/
def items (s : State π κ δ ω) : List (Nat × Retire π ω) :=
  s.pending ++ (s.jobs.map (Job.result ingester) ++ s.busy.map (Job.result ingester) ++
    s.done.map Done.result)

/-- The bytes of every file handed to the pool and not yet retired. -/
def inflight (s : State π κ δ ω) : Nat := ((s.items ingester).map fun entry => entry.2.refund).sum

end State

/-! ## The invariant -/

/-- What the invariant reads of a state. -/
structure View (π κ δ ω : Type) where
  items : List (Nat × Retire π ω)
  held : Option (Job π κ)
  retireSeq : Nat
  nextSeq : Nat
  walk : List (Walked π)
  walking : Bool
  applied : List (Retire π ω)
  db : δ
  inflightBytes : Nat

def State.view (s : State π κ δ ω) : View π κ δ ω where
  items := s.items ingester
  held := s.held
  retireSeq := s.retireSeq
  nextSeq := s.nextSeq
  walk := s.walk
  walking := s.walking
  applied := s.applied
  db := s.db
  inflightBytes := s.inflightBytes

namespace View

/-- Every admitted or held position with its outcome. -/
def entries (v : View π κ δ ω) : List (Nat × Retire π ω) :=
  v.items ++ v.held.toList.map (Job.result ingester)

/-- The positions between the head and the walk are each in one place, with their own
outcome; only the last of them can be held. -/
structure Orderly (whole : List (Walked π)) (origin : δ) (v : View π κ δ ω) : Prop where
  positions : ((v.entries ingester).map Prod.fst).Perm
    (List.range' v.retireSeq (v.nextSeq - v.retireSeq))
  outcomes : ∀ entry ∈ v.entries ingester, IsOutcome ingester whole origin v.applied entry
  retire_le : v.retireSeq ≤ v.nextSeq
  next_le : v.nextSeq ≤ whole.length
  walk_eq : v.walk = whole.drop v.nextSeq
  walking : v.walking = false → v.walk = []
  held_last : ∀ job, v.held = some job → job.seq + 1 = v.nextSeq
  applied_length : v.applied.length = v.retireSeq
  applied : ∀ seq item, v.applied[seq]? = some item →
    IsOutcome ingester whole origin v.applied (seq, item)
  db_eq : v.db = ingester.after origin v.applied
  counted : v.inflightBytes ≤ (v.items.map fun entry => entry.2.refund).sum

section Orderly

variable {ingester} {whole : List (Walked π)} {origin : δ} {v : View π κ δ ω}

section

variable (horderly : v.Orderly ingester whole origin)

include horderly

theorem Orderly.nodup : ((v.entries ingester).map Prod.fst).Nodup :=
  horderly.positions.nodup_iff.mpr List.nodup_range'

theorem Orderly.mem_positions {seq : Nat} :
    seq ∈ (v.entries ingester).map Prod.fst ↔ v.retireSeq ≤ seq ∧ seq < v.nextSeq := by
  rw [horderly.positions.mem_iff, List.mem_range'_1]
  have := horderly.retire_le
  omega

/-- Moving an outcome from one place to another changes nothing. -/
theorem Orderly.perm {items : List (Nat × Retire π ω)} (hitems : items.Perm v.items) :
    ({ v with items := items } : View π κ δ ω).Orderly ingester whole origin where
  positions := ((hitems.append_right _).map _).trans horderly.positions
  outcomes entry hentry := horderly.outcomes entry ((hitems.append_right _).mem_iff.mp hentry)
  retire_le := horderly.retire_le
  next_le := horderly.next_le
  walk_eq := horderly.walk_eq
  walking := horderly.walking
  held_last := horderly.held_last
  applied_length := horderly.applied_length
  applied := horderly.applied
  db_eq := horderly.db_eq
  counted := by
    have hsum := (hitems.map fun entry => entry.2.refund).sum_eq
    simpa only [hsum] using horderly.counted

end

theorem isOutcome_append {applied : List (Retire π ω)} {entry : Nat × Retire π ω}
    (houtcome : IsOutcome ingester whole origin applied entry) (item : Retire π ω) :
    IsOutcome ingester whole origin (applied ++ [item]) entry := by
  obtain ⟨position, hposition, count, hcount, hle, hyields⟩ := houtcome
  refine ⟨position, hposition, count, ?_, hle, ?_⟩
  · rw [List.length_append]
    omega
  · rwa [List.take_append_of_le_length hcount]

section

variable (horderly : v.Orderly ingester whole origin)

include horderly

/-- The next position of the walk gets its outcome, in the pool, in the buffer or on
hold. -/
theorem Orderly.advance {position : Walked π} {rest : List (Walked π)}
    (hwalk : v.walk = position :: rest) {item : Retire π ω}
    (hyields : Yields ingester v.db v.nextSeq position item) {items : List (Nat × Retire π ω)}
    {held : Option (Job π κ)} {inflightBytes : Nat}
    (hentries : (items ++ held.toList.map (Job.result ingester)).Perm
      ((v.nextSeq, item) :: v.entries ingester))
    (hheld : ∀ job, held = some job → job.seq = v.nextSeq)
    (hcounted : inflightBytes ≤ (items.map fun entry => entry.2.refund).sum) :
    ({ v with
      items := items
      held := held
      nextSeq := v.nextSeq + 1
      walk := rest
      inflightBytes := inflightBytes } : View π κ δ ω).Orderly ingester whole origin := by
  have hdrop : whole.drop v.nextSeq = position :: rest := by rw [← horderly.walk_eq, hwalk]
  have hlt : v.nextSeq < whole.length := by
    by_contra hge
    rw [List.drop_eq_nil_of_le (Nat.le_of_not_lt hge)] at hdrop
    cases hdrop
  rw [List.drop_eq_getElem_cons hlt] at hdrop
  obtain ⟨hposition, hrest⟩ := List.cons_eq_cons.mp hdrop
  have houtcome : IsOutcome ingester whole origin v.applied (v.nextSeq, item) := by
    refine ⟨position, ?_, v.applied.length, le_rfl, ?_, ?_⟩
    · rw [List.getElem?_eq_getElem hlt, hposition]
    · rw [horderly.applied_length]
      exact horderly.retire_le
    · rwa [List.take_length, ← horderly.db_eq]
  refine ⟨?_, ?_, Nat.le_succ_of_le horderly.retire_le, hlt, hrest.symm, ?_, ?_,
    horderly.applied_length, horderly.applied, horderly.db_eq, hcounted⟩
  · refine (hentries.map Prod.fst).trans ?_
    have hlength : v.nextSeq + 1 - v.retireSeq = v.nextSeq - v.retireSeq + 1 := by
      have := horderly.retire_le
      omega
    have hlast : v.retireSeq + (v.nextSeq - v.retireSeq) = v.nextSeq := by
      have := horderly.retire_le
      omega
    rw [hlength, List.range'_1_concat, hlast, List.map_cons]
    exact (horderly.positions.cons _).trans (List.perm_append_singleton _ _).symm
  · intro entry hentry
    rcases List.mem_cons.mp (hentries.mem_iff.mp hentry) with heq | hbefore
    · rw [heq]
      exact houtcome
    · exact horderly.outcomes entry hbefore
  · intro hwalking
    rw [horderly.walking hwalking] at hwalk
    cases hwalk
  · intro job hjob
    rw [hheld job hjob]

/-- The held position goes to the pool. -/
theorem Orderly.admit {job : Job π κ} (hheld : v.held = some job)
    {items : List (Nat × Retire π ω)} (hitems : items.Perm (job.result ingester :: v.items))
    {inflightBytes : Nat} (hcounted : inflightBytes ≤ v.inflightBytes + job.weight) :
    ({ v with items := items, held := none, inflightBytes := inflightBytes } :
      View π κ δ ω).Orderly ingester whole origin := by
  have hentries : (items ++ []).Perm (v.entries ingester) := by
    rw [entries, hheld, List.append_nil]
    exact hitems.trans (List.perm_append_singleton _ _).symm
  refine ⟨(hentries.map _).trans horderly.positions, ?_, horderly.retire_le, horderly.next_le,
    horderly.walk_eq, horderly.walking, nofun, horderly.applied_length, horderly.applied,
    horderly.db_eq, ?_⟩
  · intro entry hentry
    exact horderly.outcomes entry (hentries.mem_iff.mp hentry)
  · have hsum := (hitems.map fun entry => entry.2.refund).sum_eq
    rw [List.map_cons, List.sum_cons] at hsum
    have hrefund : (job.result ingester).2.refund = job.weight := rfl
    have := horderly.counted
    simp only
    omega

/-- The head is applied. -/
theorem Orderly.retired {item : Retire π ω} {items : List (Nat × Retire π ω)}
    (hitems : v.items.Perm ((v.retireSeq, item) :: items)) :
    ({ v with
      items := items
      retireSeq := v.retireSeq + 1
      applied := v.applied ++ [item]
      db := ingester.retire v.db item
      inflightBytes := v.inflightBytes - item.refund } : View π κ δ ω).Orderly
        ingester whole origin := by
  have hentries : (v.entries ingester).Perm ((v.retireSeq, item) ::
      (items ++ v.held.toList.map (Job.result ingester))) := hitems.append_right _
  have hhead : v.retireSeq < v.nextSeq := by
    have hmem : v.retireSeq ∈ (v.entries ingester).map Prod.fst :=
      List.mem_map_of_mem (hentries.mem_iff.mpr List.mem_cons_self)
    exact (horderly.mem_positions.mp hmem).2
  have hown : IsOutcome ingester whole origin v.applied (v.retireSeq, item) :=
    horderly.outcomes _ (hentries.mem_iff.mpr List.mem_cons_self)
  refine ⟨?_, ?_, hhead, horderly.next_le, horderly.walk_eq, horderly.walking,
    horderly.held_last, ?_, ?_, ?_, ?_⟩
  · have hlength : v.nextSeq - v.retireSeq = v.nextSeq - (v.retireSeq + 1) + 1 := by omega
    have hpositions := horderly.positions
    rw [hlength, List.range'_succ] at hpositions
    exact ((hentries.map Prod.fst).symm.trans hpositions).cons_inv
  · intro entry hentry
    apply isOutcome_append
    exact horderly.outcomes entry (hentries.mem_iff.mpr (List.mem_cons_of_mem _ hentry))
  · rw [List.length_append, horderly.applied_length]
    rfl
  · intro seq other hother
    rw [List.getElem?_append] at hother
    split at hother
    · exact isOutcome_append (horderly.applied seq other hother) item
    · rename_i hge
      have hlast : seq - v.applied.length = 0 := by
        by_contra hne
        rw [List.getElem?_eq_none (by simp only [List.length_singleton]; omega)] at hother
        cases hother
      rw [hlast] at hother
      cases hother
      have hseq : seq = v.retireSeq := by
        have := horderly.applied_length
        omega
      rw [hseq]
      exact isOutcome_append hown item
  · simp only [Ingester.after, List.foldl_append, List.foldl_cons, List.foldl_nil]
    rw [horderly.db_eq]
    rfl
  · have hsum := (hitems.map fun entry => entry.2.refund).sum_eq
    rw [List.map_cons, List.sum_cons] at hsum
    have := horderly.counted
    simp only at hsum ⊢
    omega

theorem Orderly.walked (hwalk : v.walk = []) :
    ({ v with walking := false } : View π κ δ ω).Orderly ingester whole origin :=
  { horderly with walking := fun _ => hwalk }

end

end Orderly

end View

/-! ## The reorder buffer -/

section Buffer

variable {ρ : Type}

theorem filter_ne_of_notMem {buffer : List (Nat × ρ)} {seq : Nat}
    (hfresh : seq ∉ buffer.map Prod.fst) :
    (buffer.filter fun entry => entry.1 ≠ seq) = buffer := by
  rw [List.filter_eq_self]
  intro entry hentry
  apply decide_eq_true
  intro heq
  exact hfresh (heq ▸ List.mem_map_of_mem hentry)

theorem perm_of_lookup {buffer : List (Nat × ρ)} {seq : Nat} {item : ρ}
    (hnodup : (buffer.map Prod.fst).Nodup) (hfound : buffer.lookup seq = some item) :
    buffer.Perm ((seq, item) :: buffer.filter fun entry => entry.1 ≠ seq) := by
  induction buffer with
  | nil => cases hfound
  | cons entry rest ih =>
    obtain ⟨key, value⟩ := entry
    rw [List.map_cons, List.nodup_cons] at hnodup
    rw [List.lookup_cons] at hfound
    split at hfound
    · rename_i hkey
      have heq : seq = key := by simpa using hkey
      subst heq
      cases hfound
      rw [List.filter_cons_of_neg (by simp), filter_ne_of_notMem hnodup.1]
    · rename_i hkey
      have hne : key ≠ seq := by
        intro heq
        subst heq
        simp at hkey
      rw [List.filter_cons_of_pos (by simpa using hne)]
      exact ((ih hnodup.2 hfound).cons _).trans (List.Perm.swap _ _ _)

end Buffer

/-! ## States -/

/-- The invariant of the loop and its pool. -/
structure Inv (whole : List (Walked π)) (origin : δ) (s : State π κ δ ω) : Prop where
  orderly : (s.view ingester).Orderly ingester whole origin
  outstanding_eq : s.outstanding = s.jobs.length + s.busy.length + s.done.length
  busy_le : s.busy.length ≤ ingester.workers
  settled : s.pc = .decide ∨ s.pc = .waiting → s.pending.lookup s.retireSeq = none
  waiting : s.pc = .waiting → s.outstanding ≠ 0
  finished : s.pc = .finished →
    s.walking = false ∧ s.pending = [] ∧ s.held = none ∧ s.outstanding = 0

section Inv

variable {ingester} {whole : List (Walked π)} {origin : δ} {s s' : State π κ δ ω}

variable {seq i : Nat} {job : Job π κ} {position : Walked π} {item : Retire π ω}

theorem Inv.pending_range (hinv : Inv ingester whole origin s)
    (hmem : seq ∈ s.pending.map Prod.fst) : s.retireSeq ≤ seq ∧ seq < s.nextSeq := by
  apply hinv.orderly.mem_positions.mp
  obtain ⟨entry, hentry, rfl⟩ := List.mem_map.mp hmem
  exact List.mem_map_of_mem (List.mem_append_left _ (List.mem_append_left _ hentry))

theorem Inv.pending_nodup (hinv : Inv ingester whole origin s) :
    (s.pending.map Prod.fst).Nodup := by
  refine hinv.orderly.nodup.sublist (List.Sublist.map _ ?_)
  exact (List.sublist_append_left _ _).trans (List.sublist_append_left _ _)

theorem Inv.next_fresh (hinv : Inv ingester whole origin s) :
    s.nextSeq ∉ s.pending.map Prod.fst := by
  intro hmem
  exact absurd (hinv.pending_range hmem).2 (Nat.lt_irrefl _)

theorem mem_lookup_none {ρ : Type} {buffer : List (Nat × ρ)} (hnone : buffer.lookup seq = none) :
    seq ∉ buffer.map Prod.fst := by
  intro hmem
  obtain ⟨entry, hentry, rfl⟩ := List.mem_map.mp hmem
  have hne := List.lookup_eq_none_iff.mp hnone entry hentry
  simp at hne

/-! ### Worker moves -/

theorem take_eq_some (hstep : s.take ingester = some s') :
    ∃ job rest, s.jobs = job :: rest ∧ s.busy.length < ingester.workers ∧
      s' = { s with jobs := rest, busy := s.busy ++ [job] } := by
  unfold State.take at hstep
  split at hstep
  · cases hstep
  · rename_i job rest hjobs
    split at hstep
    · rename_i hidle
      cases hstep
      exact ⟨job, rest, hjobs, hidle, rfl⟩
    · cases hstep

theorem perm_items_take (hstep : s.take ingester = some s') :
    (s'.items ingester).Perm (s.items ingester) := by
  obtain ⟨job, rest, hjobs, _, rfl⟩ := take_eq_some hstep
  simp only [State.items, hjobs, List.map_append, List.map_cons, List.map_nil]
  refine List.Perm.append_left _ (List.Perm.append_right _ ?_)
  rw [← List.append_assoc]
  exact List.perm_append_singleton _ _

theorem inv_take (hinv : Inv ingester whole origin s) (hstep : s.take ingester = some s') :
    Inv ingester whole origin s' := by
  have hitems := perm_items_take hstep
  obtain ⟨job, rest, hjobs, hidle, rfl⟩ := take_eq_some hstep
  refine ⟨hinv.orderly.perm hitems, ?_, ?_, hinv.settled, hinv.waiting, hinv.finished⟩
  · have := hinv.outstanding_eq
    rw [hjobs] at this
    simp only [List.length_append, List.length_cons, List.length_nil] at this ⊢
    omega
  · simp only [List.length_append, List.length_cons, List.length_nil]
    omega

theorem finish_eq_some (hstep : s.finish ingester i = some s') :
    ∃ job, (job :: s.busy.eraseIdx i).Perm s.busy ∧
      s' = { s with
        busy := s.busy.eraseIdx i
        done := s.done ++ [⟨job.seq, job.path, job.weight, ingester.hashFile job⟩] } := by
  obtain ⟨job, hjob, rfl⟩ := Option.map_eq_some_iff.mp hstep
  obtain ⟨hlt, hget⟩ := List.getElem?_eq_some_iff.mp hjob
  have hperm := List.getElem_cons_eraseIdx_perm hlt
  rw [hget] at hperm
  exact ⟨job, hperm, rfl⟩

theorem perm_items_finish (hstep : s.finish ingester i = some s') :
    (s'.items ingester).Perm (s.items ingester) := by
  obtain ⟨job, hperm, rfl⟩ := finish_eq_some hstep
  simp only [State.items, List.map_append, List.map_cons, List.map_nil]
  refine List.Perm.append_left _ ?_
  rw [List.append_assoc, List.append_assoc]
  refine List.Perm.append_left _ ?_
  have hbusy := hperm.map (Job.result ingester)
  rw [List.map_cons] at hbusy
  refine List.Perm.trans ?_ (hbusy.append_right _)
  rw [← List.append_assoc, List.cons_append]
  exact List.perm_append_singleton _ _

theorem inv_finish (hinv : Inv ingester whole origin s) (hstep : s.finish ingester i = some s') :
    Inv ingester whole origin s' := by
  have hitems := perm_items_finish hstep
  obtain ⟨job, hperm, rfl⟩ := finish_eq_some hstep
  have hlength := hperm.length_eq
  rw [List.length_cons] at hlength
  refine ⟨hinv.orderly.perm hitems, ?_, ?_, hinv.settled, hinv.waiting, hinv.finished⟩
  · have := hinv.outstanding_eq
    simp only [List.length_append, List.length_cons, List.length_nil]
    omega
  · have := hinv.busy_le
    simp only
    omega

/-! ### Statements of the writer -/

theorem stage_work {db : δ} {path : π} {metadata : Metadata}
    (hstage : ingester.stage db seq path metadata = .ok (.work job)) :
    job.seq = seq ∧ job.path = path ∧ job.weight = ingester.weight metadata := by
  unfold Ingester.stage at hstage
  cases hcanonical : ingester.canonicalize seq path with
  | error error =>
    rw [hcanonical] at hstage
    cases hstage
  | ok canonical =>
    cases hunchanged : ingester.isUnchanged db canonical metadata with
    | error error =>
      simp only [hcanonical, bind, Except.bind, hunchanged] at hstage
      cases hstage
    | ok unchanged =>
      simp only [hcanonical, bind, Except.bind, hunchanged] at hstage
      cases unchanged with
      | true => cases hstage
      | false =>
        cases hstage
        exact ⟨rfl, rfl, rfl⟩

theorem saturatingAddU64_le (a b : Nat) : saturatingAddU64 a b ≤ a + b := Nat.min_le_left _ _

/-- The state the walk leaves behind before it looks at the position it has taken. -/
def State.onward (s : State π κ δ ω) (rest : List (Walked π)) : State π κ δ ω :=
  { s with walk := rest, nextSeq := s.nextSeq + 1 }

theorem perm_items_dispatch (ingester : Ingester π κ δ ω) (s : State π κ δ ω) (job : Job π κ) :
    ((s.dispatch job).items ingester).Perm (job.result ingester :: s.items ingester) := by
  simp only [State.items, State.dispatch, List.map_append, List.map_cons, List.map_nil]
  have hjobs : (s.jobs.map (Job.result ingester) ++ [job.result ingester] ++
      s.busy.map (Job.result ingester) ++ s.done.map Done.result).Perm
        (job.result ingester :: (s.jobs.map (Job.result ingester) ++
          s.busy.map (Job.result ingester) ++ s.done.map Done.result)) := by
    simp only [List.append_assoc]
    exact List.perm_middle
  exact (hjobs.append_left _).trans List.perm_middle

theorem items_park (hfresh : seq ∉ s.pending.map Prod.fst) (item : Retire π ω) :
    (s.park seq item).items ingester = (seq, item) :: s.items ingester := by
  simp only [State.park, State.items, filter_ne_of_notMem hfresh]
  rfl

section

variable (hinv : Inv ingester whole origin s)

include hinv

/-- Where an outcome of the next position goes straight to the buffer. -/
theorem Inv.parked (hpc : s.pc = .walk) (hheld : s.held = none) {rest : List (Walked π)}
    (hwalk : s.walk = position :: rest) (hyields : Yields ingester s.db s.nextSeq position item)
    (scanned : Nat) :
    Inv ingester whole origin
      ({ s.onward rest with filesScanned := scanned }.park s.nextSeq item) := by
  have hitems : ({ s.onward rest with filesScanned := scanned }.park s.nextSeq item).items
      ingester = (s.nextSeq, item) :: s.items ingester := items_park hinv.next_fresh item
  refine ⟨?_, hinv.outstanding_eq, hinv.busy_le, ?_, ?_, ?_⟩
  · have hview : ({ s.onward rest with filesScanned := scanned }.park s.nextSeq item).view
        ingester = { s.view ingester with
          items := (s.nextSeq, item) :: s.items ingester
          held := none
          nextSeq := s.nextSeq + 1
          walk := rest
          inflightBytes := s.inflightBytes } := by
      rw [State.view, hitems]
      simp only [State.park, State.onward, State.view, hheld]
    rw [hview]
    refine hinv.orderly.advance hwalk hyields ?_ nofun ?_
    · simp only [View.entries, State.view, hheld]
      exact List.Perm.refl _
    · have := hinv.orderly.counted
      simp only [State.view] at this
      rw [List.map_cons, List.sum_cons]
      omega
  · intro hpc'
    simp [State.park, State.onward, hpc] at hpc'
  · intro hpc'
    simp [State.park, State.onward, hpc] at hpc'
  · intro hpc'
    simp [State.park, State.onward, hpc] at hpc'

/-- A turn of the program counter to a place that promises nothing. -/
theorem Inv.goto {pc : Pc} (hpc : pc = .top ∨ pc = .walk ∨ pc = .retire) :
    Inv ingester whole origin { s with pc := pc } := by
  refine ⟨hinv.orderly, hinv.outstanding_eq, hinv.busy_le, ?_, ?_, ?_⟩
  · rcases hpc with rfl | rfl | rfl <;> simp
  · rcases hpc with rfl | rfl | rfl <;> simp
  · rcases hpc with rfl | rfl | rfl <;> simp

theorem Inv.dispatched (hpc : s.pc = .walk) (hheld : s.held = none) {rest : List (Walked π)}
    (hwalk : s.walk = position :: rest)
    (hyields : Yields ingester s.db s.nextSeq position (job.result ingester).2)
    (hseq : job.seq = s.nextSeq) (scanned : Nat) :
    Inv ingester whole origin
      { ({ s.onward rest with filesScanned := scanned }.dispatch job) with held := none } := by
  have hitems := perm_items_dispatch ingester { s.onward rest with filesScanned := scanned } job
  refine ⟨?_, ?_, hinv.busy_le, ?_, ?_, ?_⟩
  · refine hinv.orderly.advance hwalk hyields ?_ nofun ?_
    · rw [Option.toList_none, List.map_nil, List.append_nil]
      have hentry : (s.nextSeq, (job.result ingester).2) = job.result ingester := by
        rw [← hseq]
        rfl
      change (({ s.onward rest with filesScanned := scanned }.dispatch job).items ingester).Perm
        ((s.nextSeq, (job.result ingester).2) :: (s.view ingester).entries ingester)
      rw [hentry, View.entries]
      simp only [State.view, hheld, Option.toList_none, List.map_nil, List.append_nil]
      exact hitems
    · have hsum := (hitems.map fun entry => entry.2.refund).sum_eq
      rw [List.map_cons, List.sum_cons] at hsum
      have hrefund : (job.result ingester).2.refund = job.weight := rfl
      have hcounted := hinv.orderly.counted
      have hadd := saturatingAddU64_le s.inflightBytes job.weight
      refine hadd.trans ?_
      refine le_of_le_of_eq ?_ hsum.symm
      rw [hrefund]
      have : s.inflightBytes ≤ ((s.items ingester).map fun entry => entry.2.refund).sum := hcounted
      change s.inflightBytes + job.weight ≤
        job.weight + ((s.items ingester).map fun entry => entry.2.refund).sum
      omega
  · have := hinv.outstanding_eq
    simp only [State.dispatch, State.onward, List.length_append, List.length_singleton]
    omega
  · intro hpc'
    simp [State.dispatch, State.onward, hpc] at hpc'
  · intro hpc'
    simp [State.dispatch, State.onward, hpc] at hpc'
  · intro hpc'
    simp [State.dispatch, State.onward, hpc] at hpc'

theorem Inv.heldBack (hpc : s.pc = .walk) (hheld : s.held = none) {rest : List (Walked π)}
    (hwalk : s.walk = position :: rest)
    (hyields : Yields ingester s.db s.nextSeq position (job.result ingester).2)
    (hseq : job.seq = s.nextSeq) (scanned : Nat) :
    Inv ingester whole origin
      { s.onward rest with filesScanned := scanned, held := some job } := by
  refine ⟨?_, hinv.outstanding_eq, hinv.busy_le, ?_, ?_, ?_⟩
  · refine hinv.orderly.advance hwalk hyields ?_ ?_ ?_
    · have hentry : (s.nextSeq, (job.result ingester).2) = job.result ingester := by
        rw [← hseq]
        rfl
      change (s.items ingester ++ [job.result ingester]).Perm
        ((s.nextSeq, (job.result ingester).2) :: (s.view ingester).entries ingester)
      rw [hentry, View.entries]
      simp only [State.view, hheld, Option.toList_none, List.map_nil, List.append_nil]
      exact List.perm_append_singleton _ _
    · intro other hother
      cases hother
      exact hseq
    · exact hinv.orderly.counted
  · intro hpc'
    simp [State.onward, hpc] at hpc'
  · intro hpc'
    simp [State.onward, hpc] at hpc'
  · intro hpc'
    simp [State.onward, hpc] at hpc'

theorem inv_visit (hpc : s.pc = .walk) (hheld : s.held = none) {rest : List (Walked π)}
    (hwalk : s.walk = position :: rest) :
    Inv ingester whole origin (State.visit ingester (s.onward rest) position) := by
  cases position with
  | note text => exact hinv.parked hpc hheld hwalk rfl s.filesScanned
  | failed path error => exact hinv.parked hpc hheld hwalk rfl s.filesScanned
  | file path metadata =>
    unfold State.visit
    simp only
    have hyields : ∀ item, (match ingester.stage s.db s.nextSeq path metadata with
        | .error error => item = .failed path error
        | .ok .unchanged => item = .unchanged
        | .ok (.work job) => item = .work path job.weight (ingester.hashFile job)) →
        Yields ingester s.db s.nextSeq (.file path metadata) item := fun _ h => h
    change Inv ingester whole origin
      (match ingester.stage s.db s.nextSeq path metadata with
      | .error error => ({ s.onward rest with filesScanned := s.filesScanned + 1 }).park s.nextSeq
          (.failed path error)
      | .ok .unchanged => ({ s.onward rest with filesScanned := s.filesScanned + 1 }).park
          s.nextSeq .unchanged
      | .ok (.work job) => ({ s.onward rest with filesScanned := s.filesScanned + 1 }).offer
          ingester.cap job)
    cases hstage : ingester.stage s.db s.nextSeq path metadata with
    | error error =>
      exact hinv.parked hpc hheld hwalk (hyields _ (by rw [hstage])) _
    | ok staged =>
      cases staged with
      | unchanged => exact hinv.parked hpc hheld hwalk (hyields _ (by rw [hstage])) _
      | work job =>
        obtain ⟨hseq, hpath, _⟩ := stage_work hstage
        have hresult : Yields ingester s.db s.nextSeq (.file path metadata)
            (job.result ingester).2 := by
          apply hyields
          rw [hstage, Job.result, hpath]
        simp only [State.offer]
        split
        · exact hinv.dispatched hpc hheld hwalk hresult hseq _
        · exact hinv.heldBack hpc hheld hwalk hresult hseq _

theorem inv_offer_held (hheld : s.held = some job) :
    Inv ingester whole origin { s.offer ingester.cap job with pc := .walk } := by
  unfold State.offer
  split
  · refine ⟨?_, ?_, hinv.busy_le, by simp, by simp, by simp⟩
    · exact hinv.orderly.admit hheld (perm_items_dispatch ingester s job)
        (saturatingAddU64_le _ _)
    · have := hinv.outstanding_eq
      simp only [State.dispatch, List.length_append, List.length_singleton]
      omega
  · have hsame : { s with held := some job } = s := by rw [← hheld]
    rw [hsame]
    exact hinv.goto (Or.inr (Or.inl rfl))

theorem Inv.perm_items_apply (hfound : s.pending.lookup s.retireSeq = some item) :
    (s.items ingester).Perm ((s.retireSeq, item) :: (s.apply ingester item).items ingester) :=
  (perm_of_lookup hinv.pending_nodup hfound).append_right _

theorem inv_apply (hpc : s.pc = .retire) (hfound : s.pending.lookup s.retireSeq = some item) :
    Inv ingester whole origin (s.apply ingester item) := by
  refine ⟨?_, hinv.outstanding_eq, hinv.busy_le, ?_, ?_, ?_⟩
  · exact hinv.orderly.retired (hinv.perm_items_apply hfound)
  · intro hpc'
    simp [State.apply, hpc] at hpc'
  · intro hpc'
    simp [State.apply, hpc] at hpc'
  · intro hpc'
    simp [State.apply, hpc] at hpc'

end

/-- The state once a result has been taken off the done channel. -/
def State.receive (s : State π κ δ ω) (result : Done π ω) (rest : List (Done π ω)) :
    State π κ δ ω :=
  ({ s with done := rest, outstanding := s.outstanding - 1, pc := .top } : State π κ δ ω).park
    result.seq (.work result.path result.weight result.work)

section

variable {rest : List (Done π ω)} {result : Done π ω} (hinv : Inv ingester whole origin s)
  (hdone : s.done = result :: rest)

include hinv hdone

theorem Inv.result_fresh : result.seq ∉ s.pending.map Prod.fst := by
  have hnodup := hinv.orderly.nodup
  simp only [View.entries, State.view, State.items, hdone, List.map_cons, List.map_append] at hnodup
  rw [List.nodup_append, List.nodup_append] at hnodup
  intro hmem
  refine hnodup.1.2.2 _ hmem _ ?_ rfl
  exact List.mem_append_right _ (List.mem_cons_self)

theorem Inv.perm_items_receive :
    ((s.receive result rest).items ingester).Perm (s.items ingester) := by
  rw [State.receive, items_park]
  · simp only [State.items, hdone, List.map_cons]
    refine List.perm_middle.symm.trans (List.Perm.append_left _ ?_)
    exact List.perm_middle.symm
  · exact hinv.result_fresh hdone

theorem inv_receive : Inv ingester whole origin (s.receive result rest) := by
  refine ⟨hinv.orderly.perm (hinv.perm_items_receive hdone), ?_, hinv.busy_le, ?_, ?_, ?_⟩
  · have := hinv.outstanding_eq
    rw [hdone, List.length_cons] at this
    simp only [State.receive, State.park]
    omega
  · simp [State.receive, State.park]
  · simp [State.receive, State.park]
  · simp [State.receive, State.park]

end

/-- Once the retire loop has stopped, the head is with the pool or on hold. -/
theorem Inv.head (hinv : Inv ingester whole origin s)
    (hsettled : s.pending.lookup s.retireSeq = none) (hleft : s.retireSeq < s.nextSeq) :
    (∃ entry ∈ s.jobs.map (Job.result ingester) ++ s.busy.map (Job.result ingester) ++
        s.done.map Done.result, entry.1 = s.retireSeq) ∨
      ∃ job, s.held = some job ∧ job.seq = s.retireSeq := by
  have hmem := hinv.orderly.mem_positions.mpr ⟨le_rfl, hleft⟩
  obtain ⟨entry, hentry, heq⟩ := List.mem_map.mp hmem
  change entry.1 = s.retireSeq at heq
  rcases List.mem_append.mp hentry with hitem | hheld
  · rcases List.mem_append.mp hitem with hpending | hpool
    · exact absurd (List.mem_map_of_mem hpending) (heq ▸ mem_lookup_none hsettled)
    · exact Or.inl ⟨entry, hpool, heq⟩
  · obtain ⟨job, hjob, rfl⟩ := List.mem_map.mp hheld
    exact Or.inr ⟨job, Option.mem_toList.mp hjob, heq⟩

/-- A held head is the only position left. -/
theorem Inv.only_held (hinv : Inv ingester whole origin s) (hheld : s.held = some job)
    (hhead : job.seq = s.retireSeq) : s.items ingester = [] := by
  have hlast := hinv.orderly.held_last job hheld
  have hlength := hinv.orderly.positions.length_eq
  simp only [View.entries, State.view, hheld, Option.toList_some, List.map_cons, List.map_nil,
    List.length_map, List.length_append, List.length_singleton, List.length_range'] at hlength hlast
  rw [← List.length_eq_zero_iff]
  omega

/-- With nothing owed, the retire loop has drained the buffer. -/
theorem Inv.drained (hinv : Inv ingester whole origin s)
    (hsettled : s.pending.lookup s.retireSeq = none) (hnone : s.outstanding = 0) :
    s.items ingester = [] := by
  have hlengths := hinv.outstanding_eq
  have hjobs : s.jobs = [] := List.length_eq_zero_iff.mp (by omega)
  have hbusy : s.busy = [] := List.length_eq_zero_iff.mp (by omega)
  have hdone : s.done = [] := List.length_eq_zero_iff.mp (by omega)
  by_cases hleft : s.retireSeq < s.nextSeq
  · rcases hinv.head hsettled hleft with ⟨entry, hentry, _⟩ | ⟨job, hheld, hhead⟩
    · simp [hjobs, hbusy, hdone] at hentry
    · exact hinv.only_held hheld hhead
  · have hlength := hinv.orderly.positions.length_eq
    simp only [View.entries, State.view, List.length_map, List.length_append,
      List.length_range'] at hlength
    rw [← List.length_eq_zero_iff]
    omega

/-! ### Steps and runs -/

theorem inv_write (hinv : Inv ingester whole origin s) (hstep : s.write ingester = some s') :
    Inv ingester whole origin s' := by
  unfold State.write at hstep
  split at hstep
  · split at hstep
    · cases hstep
      exact hinv.goto (Or.inr (Or.inl rfl))
    · rename_i hheld
      cases hstep
      exact inv_offer_held hinv hheld
  · rename_i hpc
    split at hstep
    · rename_i hroom
      have hheld : s.held = none := Option.isNone_iff_eq_none.mp hroom.1
      split at hstep
      · rename_i hwalk
        cases hstep
        have hwalked : Inv ingester whole origin { s with walking := false } :=
          ⟨hinv.orderly.walked hwalk, hinv.outstanding_eq, hinv.busy_le, hinv.settled,
            hinv.waiting, fun hfinished => by rw [hpc] at hfinished; cases hfinished⟩
        exact hwalked.goto (Or.inr (Or.inr rfl))
      · rename_i hwalk
        cases hstep
        exact inv_visit hinv hpc hheld hwalk
    · cases hstep
      exact hinv.goto (Or.inr (Or.inr rfl))
  · rename_i hpc
    split at hstep
    · rename_i hfound
      cases hstep
      exact inv_apply hinv hpc hfound
    · rename_i hnone
      cases hstep
      exact ⟨hinv.orderly, hinv.outstanding_eq, hinv.busy_le, fun _ => hnone, nofun, nofun⟩
  · rename_i hpc
    split at hstep
    · rename_i hnone
      split at hstep
      · rename_i hexit
        cases hstep
        simp only [Bool.and_eq_true, Bool.not_eq_true', List.isEmpty_iff,
          Option.isNone_iff_eq_none] at hexit
        exact ⟨hinv.orderly, hinv.outstanding_eq, hinv.busy_le, by simp, nofun,
          fun _ => ⟨hexit.1.1, hexit.1.2, hexit.2, hnone⟩⟩
      · cases hstep
        exact hinv.goto (Or.inl rfl)
    · rename_i howed
      cases hstep
      exact ⟨hinv.orderly, hinv.outstanding_eq, hinv.busy_le,
        fun _ => hinv.settled (Or.inl hpc), fun _ => howed, nofun⟩
  · split at hstep
    · cases hstep
    · rename_i hdone
      cases hstep
      exact inv_receive hinv hdone
  · cases hstep

theorem inv_step (hinv : Inv ingester whole origin s) {move : Move}
    (hstep : s.step ingester move = some s') : Inv ingester whole origin s' := by
  cases move with
  | write => exact inv_write hinv hstep
  | take => exact inv_take hinv hstep
  | finish i => exact inv_finish hinv hstep

theorem inv_start (walk : List (Walked π)) (db : δ) :
    Inv ingester walk db (State.start walk db) := by
  refine ⟨⟨List.Perm.refl _, nofun, le_rfl, Nat.zero_le _, rfl, nofun, nofun, rfl, ?_, rfl, le_rfl⟩,
    rfl, Nat.zero_le _, by simp [State.start], nofun, nofun⟩
  intro seq item hitem
  simp [State.view, State.start] at hitem

end Inv

end Datboi.Ingest
