import Datboi.Catalog.Holdings
import Mathlib.Data.Char
import Mathlib.Data.List.Lex

/-!
# Two projections of the audit

The second stage of the rollup counts the required claims of an entry by the state of their
identities. The report splits one of its counters again, and calls an entry complete; the shelf
folds the counters into four states.
-/

namespace Datboi.Catalog

/-- Neither known to have no good dump nor optional. -/
def RomClaim.required (claim : RomClaim) : Bool := claim.status ≠ 2 && !claim.isOptional

/-- A row of `entry_audit`. -/
structure AuditRow where
  required : Nat
  haveVerified : Nat
  haveClaimed : Nat
  peerAvail : Nat
  missing : Nat
  deriving DecidableEq, Repr

/-- An entry of the report. -/
structure EntryAudit where
  name : Text
  required : Nat
  haveVerified : Nat
  haveClaimed : Nat
  probable : Nat
  peerAvailable : Nat
  missing : Nat
  mia : Nat
  deriving DecidableEq, Repr

def EntryAudit.complete (audit : EntryAudit) : Bool := audit.missing = 0 && audit.probable = 0

inductive RollupState where
  | verified
  | claimed
  | missing
  | nodump
  deriving DecidableEq, Repr

namespace RollupState

def classify (required haveVerified haveClaimed : Nat) : RollupState :=
  if required = 0 then .nodump
  else if required ≤ haveVerified then .verified
  else if required ≤ haveVerified + haveClaimed then .claimed
  else .missing

def code : RollupState → Nat
  | .verified => 0
  | .claimed => 1
  | .missing => 2
  | .nodump => 3

end RollupState

/-- `STATE_CASE_SQL` over an entry's row, if it has one. -/
def stateCase : Option AuditRow → Nat
  | none => 3
  | some row =>
    if row.required = 0 then 3
    else if row.required ≤ row.haveVerified then 0
    else if row.required ≤ row.haveVerified + row.haveClaimed then 1
    else 2

theorem stateCase_some (row : AuditRow) :
    stateCase (some row) =
      (RollupState.classify row.required row.haveVerified row.haveClaimed).code := by
  change (if row.required = 0 then 3 else if row.required ≤ row.haveVerified then 0
    else if row.required ≤ row.haveVerified + row.haveClaimed then 1 else 2) = _
  unfold RollupState.classify
  by_cases hnone : row.required = 0
  · rw [if_pos hnone, if_pos hnone]
    rfl
  rw [if_neg hnone, if_neg hnone]
  by_cases hverified : row.required ≤ row.haveVerified
  · rw [if_pos hverified, if_pos hverified]
    rfl
  rw [if_neg hverified, if_neg hverified]
  split <;> rfl

namespace CatalogState

variable (state : CatalogState) (materialized mia : Nat → Bool)

def claimsOf (entryId : Nat) : List RomClaim :=
  state.claims.filter fun claim => claim.entryId = entryId

/-- The state of a claim's identity, if it has a row. -/
def stateOf (claim : RomClaim) : Option Nat := claim.identityId.bind state.identityStatus

/-- How many required claims of an entry are in such a state. -/
def tally (entryId : Nat) (p : Option Nat → Bool) : Nat :=
  (state.claimsOf entryId).countP fun claim => claim.required && p (state.stateOf claim)

/-- Stage 2 of the rollup: the row of an entry, if its revision is materialized and it makes a
claim. -/
def entryAudit (entryId : Nat) : Option AuditRow := do
  let entry ← state.entries.find? fun entry => entry.entryId = entryId
  guard (materialized entry.revisionId ∧ state.claimsOf entryId ≠ [])
  return { required := state.tally entryId fun _ => true
           haveVerified := state.tally entryId (· = some 4)
           haveClaimed := state.tally entryId (· = some 3)
           peerAvail := state.tally entryId (· = some 2)
           missing := state.tally entryId (·.all (· ≤ 1)) }

/-- What the report says of an entry. -/
def auditOf (entry : Entry) : Option EntryAudit :=
  (state.entryAudit materialized entry.entryId).map fun row =>
    let probable := state.tally entry.entryId (· = some 1)
    { name := entry.name
      required := row.required
      haveVerified := row.haveVerified
      haveClaimed := row.haveClaimed
      probable := probable
      peerAvailable := row.peerAvail
      missing := row.missing - probable
      mia := (state.claimsOf entry.entryId).countP fun claim =>
        claim.required && mia claim.claimId }

/-- The report on a revision, by the names of its entries. -/
def audit (revision : Nat) : List EntryAudit :=
  ((state.entries.filter fun entry => entry.revisionId = revision).insertionSort fun a b =>
    a.name ≤ b.name).filterMap (state.auditOf materialized mia)

/-! ## The two agree -/

/-- The counters say what they are named after, and add up. -/
structure Partitions (entryId : Nat) (audit : EntryAudit) : Prop where
  required : audit.required = state.tally entryId fun _ => true
  haveVerified : audit.haveVerified = state.tally entryId (· = some 4)
  haveClaimed : audit.haveClaimed = state.tally entryId (· = some 3)
  peerAvailable : audit.peerAvailable = state.tally entryId (· = some 2)
  probable : audit.probable = state.tally entryId (· = some 1)
  missing : audit.missing = state.tally entryId fun s => s = none || s = some 0
  total : audit.required = audit.haveVerified + audit.haveClaimed + audit.probable +
    audit.peerAvailable + audit.missing

/-- The entry is complete exactly where the shelf does not show it as missing. -/
def Agrees (entry : Entry) : Prop :=
  ∀ audit, state.auditOf materialized mia entry = some audit →
    (audit.complete = true ↔ stateCase (state.entryAudit materialized entry.entryId) ≠ 2)

/-- Some required claim of the entry is at a peer only, and none is probable or missing. -/
def AtPeersOnly (entryId : Nat) : Prop :=
  (∃ claim ∈ state.claimsOf entryId, claim.required = true ∧ state.stateOf claim = some 2) ∧
    ∀ claim ∈ state.claimsOf entryId, claim.required = true →
      ∃ s, state.stateOf claim = some s ∧ 2 ≤ s

variable {state materialized mia} {entryId : Nat}

theorem linkState_le {link : IdentityBlob} {s : Nat} (hlink : state.linkState link = some s) :
    s ≤ 4 := by
  obtain ⟨blob, -, rfl⟩ := Option.map_eq_some_iff.mp hlink
  split
  · exact Nat.le_refl 4
  split
  · exact Nat.le_succ 3
  split
  · exact Nat.le_add_left 2 2
  split <;> omega

theorem stateOf_le {claim : RomClaim} {s : Nat} (hstate : state.stateOf claim = some s) :
    s ≤ 4 := by
  obtain ⟨identityId, -, hstatus⟩ := Option.bind_eq_some_iff.mp hstate
  obtain ⟨link, -, hlink⟩ := List.mem_filterMap.mp (List.max?_mem hstatus)
  exact linkState_le hlink

/-- States that exclude each other are counted apart. -/
theorem tally_or {p q r : Option Nat → Bool}
    (hr : ∀ claim, r (state.stateOf claim) =
      (p (state.stateOf claim) || q (state.stateOf claim)))
    (hapart : ∀ s, p s = true → q s = true → False) :
    state.tally entryId r = state.tally entryId p + state.tally entryId q := by
  unfold tally
  induction state.claimsOf entryId with
  | nil => rfl
  | cons claim rest ih =>
    rw [List.countP_cons, List.countP_cons, List.countP_cons, ih, hr]
    have hnot := hapart (state.stateOf claim)
    cases claim.required <;> cases hp : p (state.stateOf claim) <;>
      cases hq : q (state.stateOf claim)
    case true.true.true => exact (hnot hp hq).elim
    all_goals simp only [Bool.true_and, Bool.false_and, Bool.or_self, Bool.or_true, Bool.or_false,
      Bool.false_eq_true, if_true, if_false]
    all_goals omega

/-- The counter of a row folds what is probable into what is missing. -/
theorem tally_missing : state.tally entryId (·.all (· ≤ 1)) =
    state.tally entryId (fun s => s = none || s = some 0) +
      state.tally entryId (· = some 1) :=
  tally_or
    (fun claim => by
      rcases state.stateOf claim with - | - | - | s
      · rfl
      · rfl
      · rfl
      · simp)
    (fun s hnone hone => by simp_all)

/-- Every required claim is in exactly one of the five states. -/
theorem tally_required : state.tally entryId (fun _ => true) =
    state.tally entryId (· = some 4) + state.tally entryId (· = some 3) +
      state.tally entryId (· = some 1) + state.tally entryId (· = some 2) +
      state.tally entryId (fun s => s = none || s = some 0) := by
  have hheld : state.tally entryId (fun s => s = some 4 || s = some 3) =
      state.tally entryId (· = some 4) + state.tally entryId (· = some 3) :=
    tally_or (fun claim => rfl) (fun s hfour hthree => by simp_all)
  have hmore : state.tally entryId (fun s => s = some 4 || s = some 3 || s = some 2) =
      state.tally entryId (fun s => s = some 4 || s = some 3) +
        state.tally entryId (· = some 2) :=
    tally_or (fun claim => rfl) (fun s hheld htwo => by simp_all)
  have hall : state.tally entryId (fun _ => true) =
      state.tally entryId (fun s => s = some 4 || s = some 3 || s = some 2) +
        state.tally entryId (·.all (· ≤ 1)) := by
    refine tally_or (fun claim => ?_) (fun s hmore hless => ?_)
    · cases hstate : state.stateOf claim with
      | none => rfl
      | some s =>
        have hle := stateOf_le hstate
        simp only [Option.some.injEq, Option.all_some, ← Bool.decide_or]
        exact (decide_eq_true (by omega)).symm
    · rcases s with - | s
      · simp at hmore
      · simp at hmore hless
        omega
  rw [tally_missing] at hall
  omega

theorem tally_eq_zero {p : Option Nat → Bool} : state.tally entryId p = 0 ↔
    ∀ claim ∈ state.claimsOf entryId, claim.required = true → p (state.stateOf claim) = false := by
  unfold tally
  rw [List.countP_eq_zero]
  refine forall₂_congr fun claim _ => ?_
  cases claim.required <;> simp

/-- Probable and missing claims are those that score at most 1. -/
theorem atPeersOnly_iff : state.AtPeersOnly entryId ↔
    0 < state.tally entryId (· = some 2) ∧ state.tally entryId (·.all (· ≤ 1)) = 0 := by
  unfold AtPeersOnly
  refine and_congr ?_ ?_
  · rw [Nat.pos_iff_ne_zero, ne_eq, tally_eq_zero]
    simp
  · rw [tally_eq_zero]
    refine forall₃_congr fun claim _ _ => ?_
    cases state.stateOf claim with
    | none => simp
    | some s =>
      simp only [Option.some.injEq, exists_eq_left', Option.all_some, decide_eq_false_iff_not]
      omega

/-- What an audit holds comes from the row of its entry. -/
theorem auditOf_eq_some {entry : Entry} {audit : EntryAudit}
    (haudit : state.auditOf materialized mia entry = some audit) :
    ∃ row, state.entryAudit materialized entry.entryId = some row ∧
      row.required = audit.required ∧ row.haveVerified = audit.haveVerified ∧
      row.haveClaimed = audit.haveClaimed ∧ state.Partitions entry.entryId audit := by
  obtain ⟨row, hrow, rfl⟩ := Option.map_eq_some_iff.mp haudit
  refine ⟨row, hrow, rfl, rfl, rfl, ?_⟩
  obtain ⟨found, -, hfound⟩ := Option.bind_eq_some_iff.mp hrow
  obtain ⟨-, -, hcounts⟩ := Option.bind_eq_some_iff.mp hfound
  obtain rfl := Option.some.inj hcounts
  have hmissing := @tally_missing state entry.entryId
  have hsplit : state.tally entry.entryId (·.all (· ≤ 1)) -
      state.tally entry.entryId (· = some 1) =
        state.tally entry.entryId (fun s => s = none || s = some 0) := by
    omega
  exact ⟨rfl, rfl, rfl, rfl, rfl, hsplit, tally_required.trans (by rw [← hsplit])⟩

/-- The two projections disagree on an entry that has a row exactly where nothing is missing
or probable and something is at a peer only. -/
theorem agrees_iff {entry : Entry} : state.Agrees materialized mia entry ↔
    state.entryAudit materialized entry.entryId = none ∨ ¬ state.AtPeersOnly entry.entryId := by
  cases hreport : state.auditOf materialized mia entry with
  | none =>
    refine iff_of_true (fun audit haudit => ?_) (.inl (Option.map_eq_none_iff.mp hreport))
    rw [hreport] at haudit
    cases haudit
  | some audit =>
    obtain ⟨row, hrow, hrequired, hverified, hclaimed, hparts⟩ := auditOf_eq_some hreport
    have hcase : stateCase (some row) = 2 ↔
        row.haveVerified + row.haveClaimed < row.required := by
      rw [stateCase_some]
      unfold RollupState.classify
      split
      · exact iff_of_false (by decide) (by omega)
      split
      · exact iff_of_false (by decide) (by omega)
      split
      · exact iff_of_false (by decide) (by omega)
      · exact iff_of_true rfl (by omega)
    have hcomplete : audit.complete = true ↔ audit.missing = 0 ∧ audit.probable = 0 := by
      unfold EntryAudit.complete
      simp
    have htotal := hparts.total
    rw [hrow, atPeersOnly_iff, tally_missing, ← hparts.peerAvailable, ← hparts.missing,
      ← hparts.probable]
    unfold Agrees
    rw [hreport, hrow]
    simp only [Option.some.injEq, forall_eq', ne_eq, hcase, hcomplete, reduceCtorEq, false_or]
    omega

/-- One disc, not here but at a peer. -/
def discAtPeer : CatalogState where
  index := (Db.empty.upsertBlob 1 (some 10) .data .absent).1
  entries := [{ entryId := 1, revisionId := 1, name := "game".toList }]
  claims := [{ claimId := 1, entryId := 1, name := "image".toList, identityId := some 3 }]
  identityBlobs := [⟨3, 1, 2⟩]
  peerHave := [1]
  entryKey := by decide
  claimKey := by decide
  identityBlobKey := by decide

end CatalogState

end Datboi.Catalog
