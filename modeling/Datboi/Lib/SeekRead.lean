import Datboi.Lib.Reader
import Mathlib.Algebra.Group.Int.Defs

/-!
# Reading, seeking and positioned reads

Requests to a seekable reader and its answers, and the in-memory cursor over a list that says
what they should be. A reader whose state simulates a cursor, request by request, answers every
sequence of requests as the cursor does.
-/

namespace SeekRead

open Reader (slice)

variable {σ τ α : Type*}

inductive SeekFrom where
  | start (o : UInt64)
  | fromEnd (d : Int64)
  | current (d : Int64)
  deriving DecidableEq, Repr

inductive Request where
  | read (count : Nat)
  | seek (target : SeekFrom)
  | readAt (pos count : Nat)
  deriving DecidableEq, Repr

inductive ErrorKind where
  | invalidInput
  deriving DecidableEq, Repr

inductive Response (α : Type*) where
  | items (got : List α)
  | position (pos : Nat)
  | failed (kind : ErrorKind)
  deriving DecidableEq, Repr

/-- Where a seek leads, over `len` items, before any check. -/
def SeekFrom.base (len pos : Nat) : SeekFrom → Int
  | .start o => o.toNat
  | .fromEnd d => len + d.toInt
  | .current d => pos + d.toInt

/-- The answers to a sequence of requests, each with the position that it leaves. -/
def run (step : σ → Request → Response α × σ) (position : σ → Nat) :
    σ → List Request → List (Response α × Nat)
  | _, [] => []
  | s, request :: requests =>
    let (response, next) := step s request
    (response, position next) :: run step position next requests

/-- Related states that answer alike and stay related answer every sequence alike. -/
theorem run_eq_of_simulates {step : σ → Request → Response α × σ}
    {step' : τ → Request → Response α × τ} {position : σ → Nat} {position' : τ → Nat}
    {R : σ → τ → Prop} (hposition : ∀ s t, R s t → position s = position' t)
    (hstep : ∀ s t request, R s t →
      (step s request).1 = (step' t request).1 ∧ R (step s request).2 (step' t request).2)
    {s : σ} {t : τ} (hrel : R s t) (requests : List Request) :
    run step position s requests = run step' position' t requests := by
  induction requests generalizing s t with
  | nil => rfl
  | cons request requests ih =>
    obtain ⟨hresponse, hnext⟩ := hstep s t request hrel
    simp only [run]
    rw [hresponse, hposition _ _ hnext, ih hnext]

/-! ## The cursor over a list -/

/-- A 64-bit position moved by a signed distance, if the result is one. -/
def checkedAddSigned (pos : Nat) (d : Int64) : Option Nat :=
  if 0 ≤ pos + d.toInt ∧ pos + d.toInt < 2 ^ 64 then some (pos + d.toInt).toNat else none

/-- Where a seek leads, over `len` items. -/
def SeekFrom.resolve (len pos : Nat) : SeekFrom → Option Nat
  | .start o => some o.toNat
  | .fromEnd d => checkedAddSigned len d
  | .current d => checkedAddSigned pos d

theorem SeekFrom.resolve_eq (len pos : Nat) (target : SeekFrom) :
    target.resolve len pos =
      if 0 ≤ target.base len pos ∧ target.base len pos < 2 ^ 64 then
        some (target.base len pos).toNat
      else none := by
  cases target with
  | start o =>
    have hlt := o.toNat_lt
    rw [if_pos ⟨Int.natCast_nonneg _, by simp only [base]; omega⟩]
    rfl
  | fromEnd d => rfl
  | current d => rfl

/-- What a cursor over `items` answers at a position, and the position it moves to. -/
def cursorStep (items : List α) (pos : Nat) : Request → Response α × Nat
  | .read count =>
    let got := slice items pos count
    (.items got, pos + got.length)
  | .seek target =>
    match target.resolve items.length pos with
    | some next => (.position next, next)
    | none => (.failed .invalidInput, pos)
  | .readAt pos' count => (.items (slice items pos' count), pos)

/-- A cursor's answers from its start. -/
def cursorRun (items : List α) (requests : List Request) : List (Response α × Nat) :=
  run (cursorStep items) id 0 requests

/-- A cursor returns nothing but stretches of its items. -/
theorem run_cursorStep_infix {items : List α} {pos : Nat} {requests : List Request}
    {got : List α} {after : Nat}
    (hmem : (Response.items got, after) ∈ run (cursorStep items) id pos requests) :
    got <:+: items := by
  induction requests generalizing pos with
  | nil => cases hmem
  | cons request requests ih =>
    simp only [run, List.mem_cons] at hmem
    rcases hmem with heq | hmem
    · have hslice : ∀ offset count, slice items offset count <:+: items := fun offset count =>
        (List.take_prefix _ _).isInfix.trans (List.drop_suffix _ _).isInfix
      cases request with
      | read count =>
        cases heq
        exact hslice _ _
      | seek target =>
        rw [cursorStep] at heq
        split at heq <;> cases heq
      | readAt pos' count =>
        cases heq
        exact hslice _ _
    · exact ih hmem

end SeekRead
