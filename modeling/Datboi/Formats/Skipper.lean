import Datboi.Catalog.Names
import Datboi.Core.Recipe
import Datboi.Lib.Reader
import Mathlib.Algebra.Order.Ring.Nat

/-!
# Header skippers

A detector holds rules, of which the first that is fulfilled decides: it selects a window of the
file, and an operation turns the window into the data that is hashed. A read outside the file
fails the rule, whatever the test expects. A decision loses nothing, since the operations undo
themselves.
-/

namespace Datboi

namespace Skipper

open Catalog (Text)
open Reader (slice)

/-- A place in a file: from the start, from the end, or the end itself. -/
inductive Offset where
  | fromStart (v : Nat)
  | fromEnd (v : Nat)
  | eof
  deriving DecidableEq, Repr

/-- Nothing, for an illegal seek. -/
def Offset.resolve : Offset → Nat → Option Nat
  | fromStart v, len => if v ≤ len then some v else none
  | fromEnd v, len => if v ≤ len then some (len - v) else none
  | eof, len => some len

inductive Operation where
  | none
  | bitSwap
  | byteSwap
  | wordSwap
  | wordByteSwap
  deriving DecidableEq, Repr

/-- The length that blocks must be multiples of. -/
def Operation.alignment : Operation → Nat
  | none | bitSwap => 1
  | byteSwap => 2
  | wordSwap | wordByteSwap => 4

def reverseBits (b : UInt8) : UInt8 := ⟨b.toBitVec.reverse⟩

def swapPairs : Bytes → Bytes
  | a :: b :: rest => b :: a :: swapPairs rest
  | rest => rest

def reverseQuads : Bytes → Bytes
  | a :: b :: c :: d :: rest => d :: c :: b :: a :: reverseQuads rest
  | rest => rest

def swapHalves : Bytes → Bytes
  | a :: b :: c :: d :: rest => c :: d :: a :: b :: swapHalves rest
  | rest => rest

/-- A remainder that does not fill a group stays as it is. -/
def Operation.apply : Operation → Bytes → Bytes
  | none, buf => buf
  | bitSwap, buf => buf.map reverseBits
  | byteSwap, buf => swapPairs buf
  | wordSwap, buf => reverseQuads buf
  | wordByteSwap, buf => swapHalves buf

inductive BoolOp where
  | and
  | or
  | xor
  deriving DecidableEq, Repr

inductive SizeTest where
  | exact (size : Nat)
  | powerOfTwo
  deriving DecidableEq, Repr

inductive SizeOp where
  | equal
  | less
  | greater
  deriving DecidableEq, Repr

inductive Test where
  | data (offset : Offset) (value : Bytes) (expect : Bool)
  | bool (op : BoolOp) (offset : Offset) (mask value : Bytes) (expect : Bool)
  | file (size : SizeTest) (operator : SizeOp) (expect : Bool)
  deriving DecidableEq, Repr

structure Rule where
  start : Offset
  stop : Offset
  operation : Operation
  tests : List Test
  deriving DecidableEq, Repr

structure Detector where
  name : Text
  author : Option Text
  version : Option Text
  rules : List Rule
  deriving DecidableEq, Repr

structure SkipDecision where
  start : Nat
  stop : Nat
  operation : Operation
  deriving DecidableEq, Repr

/-- The transformed window; a panic if it is not in the file. -/
def SkipDecision.apply (decision : SkipDecision) (data : Bytes) : Option Bytes :=
  if decision.start ≤ decision.stop ∧ decision.stop ≤ data.length then
    some (decision.operation.apply (slice data decision.start (decision.stop - decision.start)))
  else none

/-! ## Evaluation -/

def readAt (data : Bytes) (offset : Offset) (len : Nat) : Option Bytes := do
  let start ← offset.resolve data.length
  if start + len < 2 ^ 64 ∧ start + len ≤ data.length then some (slice data start len) else none

def BoolOp.mask : BoolOp → UInt8 → UInt8 → UInt8
  | and, b, m => b &&& m
  | or, b, m => b ||| m
  | xor, b, m => b ^^^ m

def isPowerOfTwo (n : Nat) : Bool := n ≠ 0 ∧ n &&& (n - 1) = 0

/-- The operator does not matter for a power of two. -/
def SizeTest.holds : SizeTest → SizeOp → Nat → Bool
  | powerOfTwo, _, len => isPowerOfTwo len
  | exact target, .equal, len => len = target
  | exact target, .less, len => len < target
  | exact target, .greater, len => target < len

/-- Nothing, for an illegal read. -/
def Test.passes : Test → Bytes → Option Bool
  | data offset value expect, contents => do
      let window ← readAt contents offset value.length
      pure ((window == value) == expect)
  | bool op offset mask value expect, contents => do
      let window ← readAt contents offset value.length
      let matched := ((window.zip mask).zip value).all fun ((b, m), v) => op.mask b m == v
      pure (matched == expect)
  | .file size operator expect, contents => some (size.holds operator contents.length == expect)

/-- The tests in order; the first that is not passed ends the evaluation. -/
def allPass : List Test → Bytes → Option Unit
  | [], _ => some ()
  | test :: tests, contents => do
      let passed ← test.passes contents
      if passed then allPass tests contents else none

def Rule.evaluate (rule : Rule) (data : Bytes) : Option SkipDecision := do
  let start ← rule.start.resolve data.length
  let stop ← rule.stop.resolve data.length
  if stop < start then none
  else if (stop - start) % rule.operation.alignment ≠ 0 then none
  else do
    allPass rule.tests data
    pure { start, stop, operation := rule.operation }

/-- The first rule that is fulfilled. -/
def Detector.evaluate (detector : Detector) (data : Bytes) : Option SkipDecision :=
  detector.rules.findSome? fun rule => rule.evaluate data

/-! ## Operations undo themselves -/

theorem reverseBits_reverseBits (b : UInt8) : reverseBits (reverseBits b) = b := by
  unfold reverseBits
  rw [BitVec.reverse_reverse_eq]

theorem swapPairs_swapPairs (buf : Bytes) : swapPairs (swapPairs buf) = buf := by
  fun_induction swapPairs buf with
  | case1 a b rest ih => rw [swapPairs, ih]
  | case2 rest hshort => rw [swapPairs.eq_2 rest hshort]

theorem reverseQuads_reverseQuads (buf : Bytes) : reverseQuads (reverseQuads buf) = buf := by
  fun_induction reverseQuads buf with
  | case1 a b c d rest ih => rw [reverseQuads, ih]
  | case2 rest hshort => rw [reverseQuads.eq_2 rest hshort]

theorem swapHalves_swapHalves (buf : Bytes) : swapHalves (swapHalves buf) = buf := by
  fun_induction swapHalves buf with
  | case1 a b c d rest ih => rw [swapHalves, ih]
  | case2 rest hshort => rw [swapHalves.eq_2 rest hshort]

theorem length_swapPairs (buf : Bytes) : (swapPairs buf).length = buf.length := by
  fun_induction swapPairs buf with
  | case1 a b rest ih => simp [ih]
  | case2 rest hshort => rfl

theorem length_reverseQuads (buf : Bytes) : (reverseQuads buf).length = buf.length := by
  fun_induction reverseQuads buf with
  | case1 a b c d rest ih => simp [ih]
  | case2 rest hshort => rfl

theorem length_swapHalves (buf : Bytes) : (swapHalves buf).length = buf.length := by
  fun_induction swapHalves buf with
  | case1 a b c d rest ih => simp [ih]
  | case2 rest hshort => rfl

theorem Operation.apply_apply (operation : Operation) (buf : Bytes) :
    operation.apply (operation.apply buf) = buf := by
  cases operation with
  | none => rfl
  | bitSwap =>
    have hid : reverseBits ∘ reverseBits = id := funext reverseBits_reverseBits
    rw [Operation.apply, Operation.apply, List.map_map, hid, List.map_id]
  | byteSwap => exact swapPairs_swapPairs buf
  | wordSwap => exact reverseQuads_reverseQuads buf
  | wordByteSwap => exact swapHalves_swapHalves buf

theorem Operation.length_apply (operation : Operation) (buf : Bytes) :
    (operation.apply buf).length = buf.length := by
  cases operation with
  | none => rfl
  | bitSwap => exact List.length_map _
  | byteSwap => exact length_swapPairs buf
  | wordSwap => exact length_reverseQuads buf
  | wordByteSwap => exact length_swapHalves buf

/-! ## Decisions -/

theorem Offset.resolve_le {offset : Offset} {len v : Nat} (hresolve : offset.resolve len = some v) :
    v ≤ len := by
  cases offset with
  | fromStart w =>
    rw [Offset.resolve] at hresolve
    split at hresolve
    · cases hresolve
      assumption
    · cases hresolve
  | fromEnd w =>
    rw [Offset.resolve] at hresolve
    split at hresolve
    · cases hresolve
      exact Nat.sub_le _ _
    · cases hresolve
  | eof =>
    cases hresolve
    exact Nat.le_refl _

/-- A decision for a file: its window lies in the file and fits the operation. -/
structure SkipDecision.Fits (decision : SkipDecision) (data : Bytes) : Prop where
  hstart : decision.start ≤ decision.stop
  hstop : decision.stop ≤ data.length
  haligned : (decision.stop - decision.start) % decision.operation.alignment = 0

theorem Rule.fits_of_evaluate {rule : Rule} {data : Bytes} {decision : SkipDecision}
    (heval : rule.evaluate data = some decision) : decision.Fits data := by
  obtain ⟨start, hstart, heval⟩ := Option.bind_eq_some_iff.mp heval
  obtain ⟨stop, hstop, heval⟩ := Option.bind_eq_some_iff.mp heval
  split at heval
  · cases heval
  · rename_i hle
    split at heval
    · cases heval
    · rename_i haligned
      obtain ⟨_, -, heval⟩ := Option.bind_eq_some_iff.mp heval
      cases heval
      exact
        { hstart := Nat.le_of_not_lt hle
          hstop := Offset.resolve_le hstop
          haligned := not_not.mp haligned }

theorem Detector.fits_of_evaluate {detector : Detector} {data : Bytes} {decision : SkipDecision}
    (heval : detector.evaluate data = some decision) : decision.Fits data := by
  obtain ⟨rule, -, hrule⟩ := List.exists_of_findSome?_eq_some heval
  exact Rule.fits_of_evaluate hrule

namespace SkipDecision.Fits

variable {decision : SkipDecision} {data : Bytes}

theorem apply_eq (h : decision.Fits data) :
    decision.apply data = some (decision.operation.apply
      (slice data decision.start (decision.stop - decision.start))) :=
  if_pos ⟨h.hstart, h.hstop⟩

/-- What was cut off and the undone window are the file. -/
theorem restore (h : decision.Fits data) :
    data.take decision.start ++ slice data decision.start (decision.stop - decision.start) ++
      data.drop decision.stop = data := by
  have hle := h.hstart
  rw [slice, List.append_assoc]
  have hdrop : data.drop decision.stop =
      (data.drop decision.start).drop (decision.stop - decision.start) := by
    rw [List.drop_drop]
    congr 1
    omega
  rw [hdrop, List.take_append_drop, List.take_append_drop]

end SkipDecision.Fits

end Skipper

open Skipper (Detector Rule SkipDecision)

/-- Every decision of a detector lies in the file, fits its operation and gives data of the
window's length, and undoing the operation between what was cut off is the file. -/
theorem skipDecision_invertible (detector : Detector) (data : Bytes) (decision : SkipDecision)
    (heval : detector.evaluate data = some decision) :
    decision.Fits data ∧
      (∀ block, decision.operation.apply (decision.operation.apply block) = block) ∧
      ∃ block, decision.apply data = some block ∧
        block.length = decision.stop - decision.start ∧
        data.take decision.start ++ decision.operation.apply block ++ data.drop decision.stop =
          data := by
  have hfits := Detector.fits_of_evaluate heval
  refine ⟨hfits, decision.operation.apply_apply, _, hfits.apply_eq, ?_, ?_⟩
  · have hstart := hfits.hstart
    have hstop := hfits.hstop
    rw [decision.operation.length_apply, Reader.length_slice]
    omega
  · rw [decision.operation.apply_apply]
    exact hfits.restore

/-- Two bytes of header, swapped pairs, and a byte that is left at the end. -/
def Skipper.pairsRule : Rule where
  start := .fromStart 2
  stop := .fromEnd 1
  operation := .byteSwap
  tests := [.data (.fromStart 0) [7] true]

def Skipper.pairsDecision : SkipDecision := ⟨2, 6, .byteSwap⟩

theorem skipDecision_invertible_pairs :
    Skipper.pairsDecision.Fits [7, 8, 1, 2, 3, 4, 9] ∧
      (∀ block, Skipper.pairsDecision.operation.apply
        (Skipper.pairsDecision.operation.apply block) = block) ∧
      ∃ block, Skipper.pairsDecision.apply [7, 8, 1, 2, 3, 4, 9] = some block ∧
        block.length = Skipper.pairsDecision.stop - Skipper.pairsDecision.start ∧
        List.take Skipper.pairsDecision.start [7, 8, 1, 2, 3, 4, 9] ++
            Skipper.pairsDecision.operation.apply block ++
          List.drop Skipper.pairsDecision.stop [7, 8, 1, 2, 3, 4, 9] = [7, 8, 1, 2, 3, 4, 9] :=
  skipDecision_invertible ⟨[], none, none, [Skipper.pairsRule]⟩ [7, 8, 1, 2, 3, 4, 9] Skipper.pairsDecision
    (by decide)

end Datboi
