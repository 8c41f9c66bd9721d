import Datboi.Exec.Open
import Datboi.Lib.Chunks
import Datboi.Lib.GuestRuns

/-!
# What the components share

A component sees its inputs in one of two shapes, refuses the shape it does not expect,
and fills byte buffers that never change their length.
-/

namespace Datboi

open Guest (Program)
open Reader (slice)

namespace Xf

/-- The two shapes the host hands an input in. -/
inductive Shape where
  | sequential
  | randomAccess
  deriving DecidableEq, Repr

/-- The first output of a run that ends well. -/
def collect : Guest.Verdict × Guest.Ports IoError UInt8 → Option Bytes
  | (.done, ports) => (ports.sinks[0]?).map (·.written)
  | _ => none

/-- `out[offset..offset + bytes.len()].copy_from_slice(bytes)` -/
def copyAt (out : Bytes) (offset : Nat) (bytes : Bytes) : Bytes :=
  out.take offset ++ bytes ++ out.drop (offset + bytes.length)

theorem length_copyAt {out bytes : Bytes} {offset : Nat}
    (hfits : offset + bytes.length ≤ out.length) :
    (copyAt out offset bytes).length = out.length := by
  rw [copyAt, List.length_append, List.length_append, List.length_take, List.length_drop]
  omega

theorem take_copyAt {out bytes : Bytes} {offset n : Nat} (hn : n ≤ offset)
    (hin : offset ≤ out.length) : (copyAt out offset bytes).take n = out.take n := by
  have hfront : (out.take offset).length = offset := List.length_take_of_le hin
  rw [copyAt, List.append_assoc, List.take_append_of_le_length (by omega), List.take_take,
    Nat.min_eq_left hn]

theorem slice_copyAt {out bytes : Bytes} {offset : Nat} (hin : offset ≤ out.length) :
    slice (copyAt out offset bytes) offset bytes.length = bytes := by
  have hfront : (out.take offset).length = offset := List.length_take_of_le hin
  have hmiddle := Reader.slice_middle (out.take offset) bytes (out.drop (offset + bytes.length))
  rw [hfront] at hmiddle
  rw [copyAt, List.append_assoc, hmiddle]

/-! ## Windows -/

/-- Where the window that a request asks for starts and ends in `total` bytes. -/
def window (offset len : UInt64) (total : Nat) : Nat × Nat :=
  (min offset.toNat total, min (min (offset.toNat + len.toNat) (2 ^ 64 - 1)) total)

theorem window_le (offset len : UInt64) (total : Nat) : (window offset len total).2 ≤ total :=
  Nat.min_le_right _ _

/-- The window has what the request asks for, and stops at the output's end. -/
theorem slice_window {whole : Bytes} (hfits : whole.length < 2 ^ 64) (offset len : UInt64) :
    slice whole (window offset len whole.length).1
      ((window offset len whole.length).2 - (window offset len whole.length).1) =
      slice whole offset.toNat len.toNat := by
  by_cases hin : offset.toNat ≤ whole.length
  · rw [window, Nat.min_eq_left hin, slice, slice, List.take_eq_take_iff, List.length_drop]
    omega
  · have hleft : slice whole offset.toNat len.toNat = [] :=
      Reader.slice_eq_nil_iff.mpr (Or.inr (by omega))
    have hright : whole.length ≤ (window offset len whole.length).1 := by
      rw [window]
      omega
    rw [hleft, Reader.slice_eq_nil_iff]
    exact Or.inr hright

/-! ## Fillers -/

variable {π : Type}

/-- The parameters of a filler's only operation. -/
def fillParams (decode : Bytes → Except String π) (op : String) (params : Bytes) :
    Except String π :=
  if op ≠ "fill" then .error s!"unknown op {repr op}" else decode params

/-- A filler has no inputs and one output; what it writes is a function of its parameters. -/
def runFill (decode : Bytes → Except String π) (fill : π → Program UInt8) (op : String)
    (params : Bytes) (inputs : List Shape) (outputs : Nat) : Program UInt8 :=
  match fillParams decode op params with
  | .error message => .refuse message
  | .ok p =>
    if inputs ≠ [] then .refuse s!"fill takes no inputs, got {inputs.length}"
    else if outputs ≠ 1 then .refuse s!"expected 1 output, got {outputs}"
    else fill p

def serveFill (decode : Bytes → Except String π) (fill : π → Program UInt8) (op : String)
    (params : Bytes) (inputs : List Shape) (outputIx : Nat) : Program UInt8 :=
  match fillParams decode op params with
  | .error message => .refuse message
  | .ok p =>
    if inputs ≠ [] then .refuse s!"fill takes no inputs, got {inputs.length}"
    else if outputIx ≠ 0 then .refuse s!"no output {outputIx}: fill is 1-output"
    else fill p

/-- A host with no inputs and one output without a limit. -/
def fillPorts (written : Bytes) : Guest.Ports IoError UInt8 where
  inputs := []
  sinks := [.open written]

theorem run_write_fillPorts {written chunk : Bytes} {next : Program UInt8} :
    (Program.write 0 chunk next).run maxRead (fillPorts written) =
      next.run maxRead (fillPorts (written ++ chunk)) :=
  Program.run_write_open rfl

theorem collect_done_fillPorts (written : Bytes) :
    collect ((Program.done : Program UInt8).run maxRead (fillPorts written)) = some written := rfl

end Xf

end Datboi
