import Datboi.Lib.SeekRead
import Datboi.Store.PackTiling

/-!
# Open blobs

A loose blob is a file; a packed blob is a window of a pack's file, which it shares with the
other members. The blob keeps a position of its own beside the position of its file handle, and
the two may differ: the handle never leaves the window.
-/

namespace Datboi.StoreFs

open Reader (slice)
open SeekRead (ErrorKind Request Response SeekFrom)

/-- An open regular file. Its offsets are signed 64-bit numbers. -/
structure OpenedFile where
  bytes : Bytes
  offset : Nat
  fits : bytes.length ≤ maxFileBytes

namespace OpenedFile

/-- `File::open`. -/
def opened (bytes : Bytes) (fits : bytes.length ≤ maxFileBytes) : OpenedFile := ⟨bytes, 0, fits⟩

def read (file : OpenedFile) (count : Nat) : Bytes × OpenedFile :=
  let got := slice file.bytes file.offset count
  (got, { file with offset := file.offset + got.length })

/-- `lseek`: a negative target, or one that is no offset, is an invalid argument. -/
def seek (file : OpenedFile) (target : SeekFrom) : Except ErrorKind (Nat × OpenedFile) :=
  let base := target.base file.bytes.length file.offset
  if 0 ≤ base ∧ base ≤ maxFileBytes then .ok (base.toNat, { file with offset := base.toNat })
  else .error .invalidInput

/-- `pread`, which does not move the offset. -/
def readAt (file : OpenedFile) (offset count : Nat) : Except ErrorKind Bytes :=
  if offset ≤ maxFileBytes then .ok (slice file.bytes offset count) else .error .invalidInput

end OpenedFile

inductive Blob where
  | loose (file : OpenedFile)
  | packed (file : OpenedFile) (start len pos : Nat)

namespace Blob

/-- `Blob::packed`: open a window of a pack's file. -/
def openPacked (file : OpenedFile) (start len : Nat) : Except ErrorKind Blob := do
  let (_, file) ← file.seek (.start (.ofNat start))
  return .packed file start len 0

def read : Blob → Nat → Bytes × Blob
  | .loose file, count =>
    let (got, file) := file.read count
    (got, .loose file)
  | .packed file start len pos, count =>
    let remaining := len - pos
    if remaining = 0 then ([], .packed file start len pos)
    else
      let (got, file) := file.read (min remaining count)
      (got, .packed file start len (pos + got.length))

def readAt : Blob → Nat → Nat → Except ErrorKind Bytes
  | .loose file, pos, count => file.readAt pos count
  | .packed file start len _, pos, count =>
    let remaining := len - min pos len
    if remaining = 0 then .ok [] else file.readAt (start + pos) (min remaining count)

/-- Seeking past the end is legal; the file's own offset stays in the window. -/
def seek : Blob → SeekFrom → Except ErrorKind (Nat × Blob)
  | .loose file, target => do
      let (new, file) ← file.seek target
      return (new, .loose file)
  | .packed file start len pos, target =>
    let base := target.base len pos
    if 0 ≤ base ∧ base < 2 ^ 64 then do
      let new := base.toNat
      let (_, file) ← file.seek (.start (.ofNat (min (2 ^ 64 - 1) (start + min new len))))
      return (new, .packed file start len new)
    else .error .invalidInput

/-- The position that the blob reads from. -/
def position : Blob → Nat
  | .loose file => file.offset
  | .packed _ _ _ pos => pos

/-- Answer one request. -/
def step (blob : Blob) : Request → Response UInt8 × Blob
  | .read count =>
    let (got, next) := blob.read count
    (.items got, next)
  | .seek target =>
    match blob.seek target with
    | .ok (new, next) => (.position new, next)
    | .error kind => (.failed kind, blob)
  | .readAt pos count =>
    match blob.readAt pos count with
    | .ok got => (.items got, blob)
    | .error kind => (.failed kind, blob)

/-! ## Packed blobs as cursors -/

/-- The blob is a window with these bytes, at this position; its file's offset is that position,
held back at the window's end. -/
def Over (window : Bytes) (blob : Blob) (pos : Nat) : Prop :=
  ∃ file start, blob = .packed file start window.length pos ∧
    start + window.length ≤ file.bytes.length ∧
    slice file.bytes start window.length = window ∧
    file.offset = start + min pos window.length

variable {window : Bytes} {blob : Blob} {pos : Nat}

theorem position_of_over (hover : Over window blob pos) : blob.position = pos := by
  obtain ⟨file, start, rfl, -⟩ := hover
  rfl

/-- A stretch of the file that starts in the window and stays in it. -/
theorem slice_window {bytes : Bytes} {start : Nat}
    (hwindow : slice bytes start window.length = window) (pos count : Nat) :
    slice bytes (start + pos) (min (window.length - pos) count) = slice window pos count := by
  have hcut : slice window pos count = slice window pos (min (window.length - pos) count) := by
    rw [slice, slice, List.take_eq_take_iff, List.length_drop]
    omega
  rw [hcut]
  by_cases hin : pos ≤ window.length
  · have hinner := Reader.slice_slice bytes start window.length pos
      (min (window.length - pos) count) (by omega)
    rw [hwindow] at hinner
    exact hinner.symm
  · have hzero : window.length - pos = 0 := by omega
    rw [hzero, Nat.zero_min, Reader.slice_zero_right, Reader.slice_zero_right]

theorem slice_past {count : Nat} (hpast : window.length ≤ pos) : slice window pos count = [] :=
  Reader.slice_eq_nil_iff.mpr (.inr hpast)

theorem over_read (hover : Over window blob pos) (count : Nat) :
    (blob.read count).1 = slice window pos count ∧
      Over window (blob.read count).2 (pos + (slice window pos count).length) := by
  obtain ⟨file, start, rfl, hin, hwindow, hoffset⟩ := hover
  rw [read]
  dsimp only
  split
  · rename_i hdone
    rw [slice_past (by omega)]
    exact ⟨rfl, file, start, rfl, hin, hwindow, hoffset⟩
  · rename_i hmore
    have hgot := slice_window hwindow pos count
    have hstart : file.offset = start + pos := by omega
    simp only [OpenedFile.read, hstart, hgot]
    refine ⟨trivial, _, start, rfl, hin, hwindow, ?_⟩
    have hlength := Reader.length_slice window pos count
    simp only
    omega

theorem over_readAt (hover : Over window blob pos) (pos' count : Nat) :
    blob.readAt pos' count = .ok (slice window pos' count) := by
  obtain ⟨file, start, rfl, hin, hwindow, -⟩ := hover
  have hfits := file.fits
  rw [readAt]
  split
  · rw [slice_past (by omega)]
  · rename_i hmore
    have hbefore : min pos' window.length = pos' := by omega
    rw [hbefore, OpenedFile.readAt, if_pos (by omega), slice_window hwindow]

/-- Moving a file to an offset of its own. -/
theorem seek_start {file : OpenedFile} {target : Nat} (htarget : target ≤ file.bytes.length) :
    file.seek (.start (.ofNat target)) = .ok (target, { file with offset := target }) := by
  have hfits := file.fits
  unfold maxFileBytes at hfits
  have hword : (UInt64.ofNat target).toNat = target := by
    rw [UInt64.toNat_ofNat', Nat.mod_eq_of_lt (by omega)]
  simp only [OpenedFile.seek, SeekFrom.base, hword, maxFileBytes, Int.toNat_natCast]
  rw [if_pos (by omega)]

/-- A seek of the blob leads where a cursor's does, and fails where that fails. -/
theorem over_seek (hover : Over window blob pos) (target : SeekFrom) :
    (target.resolve window.length pos = none ∧ blob.seek target = .error .invalidInput) ∨
      ∃ next blob', target.resolve window.length pos = some next ∧
        blob.seek target = .ok (next, blob') ∧ Over window blob' next := by
  obtain ⟨file, start, rfl, hin, hwindow, -⟩ := hover
  have hfits := file.fits
  unfold maxFileBytes at hfits
  rw [SeekFrom.resolve_eq, seek]
  dsimp only
  split
  · let moved := start + min (target.base window.length pos).toNat window.length
    refine .inr ⟨_, _, rfl, ?_, { file with offset := moved }, start, rfl, hin, hwindow, rfl⟩
    rw [Nat.min_eq_right (by omega), seek_start (by omega)]
    rfl
  · exact .inl ⟨rfl, rfl⟩

/-- One request to a blob over a window, and to a cursor over the window's bytes. -/
theorem over_step (hover : Over window blob pos) (request : Request) :
    (blob.step request).1 = (SeekRead.cursorStep window pos request).1 ∧
      Over window (blob.step request).2 (SeekRead.cursorStep window pos request).2 := by
  cases request with
  | read count =>
    obtain ⟨hgot, hnext⟩ := over_read hover count
    exact ⟨congrArg Response.items hgot, hnext⟩
  | seek target =>
    rcases over_seek hover target with ⟨hnone, herror⟩ | ⟨next, blob', hsome, hok, hnext⟩
    · simp only [step, SeekRead.cursorStep, hnone, herror]
      exact ⟨trivial, hover⟩
    · simp only [step, SeekRead.cursorStep, hsome, hok]
      exact ⟨trivial, hnext⟩
  | readAt pos' count =>
    simp only [step, SeekRead.cursorStep, over_readAt hover]
    exact ⟨trivial, hover⟩

theorem over_run (hover : Over window blob pos) (requests : List Request) :
    SeekRead.run step position blob requests =
      SeekRead.run (SeekRead.cursorStep window) id pos requests :=
  SeekRead.run_eq_of_simulates (R := Over window) (fun _ _ => position_of_over)
    (fun _ _ request hover => over_step hover request) hover requests

end Blob

/-- A packed member of an accepted pack, once open, answers every sequence of requests as a
cursor over the member's slice does, so it returns bytes of the slice only. -/
theorem packedBlob_cursor {host : Host} (file : OpenedFile) (members : List MemberEntry)
    (hparse : parseFooter host file.bytes = .ok members) (member : MemberEntry)
    (hmem : member ∈ members) :
    ∃ blob, Blob.openPacked file member.offset member.len = .ok blob ∧
      ∀ requests,
        SeekRead.run Blob.step Blob.position blob requests =
          SeekRead.cursorRun (slice file.bytes member.offset member.len) requests ∧
        ∀ got after, (Response.items got, after) ∈ SeekRead.run Blob.step Blob.position blob
            requests →
          got <:+: slice file.bytes member.offset member.len := by
  have hbound := ((packTiles_of_parseFooter hparse).inBounds hmem).1
  have hlength : (slice file.bytes member.offset member.len).length = member.len := by
    rw [Reader.length_slice]
    omega
  have hopen : Blob.openPacked file member.offset member.len =
      .ok (.packed { file with offset := member.offset } member.offset member.len 0) := by
    rw [Blob.openPacked, Blob.seek_start (by omega)]
    rfl
  have hover : Blob.Over (slice file.bytes member.offset member.len)
      (.packed { file with offset := member.offset } member.offset member.len 0) 0 := by
    refine ⟨{ file with offset := member.offset }, member.offset, ?_, ?_, ?_, ?_⟩
    · rw [hlength]
    · rw [hlength]
      simp only
      omega
    · rw [hlength]
    · rw [Nat.zero_min, Nat.add_zero]
  refine ⟨_, hopen, fun requests => ?_⟩
  have hrun := Blob.over_run hover requests
  refine ⟨hrun, fun got after hmem => ?_⟩
  rw [hrun] at hmem
  exact SeekRead.run_cursorStep_infix hmem

/-- The member of a pack of one blob. -/
theorem packedBlob_cursor_seven :
    ∃ file blob, file.bytes = sevenFile ∧ Blob.openPacked file 0 1 = .ok blob ∧
      ∀ requests, SeekRead.run Blob.step Blob.position blob requests =
        SeekRead.cursorRun [7] requests := by
  have hfits : sevenFile.length ≤ maxFileBytes := by
    rw [length_sevenFile]
    decide
  obtain ⟨blob, hopen, hrun⟩ := packedBlob_cursor (.opened sevenFile hfits) _ parseFooter_sevenFile
    ⟨sizedHost.blake3 [7], 0, 1, 1, 0⟩ List.mem_cons_self
  exact ⟨_, blob, rfl, hopen, fun requests => (hrun requests).1⟩

end Datboi.StoreFs
