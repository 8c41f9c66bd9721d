import Datboi.Formats.ChdBits
import Datboi.Formats.ChdHeader
import Datboi.Lib.Cursor
import Mathlib.Algebra.Order.Ring.Int
import Mathlib.Logic.Relation

/-!
# Audio frames of compressed discs

A stream of bare frames, each with its own header. Every channel of a frame is a subframe: a few
samples, a predictor and residuals. A pair of channels may be stored as one channel and a
difference, from which the decoder restores both.
-/

namespace Datboi.Chd

namespace Flac

open Outcome (Safe addIn demand ensure ofOption times)
open Reader (slice)
open Wire (ofBe)

/-! ## Arithmetic -/

def InI16 (x : Int) : Prop := -32768 ≤ x ∧ x ≤ 32767

def InI32 (x : Int) : Prop := -2147483648 ≤ x ∧ x ≤ 2147483647

def InI64 (x : Int) : Prop := -9223372036854775808 ≤ x ∧ x ≤ 9223372036854775807

instance (x : Int) : Decidable (InI16 x) := inferInstanceAs (Decidable (_ ∧ _))

instance (x : Int) : Decidable (InI32 x) := inferInstanceAs (Decidable (_ ∧ _))

instance (x : Int) : Decidable (InI64 x) := inferInstanceAs (Decidable (_ ∧ _))

/-- The results of checked arithmetic. -/
def i32 (x : Int) : Decode Int := if InI32 x then .ok x else .panic

def i64 (x : Int) : Decode Int := if InI64 x then .ok x else .panic

/-- The low bits of a number, as a signed word. -/
def wrapI32 (x : Int) : Int := (x + 2147483648) % 4294967296 - 2147483648

/-- A left shift of a signed word. The language checks only the amount; in a strict decoder the
shift must also keep every bit. -/
def shlI32 (strict : Bool) (x : Int) (amount : Nat) : Decode Int :=
  if amount < 32 ∧ (strict = true → InI32 (x * 2 ^ amount)) then .ok (wrapI32 (x * 2 ^ amount))
  else .panic

/-- A left shift of an unsigned word that keeps every bit. -/
def shlIn (width value amount : Nat) : Decode Nat :=
  if amount < width ∧ value <<< amount < 2 ^ width then .ok (value <<< amount) else .panic

def subIn (a b : Nat) : Decode Nat := if b ≤ a then .ok (a - b) else .panic

/-! ## Reading -/

abbrev Read := StateT BitReader Decode

/-- A field. More than a word would overflow a shift. -/
def read (n : Nat) : Read Nat := fun bits => if n ≤ 32 then .ok (bits.read n) else .panic

def readUnary (limit : Nat) (message : String) : Read Nat := fun bits =>
  match bits.readUnary limit with
  | (some n, bits) => .ok (n, bits)
  | (none, _) => malformed message

def check (p : Prop) [Decidable p] (message : String) : Decode Unit := ensure p (.malformed message)

def checkOverflow (message : String) : Read Unit := do
  let bits ← get
  check (bits.overflowed = false) message

def asI32 (value : Nat) : Int := if value < 2147483648 then value else value - 4294967296

def signExtend (value bits : Nat) : Decode Int :=
  if bits = 0 then .ok 0
  else if 32 ≤ bits then .ok (asI32 value)
  else do
    let shifted ← shlIn 32 value (32 - bits)
    pure (asI32 shifted >>> (32 - bits))

def readSigned (bits : Nat) : Read Int := do
  let value ← read bits
  signExtend value bits

/-! ## Frame headers -/

structure FrameHeader where
  blockSize : Nat
  channels : Nat
  /-- 0–7 independent, 8 left/side, 9 right/side, 10 mid/side. -/
  assignment : Nat
  bitsPerSample : Nat
  deriving DecidableEq, Repr

/-- How many bytes of the frame's number follow the leading one. -/
def extraBytes (lead : Nat) : Option Nat :=
  if lead ≤ 0x7F then some 0
  else if 0xC0 ≤ lead ∧ lead ≤ 0xDF then some 1
  else if 0xE0 ≤ lead ∧ lead ≤ 0xEF then some 2
  else if 0xF0 ≤ lead ∧ lead ≤ 0xF7 then some 3
  else if 0xF8 ≤ lead ∧ lead ≤ 0xFB then some 4
  else if 0xFC ≤ lead ∧ lead ≤ 0xFD then some 5
  else if lead = 0xFE then some 6
  else none

def readLead (lead : Nat) : Decode Nat :=
  match extraBytes lead with
  | some extra => .ok extra
  | none => malformed "flac frame number is not valid UTF-8 coding"

def readContinuation : Read Unit := do
  let byte ← read 8
  check (byte &&& 0xC0 = 0x80) "flac frame number continuation byte is malformed"

def readBlockSize (code : Nat) : Read Nat :=
  if code = 0 then liftM (malformed "flac block size code 0 is reserved" : Decode Nat)
  else if code = 1 then pure 192
  else if code ≤ 5 then pure (576 <<< (code - 2))
  else if code = 6 then do
    let size ← read 8
    pure (size + 1)
  else if code = 7 then do
    let size ← read 16
    pure (size + 1)
  else pure (256 <<< (code - 8))

def skipSampleRate (code : Nat) : Read Unit :=
  if code = 12 then do
    let _ ← read 8
    pure ()
  else if code = 13 ∨ code = 14 then do
    let _ ← read 16
    pure ()
  else if code = 15 then liftM (malformed "flac sample rate code 15 is invalid" : Decode Unit)
  else pure ()

def sampleDepth (code : Nat) : Option Nat :=
  if code = 1 then some 8
  else if code = 2 then some 12
  else if code = 4 then some 16
  else if code = 5 then some 20
  else if code = 6 then some 24
  else if code = 7 then some 32
  else none

def readDepth (code : Nat) : Decode Nat :=
  match sampleDepth code with
  | none =>
    .error (.unsupported
      "flac frame declares its sample depth in STREAMINFO, which CHD does not store")
  | some depth =>
    if depth ≠ 16 then
      .error (.unsupported s!"flac hunk is {depth}-bit; CHD only ever writes 16")
    else .ok depth

def channelCount (assignment : Nat) : Decode Nat :=
  if assignment ≤ 7 then .ok (assignment + 1)
  else if assignment ≤ 10 then .ok 2
  else malformed "flac channel assignment is reserved"

def readFrameHeader : Read FrameHeader := do
  let sync ← read 14
  check (sync = 0x3FFE) "flac frame sync code is missing"
  let reserved ← read 1
  check (reserved = 0) "flac frame reserved bit is set"
  let _ ← read 1
  let bsCode ← read 4
  let srCode ← read 4
  let assignment ← read 4
  let bpsCode ← read 3
  let reserved ← read 1
  check (reserved = 0) "flac frame header reserved bit is set"
  let lead ← read 8
  let extra ← readLead lead
  let _ ← times readContinuation extra
  let blockSize ← readBlockSize bsCode
  skipSampleRate srCode
  let bitsPerSample ← readDepth bpsCode
  let channels ← channelCount assignment
  let _ ← read 8
  pure { blockSize, channels, assignment, bitsPerSample }

/-! ## Residuals -/

/-- The sign is the lowest bit, and the complement of `n` is `-n - 1`. -/
def zigzag (value : Nat) : Int :=
  if value &&& 1 = 0 then (value >>> 1 : Nat) else -(value >>> 1 : Nat) - 1

def readRice (param : Nat) : Read Int := do
  let quotient ← readUnary (1 <<< 20) "flac Rice quotient runs away"
  let remainder ← read param
  let high ← shlIn 64 quotient param
  check (high ||| remainder < 2 ^ 32) "flac residual does not fit 32 bits"
  pure (zigzag (high ||| remainder))

def readEscaped (raw : Nat) : Read Int := if raw = 0 then pure 0 else readSigned raw

/-- The residuals of one partition, for the given number of slots. -/
def readPartition (paramBits escape slots : Nat) : Read (List Int) := do
  let param ← read paramBits
  if param = escape then do
    let raw ← read 5
    times (readEscaped raw) slots
  else times (readRice param) slots

/-- The partitions from an index on, which begin at some slot. Only the first one is shorter. -/
def readPartitions (paramBits escape blockSize size order : Nat) :
    Nat → Nat → Nat → Read (List Int)
  | 0, _, _ => pure []
  | left + 1, p, start => do
      let count ← subIn size (if p = 0 then order else 0)
      let residuals ← readPartition paramBits escape (min count (blockSize - start))
      let start ← (addIn 64 start count : Decode Nat)
      checkOverflow "flac residual is truncated"
      let rest ← readPartitions paramBits escape blockSize size order left (p + 1) start
      pure (residuals ++ rest)

/-- The width of a parameter and the value that escapes. -/
def residualMethod (method : Nat) : Decode (Nat × Nat) :=
  if method = 0 then .ok (4, 15)
  else if method = 1 then .ok (5, 31)
  else malformed "flac residual coding method is reserved"

def decodeResidual (blockSize order : Nat) : Read (List Int) := do
  let method ← read 2
  let widths ← residualMethod method
  let partitionOrder ← read 4
  let partitions ← shlIn 64 1 partitionOrder
  check (blockSize % partitions = 0 ∧ order ≤ blockSize >>> partitionOrder)
    "flac residual partition order does not divide the block"
  readPartitions widths.1 widths.2 blockSize (blockSize >>> partitionOrder) order partitions 0 order

/-! ## Prediction -/

/-- A sample before the current one, of those decoded so far, the last one first. -/
def sampleBack (history : List Int) (j : Nat) : Decode Int := ofOption history[j]?

def fixedPrediction (order : Nat) (history : List Int) : Decode Int :=
  match order with
  | 0 => pure 0
  | 1 => sampleBack history 0
  | 2 => do
      let a ← sampleBack history 0
      let a ← i64 (2 * a)
      let b ← sampleBack history 1
      i64 (a - b)
  | 3 => do
      let a ← sampleBack history 0
      let a ← i64 (3 * a)
      let b ← sampleBack history 1
      let b ← i64 (3 * b)
      let ab ← i64 (a - b)
      let c ← sampleBack history 2
      i64 (ab + c)
  | _ => do
      let a ← sampleBack history 0
      let a ← i64 (4 * a)
      let b ← sampleBack history 1
      let b ← i64 (6 * b)
      let ab ← i64 (a - b)
      let c ← sampleBack history 2
      let c ← i64 (4 * c)
      let abc ← i64 (ab + c)
      let d ← sampleBack history 3
      i64 (abc - d)

/-- The sum over the coefficients, of which the first one weighs the last sample. -/
def accumulate (history : List Int) : List Int → Nat → Int → Decode Int
  | [], _, acc => .ok acc
  | c :: coeffs, j, acc => do
      let sample ← sampleBack history j
      let product ← i64 (c * sample)
      let acc ← i64 (acc + product)
      accumulate history coeffs (j + 1) acc

def lpcPrediction (coeffs : List Int) (shift : Nat) (history : List Int) : Decode Int := do
  let acc ← accumulate history coeffs 0 0
  demand (shift < 64)
  pure (acc >>> shift)

def saturate (x : Int) : Int := if InI32 x then x else 2147483647

/-- The samples that residuals make, given the ones before. -/
def predictFrom (predict : List Int → Decode Int) : List Int → List Int → Decode (List Int)
  | _, [] => .ok []
  | history, residual :: residuals => do
      let p ← predict history
      let sum ← i64 (residual + p)
      let rest ← predictFrom predict (saturate sum :: history) residuals
      pure (saturate sum :: rest)

def predictAll (predict : List Int → Decode Int) (warm residuals : List Int) :
    Decode (List Int) := do
  let rest ← predictFrom predict warm.reverse residuals
  pure (warm ++ rest)

/-! ## Subframes -/

/-- The samples of a subframe, before the bits that it left out are put back. -/
def readSamples (kind blockSize bps : Nat) : Read (List Int) :=
  if kind = 0 then do
    let v ← readSigned bps
    pure (List.replicate blockSize v)
  else if kind = 1 then times (readSigned bps) blockSize
  else if 8 ≤ kind ∧ kind ≤ 12 then do
    let warm ← times (readSigned bps) (min (kind - 8) blockSize)
    let residuals ← decodeResidual blockSize (kind - 8)
    predictAll (fixedPrediction (kind - 8)) warm residuals
  else if 32 ≤ kind then do
    let warm ← times (readSigned bps) (min (kind - 31) blockSize)
    let precision ← read 4
    check (precision + 1 ≠ 16) "flac LPC coefficient precision is the reserved value"
    let shift ← readSigned 5
    check (0 ≤ shift) "flac LPC shift is negative, which no encoder emits"
    let coeffs ← times (readSigned (precision + 1)) (kind - 31)
    let residuals ← decodeResidual blockSize (kind - 31)
    predictAll (lpcPrediction coeffs shift.toNat) warm residuals
  else liftM (malformed s!"flac subframe type {kind} is reserved" : Decode (List Int))

def readWasted : Read Nat := do
  let flag ← read 1
  if flag = 1 then do
    let count ← readUnary 64 "flac wasted-bits count runs away"
    pure (count + 1)
  else pure 0

/-- The shift drops bits without notice, as the language has it. -/
def restoreWasted (wasted : Nat) (samples : List Int) : Decode (List Int) :=
  if wasted = 0 then .ok samples else samples.mapM fun sample => shlI32 false sample wasted

def decodeSubframe (blockSize bps : Nat) : Read (List Int) := do
  let padding ← read 1
  check (padding = 0) "flac subframe padding bit is set"
  let kind ← read 6
  let wasted ← readWasted
  check (wasted < bps ∧ bps - wasted ≤ 32) "flac subframe wastes every bit"
  let samples ← readSamples kind blockSize (bps - wasted)
  restoreWasted wasted samples

/-- Side channels carry one extra bit of range. -/
def sideBits (assignment ch : Nat) : Nat :=
  if (assignment = 8 ∨ assignment = 10) ∧ ch = 1 ∨ assignment = 9 ∧ ch = 0 then 1 else 0

/-- The channels from an index on, as they are stored. -/
def readChannels (header : FrameHeader) : Nat → Nat → Read (List (List Int))
  | 0, _ => pure []
  | left + 1, ch => do
      let bps := header.bitsPerSample + sideBits header.assignment ch
      let samples ← decodeSubframe header.blockSize bps
      let rest ← readChannels header left (ch + 1)
      pure (samples :: rest)

/-! ## Channels that belong together -/

/-- The parity of the side is the low bit of the mid, and the doubled mid is even. -/
def recombine (strict : Bool) (assignment : Nat) (l r : Int) : Decode (Int × Int) :=
  if assignment = 8 then do
    let right ← i32 (l - r)
    pure (l, right)
  else if assignment = 9 then do
    let left ← i32 (l + r)
    pure (left, r)
  else do
    let doubled ← shlI32 strict l 1
    let sum ← i32 (doubled + r % 2 + r)
    let difference ← i32 (doubled + r % 2 - r)
    pure (sum >>> (1 : Nat), difference >>> (1 : Nat))

def recombineAll (strict : Bool) (assignment : Nat) :
    List (Int × Int) → Decode (List (Int × Int))
  | [] => .ok []
  | pair :: pairs => do
      let restored ← recombine strict assignment pair.1 pair.2
      let rest ← recombineAll strict assignment pairs
      pure (restored :: rest)

/-- The assignments in which one channel is a difference. -/
def Decorrelated (assignment : Nat) : Prop := 8 ≤ assignment ∧ assignment ≤ 10

instance (assignment : Nat) : Decidable (Decorrelated assignment) :=
  inferInstanceAs (Decidable (_ ∧ _))

def undoDecorrelation (strict : Bool) (assignment : Nat) (channels : List (List Int)) :
    Decode (List (List Int)) :=
  if Decorrelated assignment then do
    let left ← ofOption channels[0]?
    let right ← ofOption channels[1]?
    let pairs ← recombineAll strict assignment (left.zip right)
    pure (pairs.map Prod.fst :: pairs.map Prod.snd :: channels.drop 2)
  else .ok channels

def decodeSubframes (strict : Bool) (header : FrameHeader) : Read (List (List Int)) := do
  let channels ← readChannels header header.channels 0
  undoDecorrelation strict header.assignment channels

/-! ## Frames -/

def crc16Bit (crc : UInt16) : UInt16 :=
  if crc &&& 0x8000 ≠ 0 then (crc <<< 1) ^^^ 0x8005 else crc <<< 1

def crc16Byte (crc : UInt16) (b : UInt8) : UInt16 := crc16Bit^[8] (crc ^^^ (b.toUInt16 <<< 8))

def crc16Flac (data : Bytes) : UInt16 := data.foldl crc16Byte 0

def hexWord (value : Nat) : String :=
  let digits := Nat.toDigits 16 value
  "0x" ++ String.ofList (List.replicate (4 - digits.length) '0' ++ digits)

def crcMismatch (stored want : Nat) : String :=
  s!"flac frame CRC-16 is {hexWord stored}, computed {hexWord want}"

/-- A sample that fits, as two bytes. -/
def sampleBytes (bigEndian : Bool) (value : Int) : Bytes :=
  let word := (value % 65536).toNat
  let bytes := [UInt8.ofNat (word / 256), UInt8.ofNat (word % 256)]
  if bigEndian then bytes else bytes.reverse

/-- The samples of the channels by turns. -/
def interleave (bigEndian : Bool) (blockSize : Nat) (channels : List (List Int)) : Bytes :=
  (List.range blockSize).flatMap fun sample =>
    channels.flatMap fun buf => sampleBytes bigEndian (buf.getD sample 0)

/-- What follows the channels of a frame. -/
def finishFrame (src : Bytes) (destLen : Nat) (bigEndian : Bool) (out : Bytes) (frameStart : Nat)
    (header : FrameHeader) (channels : List (List Int)) : Read Bytes := do
  modify BitReader.alignToByte
  let bits ← get
  let payloadEnd := bits.bytePosition
  check (payloadEnd + 2 ≤ src.length) "flac frame is truncated"
  let stored := ofBe (slice src payloadEnd 2)
  (demand (frameStart ≤ payloadEnd) : Decode Unit)
  let want := (crc16Flac (slice src frameStart (payloadEnd - frameStart))).toNat
  check (stored = want) (crcMismatch stored want)
  let _ ← read 16
  check (out.length + header.blockSize * header.channels * 2 ≤ destLen)
    "flac frames decode past the hunk's length"
  check (∀ buf ∈ channels, ∀ value ∈ buf, InI16 value) "flac sample does not fit 16 bits"
  checkOverflow "flac data is truncated"
  pure (out ++ interleave bigEndian header.blockSize channels)

def decodeFrame (strict : Bool) (src : Bytes) (destLen : Nat) (bigEndian : Bool) (out : Bytes) :
    Read Bytes := do
  let bits ← get
  let header ← readFrameHeader
  let channels ← decodeSubframes strict header
  finishFrame src destLen bigEndian out bits.bytePosition header channels

/-- The frames that fill the rest of the output; each one adds to it. -/
def decodeRounds (strict : Bool) (src : Bytes) (destLen : Nat) (bigEndian : Bool) :
    Nat → Bytes → Read Bytes
  | rounds, out =>
    if destLen ≤ out.length then pure out
    else
      match rounds with
      | 0 => liftM (.panic : Decode Bytes)
      | rounds + 1 => do
          let out ← decodeFrame strict src destLen bigEndian out
          decodeRounds strict src destLen bigEndian rounds out

/-- The output and the number of bytes that it took. -/
def decodeFrames (strict : Bool) (src : Bytes) (destLen : Nat) (bigEndian : Bool) :
    Decode (Bytes × Nat) := do
  check (destLen % 4 = 0)
    s!"flac hunk output of {destLen} bytes is not whole stereo samples"
  let result ← decodeRounds strict src destLen bigEndian destLen [] (.new src)
  pure (result.1, result.2.bytePosition)

def hexByte (value : Nat) : String :=
  let digits := Nat.toDigits 16 value
  "0x" ++ String.ofList (List.replicate (2 - digits.length) '0' ++ digits)

/-- The first byte names the order of the bytes. -/
def decodeHunk (strict : Bool) (src : Bytes) (destLen : Nat) : Decode Bytes :=
  match src with
  | [] => malformed "flac hunk is empty"
  | marker :: frames =>
    if marker = 0x42 ∨ marker = 0x4C then do
      let result ← decodeFrames strict frames destLen (marker = 0x42)
      pure result.1
    else
      malformed
        s!"flac hunk endianness marker is {hexByte marker.toNat}, not 'L' or 'B'"

/-- The sectors of an audio hunk and where the rest of the hunk begins. -/
def decodeCdSectors (strict : Bool) (src : Bytes) (destLen : Nat) : Decode (Bytes × Nat) :=
  decodeFrames strict src destLen true

/-! ## Reads that are safe -/

theorem bytePosition_refill (bits : BitReader) (rounds : Nat) :
    (bits.refill rounds).bytePosition = bits.bytePosition := by
  induction rounds generalizing bits with
  | zero => rfl
  | succ rounds ih =>
    unfold BitReader.refill
    split
    · rw [ih]
      simp only [BitReader.bytePosition]
      omega
    · rfl

theorem bytePosition_peek (bits : BitReader) (n : Nat) :
    (bits.peek n).2.bytePosition = bits.bytePosition := by
  unfold BitReader.peek
  split
  · rfl
  · simp only
    split
    · exact bytePosition_refill bits 4
    · rfl

theorem bytePosition_remove (bits : BitReader) (n : Nat) :
    bits.bytePosition ≤ (bits.remove n).bytePosition := by
  simp only [BitReader.bytePosition, BitReader.remove]
  omega

theorem bytePosition_read (bits : BitReader) (n : Nat) :
    bits.bytePosition ≤ (bits.read n).2.bytePosition := by
  have hremove := bytePosition_remove (bits.peek n).2 n
  rw [bytePosition_peek] at hremove
  exact hremove

/-- A program that returns from every state of the reader, and what holds of its result. -/
abbrev Fine {α : Type} (m : Read α) (post : α → Prop) : Prop :=
  Safe BitReader.Live BitReader.bytePosition m post

variable {n value blockSize order : Nat} {x : Int} {history : List Int}

theorem fine_read (hn : n ≤ 32) : Fine (read n) fun v => v < 2 ^ n := by
  intro bits hlive
  obtain ⟨hvalue, hnext⟩ := hlive.read hn
  rw [read, if_pos hn]
  exact Outcome.gives_ok ⟨hnext, bytePosition_read bits n, hvalue⟩

/-- The count stays within its limit. -/
theorem unaryFrom_spec {bits : BitReader} (hlive : bits.Live) (left n : Nat) :
    (bits.unaryFrom left n).2.Live ∧
      bits.bytePosition ≤ (bits.unaryFrom left n).2.bytePosition ∧
      ∀ count, (bits.unaryFrom left n).1 = some count → count ≤ n + left := by
  induction left generalizing bits n with
  | zero =>
    obtain ⟨-, hnext⟩ := hlive.read (n := 1) (by omega)
    have hle := bytePosition_read bits 1
    unfold BitReader.unaryFrom
    simp only
    split
    · refine ⟨hnext, hle, fun count hcount => ?_⟩
      cases hcount
      exact Nat.le_refl n
    · exact ⟨hnext, hle, fun count hcount => by cases hcount⟩
  | succ left ih =>
    obtain ⟨-, hnext⟩ := hlive.read (n := 1) (by omega)
    have hle := bytePosition_read bits 1
    unfold BitReader.unaryFrom
    simp only
    split
    · refine ⟨hnext, hle, fun count hcount => ?_⟩
      cases hcount
      exact Nat.le_add_right n _
    · split
      · exact ⟨hnext, hle, fun count hcount => by cases hcount⟩
      · obtain ⟨hlast, hmore, hcount⟩ := ih hnext (n + 1)
        refine ⟨hlast, hle.trans hmore, fun count hsome => ?_⟩
        have hbound := hcount count hsome
        omega

theorem fine_readUnary (limit : Nat) (message : String) :
    Fine (readUnary limit message) fun n => n ≤ limit := by
  intro bits hlive
  obtain ⟨hnext, hle, hcount⟩ := unaryFrom_spec hlive limit 0
  rw [readUnary, BitReader.readUnary]
  rcases hrun : bits.unaryFrom limit 0 with ⟨_ | count, bits'⟩
  · exact Outcome.gives_error
  · rw [hrun] at hnext hle hcount
    refine Outcome.gives_ok ⟨hnext, hle, ?_⟩
    rw [← Nat.zero_add limit]
    exact hcount count rfl

theorem fine_check (p : Prop) [Decidable p] (message : String) :
    Fine (liftM (check p message) : Read Unit) fun _ => p := Safe.ensure

theorem fine_checkOverflow (message : String) : Fine (checkOverflow message) fun _ => True :=
  Safe.bind Safe.get fun _ _ => (fine_check _ message).mono fun _ _ => trivial

theorem fine_malformed {α : Type} (message : String) (post : α → Prop) :
    Fine (liftM (malformed message : Decode α) : Read α) post :=
  Safe.lift Outcome.gives_error

/-! ## Ranges -/

theorem i64_of_in (hx : InI64 x) : i64 x = .ok x := if_pos hx

theorem wrapI32_in (x : Int) : InI32 (wrapI32 x) := by
  unfold wrapI32 InI32
  omega

theorem saturate_in (x : Int) : InI32 (saturate x) := by
  unfold saturate
  split
  · assumption
  · unfold InI32
    omega

theorem shlIn_of_lt (width : Nat) {amount : Nat} (hamount : amount < width)
    (hvalue : value * 2 ^ amount < 2 ^ width) :
    shlIn width value amount = .ok (value <<< amount) := by
  rw [← Nat.shiftLeft_eq] at hvalue
  exact if_pos ⟨hamount, hvalue⟩

/-- A shift to the right divides the bounds. -/
theorem shiftRight_bounds {lo hi : Int} (hlo : lo * 2 ^ n ≤ x) (hhi : x < hi * 2 ^ n) :
    lo ≤ x >>> n ∧ x >>> n < hi := by
  have hpos : (0 : Int) < 2 ^ n := pow_pos (by decide) n
  rw [Int.shiftRight_eq_div_pow]
  push_cast
  exact ⟨Int.le_ediv_of_mul_le hpos hlo, Int.ediv_lt_of_lt_mul hpos hhi⟩

/-- The value of a field of `bits` bits, with its sign. -/
theorem signExtend_spec {bits : Nat} (hbits : bits ≤ 32) (hvalue : value < 2 ^ bits) :
    ∃ x, signExtend value bits = .ok x ∧ -2 ^ (bits - 1) ≤ x ∧ x < 2 ^ (bits - 1) := by
  unfold signExtend
  split
  · rename_i hzero
    subst hzero
    exact ⟨0, rfl, by decide, by decide⟩
  · rename_i hpos
    obtain ⟨less, rfl⟩ : ∃ less, bits = less + 1 := ⟨bits - 1, by omega⟩
    have hword : value * 2 ^ (32 - (less + 1)) < 2 ^ 32 := by
      calc value * 2 ^ (32 - (less + 1)) < 2 ^ (less + 1) * 2 ^ (32 - (less + 1)) :=
            Nat.mul_lt_mul_of_pos_right hvalue (Nat.two_pow_pos _)
        _ = 2 ^ 32 := by rw [← Nat.pow_add, Nat.add_sub_cancel' hbits]
    have hasI32 : ∀ v : Nat, v < 4294967296 →
        -2147483648 ≤ asI32 v ∧ asI32 v < 2147483648 := by
      intro v hv
      unfold asI32
      split <;> omega
    split
    · have hless : less = 31 := by omega
      subst hless
      exact ⟨_, rfl, hasI32 value (by simpa using hvalue)⟩
    · rw [shlIn_of_lt 32 (by omega) hword]
      refine ⟨_, rfl, ?_⟩
      rw [← Nat.shiftLeft_eq] at hword
      obtain ⟨hlo, hhi⟩ := hasI32 _ hword
      have hpow : (2 : Int) ^ less * 2 ^ (32 - (less + 1)) = 2147483648 := by
        rw [← pow_add, show less + (32 - (less + 1)) = 31 by omega]
        norm_num
      refine shiftRight_bounds ?_ ?_
      · rw [Nat.add_sub_cancel, neg_mul, hpow]
        exact hlo
      · rw [Nat.add_sub_cancel, hpow]
        exact hhi

theorem fine_readSigned (hn : n ≤ 32) :
    Fine (readSigned n) fun x => -2 ^ (n - 1) ≤ x ∧ x < 2 ^ (n - 1) := by
  refine Safe.bind (fine_read hn) fun value hvalue => ?_
  obtain ⟨x, hx, hbounds⟩ := signExtend_spec hn hvalue
  refine (Safe.lift_ok hx).mono fun y hy => ?_
  subst hy
  exact hbounds

theorem fine_readSample (hn : n ≤ 32) : Fine (readSigned n) InI32 := by
  refine (fine_readSigned hn).mono fun x hx => ?_
  have hpow : (2 : Int) ^ (n - 1) ≤ 2 ^ 31 := pow_le_pow_right₀ (by decide) (by omega)
  unfold InI32
  omega

/-! ## Headers -/

/-- What the decoder relies on in a header. -/
structure FrameHeader.Valid (header : FrameHeader) : Prop where
  hblock : 1 ≤ header.blockSize ∧ header.blockSize ≤ 65536
  hchannels : 1 ≤ header.channels
  hpair : Decorrelated header.assignment → header.channels = 2
  hbits : header.bitsPerSample = 16

theorem shiftLeft_bounds (most : Nat) {base : Nat} (hbase : 1 ≤ base) (hn : n ≤ most)
    (hmost : base * 2 ^ most ≤ 65536) : 1 ≤ base <<< n ∧ base <<< n ≤ 65536 := by
  rw [Nat.shiftLeft_eq]
  exact ⟨Nat.mul_pos hbase (Nat.two_pow_pos n),
    (Nat.mul_le_mul_left base (Nat.pow_le_pow_right (by decide) hn)).trans hmost⟩

theorem fine_readBlockSize {code : Nat} (hcode : code < 2 ^ 4) :
    Fine (readBlockSize code) fun size => 1 ≤ size ∧ size ≤ 65536 := by
  unfold readBlockSize
  split
  · exact fine_malformed _ _
  · split
    · exact Safe.pure (by omega)
    · split
      · exact Safe.pure (shiftLeft_bounds 3 (by decide) (by omega) (by decide))
      · split
        · exact Safe.bind (fine_read (by omega)) fun size hsize => Safe.pure (by omega)
        · split
          · exact Safe.bind (fine_read (by omega)) fun size hsize => Safe.pure (by omega)
          · exact Safe.pure (shiftLeft_bounds 7 (by decide) (by omega) (by decide))

theorem fine_skipSampleRate (code : Nat) : Fine (skipSampleRate code) fun _ => True := by
  unfold skipSampleRate
  split
  · exact Safe.bind (fine_read (by omega)) fun _ _ => Safe.pure trivial
  · split
    · exact Safe.bind (fine_read (by omega)) fun _ _ => Safe.pure trivial
    · split
      · exact fine_malformed _ _
      · exact Safe.pure trivial

theorem fine_readContinuation : Fine readContinuation fun _ => True :=
  Safe.bind (fine_read (by omega)) fun _ _ => (fine_check _ _).mono fun _ _ => trivial

theorem readLead_gives (lead : Nat) : (readLead lead).Gives fun _ => True := by
  unfold readLead
  split
  · exact Outcome.gives_ok trivial
  · exact Outcome.gives_error

/-- Only samples of 16 bits are read. -/
theorem readDepth_gives (code : Nat) : (readDepth code).Gives fun depth => depth = 16 := by
  unfold readDepth
  split
  · exact Outcome.gives_error
  · split
    · exact Outcome.gives_error
    · rename_i hdepth
      exact Outcome.gives_ok (not_not.mp hdepth)

theorem channelCount_gives (assignment : Nat) :
    (channelCount assignment).Gives fun channels =>
      1 ≤ channels ∧ (Decorrelated assignment → channels = 2) := by
  unfold channelCount Decorrelated
  split
  · exact Outcome.gives_ok ⟨Nat.le_add_left 1 _, by omega⟩
  · split
    · exact Outcome.gives_ok ⟨by omega, fun _ => rfl⟩
    · exact Outcome.gives_error

theorem fine_readFrameHeader : Fine readFrameHeader FrameHeader.Valid := by
  unfold readFrameHeader
  refine Safe.bind (fine_read (by omega)) fun sync _ => ?_
  refine Safe.bind (fine_check _ _) fun _ _ => ?_
  refine Safe.bind (fine_read (by omega)) fun reserved _ => ?_
  refine Safe.bind (fine_check _ _) fun _ _ => ?_
  refine Safe.bind (fine_read (by omega)) fun strategy _ => ?_
  refine Safe.bind (fine_read (by omega)) fun bsCode hbsCode => ?_
  refine Safe.bind (fine_read (by omega)) fun srCode _ => ?_
  refine Safe.bind (fine_read (by omega)) fun assignment _ => ?_
  refine Safe.bind (fine_read (by omega)) fun bpsCode _ => ?_
  refine Safe.bind (fine_read (by omega)) fun reserved _ => ?_
  refine Safe.bind (fine_check _ _) fun _ _ => ?_
  refine Safe.bind (fine_read (by omega)) fun lead _ => ?_
  refine Safe.bind (Safe.lift (readLead_gives lead)) fun extra _ => ?_
  refine Safe.bind (Safe.times fine_readContinuation extra) fun _ _ => ?_
  refine Safe.bind (fine_readBlockSize hbsCode) fun blockSize hblock => ?_
  refine Safe.bind (fine_skipSampleRate srCode) fun _ _ => ?_
  refine Safe.bind (Safe.lift (readDepth_gives bpsCode)) fun depth hdepth => ?_
  refine Safe.bind (Safe.lift (channelCount_gives assignment)) fun channels hchannels => ?_
  refine Safe.bind (fine_read (by omega)) fun crc _ => ?_
  exact Safe.pure
    { hblock, hchannels := hchannels.1, hpair := hchannels.2, hbits := hdepth }

/-! ## Residuals stay in range -/

theorem zigzag_in (hvalue : value < 2 ^ 32) : InI32 (zigzag value) := by
  have hhalf : value >>> 1 < 2 ^ 31 := by
    rw [Nat.shiftRight_eq_div_pow]
    omega
  unfold zigzag InI32
  split <;> omega

/-- A quotient of 20 bits and a parameter of 5 bits fit a word of 64 bits. -/
theorem fine_readRice {param : Nat} (hparam : param < 2 ^ 5) : Fine (readRice param) InI32 := by
  refine Safe.bind (fine_readUnary _ _) fun quotient hquotient => ?_
  refine Safe.bind (fine_read (by omega)) fun remainder _ => ?_
  have hword : quotient * 2 ^ param < 2 ^ 64 := by
    calc quotient * 2 ^ param ≤ 2 ^ 20 * 2 ^ 31 :=
          Nat.mul_le_mul hquotient (Nat.pow_le_pow_right (by decide) (by omega))
      _ < 2 ^ 64 := by decide
  refine Safe.bind (Safe.lift_ok (shlIn_of_lt 64 (by omega) hword)) fun high _ => ?_
  refine Safe.bind (fine_check _ _) fun _ hfits => ?_
  exact Safe.pure (zigzag_in hfits)

theorem fine_readEscaped {raw : Nat} (hraw : raw < 2 ^ 5) : Fine (readEscaped raw) InI32 := by
  unfold readEscaped
  split
  · refine Safe.pure ?_
    unfold InI32
    omega
  · exact fine_readSample (by omega)

theorem fine_readPartition {paramBits : Nat} (hparamBits : paramBits ≤ 5) (escape slots : Nat) :
    Fine (readPartition paramBits escape slots) fun residuals =>
      residuals.length = slots ∧ ∀ x ∈ residuals, InI32 x := by
  unfold readPartition
  refine Safe.bind (fine_read (by omega)) fun param hparam => ?_
  have hsmall : param < 2 ^ 5 := hparam.trans_le (Nat.pow_le_pow_right (by decide) hparamBits)
  split
  · exact Safe.bind (fine_read (by omega)) fun raw hraw => Safe.times (fine_readEscaped hraw) slots
  · exact Safe.times (fine_readRice hsmall) slots

/-- The partitions fill the block: the first one is shorter by the slots before it. -/
theorem fine_readPartitions {paramBits size : Nat} (hparamBits : paramBits ≤ 5)
    (horder : order ≤ size) (hblock : blockSize ≤ 65536) (escape left p start : Nat)
    (hstart : start + left * size = blockSize + if p = 0 then order else 0)
    (hfirst : left = 0 → p ≠ 0) :
    Fine (readPartitions paramBits escape blockSize size order left p start) fun residuals =>
      start + residuals.length = blockSize ∧ ∀ x ∈ residuals, InI32 x := by
  induction left generalizing p start with
  | zero =>
    refine Safe.pure ⟨?_, fun x hx => by cases hx⟩
    rw [if_neg (hfirst rfl)] at hstart
    simpa using hstart
  | succ left ih =>
    rw [Nat.succ_mul] at hstart
    unfold readPartitions
    have hskip : (if p = 0 then order else 0) ≤ size := by
      split
      · exact horder
      · exact Nat.zero_le size
    generalize (if p = 0 then order else 0) = skipped at hstart hskip
    have hcount : subIn size skipped = .ok (size - skipped) := if_pos hskip
    refine Safe.bind (Safe.lift_ok hcount) fun count hsize => ?_
    subst hsize
    refine Safe.bind (fine_readPartition hparamBits _ _) fun residuals hresiduals => ?_
    have hnext : (addIn 64 start (size - skipped) : Decode Nat) =
        .ok (start + (size - skipped)) := Outcome.addIn_eq_ok.mpr ⟨by omega, rfl⟩
    refine Safe.bind (Safe.lift_ok hnext) fun next hstep => ?_
    subst hstep
    refine Safe.bind (fine_checkOverflow _) fun _ _ => ?_
    have hlater : start + (size - skipped) + left * size =
        blockSize + if p + 1 = 0 then order else 0 := by
      rw [if_neg (Nat.succ_ne_zero p)]
      omega
    have hrest := ih (p + 1) (start + (size - skipped)) hlater fun _ => Nat.succ_ne_zero p
    refine Safe.bind hrest fun rest hrest => Safe.pure ⟨?_, ?_⟩
    · rw [List.length_append, hresiduals.1]
      omega
    · exact List.forall_mem_append.mpr ⟨hresiduals.2, hrest.2⟩

theorem residualMethod_gives (method : Nat) :
    (residualMethod method).Gives fun widths => widths.1 ≤ 5 := by
  unfold residualMethod
  split
  · exact Outcome.gives_ok (Nat.le_succ 4)
  · split
    · exact Outcome.gives_ok (Nat.le_refl 5)
    · exact Outcome.gives_error

theorem fine_decodeResidual (hblock : blockSize ≤ 65536) (order : Nat) :
    Fine (decodeResidual blockSize order) fun residuals =>
      order + residuals.length = blockSize ∧ ∀ x ∈ residuals, InI32 x := by
  unfold decodeResidual
  refine Safe.bind (fine_read (by omega)) fun method _ => ?_
  refine Safe.bind (Safe.lift (residualMethod_gives method)) fun widths hwidths => ?_
  refine Safe.bind (fine_read (by omega)) fun partitionOrder hpartition => ?_
  have hword : 1 * 2 ^ partitionOrder < 2 ^ 64 := by
    rw [Nat.one_mul]
    exact Nat.pow_lt_pow_right (by decide) (by omega)
  refine Safe.bind (Safe.lift_ok (shlIn_of_lt 64 (by omega) hword)) fun partitions hpartitions => ?_
  rw [Nat.one_shiftLeft] at hpartitions
  subst hpartitions
  refine Safe.bind (fine_check _ _) fun _ hdivides => ?_
  have hwhole : 2 ^ partitionOrder * (blockSize >>> partitionOrder) = blockSize := by
    rw [Nat.shiftRight_eq_div_pow]
    exact Nat.mul_div_cancel' (Nat.dvd_of_mod_eq_zero hdivides.1)
  refine fine_readPartitions hwidths hdivides.2 hblock _ _ _ _ ?_ ?_
  · rw [hwhole, if_pos rfl, Nat.add_comm]
  · have hpos := Nat.two_pow_pos partitionOrder
    omega

/-! ## Predictions stay in range -/

section

variable (hhistory : ∀ x ∈ history, InI32 x)

include hhistory

theorem sampleBack_spec {j : Nat} (hj : j < history.length) :
    ∃ x, sampleBack history j = .ok x ∧ InI32 x := by
  refine ⟨history[j], ?_, hhistory _ (List.getElem_mem hj)⟩
  rw [sampleBack, List.getElem?_eq_getElem hj]
  rfl

/-- The weights of a fixed predictor sum to fifteen at most. -/
theorem fixedPrediction_spec (horder : order ≤ 4) (hlength : order ≤ history.length) :
    ∃ p, fixedPrediction order history = .ok p ∧ p.natAbs ≤ 2 ^ 50 := by
  match order, horder, hlength with
  | 0, _, _ => exact ⟨0, rfl, by decide⟩
  | 1, _, hlength =>
    obtain ⟨a, ha, hin⟩ := sampleBack_spec hhistory (j := 0) (by omega)
    unfold InI32 at hin
    exact ⟨a, ha, by omega⟩
  | 2, _, hlength =>
    obtain ⟨a, ha, hina⟩ := sampleBack_spec hhistory (j := 0) (by omega)
    obtain ⟨b, hb, hinb⟩ := sampleBack_spec hhistory (j := 1) (by omega)
    unfold InI32 at hina hinb
    refine ⟨2 * a - b, ?_, by omega⟩
    simp only [fixedPrediction, ha, hb, Outcome.ok_bind,
      i64_of_in (x := 2 * a) (by unfold InI64; omega)]
    exact i64_of_in (by unfold InI64; omega)
  | 3, _, hlength =>
    obtain ⟨a, ha, hina⟩ := sampleBack_spec hhistory (j := 0) (by omega)
    obtain ⟨b, hb, hinb⟩ := sampleBack_spec hhistory (j := 1) (by omega)
    obtain ⟨c, hc, hinc⟩ := sampleBack_spec hhistory (j := 2) (by omega)
    unfold InI32 at hina hinb hinc
    refine ⟨3 * a - 3 * b + c, ?_, by omega⟩
    simp only [fixedPrediction, ha, hb, hc, Outcome.ok_bind,
      i64_of_in (x := 3 * a) (by unfold InI64; omega),
      i64_of_in (x := 3 * b) (by unfold InI64; omega),
      i64_of_in (x := 3 * a - 3 * b) (by unfold InI64; omega)]
    exact i64_of_in (by unfold InI64; omega)
  | 4, _, hlength =>
    obtain ⟨a, ha, hina⟩ := sampleBack_spec hhistory (j := 0) (by omega)
    obtain ⟨b, hb, hinb⟩ := sampleBack_spec hhistory (j := 1) (by omega)
    obtain ⟨c, hc, hinc⟩ := sampleBack_spec hhistory (j := 2) (by omega)
    obtain ⟨d, hd, hind⟩ := sampleBack_spec hhistory (j := 3) (by omega)
    unfold InI32 at hina hinb hinc hind
    refine ⟨4 * a - 6 * b + 4 * c - d, ?_, by omega⟩
    simp only [fixedPrediction, ha, hb, hc, hd, Outcome.ok_bind,
      i64_of_in (x := 4 * a) (by unfold InI64; omega),
      i64_of_in (x := 6 * b) (by unfold InI64; omega),
      i64_of_in (x := 4 * c) (by unfold InI64; omega),
      i64_of_in (x := 4 * a - 6 * b) (by unfold InI64; omega),
      i64_of_in (x := 4 * a - 6 * b + 4 * c) (by unfold InI64; omega)]
    exact i64_of_in (by unfold InI64; omega)

/-- Each coefficient adds 45 bits at most. -/
theorem accumulate_spec {coeffs : List Int} (hcoeffs : ∀ c ∈ coeffs, c.natAbs ≤ 2 ^ 14) {j : Nat}
    (hlength : j + coeffs.length ≤ history.length) (hj : j + coeffs.length ≤ 32) {acc : Int}
    (hacc : acc.natAbs ≤ j * 2 ^ 45) :
    ∃ sum, accumulate history coeffs j acc = .ok sum ∧ sum.natAbs ≤ 2 ^ 50 := by
  induction coeffs generalizing j acc with
  | nil =>
    rw [List.length_nil] at hj
    exact ⟨acc, rfl, by omega⟩
  | cons c coeffs ih =>
    rw [List.length_cons] at hlength hj
    obtain ⟨sample, hsample, hin⟩ := sampleBack_spec hhistory (j := j) (by omega)
    have hproduct : (c * sample).natAbs ≤ 2 ^ 45 := by
      rw [Int.natAbs_mul]
      calc c.natAbs * sample.natAbs ≤ 2 ^ 14 * 2 ^ 31 :=
            Nat.mul_le_mul (hcoeffs c List.mem_cons_self) (by unfold InI32 at hin; omega)
        _ = 2 ^ 45 := by decide
    rw [accumulate, hsample, Outcome.ok_bind,
      i64_of_in (by unfold InI64; omega), Outcome.ok_bind,
      i64_of_in (by unfold InI64; omega), Outcome.ok_bind]
    exact ih (fun d hd => hcoeffs d (List.mem_cons_of_mem _ hd)) (by omega) (by omega) (by omega)

theorem lpcPrediction_spec {coeffs : List Int} (hcoeffs : ∀ c ∈ coeffs, c.natAbs ≤ 2 ^ 14)
    (hlength : coeffs.length ≤ history.length) (hfew : coeffs.length ≤ 32) {shift : Nat}
    (hshift : shift < 64) :
    ∃ p, lpcPrediction coeffs shift history = .ok p ∧ p.natAbs ≤ 2 ^ 50 := by
  have hzero : (0 : Int).natAbs ≤ 0 * 2 ^ 45 := Nat.le_refl 0
  obtain ⟨sum, hsum, hbound⟩ := accumulate_spec hhistory hcoeffs (j := 0) (by omega) (by omega) hzero
  have hdemand : (demand (shift < 64) : Decode Unit) = .ok () := Outcome.demand_eq_ok.mpr hshift
  refine ⟨sum >>> shift, ?_, ?_⟩
  · rw [lpcPrediction, hsum, Outcome.ok_bind, hdemand, Outcome.ok_bind]
    rfl
  · have hpos : (1 : Int) ≤ 2 ^ shift := one_le_pow₀ (by decide)
    have hscaled : (2 ^ 50 : Int) ≤ 2 ^ 50 * 2 ^ shift := le_mul_of_one_le_right (by decide) hpos
    have hlo : (-2 ^ 50 : Int) * 2 ^ shift ≤ sum := by
      rw [neg_mul]
      omega
    have hhi : sum < (2 ^ 50 + 1 : Int) * 2 ^ shift := by
      rw [add_mul, one_mul]
      omega
    obtain ⟨hle, hlt⟩ := shiftRight_bounds hlo hhi
    omega

end

/-- What the decoder relies on in a predictor of some order. -/
def Bounded (predict : List Int → Decode Int) (order : Nat) : Prop :=
  ∀ history : List Int, (∀ x ∈ history, InI32 x) → order ≤ history.length →
    ∃ p, predict history = .ok p ∧ p.natAbs ≤ 2 ^ 50

theorem predictFrom_spec {predict : List Int → Decode Int} (hpredict : Bounded predict order)
    {residuals : List Int} (hhistory : ∀ x ∈ history, InI32 x) (hlength : order ≤ history.length)
    (hresiduals : ∀ x ∈ residuals, InI32 x) :
    ∃ samples, predictFrom predict history residuals = .ok samples ∧
      samples.length = residuals.length ∧ ∀ x ∈ samples, InI32 x := by
  induction residuals generalizing history with
  | nil => exact ⟨[], rfl, rfl, fun x hx => by cases hx⟩
  | cons residual residuals ih =>
    obtain ⟨p, hp, hbound⟩ := hpredict history hhistory hlength
    have hin := hresiduals residual List.mem_cons_self
    have hsum : InI64 (residual + p) := by
      unfold InI32 at hin
      unfold InI64
      omega
    have hnext : ∀ x ∈ saturate (residual + p) :: history, InI32 x :=
      List.forall_mem_cons.mpr ⟨saturate_in _, hhistory⟩
    obtain ⟨rest, hrest, hrestLength, hrestIn⟩ := ih hnext
      (hlength.trans (Nat.le_succ _)) fun x hx => hresiduals x (List.mem_cons_of_mem _ hx)
    refine ⟨saturate (residual + p) :: rest, ?_, ?_, ?_⟩
    · rw [predictFrom, hp, Outcome.ok_bind, i64_of_in hsum, Outcome.ok_bind, hrest]
      rfl
    · rw [List.length_cons, hrestLength, List.length_cons]
    · exact List.forall_mem_cons.mpr ⟨saturate_in _, hrestIn⟩

theorem fine_predictAll {predict : List Int → Decode Int} {warm residuals : List Int}
    (hpredict : Bounded predict warm.length) (hwarm : ∀ x ∈ warm, InI32 x)
    (hlength : warm.length + residuals.length = blockSize) (hresiduals : ∀ x ∈ residuals, InI32 x) :
    Fine (liftM (predictAll predict warm residuals) : Read (List Int)) fun samples =>
      samples.length = blockSize ∧ ∀ x ∈ samples, InI32 x := by
  have hreverse : ∀ x ∈ warm.reverse, InI32 x := fun x hx => hwarm x (List.mem_reverse.mp hx)
  obtain ⟨rest, hrest, hrestLength, hrestIn⟩ := predictFrom_spec hpredict hreverse
    (by rw [List.length_reverse]) hresiduals
  have hall : predictAll predict warm residuals = .ok (warm ++ rest) := by
    rw [predictAll, hrest]
    rfl
  refine (Safe.lift_ok hall).mono fun samples hsamples => ?_
  subst hsamples
  exact ⟨by rw [List.length_append, hrestLength, hlength],
    List.forall_mem_append.mpr ⟨hwarm, hrestIn⟩⟩

/-! ## Channels stay in range -/

theorem fine_readSamples {kind bps : Nat} (hkind : kind < 2 ^ 6) (hblock : blockSize ≤ 65536)
    (hbps : bps ≤ 32) :
    Fine (readSamples kind blockSize bps) fun samples =>
      samples.length = blockSize ∧ ∀ x ∈ samples, InI32 x := by
  unfold readSamples
  split
  · refine Safe.bind (fine_readSample hbps) fun v hv => Safe.pure ⟨List.length_replicate, ?_⟩
    intro x hx
    rw [List.eq_of_mem_replicate hx]
    exact hv
  · split
    · exact Safe.times (fine_readSample hbps) blockSize
    · split
      · rename_i hfixed
        refine Safe.bind (Safe.times (fine_readSample hbps) _) fun warm hwarm => ?_
        refine Safe.bind (fine_decodeResidual hblock _) fun residuals hresiduals => ?_
        have horder : warm.length = kind - 8 := by omega
        refine fine_predictAll ?_ hwarm.2 (by rw [horder]; exact hresiduals.1) hresiduals.2
        intro history hhistory hlength
        exact fixedPrediction_spec hhistory (by omega) (by omega)
      · split
        · rename_i hlpc
          refine Safe.bind (Safe.times (fine_readSample hbps) _) fun warm hwarm => ?_
          refine Safe.bind (fine_read (by omega)) fun precision hprecision => ?_
          refine Safe.bind (fine_check _ _) fun _ hreserved => ?_
          refine Safe.bind (fine_readSigned (by omega)) fun shift hshift => ?_
          refine Safe.bind (fine_check _ _) fun _ _ => ?_
          refine Safe.bind (Safe.times (fine_readSigned (by omega)) _) fun coeffs hcoeffs => ?_
          refine Safe.bind (fine_decodeResidual hblock _) fun residuals hresiduals => ?_
          have horder : warm.length = kind - 31 := by omega
          have hpow : (2 : Int) ^ (precision + 1 - 1) ≤ 2 ^ 14 :=
            pow_le_pow_right₀ (by decide) (by omega)
          refine fine_predictAll ?_ hwarm.2 (by rw [horder]; exact hresiduals.1) hresiduals.2
          intro history hhistory hlength
          refine lpcPrediction_spec hhistory (fun c hc => ?_) (by omega) (by omega) (by omega)
          have hbounds := hcoeffs.2 c hc
          omega
        · exact fine_malformed _ _

theorem restoreWasted_spec {wasted : Nat} (hwasted : wasted < 32) {samples : List Int}
    (hsamples : ∀ x ∈ samples, InI32 x) :
    ∃ restored, restoreWasted wasted samples = .ok restored ∧
      restored.length = samples.length ∧ ∀ x ∈ restored, InI32 x := by
  unfold restoreWasted
  split
  · exact ⟨samples, rfl, rfl, hsamples⟩
  · clear hsamples
    induction samples with
    | nil => exact ⟨[], rfl, rfl, fun x hx => by cases hx⟩
    | cons sample samples ih =>
      obtain ⟨rest, hrest, hlength, hin⟩ := ih
      have hshift : shlI32 false sample wasted = .ok (wrapI32 (sample * 2 ^ wasted)) :=
        if_pos ⟨hwasted, fun hstrict => by cases hstrict⟩
      refine ⟨wrapI32 (sample * 2 ^ wasted) :: rest, ?_, ?_, ?_⟩
      · rw [List.mapM_cons, hshift, Outcome.ok_bind, hrest]
        rfl
      · rw [List.length_cons, hlength, List.length_cons]
      · exact List.forall_mem_cons.mpr ⟨wrapI32_in _, hin⟩

theorem fine_readWasted : Fine readWasted fun wasted => wasted ≤ 65 := by
  refine Safe.bind (fine_read (by omega)) fun flag _ => ?_
  split
  · exact Safe.bind (fine_readUnary _ _) fun count hcount => Safe.pure (by omega)
  · exact Safe.pure (by omega)

theorem fine_decodeSubframe {bps : Nat} (hblock : blockSize ≤ 65536) (hbps : bps ≤ 32) :
    Fine (decodeSubframe blockSize bps) fun samples =>
      samples.length = blockSize ∧ ∀ x ∈ samples, InI32 x := by
  refine Safe.bind (fine_read (by omega)) fun padding _ => ?_
  refine Safe.bind (fine_check _ _) fun _ _ => ?_
  refine Safe.bind (fine_read (by omega)) fun kind hkind => ?_
  refine Safe.bind fine_readWasted fun wasted _ => ?_
  refine Safe.bind (fine_check _ _) fun _ hwasted => ?_
  refine Safe.bind (fine_readSamples hkind hblock (by omega)) fun samples hsamples => ?_
  have hfew : wasted < 32 := by omega
  obtain ⟨restored, hrestored, hlength, hin⟩ := restoreWasted_spec hfew hsamples.2
  refine (Safe.lift_ok hrestored).mono fun out hout => ?_
  subst hout
  exact ⟨hlength.trans hsamples.1, hin⟩

theorem sideBits_le (assignment ch : Nat) : sideBits assignment ch ≤ 1 := by
  unfold sideBits
  split <;> omega

theorem fine_readChannels {header : FrameHeader} (hvalid : header.Valid) (left ch : Nat) :
    Fine (readChannels header left ch) fun channels =>
      channels.length = left ∧
        ∀ samples ∈ channels, samples.length = header.blockSize ∧ ∀ x ∈ samples, InI32 x := by
  induction left generalizing ch with
  | zero => exact Safe.pure ⟨rfl, fun samples hsamples => by cases hsamples⟩
  | succ left ih =>
    have hside := sideBits_le header.assignment ch
    have hbits := hvalid.hbits
    refine Safe.bind (fine_decodeSubframe hvalid.hblock.2 (by omega)) fun samples hsamples => ?_
    refine Safe.bind (ih (ch + 1)) fun rest hrest => Safe.pure ⟨?_, ?_⟩
    · rw [List.length_cons, hrest.1]
    · exact List.forall_mem_cons.mpr ⟨hsamples, hrest.2⟩

/-! ## When the channels are restored in range -/

/-- The pairs of stored samples whose sums and differences are words. -/
def PairFits (strict : Bool) (assignment : Nat) (l r : Int) : Prop :=
  if assignment = 8 then InI32 (l - r)
  else if assignment = 9 then InI32 (l + r)
  else
    (strict = true → InI32 (2 * l)) ∧
      InI32 (wrapI32 (2 * l) + r % 2 + r) ∧ InI32 (wrapI32 (2 * l) + r % 2 - r)

theorem shlI32_one {strict : Bool} :
    shlI32 strict x 1 = if strict = true → InI32 (2 * x) then .ok (wrapI32 (2 * x)) else .panic := by
  rw [shlI32, pow_one, Int.mul_comm]
  simp

/-- A pair is restored if it fits, and there is no other outcome than a panic. -/
theorem recombine_spec (strict : Bool) (assignment : Nat) (l r : Int) :
    (PairFits strict assignment l r → ∃ pair, recombine strict assignment l r = .ok pair) ∧
      (¬ PairFits strict assignment l r → recombine strict assignment l r = .panic) := by
  unfold PairFits recombine
  rw [shlI32_one]
  simp only [i32]
  split
  · split <;> simp [*]
  · split
    · split <;> simp [*]
    · split
      · simp only [Outcome.ok_bind]
        split
        · simp only [Outcome.ok_bind]
          split <;> simp_all
        · simp [*]
      · simp [*]

theorem recombineAll_spec {strict : Bool} {assignment : Nat} {pairs : List (Int × Int)} :
    (recombineAll strict assignment pairs ≠ .panic ↔
        ∀ pair ∈ pairs, PairFits strict assignment pair.1 pair.2) ∧
      ∀ restored, recombineAll strict assignment pairs = .ok restored →
        restored.length = pairs.length := by
  induction pairs with
  | nil =>
    refine ⟨⟨fun _ pair hpair => (by cases hpair), fun _ hpanic => (by cases hpanic)⟩, ?_⟩
    intro restored hok
    cases hok
    rfl
  | cons pair pairs ih =>
    obtain ⟨hiff, hlength⟩ := ih
    obtain ⟨hrestored, hpanics⟩ := recombine_spec strict assignment pair.1 pair.2
    rw [recombineAll, Outcome.bind_ne_panic, List.forall_mem_cons, ← hiff]
    refine ⟨⟨fun hsafe => ?_, fun hfits => ?_⟩, fun restored hok => ?_⟩
    · have hfirst := not_imp_not.mpr hpanics hsafe.1
      rw [not_not] at hfirst
      obtain ⟨first, hfirstOk⟩ := hrestored hfirst
      exact ⟨hfirst, (Outcome.bind_ne_panic.mp (hsafe.2 first hfirstOk)).1⟩
    · obtain ⟨first, hfirstOk⟩ := hrestored hfits.1
      refine ⟨(by rw [hfirstOk]; intro hpanic; cases hpanic), fun _ _ => ?_⟩
      exact Outcome.bind_ne_panic.mpr ⟨hfits.2, fun _ _ hpanic => by cases hpanic⟩
    · obtain ⟨first, -, hrest⟩ := Outcome.bind_eq_ok.mp hok
      obtain ⟨rest, hrestOk, hall⟩ := Outcome.bind_eq_ok.mp hrest
      cases hall
      rw [List.length_cons, hlength rest hrestOk, List.length_cons]

/-- The stored pairs of a frame fit, if it has any. -/
def FrameFits (strict : Bool) (assignment : Nat) (channels : List (List Int)) : Prop :=
  Decorrelated assignment →
    ∀ pair ∈ (channels.getD 0 []).zip (channels.getD 1 []), PairFits strict assignment pair.1 pair.2

theorem undoDecorrelation_spec {strict : Bool} {assignment : Nat} {channels : List (List Int)}
    (hpair : Decorrelated assignment → channels.length = 2) :
    (undoDecorrelation strict assignment channels ≠ .panic ↔
        FrameFits strict assignment channels) ∧
      ∀ restored, undoDecorrelation strict assignment channels = .ok restored →
        restored.length = channels.length := by
  unfold undoDecorrelation FrameFits
  split
  · rename_i hcoded
    obtain ⟨left, right, rfl⟩ := List.length_eq_two.mp (hpair hcoded)
    obtain ⟨hiff, -⟩ := @recombineAll_spec strict assignment (left.zip right)
    have hleft : (ofOption [left, right][0]? : Decode (List Int)) = .ok left := rfl
    have hright : (ofOption [left, right][1]? : Decode (List Int)) = .ok right := rfl
    rw [hleft, Outcome.ok_bind, hright, Outcome.ok_bind]
    refine ⟨⟨fun hsafe _ => hiff.mp (Outcome.bind_ne_panic.mp hsafe).1, fun hfits => ?_⟩,
      fun restored hok => ?_⟩
    · exact Outcome.bind_ne_panic.mpr ⟨hiff.mpr (hfits hcoded), fun _ _ hpanic => by cases hpanic⟩
    · obtain ⟨pairs, -, hall⟩ := Outcome.bind_eq_ok.mp hok
      cases hall
      rfl
  · rename_i hplain
    refine ⟨⟨fun _ hcoded => absurd hcoded hplain, fun _ hpanic => (by cases hpanic)⟩, ?_⟩
    intro restored hok
    cases hok
    rfl

/-! ## Frames in range -/

/-- What a frame stores. -/
def frameChannels : Read (FrameHeader × List (List Int)) := do
  let header ← readFrameHeader
  let channels ← readChannels header header.channels 0
  pure (header, channels)

/-- The step from one frame to the next, with the output so far. -/
def NextFrame (strict : Bool) (src : Bytes) (destLen : Nat) (bigEndian : Bool)
    (s t : Bytes × BitReader) : Prop :=
  s.1.length < destLen ∧ decodeFrame strict src destLen bigEndian s.1 s.2 = .ok t

/-- Every frame that the decoder comes to fits. -/
def FramesFit (strict : Bool) (src : Bytes) (destLen : Nat) (bigEndian : Bool)
    (s : Bytes × BitReader) : Prop :=
  ∀ t, Relation.ReflTransGen (NextFrame strict src destLen bigEndian) s t → t.1.length < destLen →
    ∀ header channels bits, frameChannels t.2 = .ok ((header, channels), bits) →
      FrameFits strict header.assignment channels

section Frames

variable {strict bigEndian : Bool} {src out : Bytes} {destLen : Nat} {bits : BitReader}

theorem fine_frameChannels :
    Fine frameChannels fun frame => frame.1.Valid ∧ frame.2.length = frame.1.channels :=
  Safe.bind fine_readFrameHeader fun _ hheader =>
    Safe.bind (fine_readChannels hheader _ _) fun _ hchannels => Safe.pure ⟨hheader, hchannels.1⟩

theorem length_sampleBytes (value : Int) : (sampleBytes bigEndian value).length = 2 := by
  unfold sampleBytes
  simp only
  split <;> rfl

theorem length_interleave (blockSize : Nat) (channels : List (List Int)) :
    (interleave bigEndian blockSize channels).length = blockSize * (channels.length * 2) := by
  simp [interleave, List.length_flatMap, length_sampleBytes]

theorem live_alignToByte (hlive : bits.Live) : bits.alignToByte.Live := hlive.remove _

/-- The rest of a frame returns, since the reader has not moved back, and it adds to the output. -/
theorem fine_finishFrame {header : FrameHeader} (hvalid : header.Valid) {channels : List (List Int)}
    (hchannels : channels.length = header.channels) (frameStart : Nat) :
    Safe (fun bits => bits.Live ∧ frameStart ≤ bits.bytePosition) BitReader.bytePosition
      (finishFrame src destLen bigEndian out frameStart header channels)
      fun out' => out.length < out'.length := by
  unfold finishFrame
  refine Safe.bind (Safe.modify (fun bits hbits => ?_)) fun _ _ => ?_
  · have hle := bytePosition_remove bits (bits.bits % 8)
    exact ⟨⟨live_alignToByte hbits.1, hbits.2.trans hle⟩, hle⟩
  refine Safe.bind Safe.get fun bits hbits => ?_
  refine Safe.bind Safe.ensure fun _ _ => ?_
  have hordered : (demand (frameStart ≤ bits.bytePosition) : Decode Unit) = .ok () :=
    Outcome.demand_eq_ok.mpr hbits.2
  refine Safe.bind (Safe.lift_ok hordered) fun _ _ => ?_
  refine Safe.bind Safe.ensure fun _ _ => ?_
  refine Safe.bind (Safe.above (fine_read (by omega)) frameStart) fun _ _ => ?_
  refine Safe.bind Safe.ensure fun _ _ => ?_
  refine Safe.bind Safe.ensure fun _ _ => ?_
  refine Safe.bind (Safe.above (fine_checkOverflow _) frameStart) fun _ _ => Safe.pure ?_
  rw [List.length_append, length_interleave, hchannels]
  have hsome := Nat.mul_pos hvalid.hblock.1 (Nat.mul_pos hvalid.hchannels Nat.two_pos)
  omega

theorem decodeFrame_spec (hlive : bits.Live) :
    (decodeFrame strict src destLen bigEndian out bits ≠ .panic ↔
        ∀ header channels bits', frameChannels bits = .ok ((header, channels), bits') →
          FrameFits strict header.assignment channels) ∧
      ∀ out' bits', decodeFrame strict src destLen bigEndian out bits = .ok (out', bits') →
        bits'.Live ∧ out.length < out'.length := by
  have hrun : decodeFrame strict src destLen bigEndian out bits =
      frameChannels bits >>= fun frame =>
        undoDecorrelation strict frame.1.1.assignment frame.1.2 >>= fun channels =>
          finishFrame src destLen bigEndian out bits.bytePosition frame.1.1 channels frame.2 := by
    simp only [decodeFrame, decodeSubframes, frameChannels, Outcome.run_bind, Outcome.run_lift,
      bind_assoc, Outcome.ok_bind]
    rfl
  obtain ⟨hframe, hstep⟩ := fine_frameChannels bits hlive
  rw [hrun]
  constructor
  · rw [Outcome.bind_ne_panic]
    constructor
    · intro hsafe header channels bits' hok
      obtain ⟨-, -, hvalid, hlength⟩ := hstep _ hok
      have hundo := (Outcome.bind_ne_panic.mp (hsafe.2 _ hok)).1
      exact (undoDecorrelation_spec fun h => hlength.trans (hvalid.hpair h)).1.mp hundo
    · intro hfits
      refine ⟨hframe, fun frame hok => ?_⟩
      obtain ⟨⟨header, channels⟩, bits'⟩ := frame
      obtain ⟨hnext, hle, hvalid, hlength⟩ := hstep _ hok
      obtain ⟨hiff, hsame⟩ := @undoDecorrelation_spec strict header.assignment channels
        fun h => hlength.trans (hvalid.hpair h)
      refine Outcome.bind_ne_panic.mpr ⟨hiff.mpr (hfits _ _ _ hok), fun restored hrestored => ?_⟩
      exact (fine_finishFrame hvalid ((hsame _ hrestored).trans hlength) _ bits' ⟨hnext, hle⟩).1
  · intro out' bits'' hok
    obtain ⟨⟨⟨header, channels⟩, bits'⟩, hframeOk, hrest⟩ := Outcome.bind_eq_ok.mp hok
    obtain ⟨restored, hrestored, hfinish⟩ := Outcome.bind_eq_ok.mp hrest
    obtain ⟨hnext, hle, hvalid, hlength⟩ := hstep _ hframeOk
    obtain ⟨-, hsame⟩ := @undoDecorrelation_spec strict header.assignment channels
      fun h => hlength.trans (hvalid.hpair h)
    obtain ⟨hlast, -, hlonger⟩ := (fine_finishFrame hvalid ((hsame _ hrestored).trans hlength) _
      bits' ⟨hnext, hle⟩).2 _ hfinish
    exact ⟨hlast.1, hlonger⟩

/-- From a full output no frame is read. -/
theorem framesFit_full (hfull : destLen ≤ out.length) :
    FramesFit strict src destLen bigEndian (out, bits) := by
  intro t hreached hmore
  rcases hreached.cases_head with hsame | ⟨_, hnext, -⟩
  · rw [← hsame] at hmore
    exact absurd hmore (Nat.not_lt.mpr hfull)
  · exact absurd hnext.1 (Nat.not_lt.mpr hfull)

/-- The frames from some output on. The rounds suffice, since every frame adds to the output. -/
theorem decodeRounds_ne_panic {rounds : Nat} (hlive : bits.Live)
    (hrounds : destLen ≤ out.length + rounds) :
    decodeRounds strict src destLen bigEndian rounds out bits ≠ .panic ↔
      FramesFit strict src destLen bigEndian (out, bits) := by
  induction rounds generalizing out bits with
  | zero =>
    have hfull : destLen ≤ out.length := hrounds
    unfold decodeRounds
    rw [if_pos hfull]
    exact ⟨fun _ => framesFit_full hfull, fun _ hpanic => by cases hpanic⟩
  | succ rounds ih =>
    unfold decodeRounds
    split
    · rename_i hfull
      exact ⟨fun _ => framesFit_full hfull, fun _ hpanic => by cases hpanic⟩
    · rename_i hmore
      have hshort : out.length < destLen := Nat.lt_of_not_le hmore
      obtain ⟨hiff, hstep⟩ := @decodeFrame_spec strict bigEndian src out destLen bits hlive
      simp only
      rw [Outcome.run_bind, Outcome.bind_ne_panic, hiff]
      constructor
      · intro hsafe t hreached hunfilled
        rcases hreached.cases_head with hsame | ⟨next, hnext, hlater⟩
        · subst hsame
          exact hsafe.1
        · obtain ⟨hnextLive, hlonger⟩ := hstep next.1 next.2 hnext.2
          exact (ih hnextLive (by omega)).mp (hsafe.2 next hnext.2) t hlater hunfilled
      · intro hfits
        refine ⟨hfits (out, bits) .refl hshort, fun next hok => ?_⟩
        obtain ⟨hnextLive, hlonger⟩ := hstep next.1 next.2 hok
        exact (ih hnextLive (by omega)).mpr fun t hlater =>
          hfits t (.head ⟨hshort, hok⟩ hlater)

end Frames

/-- Two samples of two channels with a mid of 5 and a side of 3. -/
example :
    decodeFrames true
      [0xFF, 0xF8, 0x60, 0xA8, 0x00, 0x01, 0x00, 0x00, 0x00, 0x05, 0x00, 0x00, 0x01, 0x80, 0x9B,
        0xDD] 8 true = .ok ([0, 7, 0, 4, 0, 7, 0, 4], 16) := by decide +kernel

end Flac

end Datboi.Chd
