import Datboi.Core.Assemble
import Datboi.Core.Decoding

/-!
# The parameter codec of the assemble builtin

A segment list is an array of maps, and the keys of a map say which kind of segment it
is. What passes validation decodes from its encoding to itself.
-/

namespace Datboi

open Cbor (Value)
open Decoding

inductive AssembleParamsError where
  | invalid (e : AssembleError)
  | cbor (e : Cbor.DecodeError)
  | panic (what : String)
  deriving DecidableEq

namespace AssembleCodec

def segkeyInputIx : UInt64 := 1
def segkeyOffset : UInt64 := 2
def segkeyRangeLen : UInt64 := 3
def segkeyFillByte : UInt64 := 4
def segkeyFillLen : UInt64 := 5
def segkeyLiteral : UInt64 := 6

def segmentToValue : Segment → Value
  | .blobRange inputIx offset len => .map
      [(segkeyInputIx, .uint (UInt64.ofNat inputIx)),
        (segkeyOffset, .uint (UInt64.ofNat offset)),
        (segkeyRangeLen, .uint (UInt64.ofNat len))]
  | .fill byte len => .map
      [(segkeyFillByte, .uint byte.toUInt64), (segkeyFillLen, .uint (UInt64.ofNat len))]
  | .literal bytes => .map [(segkeyLiteral, .bytes bytes)]

def uintField (entries : List (UInt64 × Value)) (key : UInt64) :
    Except AssembleParamsError UInt64 :=
  match entries.find? fun entry => entry.1 = key with
  | some (_, .uint n) => .ok n
  | _ => .error (.invalid (.params "expected unsigned integer field"))

def segmentFromValue : Value → Except AssembleParamsError Segment
  | .map entries =>
    let keys := entries.map Prod.fst
    if keys = [segkeyInputIx, segkeyOffset, segkeyRangeLen] then do
      let inputIx ← uintField entries segkeyInputIx
      if inputIx.toNat < 2 ^ 32 then
        let offset ← uintField entries segkeyOffset
        let len ← uintField entries segkeyRangeLen
        .ok (.blobRange inputIx.toNat offset.toNat len.toNat)
      else .error (.invalid (.params "input index out of range"))
    else if keys = [segkeyFillByte, segkeyFillLen] then do
      let byte ← uintField entries segkeyFillByte
      if byte.toNat < 2 ^ 8 then
        let len ← uintField entries segkeyFillLen
        .ok (.fill byte.toUInt8 len.toNat)
      else .error (.invalid (.params "fill byte out of range"))
    else if keys = [segkeyLiteral] then
      match entries with
      | (_, .bytes bytes) :: _ => .ok (.literal bytes)
      | _ => .error (.invalid (.params "literal must be a byte string"))
    else .error (.invalid (.params "unrecognized segment key set"))
  | _ => .error (.invalid (.params "segment must be a map"))

/-- Validation, its error passed on. -/
def checked (params : AssembleParams) : Except AssembleParamsError Unit :=
  match params.validate with
  | .ok () => .ok ()
  | .error e => .error (.invalid e)

end AssembleCodec

open AssembleCodec

def AssembleParams.encode (params : AssembleParams) : Except AssembleParamsError Bytes := do
  checked params
  encodeBody (.panic "segment keys are distinct constants")
    (.array (params.segments.map segmentToValue))

def AssembleParams.decode (bytes : Bytes) : Except AssembleParamsError AssembleParams := do
  match ← decodeBody .cbor bytes with
  | .array items =>
    let segments ← items.mapM segmentFromValue
    checked ⟨segments⟩
    .ok ⟨segments⟩
  | _ => .error (.invalid (.params "expected segment array"))

/-! ## Validation -/

/-- A segment that produces something, inline only when short. -/
def Segment.Valid : Segment → Prop
  | .literal bytes => bytes ≠ [] ∧ bytes.length ≤ literalCap
  | segment => segment.len ≠ 0

theorem Segment.Valid.len_pos {segment : Segment} (hvalid : segment.Valid) : 0 < segment.len := by
  cases segment with
  | blobRange inputIx offset len => exact Nat.pos_of_ne_zero hvalid
  | fill byte len => exact Nat.pos_of_ne_zero hvalid
  | literal bytes => exact List.length_pos_iff.mpr hvalid.1

variable {params : AssembleParams} {bytes : Bytes}

theorem AssembleParams.validate_eq_ok :
    params.validate = .ok () ↔
      params.segments ≠ [] ∧ ∀ segment ∈ params.segments, segment.Valid := by
  obtain ⟨segments⟩ := params
  cases segments with
  | nil => simp [validate, throw, throwThe, MonadExceptOf.throw, bind, Except.bind]
  | cons first rest =>
    simp only [validate, reduceCtorEq, if_false, ne_eq, not_false_eq_true, true_and]
    generalize first :: rest = segments
    induction segments with
    | nil => simp [pure, Except.pure, bind, Except.bind]
    | cons segment rest ih =>
      rw [List.forIn_cons]
      simp only [List.forall_mem_cons, ← ih]
      cases segment with
      | blobRange inputIx offset len =>
        by_cases hlen : len = 0 <;>
          simp [Segment.len, Segment.Valid, hlen, throw, throwThe, MonadExceptOf.throw, bind,
            Except.bind, pure, Except.pure]
      | fill byte len =>
        by_cases hlen : len = 0 <;>
          simp [Segment.len, Segment.Valid, hlen, throw, throwThe, MonadExceptOf.throw, bind,
            Except.bind, pure, Except.pure]
      | literal bytes =>
        rcases Nat.lt_or_ge literalCap bytes.length with hlong | hshort
        · have hnot : ¬ bytes.length ≤ literalCap := Nat.not_le.mpr hlong
          by_cases hempty : bytes = [] <;>
            simp [Segment.Valid, hempty, hlong, hnot, throw, throwThe, MonadExceptOf.throw,
              bind, Except.bind, pure, Except.pure]
        · have hnot : ¬ literalCap < bytes.length := Nat.not_lt.mpr hshort
          by_cases hempty : bytes = [] <;>
            simp [Segment.Valid, hempty, hshort, hnot, throw, throwThe, MonadExceptOf.throw,
              bind, Except.bind, pure, Except.pure]

/-- What decodes passes validation. -/
theorem AssembleParams.validate_of_decode (hdecode : AssembleParams.decode bytes = .ok params) :
    params.validate = .ok () := by
  unfold decode at hdecode
  obtain ⟨value, -, hvalue⟩ := bind_eq_ok.mp hdecode
  split at hvalue
  · obtain ⟨segments, -, hsegments⟩ := bind_eq_ok.mp hvalue
    obtain ⟨⟨⟩, hchecked, hsame⟩ := bind_eq_ok.mp hsegments
    cases hsame
    unfold checked at hchecked
    split at hchecked
    · rename_i hvalid
      exact hvalid
    · cases hchecked
  · cases hvalue

/-! ## Round trip -/

/-- The segment's fields are within the ranges of their machine types. -/
def Segment.Fits : Segment → Prop
  | .blobRange inputIx offset len => inputIx < 2 ^ 32 ∧ offset < 2 ^ 64 ∧ len < 2 ^ 64
  | .fill _ len => len < 2 ^ 64
  | .literal bytes => bytes.length < 2 ^ 64

namespace AssembleCodec

theorem segmentToValue_canonical {segment : Segment} (hfits : segment.Fits) (levels : Nat) :
    Value.Canonical (levels + 2) (segmentToValue segment) := by
  cases segment with
  | blobRange inputIx offset len =>
    simp [segmentToValue, Rows.Ascending, segkeyInputIx, segkeyOffset, segkeyRangeLen]
  | fill byte len => simp [segmentToValue, Rows.Ascending, segkeyFillByte, segkeyFillLen]
  | literal bytes =>
    have hbytes : bytes.length < 2 ^ 64 := hfits
    simpa [segmentToValue, Rows.Ascending] using hbytes

theorem segmentFromValue_segmentToValue {segment : Segment} (hfits : segment.Fits) :
    segmentFromValue (segmentToValue segment) = .ok segment := by
  cases segment with
  | blobRange inputIx offset len =>
    obtain ⟨hix, hoffset, hlen⟩ := hfits
    have hixMod : inputIx % 18446744073709551616 = inputIx := Nat.mod_eq_of_lt (by omega)
    have hoffsetMod : offset % 18446744073709551616 = offset := Nat.mod_eq_of_lt (by omega)
    have hlenMod : len % 18446744073709551616 = len := Nat.mod_eq_of_lt (by omega)
    simp [segmentToValue, segmentFromValue, uintField, segkeyInputIx, segkeyOffset,
      segkeyRangeLen, hixMod, hoffsetMod, hlenMod]
    omega
  | fill byte len =>
    have hlen : len < 2 ^ 64 := hfits
    have hlenMod : len % 18446744073709551616 = len := Nat.mod_eq_of_lt (by omega)
    have hbyte := byte.toNat_lt
    simp [segmentToValue, segmentFromValue, uintField, segkeyInputIx, segkeyFillByte,
      segkeyFillLen, hlenMod, hbyte]
  | literal bytes =>
    simp [segmentToValue, segmentFromValue, segkeyInputIx, segkeyFillByte, segkeyLiteral]

theorem mapM_segmentFromValue {segments : List Segment}
    (hfits : ∀ segment ∈ segments, segment.Fits) :
    (segments.map segmentToValue).mapM segmentFromValue = .ok segments := by
  induction segments with
  | nil => rfl
  | cons segment rest ih =>
    rw [List.forall_mem_cons] at hfits
    rw [List.map_cons, List.mapM_cons, segmentFromValue_segmentToValue hfits.1, ih hfits.2]
    rfl

end AssembleCodec

/-- Parameters that encode decode to themselves. -/
theorem AssembleParams.decode_encode (hencode : params.encode = .ok bytes)
    (hcount : params.segments.length < 2 ^ 64) (hfits : ∀ segment ∈ params.segments, segment.Fits) :
    AssembleParams.decode bytes = .ok params := by
  obtain ⟨_, hchecked, hbody⟩ := bind_eq_ok.mp hencode
  have hcanonical : Value.Canonical (Cbor.maxDepth + 1)
      (.array (params.segments.map segmentToValue)) := by
    rw [canonical_array, List.length_map, List.forall_mem_map]
    exact ⟨hcount, fun segment hsegment => segmentToValue_canonical (hfits segment hsegment) _⟩
  rw [encodeBody_eq_ok hcanonical.shaped, Except.ok.injEq] at hbody
  have hdecode : decodeBody AssembleParamsError.cbor bytes =
      .ok (.array (params.segments.map segmentToValue)) :=
    decodeBody_eq_ok.mpr ⟨hcanonical, hbody.symm⟩
  simp only [decode, hdecode, ok_bind, mapM_segmentFromValue hfits, hchecked]

theorem AssembleParams.valid_of_encode (hencode : params.encode = .ok bytes) :
    params.segments ≠ [] ∧ ∀ segment ∈ params.segments, segment.Valid := by
  obtain ⟨_, hchecked, _⟩ := bind_eq_ok.mp hencode
  unfold checked at hchecked
  split at hchecked
  · rename_i hvalidate
    exact validate_eq_ok.mp hvalidate
  · cases hchecked

end Datboi
