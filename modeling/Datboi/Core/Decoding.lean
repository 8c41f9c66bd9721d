import Datboi.Core.Object
import Datboi.Lib.Fields

/-!
# Reading structured objects

What the object decoders share: the accessors that fail on a value of another kind, the
required fields of a record, and the header check. An object's codec is exact when the value
its body holds determines it.
-/

namespace Datboi

open Cbor (Value)
open Wire (ofBe toBe)

/-! ## Digests as bytes -/

def Blake3.toBytes (hash : Blake3) : Bytes := toBe 32 hash.toNat

def Blake3.ofBytes (bytes : Bytes) : Blake3 := BitVec.ofNat 256 (ofBe bytes)

@[simp] theorem Blake3.length_toBytes (hash : Blake3) : hash.toBytes.length = 32 :=
  Wire.length_toBe _ _

theorem Blake3.ofBytes_toBytes (hash : Blake3) : Blake3.ofBytes hash.toBytes = hash := by
  rw [ofBytes, toBytes, Wire.ofBe_toBe, BitVec.ofNat_toNat, BitVec.setWidth_eq]
  exact hash.isLt

theorem Blake3.toBytes_ofBytes {bytes : Bytes} (hlength : bytes.length = 32) :
    (Blake3.ofBytes bytes).toBytes = bytes := by
  have hlt : Wire.ofBe bytes < 2 ^ 256 := by
    have hbound := Wire.ofBe_lt bytes
    rw [hlength] at hbound
    exact hbound
  rw [toBytes, ofBytes, BitVec.toNat_ofNat, Nat.mod_eq_of_lt hlt, ← hlength, Wire.toBe_ofBe]

/-! ## Canonical values -/

/-- A text whose length a machine can hold. -/
def TextFits (text : String) : Prop := (Cbor.textBytes text).length < 2 ^ 64

section Canonical

open Cbor.Value (Canonical Shaped)

variable {levels : Nat}

@[simp] theorem canonical_uint {n : UInt64} : Canonical (levels + 1) (.uint n) := trivial

@[simp] theorem canonical_bytes {b : Bytes} :
    Canonical (levels + 1) (.bytes b) ↔ b.length < 2 ^ 64 := Iff.rfl

@[simp] theorem canonical_text {t : String} : Canonical (levels + 1) (.text t) ↔ TextFits t :=
  Iff.rfl

@[simp] theorem canonical_array {items : List Value} :
    Canonical (levels + 1) (.array items) ↔
      items.length < 2 ^ 64 ∧ ∀ item ∈ items, Canonical levels item := Iff.rfl

@[simp] theorem canonical_map {entries : List (UInt64 × Value)} :
    Canonical (levels + 1) (.map entries) ↔
      entries.length < 2 ^ 64 ∧ Rows.Ascending (fun entry => entry.1.toNat) entries ∧
        ∀ entry ∈ entries, Canonical levels entry.2 := Iff.rfl

@[simp] theorem shaped_uint {n : UInt64} : Shaped (levels + 1) (.uint n) := trivial

@[simp] theorem shaped_bytes {b : Bytes} : Shaped (levels + 1) (.bytes b) := trivial

@[simp] theorem shaped_text {t : String} : Shaped (levels + 1) (.text t) := trivial

@[simp] theorem shaped_array {items : List Value} :
    Shaped (levels + 1) (.array items) ↔ ∀ item ∈ items, Shaped levels item := Iff.rfl

@[simp] theorem shaped_map {entries : List (UInt64 × Value)} :
    Shaped (levels + 1) (.map entries) ↔
      Rows.Ascending (fun entry => entry.1.toNat) entries ∧
        ∀ entry ∈ entries, Shaped levels entry.2 := Iff.rfl

theorem shaped_array_map {α : Type} {encode : α → Value} (items : List α)
    (hitems : ∀ item, Shaped levels (encode item)) :
    Shaped (levels + 1) (.array (items.map encode)) := by
  rw [shaped_array, List.forall_mem_map]
  exact fun item _ => hitems item

end Canonical

namespace Decoding

variable {ε α : Type} (invalid : String → ε)

/-! ## Accessors -/

def asMap : Value → Except ε (List (UInt64 × Value))
  | .map entries => .ok entries
  | _ => .error (invalid "expected map")

def asText : Value → Except ε String
  | .text t => .ok t
  | _ => .error (invalid "expected text")

def asUint : Value → Except ε UInt64
  | .uint n => .ok n
  | _ => .error (invalid "expected unsigned integer")

def asBytes : Value → Except ε Bytes
  | .bytes b => .ok b
  | _ => .error (invalid "expected byte string")

/-- A byte string of exactly `n` bytes. -/
def asFixed (n : Nat) (message : String) (v : Value) : Except ε (Vector UInt8 n) := do
  let b ← asBytes invalid v
  if h : b.toArray.size = n then .ok ⟨b.toArray, h⟩ else .error (invalid message)

def asHash (v : Value) : Except ε Blake3 := do
  let b ← asBytes invalid v
  if b.length = 32 then .ok (Blake3.ofBytes b)
  else .error (invalid "hash must be exactly 32 bytes")

/-- A field that the loop over the entries must have set. -/
def required (field : Option α) (message : String) : Except ε α :=
  field.elim (.error (invalid message)) .ok

variable {invalid}

variable {v : Value} {entries : List (UInt64 × Value)} {message : String}

@[simp] theorem asMap_eq_ok : asMap invalid v = .ok entries ↔ v = .map entries := by
  cases v <;> simp [asMap]

@[simp] theorem asText_eq_ok {t : String} : asText invalid v = .ok t ↔ v = .text t := by
  cases v <;> simp [asText]

@[simp] theorem asUint_eq_ok {n : UInt64} : asUint invalid v = .ok n ↔ v = .uint n := by
  cases v <;> simp [asUint]

@[simp] theorem asBytes_eq_ok {b : Bytes} : asBytes invalid v = .ok b ↔ v = .bytes b := by
  cases v <;> simp [asBytes]

@[simp] theorem required_eq_ok {field : Option α} {a : α} :
    required invalid field message = .ok a ↔ field = some a := by
  cases field <;> simp [required]

theorem bind_eq_ok {β : Type} {x : Except ε α} {f : α → Except ε β} {b : β} :
    (x >>= f) = .ok b ↔ ∃ a, x = .ok a ∧ f a = .ok b := by
  cases x <;> simp [Bind.bind, Except.bind]

@[simp] theorem ok_bind {β : Type} {a : α} {f : α → Except ε β} :
    (Except.ok a >>= f) = f a := rfl

@[simp] theorem asHash_eq_ok {hash : Blake3} :
    asHash invalid v = .ok hash ↔ v = .bytes hash.toBytes := by
  rw [asHash, bind_eq_ok]
  simp only [asBytes_eq_ok]
  constructor
  · rintro ⟨b, rfl, hb⟩
    split at hb
    · rename_i hlength
      cases hb
      rw [Blake3.toBytes_ofBytes hlength]
    · cases hb
  · rintro rfl
    refine ⟨_, rfl, ?_⟩
    rw [if_pos hash.length_toBytes, Blake3.ofBytes_toBytes]

@[simp] theorem asHash_toBytes (hash : Blake3) : asHash invalid (.bytes hash.toBytes) = .ok hash :=
  asHash_eq_ok.mpr rfl

@[simp] theorem asFixed_eq_ok {n : Nat} {a : Vector UInt8 n} :
    asFixed invalid n message v = .ok a ↔ v = .bytes a.toList := by
  rw [asFixed, bind_eq_ok]
  simp only [asBytes_eq_ok]
  constructor
  · rintro ⟨b, rfl, hb⟩
    split at hb
    · cases hb
      rfl
    · cases hb
  · rintro rfl
    refine ⟨_, rfl, ?_⟩
    rw [dif_pos (by simp)]
    rfl

@[simp] theorem asFixed_toList {n : Nat} (a : Vector UInt8 n) :
    asFixed invalid n message (.bytes a.toList) = .ok a :=
  asFixed_eq_ok.mpr rfl

/-! ## Objects -/

/-- The body behind the header of a kind and version. -/
def expectObject (wrongKind : ε) (badVersion : Nat → ε) (kind : ObjectKind) (version : Nat)
    (bytes : Bytes) : Except ε Bytes :=
  match Object.sniff bytes with
  | none => .error wrongKind
  | some (found, foundVersion, start) =>
    if found ≠ kind then .error wrongKind
    else if foundVersion ≠ version then .error (badVersion foundVersion)
    else .ok (bytes.drop start)

/-- `cbor::decode`, its error passed on. -/
def decodeBody (wrap : Cbor.DecodeError → ε) (body : Bytes) : Except ε Value :=
  match Cbor.decode body with
  | .ok v => .ok v
  | .error e => .error (wrap e)

/-- Encode a value whose keys are distinct constants; a failure would be a panic. -/
def encodeBody (panic : ε) (v : Value) : Except ε Bytes :=
  match Cbor.encode v with
  | .ok body => .ok body
  | .error _ => .error panic

theorem expectObject_eq_ok {wrongKind : ε} {badVersion : Nat → ε} {kind : ObjectKind}
    {version : Nat} {bytes body : Bytes} (hversion : version < 10) :
    expectObject wrongKind badVersion kind version bytes = .ok body ↔
      bytes = Object.header kind version ++ body := by
  constructor
  · intro hexpect
    unfold expectObject at hexpect
    split at hexpect
    · cases hexpect
    · rename_i found foundVersion start hsniff
      split at hexpect
      · cases hexpect
      rename_i hkind
      split at hexpect
      · cases hexpect
      rename_i hfound
      rw [not_not] at hkind hfound
      subst hkind hfound
      cases hexpect
      obtain ⟨rfl, rest, rfl⟩ := (Object.sniff_eq_some hversion).mp hsniff
      rw [List.drop_left]
  · rintro rfl
    have hsniff := (Object.sniff_eq_some hversion).mpr
      ⟨rfl, body, (rfl : Object.header kind version ++ body = _)⟩
    simp [expectObject, hsniff]

theorem decodeBody_eq_ok {wrap : Cbor.DecodeError → ε} {body : Bytes} :
    decodeBody wrap body = .ok v ↔ Value.Canonical (Cbor.maxDepth + 1) v ∧ body = v.encoded := by
  rw [← Cbor.decode_eq_ok, decodeBody]
  cases Cbor.decode body <;> simp

theorem encodeBody_eq_ok {panic : ε} {v : Value} {levels : Nat}
    (hshaped : Value.Shaped levels v) : encodeBody panic v = .ok v.encoded := by
  rw [encodeBody, Cbor.encode_eq_ok_of_shaped hshaped]

/-- What fits in memory behind its header is small enough to be decoded. -/
theorem canonical_of_length {header : Bytes} {levels : Nat} (hshaped : Value.Shaped levels v)
    (hlength : (header ++ v.encoded).length < 2 ^ 64) : Value.Canonical levels v := by
  rw [List.length_append] at hlength
  exact hshaped.canonical (Value.inMemory_of_length (by omega))

/-! ## Records -/

/-- A value that the CBOR decoder can return, at whatever depth. -/
def IsCanonical (v : Value) : Prop := ∃ levels, Value.Canonical levels v

theorem IsCanonical.exists_map (hcanonical : IsCanonical (.map entries)) :
    ∃ levels, entries.length < 2 ^ 64 ∧ Rows.Ascending (fun entry => entry.1.toNat) entries ∧
      ∀ entry ∈ entries, Value.Canonical levels entry.2 := by
  obtain ⟨levels, hcanonical⟩ := hcanonical
  obtain ⟨levels, rfl⟩ := hcanonical.exists_succ
  exact ⟨levels, hcanonical⟩

theorem IsCanonical.of_map (hcanonical : IsCanonical (.map entries)) :
    Rows.Ascending (fun entry => entry.1.toNat) entries ∧
      ∀ entry ∈ entries, IsCanonical entry.2 := by
  obtain ⟨levels, _, hascending, hinner⟩ := hcanonical.exists_map
  exact ⟨hascending, fun entry hentry => ⟨levels, hinner entry hentry⟩⟩

theorem IsCanonical.of_array {items : List Value} (hcanonical : IsCanonical (.array items)) :
    ∀ item ∈ items, IsCanonical item := by
  obtain ⟨levels, hcanonical⟩ := hcanonical
  obtain ⟨levels, rfl⟩ := hcanonical.exists_succ
  exact fun item hitem => ⟨levels, hcanonical.2 item hitem⟩

/-- All keys written so far are below `bound`: a field from there on is still unset. -/
theorem optEntry_below {key bound : UInt64} {field : Option Value} :
    (∀ b ∈ Fields.optEntry key field, b.1.toNat < bound.toNat) ↔
      key.toNat < bound.toNat ∨ field = none := by
  cases field <;> simp

/-- A step adds the entry it reads to what a partial record stands for, if its key is above the
keys there. -/
def Appends {σ : Type} (step : σ → UInt64 × Value → Except ε σ)
    (written : σ → List (UInt64 × Value)) : Prop :=
  ∀ s key v s', IsCanonical v → (∀ b ∈ written s, b.1.toNat < key.toNat) →
    step s (key, v) = .ok s' → written s' = written s ++ [(key, v)]

/-- The loop over a record's entries, from an empty partial record: the final record stands for
exactly the entries. -/
theorem written_eq {σ : Type} {step : σ → UInt64 × Value → Except ε σ}
    {written : σ → List (UInt64 × Value)} {empty final : σ} (hempty : written empty = [])
    (hstep : Appends step written) (hcanonical : IsCanonical (.map entries)) (hrun : entries.foldlM step empty = .ok final) :
    written final = entries := by
  obtain ⟨hascending, hinner⟩ := hcanonical.of_map
  have hall := Fields.foldlM_written (fun entry : UInt64 × Value => entry.1.toNat)
    (fun s entry s' => hstep s entry.1 entry.2 s') hinner hascending (by simp [hempty]) hrun
  rwa [hempty, List.nil_append] at hall

end Decoding

end Datboi
