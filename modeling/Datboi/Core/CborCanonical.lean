import Datboi.Core.Cbor
import Mathlib.Tactic.Ring

/-!
# One encoding for each value

The decoder accepts exactly the encodings of the values whose maps are sorted by key and that
nest within the depth limit. Encoding sorts every map, so decoding what was encoded gives the
value back in key order.
-/

namespace Datboi.Cbor

open Wire (Cursor Parser Exact)

/-! ## Heads -/

variable {cursor next : Cursor} {width offset : Nat} {info : UInt8} {prev : Option UInt64}

theorem byte_eq_ok {b : UInt8} : byte cursor = .ok (b, next) ↔ cursor.Reads [b] next := by
  obtain ⟨pos, rest⟩ := cursor
  obtain ⟨pos', rest'⟩ := next
  cases rest with
  | nil => simp [byte, Cursor.Reads]
  | cons first rest =>
    simp only [byte, Cursor.Reads, Except.ok.injEq, Prod.mk.injEq, Cursor.mk.injEq,
      List.cons_append, List.nil_append, List.cons.injEq, List.length_singleton]
    constructor
    · rintro ⟨rfl, rfl, rfl⟩
      exact ⟨⟨rfl, rfl⟩, rfl⟩
    · rintro ⟨⟨rfl, rfl⟩, rfl⟩
      exact ⟨rfl, rfl, rfl⟩

theorem position_eq_ok {pos : Nat} :
    position cursor = .ok (pos, next) ↔ pos = cursor.pos ∧ next = cursor := by
  simp only [position, Except.ok.injEq, Prod.mk.injEq]
  exact and_congr eq_comm eq_comm

theorem remaining_eq_ok {left : Nat} :
    remaining cursor = .ok (left, next) ↔ left = cursor.rest.length ∧ next = cursor := by
  simp only [remaining, Except.ok.injEq, Prod.mk.injEq]
  exact and_congr eq_comm eq_comm

theorem toNat_shift_or {v : UInt64} {b : UInt8} (hv : v.toNat < 2 ^ 56) :
    ((v <<< 8) ||| b.toUInt64).toNat = v.toNat * 256 + b.toNat := by
  have hb := b.toNat_lt
  have hshift : (v <<< 8).toNat = v.toNat <<< 8 := by
    rw [UInt64.toNat_shiftLeft, Nat.mod_eq_of_lt]
    · rfl
    · change v.toNat <<< 8 < 2 ^ 64
      rw [Nat.shiftLeft_eq]
      omega
  rw [UInt64.toNat_or, hshift, UInt8.toNat_toUInt64,
    ← Nat.shiftLeft_add_eq_or_of_lt (by omega), Nat.shiftLeft_eq]

/-- The loop appends the bytes it reads to the number it starts from, and shifts nothing out
while the result fits. -/
theorem beUintLoop_eq_ok {v n : UInt64} (hfits : (v.toNat + 1) * 256 ^ width ≤ 2 ^ 64) :
    beUintLoop width v cursor = .ok (n, next) ↔
      ∃ bytes, bytes.length = width ∧ cursor.Reads bytes next ∧
        n.toNat = bytes.foldl (fun m b => m * 256 + b.toNat) v.toNat := by
  induction width generalizing v cursor with
  | zero =>
    rw [beUintLoop, Wire.pure_eq_ok]
    constructor
    · rintro ⟨rfl, rfl⟩
      exact ⟨[], rfl, Cursor.reads_nil.mpr rfl, rfl⟩
    · rintro ⟨bytes, hlength, hreads, hn⟩
      rw [List.length_eq_zero_iff] at hlength
      subst hlength
      exact ⟨UInt64.toNat_inj.mp hn, Cursor.reads_nil.mp hreads⟩
  | succ width ih =>
    have hpos : 0 < 256 ^ width := Nat.pow_pos (by decide)
    have hsmall : v.toNat < 2 ^ 56 := by
      have hle : (v.toNat + 1) * 256 ≤ 2 ^ 64 :=
        calc (v.toNat + 1) * 256 ≤ (v.toNat + 1) * 256 * 256 ^ width :=
              Nat.le_mul_of_pos_right _ hpos
          _ = (v.toNat + 1) * 256 ^ (width + 1) := by ring
          _ ≤ 2 ^ 64 := hfits
      omega
    have hnext : ∀ b : UInt8, (((v <<< 8) ||| b.toUInt64).toNat + 1) * 256 ^ width ≤ 2 ^ 64 := by
      intro b
      have hb := b.toNat_lt
      rw [toNat_shift_or hsmall]
      calc (v.toNat * 256 + b.toNat + 1) * 256 ^ width
          ≤ ((v.toNat + 1) * 256) * 256 ^ width := Nat.mul_le_mul_right _ (by omega)
        _ = (v.toNat + 1) * 256 ^ (width + 1) := by ring
        _ ≤ 2 ^ 64 := hfits
    rw [beUintLoop, Wire.bind_eq_ok]
    constructor
    · rintro ⟨b, middle, hb, hrun⟩
      obtain ⟨bytes, hlength, hreads, hn⟩ := (ih (hnext b)).mp hrun
      refine ⟨b :: bytes, by rw [List.length_cons, hlength], ?_, ?_⟩
      · exact Cursor.reads_append.mpr ⟨middle, byte_eq_ok.mp hb, hreads⟩
      · rw [hn, toNat_shift_or hsmall, List.foldl_cons]
    · rintro ⟨bytes, hlength, hreads, hn⟩
      obtain ⟨b, bytes, rfl⟩ := List.exists_cons_of_length_eq_add_one hlength
      obtain ⟨middle, hfirst, hrest⟩ := Cursor.reads_append.mp
        (show cursor.Reads ([b] ++ bytes) next from hreads)
      refine ⟨b, middle, byte_eq_ok.mpr hfirst, (ih (hnext b)).mpr ⟨bytes, ?_, hrest, ?_⟩⟩
      · simpa using hlength
      · rw [hn, toNat_shift_or hsmall, List.foldl_cons]

theorem beUint_eq_ok {n : UInt64} (hwidth : width ≤ 8) :
    beUint width cursor = .ok (n, next) ↔
      n.toNat < 256 ^ width ∧ cursor.Reads (Wire.toBe width n.toNat) next := by
  have hfits : ((0 : UInt64).toNat + 1) * 256 ^ width ≤ 2 ^ 64 := by
    calc ((0 : UInt64).toNat + 1) * 256 ^ width = 256 ^ width := Nat.one_mul _
      _ ≤ 256 ^ 8 := Nat.pow_le_pow_right (by decide) hwidth
      _ = 2 ^ 64 := by decide
  rw [beUint, beUintLoop_eq_ok hfits]
  constructor
  · rintro ⟨bytes, rfl, hreads, hn⟩
    have hn : n.toNat = Wire.ofBe bytes := hn
    rw [hn, Wire.toBe_ofBe]
    exact ⟨Wire.ofBe_lt bytes, hreads⟩
  · rintro ⟨hlt, hreads⟩
    exact ⟨_, Wire.length_toBe width n.toNat, hreads, (Wire.ofBe_toBe hlt).symm⟩

theorem wideArg_eq_ok {least : Nat} {n : UInt64} (hwidth : width ≤ 8) :
    wideArg offset width least cursor = .ok (n, next) ↔
      (least ≤ n.toNat ∧ n.toNat < 256 ^ width) ∧
        cursor.Reads (Wire.toBe width n.toNat) next := by
  rw [wideArg, Wire.bind_eq_ok]
  constructor
  · rintro ⟨v, middle, hread, hrest⟩
    split at hrest
    · cases hrest
    · obtain ⟨rfl, rfl⟩ := Wire.pure_eq_ok.mp hrest
      obtain ⟨hlt, hreads⟩ := (beUint_eq_ok hwidth).mp hread
      exact ⟨⟨by omega, hlt⟩, hreads⟩
  · rintro ⟨⟨hleast, hlt⟩, hreads⟩
    refine ⟨n, next, (beUint_eq_ok hwidth).mpr ⟨hlt, hreads⟩, ?_⟩
    rw [if_neg (by omega)]
    rfl

/-- The low five bits of the head of an argument. -/
def infoOf (n : UInt64) : UInt8 :=
  if n.toNat < 24 then n.toUInt8
  else if n.toNat < 2 ^ 8 then 24
  else if n.toNat < 2 ^ 16 then 25
  else if n.toNat < 2 ^ 32 then 26
  else 27

/-- The bytes of the argument that do not fit into the initial byte. -/
def argBytes (n : UInt64) : Bytes :=
  if n.toNat < 24 then []
  else if n.toNat < 2 ^ 8 then Wire.toBe 1 n.toNat
  else if n.toNat < 2 ^ 16 then Wire.toBe 2 n.toNat
  else if n.toNat < 2 ^ 32 then Wire.toBe 4 n.toNat
  else Wire.toBe 8 n.toNat

theorem length_putHead_le (major : UInt8) (value : UInt64) : (putHead major value).length ≤ 9 := by
  rw [putHead]
  split_ifs <;> simp

theorem putHead_eq (major : UInt8) (n : UInt64) :
    putHead major n = ((major <<< 5) ||| infoOf n) :: argBytes n := by
  simp only [putHead, infoOf, argBytes]
  repeat' split
  all_goals rfl

theorem toNat_infoOf (n : UInt64) :
    (infoOf n).toNat =
      if n.toNat < 24 then n.toNat
      else if n.toNat < 2 ^ 8 then 24
      else if n.toNat < 2 ^ 16 then 25
      else if n.toNat < 2 ^ 32 then 26
      else 27 := by
  unfold infoOf
  split
  · rw [UInt64.toNat_toUInt8]
    omega
  · repeat' split
    all_goals rfl

theorem infoOf_lt (n : UInt64) : (infoOf n).toNat < 32 := by
  rw [toNat_infoOf]
  repeat' split
  all_goals omega

/-- One wide form: an argument is read from its bytes exactly if the form is the shortest. -/
theorem wideArg_eq_ok_iff {least : Nat} {n : UInt64} (hwidth : width ≤ 8)
    (hinfo : info = infoOf n ↔ least ≤ n.toNat ∧ n.toNat < 256 ^ width)
    (hbytes : least ≤ n.toNat → n.toNat < 256 ^ width → argBytes n = Wire.toBe width n.toNat) :
    wideArg offset width least cursor = .ok (n, next) ↔
      info = infoOf n ∧ cursor.Reads (argBytes n) next := by
  rw [wideArg_eq_ok hwidth, hinfo]
  refine and_congr_right fun hrange => ?_
  rw [hbytes hrange.1 hrange.2]

/-- An argument is read back from the form `putHead` gives it, and from no other. -/
theorem argument_eq_ok {n : UInt64} :
    argument offset info cursor = .ok (n, next) ↔
      info = infoOf n ∧ cursor.Reads (argBytes n) next := by
  have hn := n.toNat_lt
  have htoNat := toNat_infoOf n
  unfold argument
  split
  · rename_i hshort
    rw [Wire.pure_eq_ok]
    constructor
    · rintro ⟨rfl, rfl⟩
      have hvalue : info.toUInt64.toNat < 24 := by rwa [UInt8.toNat_toUInt64]
      rw [infoOf, if_pos hvalue, argBytes, if_pos hvalue]
      exact ⟨by simp, Cursor.reads_nil.mpr rfl⟩
    · rintro ⟨hinfo, hreads⟩
      have hvalue : n.toNat < 24 := by
        rw [← hinfo] at htoNat
        split_ifs at htoNat <;> omega
      rw [infoOf, if_pos hvalue] at hinfo
      rw [argBytes, if_pos hvalue] at hreads
      refine ⟨?_, Cursor.reads_nil.mp hreads⟩
      rw [hinfo, ← UInt64.toNat_inj, UInt8.toNat_toUInt64, UInt64.toNat_toUInt8]
      omega
  -- The four wide forms differ only in their bounds.
  · repeat' split
    case' isTrue h | isFalse.isTrue h | isFalse.isFalse.isTrue h | isFalse.isFalse.isFalse.isTrue h =>
      subst h
      apply wideArg_eq_ok_iff (by decide)
      · rw [← UInt8.toNat_inj, htoNat]
        simp only [UInt8.reduceToNat]
        split_ifs <;> omega
      · intro hleast hlt
        unfold argBytes
        repeat' split
        all_goals first | rfl | omega
    all_goals
      refine iff_of_false Wire.throw_ne_ok fun hboth => ?_
      have hinfo := hboth.1
      simp only [← UInt8.toNat_inj, htoNat, UInt8.reduceToNat] at *
      split_ifs at hinfo <;> omega

theorem shift_or_infoOf {major : UInt8} (hmajor : major.toNat < 8) (hinfo : info.toNat < 32) :
    ((major <<< 5) ||| info) >>> 5 = major ∧ ((major <<< 5) ||| info) &&& 0x1f = info := by
  have hall : ∀ m < 8, ∀ i < 32,
      ((UInt8.ofNat m <<< 5) ||| UInt8.ofNat i) >>> 5 = UInt8.ofNat m ∧
        ((UInt8.ofNat m <<< 5) ||| UInt8.ofNat i) &&& 0x1f = UInt8.ofNat i := by decide
  have hsplit := hall major.toNat hmajor info.toNat hinfo
  rwa [UInt8.ofNat_toNat, UInt8.ofNat_toNat] at hsplit

theorem initial_parts (initial : UInt8) :
    (initial >>> 5).toNat < 8 ∧ ((initial >>> 5) <<< 5) ||| (initial &&& 0x1f) = initial := by
  have hall : ∀ n < 256, (UInt8.ofNat n >>> 5).toNat < 8 ∧
      ((UInt8.ofNat n >>> 5) <<< 5) ||| (UInt8.ofNat n &&& 0x1f) = UInt8.ofNat n := by
    decide +kernel
  have hparts := hall initial.toNat initial.toNat_lt
  rwa [UInt8.ofNat_toNat] at hparts

/-- Heads are read exactly. -/
theorem head_eq_ok {major : UInt8} {n : UInt64} :
    head cursor = .ok ((major, n), next) ↔
      major.toNat < 8 ∧ cursor.Reads (putHead major n) next := by
  rw [putHead_eq]
  simp only [head, Wire.bind_eq_ok, position_eq_ok, byte_eq_ok, argument_eq_ok, Wire.pure_eq_ok,
    Prod.mk.injEq]
  constructor
  · rintro ⟨_, _, ⟨rfl, rfl⟩, initial, middle, hfirst, n, _, ⟨hinfo, hrest⟩, ⟨rfl, rfl⟩, rfl⟩
    obtain ⟨hmajor, hjoin⟩ := initial_parts initial
    refine ⟨hmajor, ?_⟩
    rw [← hinfo, hjoin]
    exact Cursor.reads_append.mpr ⟨middle, hfirst, hrest⟩
  · rintro ⟨hmajor, hreads⟩
    obtain ⟨hhigh, hlow⟩ := shift_or_infoOf hmajor (infoOf_lt n)
    obtain ⟨middle, hfirst, hrest⟩ := Cursor.reads_append.mp
      (show cursor.Reads ([(major <<< 5) ||| infoOf n] ++ argBytes n) next from hreads)
    exact ⟨_, _, ⟨rfl, rfl⟩, _, middle, hfirst, n, next, ⟨hlow, hrest⟩, ⟨hhigh.symm, rfl⟩, rfl⟩

theorem take_eq_ok {len : UInt64} {b : Bytes} :
    take len offset cursor = .ok (b, next) ↔ b.length = len.toNat ∧ cursor.Reads b next := by
  unfold take
  split
  · rename_i hle
    simp only [Except.ok.injEq, Prod.mk.injEq]
    constructor
    · rintro ⟨rfl, rfl⟩
      have hlength : (cursor.rest.take len.toNat).length = len.toNat := List.length_take_of_le hle
      exact ⟨hlength, (List.take_append_drop _ _).symm, by rw [hlength]⟩
    · rintro ⟨hlength, hrest, hpos⟩
      rw [hrest, List.take_left' hlength, List.drop_left' hlength]
      exact ⟨rfl, by rw [← hlength, ← hpos]⟩
  · rename_i hlong
    refine iff_of_false nofun ?_
    rintro ⟨hlength, hreads⟩
    exact hlong (hlength ▸ hreads.length_le)

/-- Bytes that are valid text are the bytes of one text. -/
theorem fromUTF8?_eq_some {b : Bytes} {t : String} :
    String.fromUTF8? ⟨b.toArray⟩ = some t ↔ b = textBytes t := by
  unfold String.fromUTF8?
  constructor
  · intro htext
    split at htext
    · cases htext
      rfl
    · cases htext
  · rintro rfl
    rw [dif_pos (show ByteArray.IsValidUTF8 ⟨(textBytes t).toArray⟩ from t.isValidUTF8)]
    rfl

/-! ## Values -/

namespace Value

/-- Induction over a value and everything inside it. -/
@[elab_as_elim, induction_eliminator]
theorem induction {motive : Value → Prop} (uint : ∀ n, motive (.uint n))
    (bytes : ∀ b, motive (.bytes b)) (text : ∀ t, motive (.text t))
    (array : ∀ items, (∀ item ∈ items, motive item) → motive (.array items))
    (map : ∀ entries, (∀ entry ∈ entries, motive entry.2) → motive (.map entries))
    (v : Value) : motive v := by
  refine @Value.rec motive (fun items => ∀ item ∈ items, motive item)
    (fun entries => ∀ entry ∈ entries, motive entry.2) (fun entry => motive entry.2)
    uint bytes text array map ?_ ?_ ?_ ?_ ?_ v
  · exact fun item hitem => absurd hitem List.not_mem_nil
  · intro head rest hhead hrest item hitem
    rcases List.mem_cons.mp hitem with rfl | hitem
    · exact hhead
    · exact hrest item hitem
  · exact fun entry hentry => absurd hentry List.not_mem_nil
  · intro head rest hhead hrest entry hentry
    rcases List.mem_cons.mp hentry with rfl | hentry
    · exact hhead
    · exact hrest entry hentry
  · exact fun _ _ hvalue => hvalue

/-- A value inside another, or the value itself. -/
inductive Within : Value → Value → Prop
  | refl (v : Value) : Within v v
  | item {u item : Value} {items : List Value} (hitem : item ∈ items) (hwithin : Within u item) :
      Within u (.array items)
  | entry {u : Value} {entry : UInt64 × Value} {entries : List (UInt64 × Value)}
      (hentry : entry ∈ entries) (hwithin : Within u entry.2) : Within u (.map entries)

/-- No map in the value holds a key twice. -/
def KeysDistinct (v : Value) : Prop :=
  ∀ entries, Within (.map entries) v → (entries.map Prod.fst).Nodup

/-- The number of bytes or elements of a value's own vector. -/
def length : Value → Nat
  | .uint _ => 0
  | .bytes b => b.length
  | .text t => (textBytes t).length
  | .array items => items.length
  | .map entries => entries.length

/-- Every vector in the value has a length that fits the machine. -/
def InMemory (v : Value) : Prop := ∀ u, Within u v → u.length < 2 ^ 64

mutual

/-- How many arrays and maps are open around the innermost element. -/
def depth : Value → Nat
  | .array items => depthItems items
  | .map entries => depthEntries entries
  | _ => 0

def depthItems : List Value → Nat
  | [] => 0
  | item :: rest => max (item.depth + 1) (depthItems rest)

def depthEntries : List (UInt64 × Value) → Nat
  | [] => 0
  | (_, v) :: rest => max (v.depth + 1) (depthEntries rest)

end

mutual

/-- The value with every map in key order. -/
def sorted : Value → Value
  | .array items => .array (sortedItems items)
  | .map entries => .map (sortByKey (sortedEntries entries))
  | v => v

def sortedItems : List Value → List Value
  | [] => []
  | item :: rest => item.sorted :: sortedItems rest

def sortedEntries : List (UInt64 × Value) → List (UInt64 × Value)
  | [] => []
  | (key, v) :: rest => (key, v.sorted) :: sortedEntries rest

end

mutual

/-- The bytes of a value with its maps taken in the order they stand in. -/
def encoded : Value → Bytes
  | .uint n => putHead majorUint n
  | .bytes b => putLength majorBytes b.length ++ b
  | .text t => putLength majorText (textBytes t).length ++ textBytes t
  | .array items => putLength majorArray items.length ++ encodedItems items
  | .map entries => putLength majorMap entries.length ++ encodedEntries entries

def encodedItems : List Value → Bytes
  | [] => []
  | item :: rest => item.encoded ++ encodedItems rest

def encodedEntries : List (UInt64 × Value) → Bytes
  | [] => []
  | (key, v) :: rest => putHead majorUint key ++ v.encoded ++ encodedEntries rest

end

/-- What the decoder can return with this many levels left: maps strictly ascending. -/
def Canonical : Nat → Value → Prop
  | 0, _ => False
  | _ + 1, .uint _ => True
  | _ + 1, .bytes b => b.length < 2 ^ 64
  | _ + 1, .text t => (textBytes t).length < 2 ^ 64
  | levels + 1, .array items => items.length < 2 ^ 64 ∧ ∀ item ∈ items, Canonical levels item
  | levels + 1, .map entries =>
    entries.length < 2 ^ 64 ∧ Rows.Ascending (fun entry => entry.1.toNat) entries ∧
      ∀ entry ∈ entries, Canonical levels entry.2

theorem sortedItems_eq (items : List Value) : sortedItems items = items.map sorted := by
  induction items with
  | nil => rfl
  | cons item rest ih => rw [sortedItems, ih, List.map_cons]

theorem sortedEntries_eq (entries : List (UInt64 × Value)) :
    sortedEntries entries = entries.map fun entry => (entry.1, entry.2.sorted) := by
  induction entries with
  | nil => rfl
  | cons entry rest ih => rw [sortedEntries, ih, List.map_cons]

theorem encodedItems_eq (items : List Value) : encodedItems items = items.flatMap encoded := by
  induction items with
  | nil => rfl
  | cons item rest ih => rw [encodedItems, ih, List.flatMap_cons]

theorem encodedEntries_eq (entries : List (UInt64 × Value)) :
    encodedEntries entries =
      entries.flatMap fun entry => putHead majorUint entry.1 ++ entry.2.encoded := by
  induction entries with
  | nil => rfl
  | cons entry rest ih => rw [encodedEntries, ih, List.flatMap_cons]

theorem depth_item_lt {items : List Value} {item : Value} (hitem : item ∈ items) :
    item.depth < (Value.array items).depth := by
  rw [depth]
  induction items with
  | nil => exact absurd hitem List.not_mem_nil
  | cons first rest ih =>
    rw [depthItems]
    rcases List.mem_cons.mp hitem with rfl | hitem
    · omega
    · have := ih hitem
      omega

theorem depth_entry_lt {entries : List (UInt64 × Value)} {entry : UInt64 × Value}
    (hentry : entry ∈ entries) : entry.2.depth < (Value.map entries).depth := by
  rw [depth]
  induction entries with
  | nil => exact absurd hentry List.not_mem_nil
  | cons first rest ih =>
    rw [depthEntries]
    rcases List.mem_cons.mp hentry with rfl | hentry
    · omega
    · have := ih hentry
      omega

theorem length_encodedItems_replicate (n : Nat) (item : Value) :
    (encodedItems (List.replicate n item)).length = n * item.encoded.length := by
  rw [encodedItems_eq, List.length_flatMap, List.map_replicate, List.sum_replicate_nat]

theorem encoded_length_pos (v : Value) : 0 < v.encoded.length := by
  have hhead : ∀ (major : UInt8) (n : UInt64) (rest : Bytes),
      0 < (putHead major n ++ rest).length := by
    intro major n rest
    rw [putHead_eq]
    simp
  cases v with
  | uint n => simpa [encoded] using hhead majorUint n []
  | bytes b => exact hhead _ _ _
  | text t => exact hhead _ _ _
  | array items => exact hhead _ _ _
  | map entries => exact hhead _ _ _

end Value

/-! ## The decoder accepts exactly the encodings -/

open Value (Canonical encoded encodedItems_eq encodedEntries_eq)

theorem toNat_ofNat_length {n : Nat} (hn : n < 2 ^ 64) : (UInt64.ofNat n).toNat = n :=
  UInt64.toNat_ofNat_of_lt' hn

/-- The entries' keys ascend, and from above the previous key. -/
def After (prev : Option UInt64) (entries : List (UInt64 × Value)) : Prop :=
  (∀ p ∈ prev, ∀ entry ∈ entries, p.toNat < entry.1.toNat) ∧
    Rows.Ascending (fun entry => entry.1.toNat) entries

theorem after_cons {key : UInt64} {v : Value} {rest : List (UInt64 × Value)} :
    After prev ((key, v) :: rest) ↔
      (∀ p ∈ prev, p.toNat < key.toNat) ∧ After (some key) rest := by
  simp only [After, Rows.Ascending, List.pairwise_cons, List.forall_mem_cons, Option.mem_def,
    Option.some.injEq, forall_eq']
  constructor
  · rintro ⟨hprev, hkey, hrest⟩
    exact ⟨fun p hp => (hprev p hp).1, hkey, hrest⟩
  · rintro ⟨hprev, hkey, hrest⟩
    exact ⟨fun p hp => ⟨hprev p hp, fun entry hentry => (hprev p hp).trans (hkey entry hentry)⟩,
      hkey, hrest⟩

theorem not_any_prev {key : UInt64} :
    ¬ (prev.any fun p => key.toNat ≤ p.toNat) ↔ ∀ p ∈ prev, p.toNat < key.toNat := by
  cases prev <;> simp

/-- The loop over a map's entries, given the parser of its values. -/
theorem entriesFrom_eq_ok {p : Parser DecodeError Value} {domain : Value → Prop}
    (hp : Exact p domain encoded) {count : Nat} {entries : List (UInt64 × Value)} :
    entriesFrom p count prev cursor = .ok (entries, next) ↔
      (entries.length = count ∧ After prev entries ∧ ∀ entry ∈ entries, domain entry.2) ∧
        cursor.Reads (entries.flatMap fun entry => putHead majorUint entry.1 ++ entry.2.encoded)
          next := by
  induction count generalizing prev entries cursor with
  | zero =>
    rw [entriesFrom, Wire.pure_eq_ok]
    constructor
    · rintro ⟨rfl, rfl⟩
      exact ⟨⟨rfl, by simp [After, Rows.Ascending], by simp⟩, Cursor.reads_nil.mpr rfl⟩
    · rintro ⟨⟨hlength, _⟩, hreads⟩
      rw [List.length_eq_zero_iff] at hlength
      subst hlength
      exact ⟨rfl, Cursor.reads_nil.mp hreads⟩
  | succ count ih =>
    simp only [entriesFrom, Wire.bind_eq_ok, position_eq_ok]
    constructor
    · rintro ⟨_, _, ⟨rfl, rfl⟩, ⟨major, key⟩, afterKey, hkey, hrun⟩
      split at hrun
      · cases hrun
      rename_i hmajor
      rw [not_not] at hmajor
      subst hmajor
      split at hrun
      · cases hrun
      rename_i hprev
      obtain ⟨v, afterValue, hvalue, rest, last, hrest, hdone⟩ := by
        simpa only [Wire.bind_eq_ok] using hrun
      obtain ⟨rfl, rfl⟩ := Wire.pure_eq_ok.mp hdone
      obtain ⟨_, hkeyReads⟩ := head_eq_ok.mp hkey
      obtain ⟨hdomain, hvalueReads⟩ := (hp _ _ _).mp hvalue
      obtain ⟨⟨hlength, hafter, hall⟩, hrestReads⟩ := ih.mp hrest
      refine ⟨⟨by rw [List.length_cons, hlength], ?_, ?_⟩, ?_⟩
      · exact after_cons.mpr ⟨not_any_prev.mp hprev, hafter⟩
      · rw [List.forall_mem_cons]
        exact ⟨hdomain, hall⟩
      · rw [List.flatMap_cons]
        exact Cursor.reads_append.mpr ⟨afterValue,
          Cursor.reads_append.mpr ⟨afterKey, hkeyReads, hvalueReads⟩, hrestReads⟩
    · rintro ⟨⟨hlength, hafter, hall⟩, hreads⟩
      obtain ⟨⟨key, v⟩, rest, rfl⟩ := List.exists_cons_of_length_eq_add_one hlength
      rw [after_cons] at hafter
      rw [List.forall_mem_cons] at hall
      rw [List.flatMap_cons] at hreads
      obtain ⟨afterValue, hentry, hrestReads⟩ := Cursor.reads_append.mp hreads
      obtain ⟨afterKey, hkeyReads, hvalueReads⟩ := Cursor.reads_append.mp hentry
      refine ⟨_, _, ⟨rfl, rfl⟩, (majorUint, key), afterKey,
        head_eq_ok.mpr ⟨by decide, hkeyReads⟩, ?_⟩
      rw [if_neg (not_not.mpr rfl), if_neg (not_any_prev.mpr hafter.1)]
      simp only [Wire.bind_eq_ok]
      refine ⟨v, afterValue, (hp _ _ _).mpr ⟨hall.1, hvalueReads⟩, rest, next,
        ih.mpr ⟨⟨by simpa using hlength, hafter.2, hall.2⟩, hrestReads⟩, rfl⟩

/-- The major type of a value's head. -/
def Value.major : Value → UInt8
  | .uint _ => majorUint
  | .bytes _ => majorBytes
  | .text _ => majorText
  | .array _ => majorArray
  | .map _ => majorMap

/-- The argument of a value's head. -/
def Value.arg : Value → UInt64
  | .uint n => n
  | .bytes b => UInt64.ofNat b.length
  | .text t => UInt64.ofNat (textBytes t).length
  | .array items => UInt64.ofNat items.length
  | .map entries => UInt64.ofNat entries.length

/-- What follows a value's head. -/
def Value.payload : Value → Bytes
  | .uint _ => []
  | .bytes b => b
  | .text t => textBytes t
  | .array items => items.flatMap encoded
  | .map entries => entries.flatMap fun entry => putHead majorUint entry.1 ++ entry.2.encoded

theorem encoded_eq (v : Value) : v.encoded = putHead v.major v.arg ++ v.payload := by
  cases v with
  | uint n => exact (List.append_nil _).symm
  | bytes b => rfl
  | text t => rfl
  | array items => rw [encoded, encodedItems_eq]; rfl
  | map entries => rw [encoded, encodedEntries_eq]; rfl

theorem major_lt (v : Value) : v.major.toNat < 8 := by
  cases v <;> rw [Value.major] <;> decide

theorem length_le_length_flatMap {α : Type} {elements : List α} {encode : α → Bytes}
    (hpos : ∀ a, 0 < (encode a).length) :
    elements.length ≤ (elements.flatMap encode).length := by
  induction elements with
  | nil => simp
  | cons a rest ih =>
    have := hpos a
    rw [List.flatMap_cons, List.length_append, List.length_cons]
    omega

theorem entry_length_pos (entry : UInt64 × Value) :
    0 < (putHead majorUint entry.1 ++ entry.2.encoded).length := by
  rw [List.length_append]
  exact Nat.add_pos_right _ entry.2.encoded_length_pos

/-- A loop over elements that take at least one byte each never announces more of them than
there are bytes. -/
theorem length_le_of_reads {α : Type} {elements : List α} {encode : α → Bytes}
    (hpos : ∀ a, 0 < (encode a).length) (hreads : cursor.Reads (elements.flatMap encode) next) :
    elements.length ≤ cursor.rest.length :=
  le_trans (length_le_length_flatMap hpos) hreads.length_le

/-- The contents of each kind of value are read exactly, given the parser of its elements. -/
theorem contents_eq_ok {inner : Parser DecodeError Value} {levels : Nat} {major : UInt8}
    {n : UInt64} {v : Value} (hinner : Exact inner (Canonical levels) encoded) :
    contents inner offset major n cursor = .ok (v, next) ↔
      (major = v.major ∧ n = v.arg) ∧ Canonical (levels + 1) v ∧
        cursor.Reads v.payload next := by
  have hn := n.toNat_lt
  constructor
  · intro hrun
    unfold contents at hrun
    split at hrun
    · rename_i hmajor
      obtain ⟨rfl, rfl⟩ := Wire.pure_eq_ok.mp hrun
      exact ⟨⟨hmajor, rfl⟩, trivial, Cursor.reads_nil.mpr rfl⟩
    split at hrun
    · cases hrun
    split at hrun
    · rename_i hmajor
      obtain ⟨b, middle, htake, hdone⟩ := Wire.bind_eq_ok.mp hrun
      obtain ⟨rfl, rfl⟩ := Wire.pure_eq_ok.mp hdone
      obtain ⟨hlength, hreads⟩ := take_eq_ok.mp htake
      refine ⟨⟨hmajor, ?_⟩, ?_, hreads⟩
      · rw [Value.arg, hlength, UInt64.ofNat_toNat]
      · rw [Canonical, hlength]
        exact hn
    split at hrun
    · rename_i hmajor
      obtain ⟨b, middle, htake, hdone⟩ := Wire.bind_eq_ok.mp hrun
      cases htext : String.fromUTF8? ⟨b.toArray⟩ with
      | none =>
        rw [htext] at hdone
        cases hdone
      | some t =>
        rw [htext] at hdone
        obtain ⟨rfl, rfl⟩ := Wire.pure_eq_ok.mp hdone
        obtain ⟨hlength, hreads⟩ := take_eq_ok.mp htake
        rw [fromUTF8?_eq_some] at htext
        subst htext
        refine ⟨⟨hmajor, ?_⟩, ?_, hreads⟩
        · rw [Value.arg, hlength, UInt64.ofNat_toNat]
        · rw [Canonical, hlength]
          exact hn
    split at hrun
    · rename_i hmajor
      obtain ⟨left, middle, hleft, hrest⟩ := Wire.bind_eq_ok.mp hrun
      obtain ⟨rfl, rfl⟩ := remaining_eq_ok.mp hleft
      split at hrest
      · cases hrest
      obtain ⟨items, middle, hitems, hdone⟩ := Wire.bind_eq_ok.mp hrest
      obtain ⟨rfl, rfl⟩ := Wire.pure_eq_ok.mp hdone
      obtain ⟨⟨hlength, hall⟩, hreads⟩ := (hinner.times _ _ _ _).mp hitems
      refine ⟨⟨hmajor, ?_⟩, ⟨hlength ▸ hn, hall⟩, hreads⟩
      rw [Value.arg, hlength, UInt64.ofNat_toNat]
    split at hrun
    · rename_i hmajor
      obtain ⟨left, middle, hleft, hrest⟩ := Wire.bind_eq_ok.mp hrun
      obtain ⟨rfl, rfl⟩ := remaining_eq_ok.mp hleft
      split at hrest
      · cases hrest
      obtain ⟨entries, middle, hentries, hdone⟩ := Wire.bind_eq_ok.mp hrest
      obtain ⟨rfl, rfl⟩ := Wire.pure_eq_ok.mp hdone
      obtain ⟨⟨hlength, hafter, hall⟩, hreads⟩ := (entriesFrom_eq_ok hinner).mp hentries
      refine ⟨⟨hmajor, ?_⟩, ⟨hlength ▸ hn, hafter.2, hall⟩, hreads⟩
      rw [Value.arg, hlength, UInt64.ofNat_toNat]
    split at hrun
    · cases hrun
    · cases hrun
  · rintro ⟨⟨rfl, rfl⟩, hcanonical, hreads⟩
    cases v with
    | uint n =>
      rw [Value.payload, Cursor.reads_nil] at hreads
      subst hreads
      rfl
    | bytes b =>
      have hlength : b.length = (UInt64.ofNat b.length).toNat :=
        (toNat_ofNat_length hcanonical).symm
      exact Wire.bind_eq_ok.mpr ⟨b, next, take_eq_ok.mpr ⟨hlength, hreads⟩, rfl⟩
    | text t =>
      have hlength : (textBytes t).length = (UInt64.ofNat (textBytes t).length).toNat :=
        (toNat_ofNat_length hcanonical).symm
      refine Wire.bind_eq_ok.mpr ⟨textBytes t, next, take_eq_ok.mpr ⟨hlength, hreads⟩, ?_⟩
      rw [fromUTF8?_eq_some.mpr rfl]
      rfl
    | array items =>
      have hlength := toNat_ofNat_length hcanonical.1
      refine Wire.bind_eq_ok.mpr ⟨_, cursor, remaining_eq_ok.mpr ⟨rfl, rfl⟩, ?_⟩
      have hle := length_le_of_reads Value.encoded_length_pos hreads
      rw [if_neg (by rw [Value.arg, hlength]; omega)]
      refine Wire.bind_eq_ok.mpr ⟨items, next, (hinner.times _ _ _ _).mpr ⟨⟨?_, hcanonical.2⟩,
        hreads⟩, rfl⟩
      exact hlength.symm
    | map entries =>
      have hlength := toNat_ofNat_length hcanonical.1
      refine Wire.bind_eq_ok.mpr ⟨_, cursor, remaining_eq_ok.mpr ⟨rfl, rfl⟩, ?_⟩
      have hle := length_le_of_reads entry_length_pos hreads
      rw [if_neg (by rw [Value.arg, hlength]; omega)]
      refine Wire.bind_eq_ok.mpr ⟨entries, next, (entriesFrom_eq_ok hinner).mpr ⟨⟨?_, ⟨by simp,
        hcanonical.2.1⟩, hcanonical.2.2⟩, hreads⟩, rfl⟩
      exact hlength.symm

/-- With enough levels left, the decoder accepts the encodings of canonical values and
nothing else. -/
theorem value_exact (levels : Nat) : Exact (value levels) (Canonical levels) encoded := by
  induction levels with
  | zero =>
    intro cursor v next
    rw [value, Wire.bind_eq_ok]
    refine iff_of_false ?_ fun h => h.1
    rintro ⟨_, _, _, hthrow⟩
    exact Wire.throw_ne_ok hthrow
  | succ levels ih =>
    intro cursor v next
    rw [value, encoded_eq, Cursor.reads_append]
    simp only [Wire.bind_eq_ok, position_eq_ok, contents_eq_ok ih]
    constructor
    · rintro ⟨_, _, ⟨rfl, rfl⟩, ⟨major, n⟩, afterHead, hhead, ⟨hmajor, harg⟩, hcanonical, hreads⟩
      obtain ⟨_, hheadReads⟩ := head_eq_ok.mp hhead
      have hmajor : major = v.major := hmajor
      have harg : n = v.arg := harg
      subst hmajor harg
      exact ⟨hcanonical, afterHead, hheadReads, hreads⟩
    · rintro ⟨hcanonical, afterHead, hheadReads, hreads⟩
      exact ⟨_, _, ⟨rfl, rfl⟩, (v.major, v.arg), afterHead,
        head_eq_ok.mpr ⟨major_lt v, hheadReads⟩, ⟨rfl, rfl⟩, hcanonical, hreads⟩

/-- The whole input is one encoding. -/
theorem decode_eq_ok {input : Bytes} {v : Value} :
    decode input = .ok v ↔ Canonical (maxDepth + 1) v ∧ input = v.encoded := by
  have hexact := value_exact (maxDepth + 1) ⟨0, input⟩
  unfold decode
  constructor
  · intro hdecode
    cases hrun : value (maxDepth + 1) ⟨0, input⟩ with
    | error e =>
      rw [hrun] at hdecode
      cases hdecode
    | ok r =>
      obtain ⟨u, next⟩ := r
      obtain ⟨hcanonical, hrest, _⟩ := (hexact u next).mp hrun
      rw [hrun] at hdecode
      change (if next.rest ≠ [] then _ else pure u) = _ at hdecode
      split at hdecode
      · cases hdecode
      · rename_i hend
        cases hdecode
        rw [not_not] at hend
        rw [hend, List.append_nil] at hrest
        exact ⟨hcanonical, hrest⟩
  · rintro ⟨hcanonical, rfl⟩
    have hrun := (hexact v ⟨v.encoded.length, []⟩).mpr
      ⟨hcanonical, (List.append_nil _).symm, (Nat.zero_add _).symm⟩
    rw [hrun]
    rfl

/-! ## Encoding sorts every map -/

namespace Value

theorem inMemory_array {items : List Value} :
    InMemory (.array items) ↔ items.length < 2 ^ 64 ∧ ∀ item ∈ items, InMemory item := by
  constructor
  · intro hmemory
    exact ⟨hmemory _ (.refl _), fun item hitem u hwithin => hmemory u (.item hitem hwithin)⟩
  · rintro ⟨hlength, hitems⟩ u hwithin
    cases hwithin with
    | refl => exact hlength
    | item hitem hwithin => exact hitems _ hitem u hwithin

theorem inMemory_map {entries : List (UInt64 × Value)} :
    InMemory (.map entries) ↔
      entries.length < 2 ^ 64 ∧ ∀ entry ∈ entries, InMemory entry.2 := by
  constructor
  · intro hmemory
    exact ⟨hmemory _ (.refl _), fun entry hentry u hwithin => hmemory u (.entry hentry hwithin)⟩
  · rintro ⟨hlength, hentries⟩ u hwithin
    cases hwithin with
    | refl => exact hlength
    | entry hentry hwithin => exact hentries _ hentry u hwithin

end Value

theorem nodup_toNat {α : Type} {entries : List (UInt64 × α)} :
    (entries.map fun entry => entry.1.toNat).Nodup ↔ (entries.map Prod.fst).Nodup := by
  have hmap : (entries.map fun entry => entry.1.toNat) =
      (entries.map Prod.fst).map UInt64.toNat := by
    rw [List.map_map]
    rfl
  rw [hmap, List.nodup_map_iff fun _ _ => UInt64.toNat_inj.mp]

namespace Value

theorem keysDistinct_array {items : List Value} :
    KeysDistinct (.array items) ↔ ∀ item ∈ items, KeysDistinct item := by
  constructor
  · intro hkeys item hitem entries hwithin
    exact hkeys entries (.item hitem hwithin)
  · intro hkeys entries hwithin
    cases hwithin with
    | item hitem hwithin => exact hkeys _ hitem entries hwithin

theorem keysDistinct_map {entries : List (UInt64 × Value)} :
    KeysDistinct (.map entries) ↔
      (entries.map Prod.fst).Nodup ∧ ∀ entry ∈ entries, KeysDistinct entry.2 := by
  constructor
  · intro hkeys
    exact ⟨hkeys entries (.refl _),
      fun entry hentry inner hwithin => hkeys inner (.entry hentry hwithin)⟩
  · rintro ⟨hnodup, hkeys⟩ inner hwithin
    cases hwithin with
    | refl => exact hnodup
    | entry hentry hwithin => exact hkeys _ hentry inner hwithin

end Value

theorem encodeValues_eq (entries : List (UInt64 × Value)) :
    encodeValues entries = entries.map fun entry => (entry.1, encodeInto entry.2) := by
  induction entries with
  | nil => rfl
  | cons entry rest ih => rw [encodeValues, ih, List.map_cons]

theorem firstDuplicate_eq_none {α : Type} {entries : List (UInt64 × α)} :
    firstDuplicate entries = none ↔
      Rows.windowsAny (fun a b => a.1.toNat = b.1.toNat) entries = false := by
  induction entries with
  | nil => simp [firstDuplicate, Rows.windowsAny]
  | cons first rest ih =>
    cases rest with
    | nil => simp [firstDuplicate, Rows.windowsAny]
    | cons second rest =>
      rw [firstDuplicate, Rows.windowsAny, Bool.or_eq_false_iff, ← ih]
      simp only [UInt64.toNat_inj, decide_eq_false_iff_not]
      split
      · rename_i heq
        simp [heq]
      · rename_i hne
        simp [hne]

/-- The duplicate scan over the sorted entries finds something exactly if a key occurs
twice. -/
theorem firstDuplicate_sortByKey {α : Type} {entries : List (UInt64 × α)} :
    firstDuplicate (sortByKey entries) = none ↔ (entries.map Prod.fst).Nodup := by
  rw [firstDuplicate_eq_none, sortByKey, Rows.windowsAny_sortBy_eq_false, nodup_toNat]

theorem encodeItems_eq_ok {items : List Value} {encode : Value → Bytes}
    (hitems : ∀ item ∈ items, encodeInto item = .ok (encode item)) :
    encodeItems items = .ok (items.flatMap encode) := by
  induction items with
  | nil => rfl
  | cons item rest ih =>
    rw [List.forall_mem_cons] at hitems
    rw [encodeItems, hitems.1, ih hitems.2]
    rfl

theorem encodeItems_eq_error {items : List Value} {item : Value} (hitem : item ∈ items)
    (herror : ∃ e, encodeInto item = .error e) : ∃ e, encodeItems items = .error e := by
  induction items with
  | nil => exact absurd hitem List.not_mem_nil
  | cons first rest ih =>
    rw [encodeItems]
    cases hfirst : encodeInto first with
    | error e => exact ⟨e, rfl⟩
    | ok b =>
      rcases List.mem_cons.mp hitem with rfl | hitem
      · rw [hfirst] at herror
        obtain ⟨_, herror⟩ := herror
        cases herror
      · obtain ⟨e, hrest⟩ := ih hitem
        exact ⟨e, by rw [hrest]; rfl⟩

theorem putEntries_eq_ok (entries : List (UInt64 × Bytes)) :
    putEntries (entries.map fun entry => (entry.1, .ok entry.2)) =
      .ok (entries.flatMap fun entry => putHead majorUint entry.1 ++ entry.2) := by
  induction entries with
  | nil => rfl
  | cons entry rest ih =>
    rw [List.map_cons, putEntries, ih]
    rfl

theorem putEntries_eq_error {entries : List (UInt64 × Except EncodeError Bytes)}
    {entry : UInt64 × Except EncodeError Bytes} (hentry : entry ∈ entries)
    (herror : ∃ e, entry.2 = .error e) : ∃ e, putEntries entries = .error e := by
  induction entries with
  | nil => exact absurd hentry List.not_mem_nil
  | cons first rest ih =>
    obtain ⟨key, result⟩ := first
    cases result with
    | error e => exact ⟨e, rfl⟩
    | ok b =>
      rcases List.mem_cons.mp hentry with rfl | hentry
      · obtain ⟨_, herror⟩ := herror
        cases herror
      · obtain ⟨e, hrest⟩ := ih hentry
        exact ⟨e, by rw [putEntries, hrest]; rfl⟩

/-- A value without duplicate keys is encoded as its sorted form. -/
theorem encodeInto_eq_ok {v : Value} (hkeys : v.KeysDistinct) :
    encodeInto v = .ok v.sorted.encoded := by
  induction v with
  | uint n => rfl
  | bytes b => rfl
  | text t => rfl
  | array items ih =>
    rw [Value.keysDistinct_array] at hkeys
    have hitems := encodeItems_eq_ok fun item hitem => ih item hitem (hkeys item hitem)
    rw [encodeInto, hitems, Value.sorted, Value.encoded, Value.sortedItems_eq, encodedItems_eq,
      List.flatMap_map, List.length_map]
    rfl
  | map entries ih =>
    rw [Value.keysDistinct_map] at hkeys
    -- Each entry's result is the encoding of its sorted value, so sorting the results and
    -- sorting the entries put the same bytes in the same order.
    have hresults : encodeValues entries =
        (Value.sortedEntries entries).map fun entry => (entry.1, .ok entry.2.encoded) := by
      rw [encodeValues_eq, Value.sortedEntries_eq, List.map_map]
      refine List.map_congr_left fun entry hentry => ?_
      rw [ih entry hentry (hkeys.2 entry hentry)]
      rfl
    have hsorted : sortByKey (encodeValues entries) =
        ((sortByKey (Value.sortedEntries entries)).map fun entry =>
          (entry.1, entry.2.encoded)).map fun entry => (entry.1, .ok entry.2) := by
      rw [hresults, List.map_map, sortByKey, sortByKey, ← Rows.map_sortBy _ fun _ => rfl]
      rfl
    have hscan : firstDuplicate (sortByKey (encodeValues entries)) = none := by
      rw [firstDuplicate_sortByKey, encodeValues_eq, List.map_map]
      exact hkeys.1
    rw [hsorted] at hscan
    simp only [encodeInto, hsorted, hscan, putEntries_eq_ok, Value.sorted, Value.encoded,
      encodedEntries_eq, List.flatMap_map, List.length_map]
    rfl

/-- A duplicate key anywhere in the value makes encoding fail. -/
theorem encodeInto_eq_error {v : Value} (hkeys : ¬ v.KeysDistinct) :
    ∃ e, encodeInto v = .error e := by
  induction v with
  | uint n => exact absurd (fun _ hwithin => nomatch hwithin) hkeys
  | bytes b => exact absurd (fun _ hwithin => nomatch hwithin) hkeys
  | text t => exact absurd (fun _ hwithin => nomatch hwithin) hkeys
  | array items ih =>
    rw [Value.keysDistinct_array] at hkeys
    push Not at hkeys
    obtain ⟨item, hitem, hkeys⟩ := hkeys
    obtain ⟨e, hitems⟩ := encodeItems_eq_error hitem (ih item hitem hkeys)
    exact ⟨e, by rw [encodeInto, hitems]; rfl⟩
  | map entries ih =>
    cases hscan : firstDuplicate (sortByKey (encodeValues entries)) with
    | some key => exact ⟨.duplicateKey key, by simp only [encodeInto, hscan]⟩
    | none =>
      have hnodup : (entries.map Prod.fst).Nodup := by
        rw [firstDuplicate_sortByKey, encodeValues_eq, List.map_map] at hscan
        exact hscan
      rw [Value.keysDistinct_map, not_and] at hkeys
      have hinner := hkeys hnodup
      push Not at hinner
      obtain ⟨entry, hentry, hkeys⟩ := hinner
      have hmem : (entry.1, encodeInto entry.2) ∈ sortByKey (encodeValues entries) := by
        rw [sortByKey, Rows.mem_sortBy, encodeValues_eq]
        exact List.mem_map.mpr ⟨entry, hentry, rfl⟩
      obtain ⟨e, hentries⟩ := putEntries_eq_error hmem (ih entry hentry hkeys)
      exact ⟨e, by simp only [encodeInto, hscan, hentries]; rfl⟩

/-! ## The codec as a whole -/

namespace Value

variable {v : Value} {levels : Nat}

/-- Sorting makes a value canonical when its keys are distinct and it nests no deeper than
the levels allow. -/
theorem canonical_sorted (hdepth : v.depth < levels) (hmemory : v.InMemory)
    (hkeys : v.KeysDistinct) : Canonical levels v.sorted := by
  obtain ⟨levels, rfl⟩ : ∃ n, levels = n + 1 := ⟨levels - 1, by omega⟩
  induction v generalizing levels with
  | uint n => trivial
  | bytes b => exact hmemory _ (.refl _)
  | text t => exact hmemory _ (.refl _)
  | array items ih =>
    rw [keysDistinct_array] at hkeys
    rw [sorted, sortedItems_eq]
    refine ⟨?_, ?_⟩
    · rw [List.length_map]
      exact hmemory _ (.refl _)
    · intro item hitem
      obtain ⟨old, hold, rfl⟩ := List.mem_map.mp hitem
      have hlt := depth_item_lt hold
      obtain ⟨levels, rfl⟩ : ∃ n, levels = n + 1 := ⟨levels - 1, by omega⟩
      exact ih old hold (fun u hwithin => hmemory u (.item hold hwithin))
        (hkeys old hold) levels (by omega)
  | map entries ih =>
    rw [keysDistinct_map] at hkeys
    rw [sorted, sortedEntries_eq, sortByKey]
    refine ⟨?_, ?_, ?_⟩
    · rw [Rows.length_sortBy, List.length_map]
      exact hmemory _ (.refl _)
    · rw [Rows.ascending_sortBy, nodup_toNat, List.map_map]
      exact hkeys.1
    · intro entry hentry
      rw [Rows.mem_sortBy] at hentry
      obtain ⟨old, hold, rfl⟩ := List.mem_map.mp hentry
      have hlt := depth_entry_lt hold
      obtain ⟨levels, rfl⟩ : ∃ n, levels = n + 1 := ⟨levels - 1, by omega⟩
      exact ih old hold (fun u hwithin => hmemory u (.entry hold hwithin))
        (hkeys.2 old hold) levels (by omega)

theorem Canonical.exists_succ (hcanonical : Canonical levels v) : ∃ n, levels = n + 1 := by
  cases levels with
  | zero => exact hcanonical.elim
  | succ levels => exact ⟨levels, rfl⟩

/-- Maps strictly ascending and nesting within the levels: a canonical value up to the lengths
of its vectors. -/
def Shaped : Nat → Value → Prop
  | 0, _ => False
  | _ + 1, .uint _ => True
  | _ + 1, .bytes _ => True
  | _ + 1, .text _ => True
  | levels + 1, .array items => ∀ item ∈ items, Shaped levels item
  | levels + 1, .map entries =>
    Rows.Ascending (fun entry => entry.1.toNat) entries ∧
      ∀ entry ∈ entries, Shaped levels entry.2

theorem Canonical.shaped (hcanonical : Canonical levels v) : Shaped levels v := by
  induction levels generalizing v with
  | zero => exact hcanonical
  | succ levels ih =>
    cases v with
    | uint n => trivial
    | bytes b => trivial
    | text t => trivial
    | array items => exact fun item hitem => ih (hcanonical.2 item hitem)
    | map entries => exact ⟨hcanonical.2.1, fun entry hentry => ih (hcanonical.2.2 entry hentry)⟩

theorem Shaped.canonical (hshaped : Shaped levels v) (hmemory : v.InMemory) :
    Canonical levels v := by
  induction levels generalizing v with
  | zero => exact hshaped
  | succ levels ih =>
    cases v with
    | uint n => trivial
    | bytes b => exact hmemory _ (.refl _)
    | text t => exact hmemory _ (.refl _)
    | array items =>
      rw [inMemory_array] at hmemory
      exact ⟨hmemory.1, fun item hitem => ih (hshaped item hitem) (hmemory.2 item hitem)⟩
    | map entries =>
      rw [inMemory_map] at hmemory
      exact ⟨hmemory.1, hshaped.1,
        fun entry hentry => ih (hshaped.2 entry hentry) (hmemory.2 entry hentry)⟩

/-- A value of canonical shape has distinct keys and is its own sorted form. -/
theorem Shaped.sorted_eq (hshaped : Shaped levels v) : v.KeysDistinct ∧ v.sorted = v := by
  induction levels generalizing v with
  | zero => exact hshaped.elim
  | succ levels ih =>
    cases v with
    | uint n => exact ⟨fun _ hwithin => (nomatch hwithin), rfl⟩
    | bytes b => exact ⟨fun _ hwithin => (nomatch hwithin), rfl⟩
    | text t => exact ⟨fun _ hwithin => (nomatch hwithin), rfl⟩
    | array items =>
      have hinner := fun item hitem => ih (hshaped item hitem)
      refine ⟨keysDistinct_array.mpr fun item hitem => (hinner item hitem).1, ?_⟩
      rw [sorted, sortedItems_eq, List.map_congr_left fun item hitem => (hinner item hitem).2,
        List.map_id']
    | map entries =>
      have hinner := fun entry hentry => ih (hshaped.2 entry hentry)
      refine ⟨keysDistinct_map.mpr ⟨nodup_toNat.mp hshaped.1.nodup,
        fun entry hentry => (hinner entry hentry).1⟩, ?_⟩
      have hsame : entries.map (fun entry => (entry.1, entry.2.sorted)) = entries := by
        conv_rhs => rw [← List.map_id entries]
        refine List.map_congr_left fun entry hentry => ?_
        rw [(hinner entry hentry).2]
        rfl
      rw [sorted, sortedEntries_eq, hsame, sortByKey, Rows.sortBy_eq_self hshaped.1]

theorem length_le_flatMap {α : Type} {elements : List α} (encode : α → Bytes) {a : α}
    (ha : a ∈ elements) : (encode a).length ≤ (elements.flatMap encode).length := by
  induction elements with
  | nil => exact absurd ha List.not_mem_nil
  | cons first rest ih =>
    rw [List.flatMap_cons, List.length_append]
    rcases List.mem_cons.mp ha with rfl | ha
    · omega
    · have := ih ha
      omega

theorem length_le_encoded (v : Value) : v.length ≤ v.encoded.length := by
  cases v with
  | uint n => exact Nat.zero_le _
  | bytes b =>
    rw [encoded, List.length_append]
    exact Nat.le_add_left _ _
  | text t =>
    rw [encoded, List.length_append]
    exact Nat.le_add_left _ _
  | array items =>
    rw [encoded, encodedItems_eq, List.length_append]
    exact le_trans (length_le_length_flatMap encoded_length_pos) (Nat.le_add_left _ _)
  | map entries =>
    rw [encoded, encodedEntries_eq, List.length_append]
    exact le_trans (length_le_length_flatMap entry_length_pos) (Nat.le_add_left _ _)

/-- No vector in a value is longer than the value's encoding. -/
theorem Within.length_le {u : Value} (hwithin : Within u v) : u.length ≤ v.encoded.length := by
  induction hwithin with
  | refl => exact length_le_encoded u
  | item hitem _ ih =>
    rw [encoded, encodedItems_eq, List.length_append]
    have := length_le_flatMap encoded hitem
    omega
  | @entry entry entries hentry _ ih =>
    rw [encoded, encodedEntries_eq, List.length_append]
    have := length_le_flatMap
      (fun entry : UInt64 × Value => putHead majorUint entry.1 ++ entry.2.encoded) hentry
    rw [List.length_append] at this
    omega

/-- A value whose encoding fits the machine fits it too. -/
theorem inMemory_of_length (hlength : v.encoded.length < 2 ^ 64) : v.InMemory :=
  fun _ hwithin => lt_of_le_of_lt hwithin.length_le hlength

end Value

/-- The bytes of a value of canonical shape are what the encoder emits for it. -/
theorem encode_eq_ok_of_shaped {v : Value} {levels : Nat} (hshaped : Value.Shaped levels v) :
    encode v = .ok v.encoded := by
  obtain ⟨hkeys, hsorted⟩ := hshaped.sorted_eq
  rw [encode, encodeInto_eq_ok hkeys, hsorted]

/-- The codec is a bijection on its image. Accepted bytes are the encoding of what they
decode to; a value without duplicate keys that nests within the limit decodes from its
encoding with its maps sorted; and only a duplicate key makes encoding fail. Lengths are those
a machine can hold. -/
theorem decode_encode_canonical :
    (∀ b v, decode b = .ok v → encode v = .ok b) ∧
      (∀ v : Value, v.InMemory → v.depth ≤ maxDepth → v.KeysDistinct →
        ∃ b, encode v = .ok b ∧ decode b = .ok v.sorted) ∧
      ∀ v : Value, (∃ e, encode v = .error e) ↔
        ∃ entries, Value.Within (.map entries) v ∧ ¬ (entries.map Prod.fst).Nodup := by
  refine ⟨?_, ?_, ?_⟩
  · intro b v hdecode
    obtain ⟨hcanonical, rfl⟩ := decode_eq_ok.mp hdecode
    exact encode_eq_ok_of_shaped hcanonical.shaped
  · intro v hmemory hdepth hkeys
    refine ⟨_, encodeInto_eq_ok hkeys, decode_eq_ok.mpr ⟨?_, rfl⟩⟩
    exact Value.canonical_sorted (by omega) hmemory hkeys
  · intro v
    constructor
    · rintro ⟨e, herror⟩
      by_contra hnone
      push Not at hnone
      rw [encode, encodeInto_eq_ok hnone] at herror
      cases herror
    · rintro ⟨entries, hwithin, hduplicate⟩
      exact encodeInto_eq_error fun hkeys => hduplicate (hkeys entries hwithin)

/-- A map out of order comes back sorted, its bytes re-encode to themselves, and a duplicate
key inside an array is refused. -/
theorem decode_encode_unsorted :
    encode (.map [(2, .uint 7), (1, .uint 500)]) = .ok [162, 1, 25, 1, 244, 2, 7] ∧
      decode [162, 1, 25, 1, 244, 2, 7] = .ok (.map [(1, .uint 500), (2, .uint 7)]) ∧
      encode (.map [(1, .uint 500), (2, .uint 7)]) = .ok [162, 1, 25, 1, 244, 2, 7] ∧
      ∃ e, encode (.array [.map [(1, .uint 0), (1, .uint 0)]]) = .error e := by
  have hleaf : ∀ n, Value.InMemory (.uint n) ∧ Value.KeysDistinct (.uint n) :=
    fun n => ⟨fun u hwithin => by cases hwithin; simp [Value.length], fun _ hwithin => (nomatch hwithin)⟩
  have hmemory : Value.InMemory (.map [(2, .uint 7), (1, .uint 500)]) := by
    rw [Value.inMemory_map]
    simp [hleaf]
  have hkeys : Value.KeysDistinct (.map [(2, .uint 7), (1, .uint 500)]) := by
    rw [Value.keysDistinct_map]
    simp [hleaf]
  have hencode : encode (.map [(2, .uint 7), (1, .uint 500)]) =
      .ok [162, 1, 25, 1, 244, 2, 7] := by decide
  obtain ⟨b, hb, hdecode⟩ := decode_encode_canonical.2.1 _ hmemory (by decide) hkeys
  rw [hencode] at hb
  cases hb
  refine ⟨hencode, hdecode, decode_encode_canonical.1 _ _ hdecode, ?_⟩
  exact (decode_encode_canonical.2.2 _).mpr
    ⟨[(1, .uint 0), (1, .uint 0)], .item List.mem_cons_self (.refl _), by decide⟩

end Datboi.Cbor
