import Datboi.Core.CborCanonical
import Datboi.Core.Decoding
import Datboi.Xf.Cso
import Datboi.Xf.WiiCrypt

/-!
# The parameters of components

Recipes carry the parameters of an operation as bytes, and are addressed by them, so one value
ought to have one encoding. Each component reads its parameters by hand. The readers of the
fillers and of the partition cipher are strict: they accept exactly what the writers write. The
reader of the image compressor lets a key be left out, and the whole map.
-/

namespace Datboi

open Cbor (argBytes infoOf putHead)
open Cso (canonicalExtra)
open Wire (Cursor)

/-! ## Shortest integers -/

/-- The number of extra bytes that a head announces. -/
def headExtra (info : Nat) : Nat := if info ≤ 23 then 0 else 2 ^ (info - 24)

theorem argBytes_eq (n : UInt64) : argBytes n = Wire.toBe (canonicalExtra n.toNat) n.toNat := by
  unfold argBytes canonicalExtra
  repeat' split
  all_goals first | rfl | omega

theorem lt_canonicalExtra (n : UInt64) (hwide : 24 ≤ n.toNat) :
    n.toNat < 256 ^ canonicalExtra n.toNat := by
  have hn := n.toNat_lt
  unfold canonicalExtra
  repeat' split
  all_goals omega

theorem headExtra_infoOf (n : UInt64) : headExtra (infoOf n).toNat = canonicalExtra n.toNat := by
  rw [Cbor.toNat_infoOf]
  unfold headExtra canonicalExtra
  repeat' split
  all_goals first | rfl | omega

/-- A head that announces as many bytes as its value takes is the value's head. -/
theorem eq_infoOf {info : UInt8} {n : UInt64} (hinfo : info.toNat ≤ 27)
    (hextra : headExtra info.toNat = canonicalExtra n.toNat)
    (hsmall : info.toNat ≤ 23 → n.toNat = info.toNat) : info = infoOf n := by
  rw [← UInt8.toNat_inj, Cbor.toNat_infoOf]
  unfold headExtra at hextra
  by_cases hshort : info.toNat ≤ 23
  · have hvalue := hsmall hshort
    rw [if_pos (by omega), hvalue]
  · rw [if_neg hshort] at hextra
    unfold canonicalExtra at hextra
    obtain h | h | h | h : info.toNat = 24 ∨ info.toNat = 25 ∨ info.toNat = 26 ∨
        info.toNat = 27 := by omega
    all_goals
      rw [h] at hextra ⊢
      split_ifs at hextra ⊢ <;> omega

/-- What follows a head, read as the head announces, is the argument of a number exactly if the
head is the number's. -/
theorem shortest_iff {info : UInt8} {rest after : Bytes} {n : UInt64} :
    (info.toNat ≤ 27 ∧ headExtra info.toNat ≤ rest.length ∧
      headExtra info.toNat = canonicalExtra n.toNat ∧
      n.toNat = (if info.toNat ≤ 23 then info.toNat
        else Wire.ofBe (rest.take (headExtra info.toNat))) ∧
      after = rest.drop (headExtra info.toNat)) ↔
    info = infoOf n ∧ rest = argBytes n ++ after := by
  constructor
  · rintro ⟨hinfo, hlength, hextra, hvalue, rfl⟩
    refine ⟨eq_infoOf hinfo hextra fun hshort => by rw [hvalue, if_pos hshort], ?_⟩
    rw [argBytes_eq, ← hextra]
    by_cases hshort : info.toNat ≤ 23
    · rw [headExtra, if_pos hshort]
      rfl
    · rw [if_neg hshort] at hvalue
      have htake : (rest.take (headExtra info.toNat)).length = headExtra info.toNat :=
        List.length_take_of_le hlength
      have hbytes := Wire.toBe_ofBe (rest.take (headExtra info.toNat))
      rw [htake, ← hvalue] at hbytes
      rw [hbytes, List.take_append_drop]
  · rintro ⟨rfl, rfl⟩
    have hextra := headExtra_infoOf n
    have hlength : (argBytes n).length = canonicalExtra n.toNat := by
      rw [argBytes_eq, Wire.length_toBe]
    rw [hextra]
    refine ⟨?_, ?_, rfl, ?_, ?_⟩
    · rw [Cbor.toNat_infoOf]
      split_ifs <;> omega
    · rw [List.length_append, hlength]
      omega
    · rw [Cbor.toNat_infoOf]
      by_cases hshort : n.toNat < 24
      · rw [if_pos hshort, if_pos (by omega)]
      · rw [if_neg (by split_ifs <;> omega), List.take_left' hlength, argBytes_eq,
          Wire.ofBe_toBe (lt_canonicalExtra n (by omega))]
    · rw [List.drop_left' hlength]

/-- The number that a head and what follows it spell. -/
def headValue (info : Nat) (rest : Bytes) : Nat :=
  if info ≤ 23 then info else Wire.ofBe (rest.take (headExtra info))

theorem headValue_lt {info : Nat} (hinfo : info ≤ 27) (rest : Bytes) :
    headValue info rest < 2 ^ 64 := by
  unfold headValue headExtra
  split
  · omega
  · have hlt := Wire.ofBe_lt (rest.take (2 ^ (info - 24)))
    have hlength : (rest.take (2 ^ (info - 24))).length ≤ 8 := by
      have hpow : 2 ^ (info - 24) ≤ 2 ^ 3 := Nat.pow_le_pow_right (by decide) (by omega)
      rw [List.length_take]
      omega
    have hbound := Nat.pow_le_pow_right (show 0 < 256 by decide) hlength
    exact lt_of_lt_of_le hlt hbound

/-- A head in shortest form, as the readers check it. -/
theorem headValue_shortest {info : UInt8} {rest : Bytes} (hinfo : ¬ 27 < info.toNat)
    (hlength : ¬ rest.length < headExtra info.toNat)
    (hextra : ¬ headExtra info.toNat ≠ canonicalExtra (headValue info.toNat rest)) :
    info = infoOf (.ofNat (headValue info.toNat rest)) ∧
      rest = argBytes (.ofNat (headValue info.toNat rest)) ++ rest.drop (headExtra info.toNat) := by
  have hvalue : (UInt64.ofNat (headValue info.toNat rest)).toNat = headValue info.toNat rest := by
    rw [UInt64.toNat_ofNat', Nat.mod_eq_of_lt (headValue_lt (by omega) rest)]
  refine shortest_iff.mp ⟨by omega, by omega, ?_, ?_, rfl⟩
  · rw [hvalue]
    exact not_not.mp hextra
  · rw [hvalue]
    rfl

/-- The head and the argument of a number, as the readers see them. -/
theorem headValue_of_argBytes (n : UInt64) (after : Bytes) :
    ¬ 27 < (infoOf n).toNat ∧
      ¬ (argBytes n ++ after).length < headExtra (infoOf n).toNat ∧
      headValue (infoOf n).toNat (argBytes n ++ after) = n.toNat ∧
      headExtra (infoOf n).toNat = canonicalExtra n.toNat ∧
      (argBytes n ++ after).drop (headExtra (infoOf n).toNat) = after ∧
      headExtra (infoOf n).toNat = (argBytes n).length := by
  obtain ⟨hinfo, hlength, hextra, hvalue, hafter⟩ :=
    (@shortest_iff (infoOf n) _ after n).mpr ⟨rfl, rfl⟩
  refine ⟨by omega, by omega, hvalue.symm, hextra, hafter.symm, ?_⟩
  rw [hextra, argBytes_eq, Wire.length_toBe]

/-- An initial byte is a major type and additional information. -/
theorem initial_eq_iff {major first : UInt8} {n : UInt64} (hmajor : major.toNat < 8) :
    first = (major <<< 5) ||| infoOf n ↔ first >>> 5 = major ∧ first &&& 0x1F = infoOf n := by
  constructor
  · rintro rfl
    exact Cbor.shift_or_infoOf hmajor (Cbor.infoOf_lt n)
  · rintro ⟨hshift, hand⟩
    rw [← (Cbor.initial_parts first).2, hshift, hand]

/-! ## The strict readers -/

namespace Params

/-- One unsigned integer in canonical form. -/
def takeUint : Wire.Parser String UInt64 := fun cursor =>
  match cursor.rest with
  | [] => .error "params: truncated"
  | head :: rest =>
    if head >>> 5 ≠ 0 then .error "params: expected an unsigned integer"
    else
      let info := (head &&& 0x1F).toNat
      if 27 < info then .error "params: malformed integer head"
      else
        let extra := headExtra info
        if rest.length < extra then .error "params: truncated"
        else
          let value := headValue info rest
          if extra ≠ canonicalExtra value then .error "params: non-minimal integer encoding"
          else .ok (.ofNat value, ⟨cursor.pos + (1 + extra), rest.drop extra⟩)

variable {cursor next : Cursor}

theorem takeUint_eq_ok {n : UInt64} :
    takeUint cursor = .ok (n, next) ↔ cursor.Reads (putHead 0 n) next := by
  rw [Cbor.putHead_eq]
  unfold takeUint Cursor.Reads
  cases cursor.rest with
  | nil => simp
  | cons head rest =>
    rw [List.cons_append, List.cons.injEq, initial_eq_iff (by decide)]
    simp only
    constructor
    · intro hread
      split at hread
      · cases hread
      rename_i hmajor
      split at hread
      · cases hread
      rename_i hinfo
      split at hread
      · cases hread
      rename_i hlength
      split at hread
      · cases hread
      rename_i hextra
      obtain ⟨hhead, hrest⟩ := headValue_shortest hinfo hlength hextra
      cases hread
      refine ⟨⟨⟨not_not.mp hmajor, hhead⟩, hrest⟩, ?_⟩
      have hsize := (headValue_of_argBytes (.ofNat (headValue (head &&& 0x1F).toNat rest)) []).2.2.2.2.2
      rw [← hhead] at hsize
      rw [List.length_cons, ← hsize, Nat.add_comm 1]
    · rintro ⟨⟨⟨hmajor, hhead⟩, rfl⟩, hpos⟩
      obtain ⟨hinfo, hlength, hvalue, hextra, hafter, hsize⟩ := headValue_of_argBytes n next.rest
      rw [if_neg (not_not.mpr hmajor), hhead, if_neg hinfo, if_neg hlength]
      rw [List.length_cons, ← hsize, Nat.add_comm _ 1] at hpos
      rw [hvalue, if_neg (not_not.mpr hextra), hafter, ← hpos, UInt64.ofNat_toNat]

/-- The first byte of a map of a fixed number of entries. -/
def mapHead (head : UInt8) (wrong : String) : Wire.Parser String Unit := fun cursor =>
  match cursor.rest with
  | first :: rest => if first = head then .ok ((), ⟨cursor.pos + 1, rest⟩) else .error wrong
  | [] => .error wrong

theorem mapHead_eq_ok {head : UInt8} {wrong : String} {found : Unit} :
    mapHead head wrong cursor = .ok (found, next) ↔ cursor.Reads [head] next := by
  unfold mapHead Cursor.Reads
  cases cursor.rest with
  | nil => simp
  | cons first rest =>
    simp only [List.singleton_append, List.cons.injEq]
    constructor
    · intro hread
      split at hread
      · rename_i hfirst
        cases hread
        exact ⟨⟨hfirst, rfl⟩, rfl⟩
      · cases hread
    · rintro ⟨⟨rfl, rfl⟩, hpos⟩
      rw [if_pos rfl]
      rw [List.length_singleton] at hpos
      rw [← hpos]

/-- A key that must be this one. -/
def key (want : UInt64) (wrong : String) : Wire.Parser String Unit := do
  let k ← takeUint
  if k ≠ want then throw wrong

theorem key_eq_ok {want : UInt64} {wrong : String} {found : Unit} :
    key want wrong cursor = .ok (found, next) ↔ cursor.Reads (putHead 0 want) next := by
  rw [key, Wire.bind_eq_ok]
  constructor
  · rintro ⟨k, middle, hread, hrest⟩
    split at hrest
    · cases hrest
    · rename_i hkey
      obtain ⟨-, rfl⟩ := Wire.pure_eq_ok.mp hrest
      rw [← not_not.mp hkey]
      exact takeUint_eq_ok.mp hread
  · intro hreads
    refine ⟨want, next, takeUint_eq_ok.mpr hreads, ?_⟩
    rw [if_neg (not_not.mpr rfl)]
    rfl

/-- An unsigned integer, with what is wrong about it if anything is. -/
def uintChecked (check : UInt64 → Option String) : Wire.Parser String UInt64 := do
  let n ← takeUint
  match check n with
  | some wrong => throw wrong
  | none => pure n

theorem uintChecked_eq_ok {check : UInt64 → Option String} {n : UInt64} :
    uintChecked check cursor = .ok (n, next) ↔
      check n = none ∧ cursor.Reads (putHead 0 n) next := by
  rw [uintChecked, Wire.bind_eq_ok]
  constructor
  · rintro ⟨k, middle, hread, hrest⟩
    cases hcheck : check k with
    | some wrong =>
      rw [hcheck] at hrest
      cases hrest
    | none =>
      rw [hcheck] at hrest
      obtain ⟨rfl, rfl⟩ := Wire.pure_eq_ok.mp hrest
      exact ⟨hcheck, takeUint_eq_ok.mp hread⟩
  · rintro ⟨hcheck, hreads⟩
    refine ⟨n, next, takeUint_eq_ok.mpr hreads, ?_⟩
    rw [hcheck]
    rfl

/-- A byte string of exactly `want` bytes, under the short head of its length. -/
def takeBstr (want : Nat) (wrong : String) : Wire.Parser String (List.Vector UInt8 want) :=
  fun cursor =>
    match cursor.rest with
    | [] => .error "params: truncated"
    | head :: rest =>
      if head ≠ 0x40 ||| .ofNat want then .error wrong
      else if hlength : (rest.take want).length = want then
        .ok (⟨rest.take want, hlength⟩, ⟨cursor.pos + (1 + want), rest.drop want⟩)
      else .error "params: truncated"

theorem takeBstr_eq_ok {want : Nat} {wrong : String} {bytes : List.Vector UInt8 want} :
    takeBstr want wrong cursor = .ok (bytes, next) ↔
      cursor.Reads ((0x40 ||| .ofNat want) :: bytes.toList) next := by
  unfold takeBstr Cursor.Reads
  cases cursor.rest with
  | nil => simp
  | cons head rest =>
    rw [List.cons_append, List.cons.injEq]
    simp only
    constructor
    · intro hread
      split at hread
      · cases hread
      rename_i hhead
      split at hread
      · rename_i hlength
        cases hread
        refine ⟨⟨not_not.mp hhead, (List.take_append_drop want rest).symm⟩, ?_⟩
        rw [List.length_cons, List.Vector.toList_mk, hlength, Nat.add_comm 1]
      · cases hread
    · rintro ⟨⟨hhead, rfl⟩, hpos⟩
      have hlength := bytes.toList_length
      have htake : (bytes.toList ++ next.rest).take want = bytes.toList :=
        List.take_left' hlength
      rw [if_neg (not_not.mpr hhead), dif_pos (by rw [htake, hlength]), List.drop_left' hlength]
      rw [List.length_cons, hlength, Nat.add_comm want 1] at hpos
      rw [← hpos]
      congr 2
      exact Subtype.ext htake

/-- Run a reader over all of the bytes. -/
def whole {α : Type} (reader : Wire.Parser String α) (bytes : Bytes) : Except String α := do
  let (value, cursor) ← reader ⟨0, bytes⟩
  if cursor.rest ≠ [] then .error "params: trailing bytes" else .ok value

theorem whole_exact {α : Type} {reader : Wire.Parser String α} {domain : α → Prop}
    {encode : α → Bytes} (hexact : Wire.Exact reader domain encode) {bytes : Bytes} {value : α} :
    whole reader bytes = .ok value ↔ domain value ∧ bytes = encode value := by
  rw [whole, Decoding.bind_eq_ok]
  constructor
  · rintro ⟨⟨found, cursor⟩, hread, hrest⟩
    simp only at hrest
    split at hrest
    · cases hrest
    · rename_i hend
      cases hrest
      obtain ⟨hdomain, hreads⟩ := (hexact _ _ _).mp hread
      refine ⟨hdomain, ?_⟩
      rw [Cursor.Reads, not_not.mp hend, List.append_nil] at hreads
      exact hreads.1
  · rintro ⟨hdomain, rfl⟩
    refine ⟨(value, ⟨(encode value).length, []⟩), (hexact _ _ _).mpr ⟨hdomain, ?_⟩, ?_⟩
    · exact ⟨(List.append_nil _).symm, (Nat.zero_add _).symm⟩
    · rfl

end Params

open Params (key mapHead takeBstr takeUint uintChecked whole)

/-- At most this much, or what is wrong. -/
def atMost (bound : UInt64) (wrong : String) (n : UInt64) : Option String :=
  if n ≤ bound then none else some wrong

theorem atMost_eq_none {bound n : UInt64} {wrong : String} :
    atMost bound wrong n = none ↔ n.toNat ≤ bound.toNat := by
  rw [atMost, ← UInt64.le_iff_toNat_le]
  split_ifs with hle <;> simp [hle]

theorem toUInt64_toUInt32 {n : UInt64} (hn : n.toNat ≤ 0xFFFFFFFF) :
    n.toUInt32.toUInt64 = n := by
  rw [← UInt64.toNat_inj, UInt32.toNat_toUInt64, UInt64.toNat_toUInt32]
  omega

theorem toUInt64_toUInt8 {n : UInt64} (hn : n.toNat ≤ 0xFF) : n.toUInt8.toUInt64 = n := by
  rw [← UInt64.toNat_inj, UInt8.toNat_toUInt64, UInt64.toNat_toUInt8]
  omega

namespace Xgd1

/-- The seed of a filler stream and its length in sectors. -/
structure Params where
  seed : UInt32
  sectors : UInt64
  deriving DecidableEq, Repr

namespace Params

/-- The stream position is a 32-bit sector index. -/
def InRange (p : Params) : Prop := p.sectors.toNat < 2 ^ 32

def encode (p : Params) : Bytes :=
  [0xA2] ++ (putHead 0 1 ++ (putHead 0 p.seed.toUInt64 ++ (putHead 0 2 ++ putHead 0 p.sectors)))

def reader : Wire.Parser String Params := do
  mapHead 0xA2 "params must be a 2-entry map"
  key 1 "params: first key must be 1 (seed)"
  let seed ← uintChecked (atMost 0xFFFFFFFF "params: seed exceeds 32 bits")
  key 2 "params: second key must be 2 (sectors)"
  let sectors ← uintChecked
    (atMost 0xFFFFFFFF "params: sector count exceeds the 32-bit stream index")
  pure ⟨seed.toUInt32, sectors⟩

def decode (bytes : Bytes) : Except String Params := whole reader bytes

theorem reader_exact : Wire.Exact reader InRange encode := by
  intro cursor p next
  simp only [reader, encode, Wire.bind_eq_ok, Datboi.Params.mapHead_eq_ok,
    Datboi.Params.key_eq_ok, Datboi.Params.uintChecked_eq_ok, atMost_eq_none, Wire.pure_eq_ok,
    Cursor.reads_append]
  constructor
  · rintro ⟨_, m₁, h₁, _, m₂, h₂, seed, m₃, ⟨hseed, h₃⟩, _, m₄, h₄, sectors, m₅, ⟨hsectors, h₅⟩,
      rfl, rfl⟩
    refine ⟨Nat.lt_succ_of_le hsectors, m₁, h₁, m₂, h₂, m₃, ?_, m₄, h₄, h₅⟩
    rw [toUInt64_toUInt32 hseed]
    exact h₃
  · rintro ⟨hsectors, m₁, h₁, m₂, h₂, m₃, h₃, m₄, h₄, h₅⟩
    refine ⟨(), m₁, h₁, (), m₂, h₂, p.seed.toUInt64, m₃, ⟨?_, h₃⟩, (), m₄, h₄, p.sectors, next,
      ⟨Nat.le_of_lt_succ hsectors, h₅⟩, ?_, rfl⟩
    · rw [UInt32.toNat_toUInt64]
      exact Nat.le_of_lt_succ p.seed.toNat_lt
    · rw [UInt32.toUInt32_toUInt64]

theorem decode_eq_ok {bytes : Bytes} {p : Params} :
    decode bytes = .ok p ↔ p.InRange ∧ bytes = p.encode := Datboi.Params.whole_exact reader_exact

end Params

end Xgd1

namespace GcJunk

/-- The length of a sector of junk. -/
abbrev SECTOR_LEN : Nat := 0x8000

/-- A game's id, its disc number and the length of its junk. -/
structure Params where
  id : List.Vector UInt8 4
  disc : UInt8
  len : UInt64
  deriving DecidableEq

/-- The longest stream that a 32-bit sector index addresses. -/
def maxLen : UInt64 := 0x800000000000

namespace Params

def InRange (p : Params) : Prop := p.len.toNat ≤ 2 ^ 32 * SECTOR_LEN

def encode (p : Params) : Bytes :=
  [0xA3] ++ (putHead 0 1 ++ (putHead 0 (.ofNat (Wire.ofBe p.id.toList)) ++ (putHead 0 2 ++
    (putHead 0 p.disc.toUInt64 ++ (putHead 0 3 ++ putHead 0 p.len)))))

def reader : Wire.Parser String Params := do
  mapHead 0xA3 "params must be a 3-entry map"
  key 1 "params: first key must be 1 (id)"
  let id ← uintChecked (atMost 0xFFFFFFFF "params: id exceeds 32 bits")
  key 2 "params: second key must be 2 (disc)"
  let disc ← uintChecked (atMost 0xFF "params: disc exceeds 8 bits")
  key 3 "params: third key must be 3 (len)"
  let len ← uintChecked (atMost maxLen "params: length exceeds the 32-bit sector index")
  pure ⟨⟨Wire.toBe 4 id.toNat, Wire.length_toBe _ _⟩, disc.toUInt8, len⟩

def decode (bytes : Bytes) : Except String Params := whole reader bytes

theorem reader_exact : Wire.Exact reader InRange encode := by
  intro cursor p next
  simp only [reader, encode, Wire.bind_eq_ok, Datboi.Params.mapHead_eq_ok,
    Datboi.Params.key_eq_ok, Datboi.Params.uintChecked_eq_ok, atMost_eq_none, Wire.pure_eq_ok,
    Cursor.reads_append]
  constructor
  · rintro ⟨_, m₁, h₁, _, m₂, h₂, id, m₃, ⟨hid, h₃⟩, _, m₄, h₄, disc, m₅, ⟨hdisc, h₅⟩, _, m₆, h₆,
      len, m₇, ⟨hlen, h₇⟩, rfl, rfl⟩
    refine ⟨hlen, m₁, h₁, m₂, h₂, m₃, ?_, m₄, h₄, m₅, ?_, m₆, h₆, h₇⟩
    · rw [List.Vector.toList_mk, Wire.ofBe_toBe (Nat.lt_succ_of_le hid), UInt64.ofNat_toNat]
      exact h₃
    · rw [toUInt64_toUInt8 hdisc]
      exact h₅
  · rintro ⟨hlen, m₁, h₁, m₂, h₂, m₃, h₃, m₄, h₄, m₅, h₅, m₆, h₆, h₇⟩
    have hwidth := p.id.toList_length
    have hid := Wire.ofBe_lt p.id.toList
    rw [hwidth] at hid
    have hword : (UInt64.ofNat (Wire.ofBe p.id.toList)).toNat = Wire.ofBe p.id.toList := by
      rw [UInt64.toNat_ofNat', Nat.mod_eq_of_lt (by omega)]
    refine ⟨(), m₁, h₁, (), m₂, h₂, _, m₃, ⟨?_, h₃⟩, (), m₄, h₄, p.disc.toUInt64, m₅, ⟨?_, h₅⟩,
      (), m₆, h₆, p.len, next, ⟨hlen, h₇⟩, ?_, rfl⟩
    · rw [hword]
      exact Nat.le_of_lt_succ hid
    · rw [UInt8.toNat_toUInt64]
      exact Nat.le_of_lt_succ p.disc.toNat_lt
    · have hbytes := Wire.toBe_ofBe p.id.toList
      rw [hwidth] at hbytes
      simp only [hword, hbytes, UInt8.toUInt8_toUInt64]
      rfl

theorem decode_eq_ok {bytes : Bytes} {p : Params} :
    decode bytes = .ok p ↔ p.InRange ∧ bytes = p.encode := Datboi.Params.whole_exact reader_exact

end Params

end GcJunk

namespace WiiCrypt.Params

def InRange (p : Params) : Prop := 0 < p.sectors ∧ p.sectors < 2 ^ 32

def encode (p : Params) : Bytes :=
  [0xA3] ++ (putHead 0 1 ++ ((0x50 :: p.wrappedTitleKey.toList) ++ (putHead 0 2 ++
    ((0x48 :: p.titleId.toList) ++ (putHead 0 3 ++ putHead 0 (.ofNat p.sectors))))))

/-- What is wrong with a sector count. -/
def checkSectors (sectors : UInt64) : Option String :=
  if sectors = 0 then some "params: a partition has at least one sector"
  else atMost 0xFFFFFFFF "params: sector count exceeds the 32-bit index" sectors

def reader : Wire.Parser String Params := do
  mapHead 0xA3 "params must be a 3-entry map"
  key 1 "params: first key must be 1 (title key)"
  let titleKey ← takeBstr 16 "params: title key must be 16 bytes"
  key 2 "params: second key must be 2 (title id)"
  let titleId ← takeBstr 8 "params: title id must be 8 bytes"
  key 3 "params: third key must be 3 (sectors)"
  let sectors ← uintChecked checkSectors
  pure ⟨titleKey, titleId, sectors.toNat⟩

def decode (bytes : Bytes) : Except String Params := whole reader bytes

theorem checkSectors_eq_none {sectors : UInt64} :
    checkSectors sectors = none ↔ 0 < sectors.toNat ∧ sectors.toNat < 2 ^ 32 := by
  rw [checkSectors]
  split_ifs with hzero
  · simp [hzero]
  · rw [← UInt64.toNat_inj, UInt64.toNat_zero] at hzero
    rw [atMost_eq_none]
    exact ⟨fun hle => ⟨by omega, Nat.lt_succ_of_le hle⟩, fun hboth => Nat.le_of_lt_succ hboth.2⟩

theorem reader_exact : Wire.Exact reader InRange encode := by
  intro cursor p next
  simp only [reader, encode, Wire.bind_eq_ok, Datboi.Params.mapHead_eq_ok,
    Datboi.Params.key_eq_ok, Datboi.Params.uintChecked_eq_ok, Datboi.Params.takeBstr_eq_ok,
    checkSectors_eq_none, Wire.pure_eq_ok, Cursor.reads_append]
  constructor
  · rintro ⟨_, m₁, h₁, _, m₂, h₂, titleKey, m₃, h₃, _, m₄, h₄, titleId, m₅, h₅, _, m₆, h₆,
      sectors, m₇, ⟨hsectors, h₇⟩, rfl, rfl⟩
    refine ⟨hsectors, m₁, h₁, m₂, h₂, m₃, h₃, m₄, h₄, m₅, h₅, m₆, h₆, ?_⟩
    rw [UInt64.ofNat_toNat]
    exact h₇
  · rintro ⟨hsectors, m₁, h₁, m₂, h₂, m₃, h₃, m₄, h₄, m₅, h₅, m₆, h₆, h₇⟩
    have hbound := hsectors.2
    have hword : (UInt64.ofNat p.sectors).toNat = p.sectors := by
      rw [UInt64.toNat_ofNat', Nat.mod_eq_of_lt (by omega)]
    refine ⟨(), m₁, h₁, (), m₂, h₂, p.wrappedTitleKey, m₃, h₃, (), m₄, h₄, p.titleId, m₅, h₅,
      (), m₆, h₆, _, next, ⟨?_, h₇⟩, ?_, rfl⟩
    · rw [hword]
      exact hsectors
    · rw [hword]

theorem decode_eq_ok {bytes : Bytes} {p : Params} :
    decode bytes = .ok p ↔ p.InRange ∧ bytes = p.encode := Datboi.Params.whole_exact reader_exact

end WiiCrypt.Params

end Datboi
