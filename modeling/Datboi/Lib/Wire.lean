import Mathlib.Algebra.GroupWithZero.Nat
import Mathlib.Data.List.Induction

/-!
# Parsers that accept exactly the encodings

A cursor is what is left of an input together with the position reached. A parser is
`Exact` for an encoding when it accepts an encoded value followed by anything, stops right
after it, and accepts nothing else; a format is canonical when its parser is exact. Fixed-width
numbers come in either byte order.
-/

namespace Wire

/-- The rest of an input, and how much of it was read. -/
structure Cursor where
  pos : Nat
  rest : List UInt8
  deriving DecidableEq, Repr

/-- `next` is `cursor` after reading `bytes`. -/
def Cursor.Reads (cursor : Cursor) (bytes : List UInt8) (next : Cursor) : Prop :=
  cursor.rest = bytes ++ next.rest ∧ next.pos = cursor.pos + bytes.length

namespace Cursor

theorem reads_nil {cursor next : Cursor} : cursor.Reads [] next ↔ next = cursor := by
  cases cursor
  cases next
  simp only [Reads, List.nil_append, List.length_nil, Nat.add_zero, mk.injEq]
  constructor
  · rintro ⟨rfl, rfl⟩
    exact ⟨rfl, rfl⟩
  · rintro ⟨rfl, rfl⟩
    exact ⟨rfl, rfl⟩

theorem reads_append {cursor next : Cursor} {first second : List UInt8} :
    cursor.Reads (first ++ second) next ↔
      ∃ middle, cursor.Reads first middle ∧ middle.Reads second next := by
  constructor
  · rintro ⟨hrest, hpos⟩
    refine ⟨⟨cursor.pos + first.length, second ++ next.rest⟩, ⟨?_, rfl⟩, rfl, ?_⟩
    · rw [hrest, List.append_assoc]
    · rw [hpos, List.length_append, Nat.add_assoc]
  · rintro ⟨middle, ⟨hfirst, hmiddle⟩, hsecond, hnext⟩
    refine ⟨?_, ?_⟩
    · rw [hfirst, hsecond, List.append_assoc]
    · rw [hnext, hmiddle, List.length_append, Nat.add_assoc]

theorem Reads.length_le {cursor next : Cursor} {bytes : List UInt8}
    (hreads : cursor.Reads bytes next) : bytes.length ≤ cursor.rest.length := by
  rw [hreads.1, List.length_append]
  omega

end Cursor

abbrev Parser (ε : Type) := StateT Cursor (Except ε)

variable {ε α β : Type}

variable {cursor next : Cursor} {width : Nat}

theorem pure_eq_ok {a b : α} :
    (pure a : Parser ε α) cursor = .ok (b, next) ↔ b = a ∧ next = cursor := by
  change (Except.ok (a, cursor) : Except ε (α × Cursor)) = .ok (b, next) ↔ _
  rw [Except.ok.injEq, Prod.mk.injEq, eq_comm, and_congr_right_iff]
  exact fun _ => eq_comm

theorem throw_ne_ok {e : ε} {a : α} : (throw e : Parser ε α) cursor ≠ .ok (a, next) := nofun

theorem bind_eq_ok {p : Parser ε α} {f : α → Parser ε β} {b : β} :
    (p >>= f) cursor = .ok (b, next) ↔
      ∃ a middle, p cursor = .ok (a, middle) ∧ f a middle = .ok (b, next) := by
  change (p cursor >>= fun r => f r.1 r.2) = .ok (b, next) ↔ _
  cases p cursor with
  | error e => simp [Bind.bind, Except.bind]
  | ok r =>
    obtain ⟨a, middle⟩ := r
    simp [Bind.bind, Except.bind]

/-- The parser accepts the encodings of the values in `domain`, and nothing else. -/
def Exact (p : Parser ε α) (domain : α → Prop) (encode : α → List UInt8) : Prop :=
  ∀ cursor a next, p cursor = .ok (a, next) ↔ domain a ∧ cursor.Reads (encode a) next

/-- Read `count` values in a row. -/
def times (p : Parser ε α) : Nat → Parser ε (List α)
  | 0 => pure []
  | count + 1 => do
      let a ← p
      let rest ← times p count
      pure (a :: rest)

theorem Exact.times {p : Parser ε α} {domain : α → Prop} {encode : α → List UInt8}
    (hp : Exact p domain encode) (count : Nat) :
    Exact (times p count) (fun as => as.length = count ∧ ∀ a ∈ as, domain a)
      (fun as => as.flatMap encode) := by
  induction count with
  | zero =>
    intro cursor as next
    rw [Wire.times, pure_eq_ok]
    constructor
    · rintro ⟨rfl, rfl⟩
      exact ⟨⟨rfl, by simp⟩, Cursor.reads_nil.mpr rfl⟩
    · rintro ⟨⟨hlength, _⟩, hreads⟩
      rw [List.length_eq_zero_iff] at hlength
      subst hlength
      exact ⟨rfl, Cursor.reads_nil.mp hreads⟩
  | succ count ih =>
    intro cursor as next
    simp only [Wire.times, bind_eq_ok, pure_eq_ok, hp cursor]
    constructor
    · rintro ⟨a, middle, ⟨ha, hfirst⟩, rest, last, hrest, rfl, rfl⟩
      obtain ⟨⟨hlength, hall⟩, hsecond⟩ := (ih middle rest next).mp hrest
      refine ⟨⟨by rw [List.length_cons, hlength], ?_⟩, ?_⟩
      · intro b hb
        rcases List.mem_cons.mp hb with rfl | hb
        · exact ha
        · exact hall b hb
      · rw [List.flatMap_cons]
        exact Cursor.reads_append.mpr ⟨middle, hfirst, hsecond⟩
    · rintro ⟨⟨hlength, hall⟩, hreads⟩
      obtain ⟨a, rest, rfl⟩ := List.exists_cons_of_length_eq_add_one hlength
      rw [List.flatMap_cons] at hreads
      obtain ⟨middle, hfirst, hsecond⟩ := Cursor.reads_append.mp hreads
      refine ⟨a, middle, ⟨hall a List.mem_cons_self, hfirst⟩, rest, next, ?_, rfl, rfl⟩
      exact (ih middle rest next).mpr ⟨⟨by simpa using hlength,
        fun b hb => hall b (List.mem_cons_of_mem _ hb)⟩, hsecond⟩

/-! ## Big-endian numbers -/

/-- The number that a big-endian byte string spells. -/
def ofBe (bytes : List UInt8) : Nat := bytes.foldl (fun n byte => n * 256 + byte.toNat) 0

/-- The low `width` bytes of a number, most significant first. -/
def toBe : Nat → Nat → List UInt8
  | 0, _ => []
  | width + 1, n => toBe width (n / 256) ++ [UInt8.ofNat (n % 256)]

theorem ofBe_append_singleton (bytes : List UInt8) (byte : UInt8) :
    ofBe (bytes ++ [byte]) = ofBe bytes * 256 + byte.toNat := by
  simp [ofBe, List.foldl_append]

@[simp] theorem length_toBe (width n : Nat) : (toBe width n).length = width := by
  induction width generalizing n with
  | zero => rfl
  | succ width ih => simp [toBe, ih]

theorem ofBe_toBe {n : Nat} (hn : n < 256 ^ width) : ofBe (toBe width n) = n := by
  induction width generalizing n with
  | zero =>
    rw [Nat.pow_zero, Nat.lt_one_iff] at hn
    simp [toBe, ofBe, hn]
  | succ width ih =>
    have hdiv : n / 256 < 256 ^ width := by
      rw [Nat.div_lt_iff_lt_mul (by decide)]
      rwa [Nat.pow_succ] at hn
    have hbyte : (UInt8.ofNat (n % 256)).toNat = n % 256 := by
      rw [UInt8.toNat_ofNat']
      omega
    rw [toBe, ofBe_append_singleton, ih hdiv, hbyte]
    omega

theorem ofBe_lt (bytes : List UInt8) : ofBe bytes < 256 ^ bytes.length := by
  induction bytes using List.reverseRecOn with
  | nil => simp [ofBe]
  | append_singleton bytes byte ih =>
    have hbyte := byte.toNat_lt
    rw [ofBe_append_singleton, List.length_append, List.length_singleton, Nat.pow_succ]
    omega

theorem toBe_ofBe (bytes : List UInt8) : toBe bytes.length (ofBe bytes) = bytes := by
  induction bytes using List.reverseRecOn with
  | nil => rfl
  | append_singleton bytes byte ih =>
    have hbyte := byte.toNat_lt
    rw [ofBe_append_singleton, List.length_append, List.length_singleton, toBe]
    congr 1
    · rw [show (ofBe bytes * 256 + byte.toNat) / 256 = ofBe bytes by omega, ih]
    · rw [show (ofBe bytes * 256 + byte.toNat) % 256 = byte.toNat by omega, UInt8.ofNat_toNat]

/-! ## Little-endian numbers -/

/-- The number that a little-endian byte string spells. -/
def ofLe (bytes : List UInt8) : Nat := ofBe bytes.reverse

/-- The low `width` bytes of a number, least significant first. -/
def toLe (width n : Nat) : List UInt8 := (toBe width n).reverse

@[simp] theorem length_toLe (width n : Nat) : (toLe width n).length = width := by
  rw [toLe, List.length_reverse, length_toBe]

theorem ofLe_toLe {n : Nat} (hn : n < 256 ^ width) : ofLe (toLe width n) = n := by
  rw [ofLe, toLe, List.reverse_reverse, ofBe_toBe hn]

theorem toLe_ofLe {bytes : List UInt8} (hwidth : bytes.length = width) :
    toLe width (ofLe bytes) = bytes := by
  rw [ofLe, toLe, ← hwidth, ← List.length_reverse, toBe_ofBe, List.reverse_reverse]

end Wire
