import Datboi.Lib.CommonPrefix
import Datboi.Xf.Params
import Mathlib.Logic.Function.Iterate

/-!
# Mastering junk

The unused space of a disc is filled by a lagged Fibonacci generator that is reseeded at every
sector from the game's id, the disc number and the index of the sector. So a byte of junk is a
function of its position, however the generator was left by what it was used for before.
-/

namespace Datboi.GcJunk

open CommonPrefix (commonPrefix commonPrefix_append commonPrefix_isGreatest)
open Guest (Program)
open Reader (slice)
open Xf (collect)

abbrev LFG_K : Nat := 521

abbrev LFG_J : Nat := 32

abbrev SEED_WORDS : Nat := 17

abbrev LFG_K_BYTES : Nat := LFG_K * 4

/-! ## The state -/

abbrev Buffer := Vector UInt32 LFG_K

namespace Buffer

def word (buffer : Buffer) (i : Nat) : UInt32 := buffer[i]?.getD 0

def setWord (buffer : Buffer) (i : Nat) (x : UInt32) : Buffer := buffer.setIfInBounds i x

theorem word_setWord (buffer : Buffer) (i j : Nat) (x : UInt32) (hi : i < LFG_K) :
    (buffer.setWord i x).word j = if i = j then x else buffer.word j := by
  rw [word, setWord, Vector.getElem?_setIfInBounds]
  split_ifs with heq
  · rfl
  · rfl

theorem ext_word {a b : Buffer} (heq : ∀ i < LFG_K, a.word i = b.word i) : a = b := by
  refine Vector.ext fun i hi => ?_
  have hword := heq i hi
  rwa [word, word, Vector.getElem?_eq_getElem hi, Vector.getElem?_eq_getElem hi, Option.getD_some,
    Option.getD_some] at hword

/-- One generation of the state. -/
def forward (buffer : Buffer) : Buffer :=
  let first := (List.range LFG_J).foldl (fun b i =>
    b.setWord i (b.word i ^^^ b.word (i + LFG_K - LFG_J))) buffer
  (List.range' LFG_J (LFG_K - LFG_J)).foldl (fun b i =>
    b.setWord i (b.word i ^^^ b.word (i - LFG_J))) first

/-- The words after the seed, each out of three before it. -/
def expand (buffer : Buffer) : Buffer :=
  (List.range' SEED_WORDS (LFG_K - SEED_WORDS)).foldl (fun b i =>
    b.setWord i ((b.word (i - SEED_WORDS) <<< 23) ^^^ (b.word (i - SEED_WORDS + 1) >>> 9) ^^^
      b.word (i - 1))) buffer

/-- `x.to_be()`, on a machine whose bytes are the other way round. -/
def toBe (x : UInt32) : UInt32 := .ofNat (Wire.ofBe (Wire.toLe 4 x.toNat))

/-- The shift and the byte order of the output, folded into the state. -/
def folded (x : UInt32) : UInt32 :=
  let low : UInt32 := x &&& 0xFF00FFFF
  let shifted : UInt32 := (x >>> 2) &&& 0x00FF0000
  toBe (low ||| shifted)

def init (buffer : Buffer) : Buffer := forward^[4] (buffer.expand.map folded)

/-- `buffer[..SEED_WORDS].copy_from_slice(&seed)` -/
def copySeed (buffer : Buffer) (seed : List UInt32) : Buffer :=
  (List.range SEED_WORDS).foldl (fun b i => b.setWord i (seed.getD i 0)) buffer

end Buffer

/-- The generator, at a byte position in its buffer. -/
structure Lfg where
  buffer : Buffer
  position : Nat

/-- `Lfg::default()` -/
def Lfg.blank : Lfg := ⟨.replicate LFG_K 0, 0⟩

/-! ## Seeds -/

/-- One word of the seed: a bit for each round. -/
def seedWord : Nat → UInt32 → UInt32 → UInt32 × UInt32
  | 0, v, n => (v, n)
  | rounds + 1, v, n =>
    let n := n * 0x5D588B65 + 1
    seedWord rounds ((v >>> 1) ||| (n &&& 0x80000000)) n

def seedWords : Nat → UInt32 → List UInt32
  | 0, _ => []
  | words + 1, n =>
    let (v, n) := seedWord LFG_J 0 n
    v :: seedWords words n

/-- The seed of a sector of a disc. -/
def seed (id : List.Vector UInt8 4) (disc : UInt8) (sector : UInt32) : List UInt32 :=
  let bytes := [id.get 2, id.get 1, id.get 3 + id.get 2, id.get 0 + id.get 1]
  let seed := UInt32.ofNat (Wire.ofBe bytes) ^^^ disc.toUInt32
  let out := seedWords SEED_WORDS ((seed * 0x260BCD5) ^^^ (sector * 0x1EF29123))
  let last := out.getD 16 0
  out.set 16 (last ^^^ ((out.getD 0 0 >>> 9) ^^^ (last <<< 23)))

namespace Lfg

/-! ## Positions -/

/-- Generations until the position lies in the buffer. -/
def settleLoop : Nat → Lfg → Lfg
  | 0, g => g
  | rounds + 1, g =>
    if LFG_K_BYTES ≤ g.position then
      settleLoop rounds ⟨g.buffer.forward, g.position - LFG_K_BYTES⟩
    else g

def settle (g : Lfg) : Lfg := settleLoop (g.position / LFG_K_BYTES) g

def skip (g : Lfg) (n : Nat) : Lfg := settle { g with position := g.position + n }

/-- Seed for the sector that an offset lies in, and skip to it; `none` is the panic of an offset
beyond 32-bit sectors. -/
def seek (g : Lfg) (id : List.Vector UInt8 4) (disc : UInt8) (offset : Nat) : Option Lfg :=
  if 2 ^ 32 ≤ offset / SECTOR_LEN then none
  else
    let buffer := g.buffer.copySeed (seed id disc (.ofNat (offset / SECTOR_LEN)))
    some (skip ⟨buffer.init, 0⟩ (offset % SECTOR_LEN))

/-- Every round emits what is left of a word. -/
def fillLoop : Nat → Lfg → Nat → Bytes × Lfg
  | 0, g, _ => ([], g)
  | rounds + 1, g, len =>
    if len = 0 then ([], g)
    else
      let g := g.settle
      let byte := g.position % 4
      let bytes := Wire.toLe 4 (g.buffer.word (g.position / 4)).toNat
      let n := min (4 - byte) len
      let rest := fillLoop rounds { g with position := g.position + n } (len - n)
      (slice bytes byte n ++ rest.1, rest.2)

/-- Emit so many bytes of one sector. -/
def fill (g : Lfg) (len : Nat) : Bytes × Lfg := fillLoop len g len

end Lfg

variable (id : List.Vector UInt8 4) (disc : UInt8)

def fillAtLoop : Nat → Lfg → Nat → Nat → Option (Bytes × Lfg)
  | 0, g, _, _ => some ([], g)
  | rounds + 1, g, offset, len =>
    if len = 0 then some ([], g)
    else do
      let g ← g.seek id disc offset
      let n := min (SECTOR_LEN - offset % SECTOR_LEN) len
      let filled := g.fill n
      let rest ← fillAtLoop rounds filled.2 (offset + n) (len - n)
      some (filled.1 ++ rest.1, rest.2)

/-- The junk of a disc from an offset on, reseeding at every sector. -/
def fillAt (g : Lfg) (offset len : Nat) : Option (Bytes × Lfg) := fillAtLoop id disc len g offset len

def matchingPrefixLoop : Nat → Lfg → Nat → Bytes → Option Nat
  | 0, _, _, _ => some 0
  | rounds + 1, g, offset, buf =>
    if buf = [] then some 0
    else do
      let g ← g.seek id disc offset
      let n := min (SECTOR_LEN - offset % SECTOR_LEN) buf.length
      let filled := g.fill n
      let run := commonPrefix (buf.take n) filled.1
      if run ≠ n then some run
      else do
        let rest ← matchingPrefixLoop rounds filled.2 (offset + n) (buf.drop n)
        some (run + rest)

/-- How many leading bytes of `buf`, which lies at an offset, are the disc's junk. -/
def matchingPrefix (g : Lfg) (offset : Nat) (buf : Bytes) : Option Nat :=
  matchingPrefixLoop id disc buf.length g offset buf

/-! ## Bytes by position -/

/-- Whole items of a list, read one by one. -/
theorem slice_eq_map_getD {items : Bytes} {o n : Nat} (hin : o + n ≤ items.length) :
    slice items o n = (List.range n).map fun i => items.getD (o + i) 0 := by
  refine List.ext_getElem ?_ fun i hleft hright => ?_
  · rw [Reader.length_slice, List.length_map, List.length_range]
    omega
  · rw [List.length_map, List.length_range] at hright
    have hi : o + i < items.length := by omega
    simp [slice, List.getD_eq_getElem?_getD, List.getElem?_eq_getElem hi]

namespace Lfg

/-- The byte so many positions on. -/
def byteAt (g : Lfg) (k : Nat) : UInt8 :=
  let x := g.position + k
  (Wire.toLe 4 ((Buffer.forward^[x / LFG_K_BYTES] g.buffer).word
    (x % LFG_K_BYTES / 4)).toNat).getD (x % 4) 0

/-- A generation moves the positions, not the bytes. -/
theorem byteAt_forward {g : Lfg} (hfull : LFG_K_BYTES ≤ g.position) :
    byteAt ⟨g.buffer.forward, g.position - LFG_K_BYTES⟩ = byteAt g := by
  funext k
  have hdiv : (g.position + k) / LFG_K_BYTES =
      (g.position - LFG_K_BYTES + k) / LFG_K_BYTES + 1 := by
    simp only [LFG_K_BYTES, LFG_K] at hfull ⊢
    omega
  have hmod : (g.position + k) % LFG_K_BYTES = (g.position - LFG_K_BYTES + k) % LFG_K_BYTES := by
    simp only [LFG_K_BYTES, LFG_K] at hfull ⊢
    omega
  have hbyte : (g.position + k) % 4 = (g.position - LFG_K_BYTES + k) % 4 := by
    simp only [LFG_K_BYTES, LFG_K] at hfull ⊢
    omega
  simp only [byteAt, hdiv, hmod, hbyte, Function.iterate_succ_apply]

theorem byteAt_settleLoop (rounds : Nat) (g : Lfg) : byteAt (settleLoop rounds g) = byteAt g := by
  induction rounds generalizing g with
  | zero => rfl
  | succ rounds ih =>
    rw [settleLoop]
    split_ifs with hfull
    · rw [ih, byteAt_forward hfull]
    · rfl

@[simp] theorem byteAt_settle (g : Lfg) : byteAt g.settle = byteAt g := byteAt_settleLoop _ g

theorem position_settleLoop {rounds : Nat} {g : Lfg} (hrounds : g.position / LFG_K_BYTES = rounds) :
    (settleLoop rounds g).position < LFG_K_BYTES := by
  induction rounds generalizing g with
  | zero => exact (Nat.div_eq_zero_iff_lt (by decide)).mp hrounds
  | succ rounds ih =>
    have hfull : LFG_K_BYTES ≤ g.position := by
      simp only [LFG_K_BYTES, LFG_K] at hrounds ⊢
      omega
    rw [settleLoop, if_pos hfull]
    refine ih ?_
    simp only [LFG_K_BYTES, LFG_K] at hrounds ⊢
    omega

theorem position_settle (g : Lfg) : g.settle.position < LFG_K_BYTES := position_settleLoop rfl

theorem byteAt_move (g : Lfg) (n : Nat) :
    byteAt { g with position := g.position + n } = fun k => byteAt g (n + k) := by
  funext k
  simp only [byteAt, Nat.add_assoc]

theorem byteAt_skip (g : Lfg) (n : Nat) : byteAt (g.skip n) = fun k => byteAt g (n + k) := by
  rw [skip, byteAt_settle, byteAt_move]

/-- What is left of a word in a settled state. -/
theorem slice_word {g : Lfg} (hposition : g.position < LFG_K_BYTES) {n : Nat}
    (hn : n ≤ 4 - g.position % 4) :
    slice (Wire.toLe 4 (g.buffer.word (g.position / 4)).toNat) (g.position % 4) n =
      (List.range n).map g.byteAt := by
  have hin : g.position % 4 + n ≤ 4 := by omega
  rw [slice_eq_map_getD (by rw [Wire.length_toLe]; exact hin)]
  refine List.map_congr_left fun i hi => ?_
  rw [List.mem_range] at hi
  have hgeneration : (g.position + i) / LFG_K_BYTES = 0 := by
    simp only [LFG_K_BYTES, LFG_K] at hposition ⊢
    omega
  have hword : (g.position + i) % LFG_K_BYTES / 4 = g.position / 4 := by
    simp only [LFG_K_BYTES, LFG_K] at hposition ⊢
    omega
  have hbyte : (g.position + i) % 4 = g.position % 4 + i := by omega
  simp only [byteAt, hgeneration, hword, hbyte, Function.iterate_zero, id_eq]

theorem fillLoop_eq {rounds len : Nat} (hlen : len ≤ rounds) (g : Lfg) :
    (fillLoop rounds g len).1 = (List.range len).map g.byteAt := by
  induction rounds generalizing g len with
  | zero =>
    obtain rfl : len = 0 := by omega
    rfl
  | succ rounds ih =>
    rw [fillLoop]
    split_ifs with hzero
    · rw [hzero]
      rfl
    · simp only
      obtain ⟨rest, hrest⟩ :=
        Nat.exists_eq_add_of_le (Nat.min_le_right (4 - g.settle.position % 4) len)
      have hleft : len - min (4 - g.settle.position % 4) len = rest := by omega
      have hpiece := slice_word (position_settle g)
        (Nat.min_le_left (4 - g.settle.position % 4) len)
      rw [hleft, ih (by omega), hpiece, byteAt_move, byteAt_settle]
      -- The rest is emitted from behind the piece.
      generalize min (4 - g.settle.position % 4) len = n at hrest
      rw [hrest, List.range_add, List.map_append, List.map_map]
      rfl

theorem fill_eq (g : Lfg) (len : Nat) : (g.fill len).1 = (List.range len).map g.byteAt :=
  fillLoop_eq (Nat.le_refl len) g

end Lfg

/-! ## Seeding forgets -/

namespace Buffer

/-- The same words below an index. -/
def AgreeBelow (m : Nat) (a b : Buffer) : Prop := ∀ i < m, a.word i = b.word i

theorem AgreeBelow.setWord {m : Nat} {a b : Buffer} (hagree : AgreeBelow m a b)
    (hm : m < LFG_K) {x y : UInt32} (hxy : x = y) :
    AgreeBelow (m + 1) (a.setWord m x) (b.setWord m y) := by
  intro i hi
  rw [word_setWord _ _ _ _ hm, word_setWord _ _ _ _ hm, hxy]
  split_ifs with heq
  · rfl
  · exact hagree i (by omega)

theorem copySeed_agree (a b : Buffer) (seed : List UInt32) :
    AgreeBelow SEED_WORDS (a.copySeed seed) (b.copySeed seed) := by
  have hfront : ∀ n ≤ SEED_WORDS,
      AgreeBelow n ((List.range n).foldl (fun b i => b.setWord i (seed.getD i 0)) a)
        ((List.range n).foldl (fun b i => b.setWord i (seed.getD i 0)) b) := by
    intro n hn
    induction n with
    | zero => exact fun i hi => absurd hi (Nat.not_lt_zero i)
    | succ n ih =>
      rw [List.range_succ, List.foldl_concat, List.foldl_concat]
      refine (ih (by omega)).setWord ?_ rfl
      simp only [SEED_WORDS, LFG_K] at hn ⊢
      omega
  exact hfront SEED_WORDS (Nat.le_refl _)

/-- The words after the seed are made of the words before them. -/
theorem AgreeBelow.expand {a b : Buffer} (hagree : AgreeBelow SEED_WORDS a b) :
    a.expand = b.expand := by
  have hfront : ∀ n ≤ LFG_K - SEED_WORDS,
      AgreeBelow (SEED_WORDS + n)
        ((List.range' SEED_WORDS n).foldl (fun b i =>
          b.setWord i ((b.word (i - SEED_WORDS) <<< 23) ^^^
            (b.word (i - SEED_WORDS + 1) >>> 9) ^^^ b.word (i - 1))) a)
        ((List.range' SEED_WORDS n).foldl (fun b i =>
          b.setWord i ((b.word (i - SEED_WORDS) <<< 23) ^^^
            (b.word (i - SEED_WORDS + 1) >>> 9) ^^^ b.word (i - 1))) b) := by
    intro n hn
    induction n with
    | zero => exact hagree
    | succ n ih =>
      have hbefore := ih (by omega)
      rw [List.range'_1_concat, List.foldl_concat, List.foldl_concat]
      refine hbefore.setWord ?_ ?_
      · simp only [SEED_WORDS, LFG_K] at hn ⊢
        omega
      · simp only [SEED_WORDS] at hbefore ⊢
        rw [hbefore _ (by omega), hbefore _ (by omega), hbefore _ (by omega)]
  refine ext_word fun i hi => hfront (LFG_K - SEED_WORDS) (Nat.le_refl _) i ?_
  simp only [SEED_WORDS, LFG_K] at hi ⊢
  omega

/-- The state after seeding does not depend on the one before. -/
theorem init_copySeed (a b : Buffer) (seed : List UInt32) :
    (a.copySeed seed).init = (b.copySeed seed).init := by
  rw [init, init, (copySeed_agree a b seed).expand]

end Buffer

/-- The junk of a disc at an offset. -/
def junk (x : Nat) : UInt8 :=
  Lfg.byteAt ⟨(Lfg.blank.buffer.copySeed (seed id disc (.ofNat (x / SECTOR_LEN)))).init, 0⟩
    (x % SECTOR_LEN)

/-- The junk of so many offsets. -/
def junkAt (offset len : Nat) : Bytes := (List.range len).map fun i => junk id disc (offset + i)

@[simp] theorem length_junkAt (offset len : Nat) : (junkAt id disc offset len).length = len := by
  rw [junkAt, List.length_map, List.length_range]

theorem junkAt_add (offset a b : Nat) :
    junkAt id disc offset (a + b) = junkAt id disc offset a ++ junkAt id disc (offset + a) b := by
  rw [junkAt, List.range_add, List.map_append, List.map_map]
  simp only [junkAt, Function.comp_def, Nat.add_assoc]

variable {id disc}

/-- Inside its sector, a generator that was set to an offset emits the junk from there. -/
theorem seek_spec (g : Lfg) {offset n : Nat} (hfits : offset / SECTOR_LEN < 2 ^ 32)
    (hn : n ≤ SECTOR_LEN - offset % SECTOR_LEN) :
    ∃ after, g.seek id disc offset = some after ∧ (after.fill n).1 = junkAt id disc offset n := by
  refine ⟨_, if_neg (Nat.not_le_of_lt hfits), ?_⟩
  rw [Lfg.fill_eq, Lfg.byteAt_skip, Buffer.init_copySeed g.buffer Lfg.blank.buffer]
  refine List.map_congr_left fun i hi => ?_
  rw [List.mem_range] at hi
  have hsector : (offset + i) / SECTOR_LEN = offset / SECTOR_LEN := by
    simp only [SECTOR_LEN] at hn ⊢
    omega
  have hwithin : (offset + i) % SECTOR_LEN = offset % SECTOR_LEN + i := by
    simp only [SECTOR_LEN] at hn ⊢
    omega
  rw [junk, hsector, hwithin]

/-- The last byte of a range is in a sector that can be addressed. -/
theorem sector_lt {offset len : Nat} (hlen : len ≠ 0) (hfits : offset + len ≤ 2 ^ 32 * SECTOR_LEN) :
    offset / SECTOR_LEN < 2 ^ 32 := by
  simp only [SECTOR_LEN] at hfits ⊢
  omega

theorem room_pos (offset : Nat) : 0 < SECTOR_LEN - offset % SECTOR_LEN :=
  Nat.sub_pos_of_lt (Nat.mod_lt _ (by decide))

theorem fillAtLoop_eq {rounds offset len : Nat} (hlen : len ≤ rounds)
    (hfits : offset + len ≤ 2 ^ 32 * SECTOR_LEN) (g : Lfg) :
    ∃ after, fillAtLoop id disc rounds g offset len = some (junkAt id disc offset len, after) := by
  induction rounds generalizing offset len g with
  | zero =>
    obtain rfl : len = 0 := by omega
    exact ⟨g, rfl⟩
  | succ rounds ih =>
    rw [fillAtLoop]
    split_ifs with hzero
    · rw [hzero]
      exact ⟨g, rfl⟩
    · have hroom := room_pos offset
      obtain ⟨sought, hseek, hfill⟩ := @seek_spec id disc g offset
        (min (SECTOR_LEN - offset % SECTOR_LEN) len) (sector_lt hzero hfits)
        (Nat.min_le_left _ _)
      obtain ⟨rest, hrest⟩ :=
        Nat.exists_eq_add_of_le (Nat.min_le_right (SECTOR_LEN - offset % SECTOR_LEN) len)
      have hleft : len - min (SECTOR_LEN - offset % SECTOR_LEN) len = rest := by omega
      obtain ⟨after, hafter⟩ := @ih (offset + min (SECTOR_LEN - offset % SECTOR_LEN) len) rest
        (by omega) (by omega)
        (sought.fill (min (SECTOR_LEN - offset % SECTOR_LEN) len)).2
      refine ⟨after, ?_⟩
      rw [hseek, Option.bind_eq_bind, Option.bind_some]
      simp only [hleft, hafter, hfill, Option.bind_eq_bind, Option.bind_some]
      rw [← junkAt_add, ← hrest]

theorem fillAt_eq (g : Lfg) {offset len : Nat} (hfits : offset + len ≤ 2 ^ 32 * SECTOR_LEN) :
    ∃ after, fillAt id disc g offset len = some (junkAt id disc offset len, after) :=
  fillAtLoop_eq (Nat.le_refl len) hfits g

theorem matchingPrefixLoop_eq {rounds offset : Nat} {buf : Bytes} (hlen : buf.length ≤ rounds)
    (hfits : offset + buf.length ≤ 2 ^ 32 * SECTOR_LEN) (g : Lfg) :
    matchingPrefixLoop id disc rounds g offset buf =
      some (commonPrefix buf (junkAt id disc offset buf.length)) := by
  induction rounds generalizing offset buf g with
  | zero =>
    obtain rfl : buf = [] := List.eq_nil_of_length_eq_zero (by omega)
    rfl
  | succ rounds ih =>
    rw [matchingPrefixLoop]
    split_ifs with hnil
    · rw [hnil]
      rfl
    · have hzero : buf.length ≠ 0 := fun hzero => hnil (List.eq_nil_of_length_eq_zero hzero)
      have hroom := room_pos offset
      obtain ⟨sought, hseek, hfill⟩ := @seek_spec id disc g offset
        (min (SECTOR_LEN - offset % SECTOR_LEN) buf.length) (sector_lt hzero hfits)
        (Nat.min_le_left _ _)
      have hmin := Nat.min_le_right (SECTOR_LEN - offset % SECTOR_LEN) buf.length
      have hpos : 0 < min (SECTOR_LEN - offset % SECTOR_LEN) buf.length :=
        Nat.lt_min.mpr ⟨hroom, Nat.pos_of_ne_zero hzero⟩
      rw [hseek, Option.bind_eq_bind, Option.bind_some]
      simp only [hfill]
      generalize min (SECTOR_LEN - offset % SECTOR_LEN) buf.length = n at hmin hpos ⊢
      have htake : (buf.take n).length = n := List.length_take_of_le hmin
      have hdrop : (buf.drop n).length = buf.length - n := List.length_drop
      have hsplit : commonPrefix buf (junkAt id disc offset buf.length) =
          if commonPrefix (buf.take n) (junkAt id disc offset n) = n then
            n + commonPrefix (buf.drop n) (junkAt id disc (offset + n) (buf.drop n).length)
          else commonPrefix (buf.take n) (junkAt id disc offset n) := by
        have happend := @commonPrefix_append _ _ (buf.take n) (junkAt id disc offset n)
          (by rw [htake, length_junkAt]) (buf.drop n)
          (junkAt id disc (offset + n) (buf.drop n).length)
        rw [List.take_append_drop, ← junkAt_add, hdrop, Nat.add_sub_cancel' hmin, htake] at happend
        rw [happend, hdrop]
      rw [hsplit]
      by_cases hall : commonPrefix (buf.take n) (junkAt id disc offset n) = n
      · rw [if_neg (not_not.mpr hall), if_pos hall, ih (by omega) (by omega),
          Option.bind_eq_bind, Option.bind_some, hall]
      · rw [if_pos hall, if_neg hall]

/-! ## The component -/

/-- Bytes generated for one write. -/
abbrev BYTES_PER_WRITE : Nat := 128 * 1024

/-- Every round writes at least one byte of the range; a panic of the generator is a trap. -/
def writeLoop (p : Params) (stop : Nat) : Nat → Lfg → Nat → Program UInt8
  | 0, _, _ => .trap true
  | rounds + 1, g, pos =>
    if pos < stop then
      let n := min (stop - pos) BYTES_PER_WRITE
      match fillAt p.id p.disc g pos n with
      | none => .trap false
      | some (chunk, g) => .write 0 chunk (writeLoop p stop rounds g (pos + n))
    else .done

def writeRange (p : Params) (start stop : Nat) : Program UInt8 :=
  writeLoop p stop (stop - start + 1) .blank start

def runParams (p : Params) : Program UInt8 :=
  if p.len = 0 then .refuse "fill of zero bytes has no output (the empty blob needs no recipe)"
  else writeRange p 0 p.len.toNat

def serveParams (offset len : UInt64) (p : Params) : Program UInt8 :=
  let (start, stop) := Xf.window offset len p.len.toNat
  if start < stop then writeRange p start stop else .done

def run (op : String) (params : Bytes) (inputs : List Xf.Shape) (outputs : Nat) :
    Program UInt8 :=
  Xf.runFill Params.decode runParams op params inputs outputs

def serveRange (op : String) (params : Bytes) (inputs : List Xf.Shape) (outputIx : Nat)
    (offset len : UInt64) : Program UInt8 :=
  Xf.serveFill Params.decode (serveParams offset len) op params inputs outputIx

/-- What the host gets for parameters. -/
def filled (params : Bytes) : Option Bytes :=
  collect ((run "fill" params [] 1).run maxRead (Xf.fillPorts []))

def served (params : Bytes) (offset len : UInt64) : Option Bytes :=
  collect ((serveRange "fill" params [] 0 offset len).run maxRead (Xf.fillPorts []))

section Component

variable {p : Params}

/-- The chunks are the junk of the range, whatever state each finds the generator in. -/
theorem run_writeLoop {rounds pos stop : Nat} (hstop : stop ≤ 2 ^ 32 * SECTOR_LEN)
    (hpos : pos ≤ stop) (hrounds : stop - pos < rounds) (g : Lfg) {written : Bytes} :
    collect ((writeLoop p stop rounds g pos).run maxRead (Xf.fillPorts written)) =
      some (written ++ junkAt p.id p.disc pos (stop - pos)) := by
  induction rounds generalizing g pos written with
  | zero => omega
  | succ rounds ih =>
    rw [writeLoop]
    split_ifs with hmore
    · obtain ⟨rest, hrest⟩ :=
        Nat.exists_eq_add_of_le (Nat.min_le_left (stop - pos) BYTES_PER_WRITE)
      have hsmaller : 0 < min (stop - pos) BYTES_PER_WRITE :=
        Nat.lt_min.mpr ⟨by omega, by decide⟩
      obtain ⟨after, hfill⟩ := @fillAt_eq p.id p.disc g pos (min (stop - pos) BYTES_PER_WRITE)
        (by omega)
      simp only [hfill]
      have hleft : stop - (pos + min (stop - pos) BYTES_PER_WRITE) = rest := by omega
      rw [Xf.run_write_fillPorts, ih (by omega) (by omega), hleft, List.append_assoc,
        ← junkAt_add, ← hrest]
    · have hnone : stop - pos = 0 := by omega
      rw [hnone]
      exact (Xf.collect_done_fillPorts written).trans (by simp [junkAt])

theorem run_writeRange {start stop : Nat} (hstop : stop ≤ 2 ^ 32 * SECTOR_LEN)
    (hle : start ≤ stop) :
    collect ((writeRange p start stop).run maxRead (Xf.fillPorts [])) =
      some (junkAt p.id p.disc start (stop - start)) := by
  rw [writeRange, run_writeLoop hstop hle (Nat.lt_succ_self _), List.nil_append]

variable {params : Bytes}

theorem filled_eq (hparams : Params.decode params = .ok p) (hsome : p.len ≠ 0) :
    filled params = some (junkAt p.id p.disc 0 p.len.toNat) := by
  obtain ⟨hrange, -⟩ := Params.decode_eq_ok.mp hparams
  have hwhole := @run_writeRange p 0 p.len.toNat hrange (Nat.zero_le _)
  simp only [filled, run, Xf.runFill, Xf.fillParams, hparams, runParams, if_neg hsome,
    ne_eq, not_true_eq_false, if_false]
  exact hwhole

/-- A slice of junk is the junk from there on. -/
theorem slice_junkAt (id : List.Vector UInt8 4) (disc : UInt8) {total start n : Nat}
    (hin : start + n ≤ total) :
    slice (junkAt id disc 0 total) start n = junkAt id disc start n := by
  obtain ⟨rest, rfl⟩ := Nat.exists_eq_add_of_le hin
  have hfront := length_junkAt id disc 0 start
  have hmiddle := length_junkAt id disc (0 + start) n
  rw [Nat.add_assoc, junkAt_add, junkAt_add]
  calc slice (junkAt id disc 0 start ++
        (junkAt id disc (0 + start) n ++ junkAt id disc (0 + start + n) rest)) start n
      = slice (junkAt id disc 0 start ++
        (junkAt id disc (0 + start) n ++ junkAt id disc (0 + start + n) rest))
          (junkAt id disc 0 start).length (junkAt id disc (0 + start) n).length := by
        rw [hfront, hmiddle]
    _ = junkAt id disc start n := by
        rw [Reader.slice_middle, Nat.zero_add]

theorem served_eq (hparams : Params.decode params = .ok p) (offset len : UInt64) :
    served params offset len =
      some (slice (junkAt p.id p.disc 0 p.len.toNat) offset.toNat len.toNat) := by
  obtain ⟨hrange, -⟩ := Params.decode_eq_ok.mp hparams
  have hrange : p.len.toNat ≤ 2 ^ 32 * SECTOR_LEN := hrange
  have hslice := @Xf.slice_window (junkAt p.id p.disc 0 p.len.toNat)
    (by rw [length_junkAt]; exact p.len.toNat_lt) offset len
  rw [length_junkAt] at hslice
  have hle := Xf.window_le offset len p.len.toNat
  simp only [served, serveRange, Xf.serveFill, Xf.fillParams, hparams, serveParams,
    ne_eq, not_true_eq_false, if_false]
  rw [← hslice]
  generalize Xf.window offset len p.len.toNat = bounds at hle ⊢
  split_ifs with hmore
  · rw [run_writeRange (Nat.le_trans hle hrange) (Nat.le_of_lt hmore),
      slice_junkAt _ _ (by omega)]
  · have hnone : bounds.2 - bounds.1 = 0 := by omega
    rw [hnone, Reader.slice_zero_right]
    exact Xf.collect_done_fillPorts []

end Component

/-- The bytes that a generator in some state is asked for. -/
def fillBytes (g : Lfg) (id : List.Vector UInt8 4) (disc : UInt8) (offset len : Nat) :
    Option Bytes :=
  (fillAt id disc g offset len).map Prod.fst

theorem fillBytes_eq (g : Lfg) {id : List.Vector UInt8 4} {disc : UInt8} {offset len : Nat}
    (hfits : offset + len ≤ 2 ^ 32 * SECTOR_LEN) :
    fillBytes g id disc offset len = some (junkAt id disc offset len) := by
  obtain ⟨after, hfill⟩ := @fillAt_eq id disc g offset len hfits
  rw [fillBytes, hfill, Option.map_some]

/-- Junk is a function of its position: two ranges of it make one, bytes are compared with it as
far as they agree, and a window of a disc's junk is served as a slice of all of it. -/
theorem junk_positional :
    (∀ id disc offset a b, offset + (a + b) ≤ 2 ^ 32 * SECTOR_LEN → ∃ front back : Bytes,
      front.length = a ∧ back.length = b ∧
      ∀ g, fillBytes g id disc offset a = some front ∧
        fillBytes g id disc (offset + a) b = some back ∧
        fillBytes g id disc offset (a + b) = some (front ++ back)) ∧
    (∀ id disc offset (buf : Bytes), offset + buf.length ≤ 2 ^ 32 * SECTOR_LEN →
      ∃ (stream : Bytes) (n : Nat),
        (∀ g, fillBytes g id disc offset buf.length = some stream ∧
          matchingPrefix id disc g offset buf = some n) ∧
        IsGreatest {m | m ≤ buf.length ∧ m ≤ stream.length ∧ buf.take m = stream.take m} n) ∧
    ∀ params p, Params.decode params = .ok p →
      (p.len ≠ 0 → (filled params).isSome) ∧
      ∀ out, filled params = some out → ∀ offset len,
        served params offset len = some (slice out offset.toNat len.toNat) := by
  refine ⟨fun id disc offset a b hfits => ?_, fun id disc offset buf hfits => ?_, ?_⟩
  · refine ⟨junkAt id disc offset a, junkAt id disc (offset + a) b, length_junkAt _ _ _ _,
      length_junkAt _ _ _ _, fun g => ⟨fillBytes_eq g (by omega), fillBytes_eq g (by omega), ?_⟩⟩
    rw [fillBytes_eq g hfits, junkAt_add]
  · refine ⟨junkAt id disc offset buf.length, commonPrefix buf (junkAt id disc offset buf.length),
      fun g => ⟨fillBytes_eq g hfits, ?_⟩, commonPrefix_isGreatest _ _⟩
    exact matchingPrefixLoop_eq (Nat.le_refl _) hfits g
  · intro params p hparams
    refine ⟨fun hsome => ?_, fun out hout offset len => ?_⟩
    · rw [filled_eq hparams hsome]
      rfl
    · by_cases hzero : p.len = 0
      · -- A disc without junk is refused.
        have hrefused : filled params = none := by
          simp only [filled, run, Xf.runFill, Xf.fillParams, hparams, runParams, if_pos hzero,
            ne_eq, not_true_eq_false, if_false]
          rfl
        rw [hrefused] at hout
        cases hout
      · rw [filled_eq hparams hzero, Option.some.injEq] at hout
        rw [served_eq hparams, hout]

theorem junk_positional_gale : ∃ out,
    filled (Params.encode ⟨⟨[0x47, 0x41, 0x4C, 0x45], rfl⟩, 0, 5⟩) = some out ∧
      served (Params.encode ⟨⟨[0x47, 0x41, 0x4C, 0x45], rfl⟩, 0, 5⟩) 3 9 = some (slice out 3 9) := by
  obtain ⟨hsome, hserved⟩ := junk_positional.2.2
    (Params.encode ⟨⟨[0x47, 0x41, 0x4C, 0x45], rfl⟩, 0, 5⟩) ⟨⟨[0x47, 0x41, 0x4C, 0x45], rfl⟩, 0, 5⟩
    (Params.decode_eq_ok.mpr ⟨show (5 : UInt64).toNat ≤ 2 ^ 32 * SECTOR_LEN by decide, rfl⟩)
  obtain ⟨out, hout⟩ := Option.isSome_iff_exists.mp (hsome (by decide))
  exact ⟨out, hout, hserved out hout 3 9⟩

end Datboi.GcJunk
