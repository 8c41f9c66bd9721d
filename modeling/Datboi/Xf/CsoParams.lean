import Datboi.Xf.Params

/-!
# One encoding of parameters

The compressor's reader takes a map of up to three keys, in order and in shortest form, and uses
the default for what is not there. So parameters have several encodings, unless all three keys
are spelled out and none has its default.
-/

namespace Datboi

namespace Cso

open Cbor (infoOf putHead)

theorem cborUintHeader_cons (first base : UInt8) (rest : Bytes) (what : String) :
    cborUintHeader (first :: rest) base what =
      let info := (first &&& 0x1F).toNat
      if first &&& 0xE0 ≠ base then
        .error s!"expected {what}, got initial byte 0x{hexPadded 2 first.toNat}"
      else if 27 < info then .error s!"unsupported {what} encoding {info}"
      else if rest.length < headExtra info then .error s!"truncated {what}"
      else if headExtra info ≠ canonicalExtra (headValue info rest) then
        .error s!"non-canonical {what} encoding"
      else .ok (headValue info rest, info, rest.drop (headExtra info)) := rfl

/-- Items are read exactly from the shortest form of a number. -/
theorem cborUintHeader_eq_ok {bytes after : Bytes} {major base : UInt8} {what : String}
    {n info : Nat} (hmajor : major.toNat < 8)
    (hbase : ∀ first : UInt8, first &&& 0xE0 = base ↔ first >>> 5 = major) :
    cborUintHeader bytes base what = .ok (n, info, after) ↔
      ∃ value : UInt64, n = value.toNat ∧ info = (infoOf value).toNat ∧
        bytes = putHead major value ++ after := by
  cases bytes with
  | nil =>
    simp only [cborUintHeader, reduceCtorEq, false_iff, not_exists, not_and]
    intro value _ _ hempty
    rw [Cbor.putHead_eq] at hempty
    cases hempty
  | cons first rest =>
    have hhead : ∀ value, first :: rest = putHead major value ++ after ↔
        (first >>> 5 = major ∧ first &&& 0x1F = infoOf value) ∧
          rest = Cbor.argBytes value ++ after := by
      intro value
      rw [Cbor.putHead_eq, List.cons_append, List.cons.injEq, initial_eq_iff hmajor]
    simp only [hhead]
    rw [cborUintHeader_cons]
    simp only
    constructor
    · intro hread
      split at hread
      · cases hread
      rename_i hfirst
      split at hread
      · cases hread
      rename_i hinfo
      split at hread
      · cases hread
      rename_i hlength
      split at hread
      · cases hread
      rename_i hextra
      obtain ⟨hshort, hrest⟩ := headValue_shortest hinfo hlength hextra
      cases hread
      refine ⟨.ofNat (headValue (first &&& 0x1F).toNat rest), ?_, ?_,
        ⟨(hbase first).mp (not_not.mp hfirst), hshort⟩, hrest⟩
      · rw [UInt64.toNat_ofNat', Nat.mod_eq_of_lt (headValue_lt (by omega) rest)]
      · rw [← hshort]
    · rintro ⟨value, rfl, rfl, ⟨hfirst, hshort⟩, rfl⟩
      obtain ⟨hinfo, hlength, hvalue, hextra, hafter, -⟩ := headValue_of_argBytes value after
      rw [if_neg (not_not.mpr ((hbase first).mpr hfirst)), hshort, if_neg hinfo]
      rw [if_neg hlength, hvalue, if_neg (not_not.mpr hextra), hafter]

theorem uint_base (first : UInt8) : first &&& 0xE0 = 0x00 ↔ first >>> 5 = 0 := by
  have hall : ∀ n < 256, (UInt8.ofNat n &&& 0xE0 = 0x00 ↔ UInt8.ofNat n >>> 5 = 0) := by
    decide +kernel
  have hfirst := hall first.toNat first.toNat_lt
  rwa [UInt8.ofNat_toNat] at hfirst

theorem map_base (first : UInt8) : first &&& 0xE0 = 0xA0 ↔ first >>> 5 = 5 := by
  have hall : ∀ n < 256, (UInt8.ofNat n &&& 0xE0 = 0xA0 ↔ UInt8.ofNat n >>> 5 = 5) := by
    decide +kernel
  have hfirst := hall first.toNat first.toNat_lt
  rwa [UInt8.ofNat_toNat] at hfirst

/-! ## Keys and values -/

abbrev Pair := UInt64 × UInt64

def pairsBytes (pairs : List Pair) : Bytes :=
  pairs.flatMap fun pair => putHead 0 pair.1 ++ putHead 0 pair.2

/-- Keys above `last` and in order. -/
def Ascends : Option Nat → List Pair → Prop
  | _, [] => True
  | last, pair :: pairs => ¬ last.any (pair.1.toNat ≤ ·) ∧ Ascends (some pair.1.toNat) pairs

def applyPairs : List Pair → CompressParams → Except String CompressParams
  | [], p => .ok p
  | pair :: pairs, p => do
      let p ← setParam p pair.1.toNat pair.2.toNat
      applyPairs pairs p

variable {bytes : Bytes} {p q : CompressParams}

theorem CompressParams.eq_of_fields (hsize : p.blockSize = q.blockSize)
    (hlevel : p.level = q.level) (halign : p.align = q.align) : p = q := by
  cases p
  cases q
  cases hsize
  cases hlevel
  cases halign
  rfl

/-- What setting a key can do. That the value is in range is a field of the result. -/
theorem setParam_eq_ok {key value : Nat} :
    setParam p key value = .ok q ↔
      (key = 1 ∧ value = q.blockSize.toNat ∧ q.level = p.level ∧ q.align = p.align) ∨
      (key = 2 ∧ value = q.level.toNat ∧ q.blockSize = p.blockSize ∧ q.align = p.align) ∨
      (key = 3 ∧ value = q.align.toNat ∧ q.blockSize = p.blockSize ∧ q.level = p.level) := by
  constructor
  · intro hset
    unfold setParam at hset
    split at hset
    · rename_i hkey
      split at hset
      · rename_i hsize
        have hbound : value ≤ 2 ^ 20 := hsize.1.2
        cases hset
        refine .inl ⟨hkey, ?_, rfl, rfl⟩
        rw [UInt32.toNat_ofNat', Nat.mod_eq_of_lt (by omega)]
      · cases hset
    split at hset
    · rename_i hkey
      split at hset
      · rename_i hlevel
        cases hset
        refine .inr (.inl ⟨hkey, ?_, rfl, rfl⟩)
        rw [UInt8.toNat_ofNat', Nat.mod_eq_of_lt (by omega)]
      · cases hset
    split at hset
    · rename_i hkey
      split at hset
      · rename_i halign
        cases hset
        refine .inr (.inr ⟨hkey, ?_, rfl, rfl⟩)
        rw [UInt8.toNat_ofNat', Nat.mod_eq_of_lt (by omega)]
      · cases hset
    · cases hset
  · unfold setParam
    rintro (⟨rfl, rfl, hlevel, halign⟩ | ⟨rfl, rfl, hsize, halign⟩ | ⟨rfl, rfl, hsize, hlevel⟩)
    · rw [if_pos rfl, dif_pos q.hsize]
      exact congrArg _ (CompressParams.eq_of_fields UInt32.ofNat_toNat hlevel.symm halign.symm)
    · rw [if_neg (by decide), if_pos rfl, dif_pos q.hlevel]
      exact congrArg _ (CompressParams.eq_of_fields hsize.symm UInt8.ofNat_toNat halign.symm)
    · rw [if_neg (by decide), if_neg (by decide), if_pos rfl, dif_pos q.halign]
      exact congrArg _ (CompressParams.eq_of_fields hsize.symm hlevel.symm UInt8.ofNat_toNat)

theorem decodePairs_eq_ok {count : Nat} {last : Option Nat} {after : Bytes}
    (hread : decodePairs count last p bytes = .ok (q, after)) :
    ∃ pairs, pairs.length = count ∧ Ascends last pairs ∧ applyPairs pairs p = .ok q ∧
      bytes = pairsBytes pairs ++ after := by
  induction count generalizing last p bytes with
  | zero =>
    cases hread
    exact ⟨[], rfl, trivial, rfl, rfl⟩
  | succ count ih =>
    rw [decodePairs] at hread
    obtain ⟨⟨key, _, afterKey⟩, hkey, hread⟩ := Decoding.bind_eq_ok.mp hread
    simp only at hread
    split at hread
    · cases hread
    rename_i horder
    obtain ⟨⟨value, _, afterValue⟩, hvalue, hread⟩ := Decoding.bind_eq_ok.mp hread
    obtain ⟨p', hset, hread⟩ := Decoding.bind_eq_ok.mp hread
    obtain ⟨pairs, hlength, hascends, happly, rfl⟩ := ih hread
    obtain ⟨k, rfl, -, rfl⟩ := (cborUintHeader_eq_ok (by decide) uint_base).mp hkey
    obtain ⟨v, rfl, -, rfl⟩ := (cborUintHeader_eq_ok (by decide) uint_base).mp hvalue
    refine ⟨(k, v) :: pairs, congrArg Nat.succ hlength, ⟨horder, hascends⟩, ?_, ?_⟩
    · rw [applyPairs, hset, Decoding.ok_bind]
      exact happly
    · simp only [pairsBytes, List.flatMap_cons, List.append_assoc]

theorem decodePairs_pairsBytes {pairs : List Pair} {last : Option Nat} {p : CompressParams}
    {after : Bytes} (hascends : Ascends last pairs) :
    decodePairs pairs.length last p (pairsBytes pairs ++ after) =
      (applyPairs pairs p).map fun q => (q, after) := by
  induction pairs generalizing last p with
  | nil => rfl
  | cons pair pairs ih =>
    obtain ⟨horder, hrest⟩ := hascends
    have hbytes : pairsBytes (pair :: pairs) ++ after =
        putHead 0 pair.1 ++ (putHead 0 pair.2 ++ (pairsBytes pairs ++ after)) := by
      simp only [pairsBytes, List.flatMap_cons, List.append_assoc]
    have hkey := (@cborUintHeader_eq_ok _ _ 0 0x00 "uint key" _ _ (by decide) uint_base).mpr
      ⟨pair.1, rfl, rfl, hbytes⟩
    have hvalue := (@cborUintHeader_eq_ok _ (pairsBytes pairs ++ after) 0 0x00 "uint value" _ _
      (by decide) uint_base).mpr ⟨pair.2, rfl, rfl, rfl⟩
    rw [List.length_cons, decodePairs, hkey, Decoding.ok_bind]
    simp only
    rw [if_neg horder, hvalue, Decoding.ok_bind, applyPairs]
    simp only
    cases setParam p pair.1.toNat pair.2.toNat with
    | error e => rfl
    | ok q =>
      rw [Decoding.ok_bind, Decoding.ok_bind]
      exact ih hrest

/-- A parameter whose key is not there stays as it was, and only three keys are known. -/
theorem applyPairs_kept {pairs : List Pair} (happly : applyPairs pairs p = .ok q) :
    (∀ pair ∈ pairs, pair.1.toNat = 1 ∨ pair.1.toNat = 2 ∨ pair.1.toNat = 3) ∧
      ((∀ pair ∈ pairs, pair.1.toNat ≠ 1) → q.blockSize = p.blockSize) ∧
      ((∀ pair ∈ pairs, pair.1.toNat ≠ 2) → q.level = p.level) ∧
      ((∀ pair ∈ pairs, pair.1.toNat ≠ 3) → q.align = p.align) := by
  induction pairs generalizing p with
  | nil =>
    cases happly
    exact ⟨fun _ hmem => (by cases hmem), fun _ => rfl, fun _ => rfl, fun _ => rfl⟩
  | cons pair pairs ih =>
    rw [applyPairs] at happly
    obtain ⟨p', hset, hrest⟩ := Decoding.bind_eq_ok.mp happly
    obtain ⟨hkeys, hsize, hlevel, halign⟩ := ih hrest
    simp only [List.forall_mem_cons]
    rcases setParam_eq_ok.mp hset with ⟨hkey, -, hlevel', halign'⟩ | ⟨hkey, -, hsize', halign'⟩ |
      ⟨hkey, -, hsize', hlevel'⟩
    · exact ⟨⟨.inl hkey, hkeys⟩, fun hnone => absurd hkey hnone.1,
        fun hnone => (hlevel hnone.2).trans hlevel', fun hnone => (halign hnone.2).trans halign'⟩
    · exact ⟨⟨.inr (.inl hkey), hkeys⟩, fun hnone => (hsize hnone.2).trans hsize',
        fun hnone => absurd hkey hnone.1, fun hnone => (halign hnone.2).trans halign'⟩
    · exact ⟨⟨.inr (.inr hkey), hkeys⟩, fun hnone => (hsize hnone.2).trans hsize',
        fun hnone => (hlevel hnone.2).trans hlevel', fun hnone => absurd hkey hnone.1⟩

/-- Three ascending keys out of three are all of them. -/
theorem three_keys {pairs : List Pair} (hascends : Ascends none pairs)
    (hkeys : ∀ pair ∈ pairs, pair.1.toNat = 1 ∨ pair.1.toNat = 2 ∨ pair.1.toNat = 3)
    (hone : ∃ pair ∈ pairs, pair.1.toNat = 1) (htwo : ∃ pair ∈ pairs, pair.1.toNat = 2)
    (hthree : ∃ pair ∈ pairs, pair.1.toNat = 3) :
    ∃ block level align, pairs = [(1, block), (2, level), (3, align)] := by
  rcases pairs with _ | ⟨a, _ | ⟨b, _ | ⟨c, _ | ⟨d, pairs⟩⟩⟩⟩
  · obtain ⟨_, hmem, -⟩ := hone
    cases hmem
  all_goals
    simp only [List.forall_mem_cons] at hkeys
    simp only [Ascends, Option.any_some, Option.any_none, decide_eq_true_eq] at hascends
    simp only [List.exists_mem_cons_iff, List.not_mem_nil, false_and, exists_false, or_false]
      at hone htwo hthree
  · omega
  · omega
  · refine ⟨a.2, b.2, c.2, ?_⟩
    have ha : a.1 = 1 := UInt64.toNat_inj.mp (by simp only [UInt64.toNat_one]; omega)
    have hb : b.1 = 2 := UInt64.toNat_inj.mp (by simp only [UInt64.reduceToNat]; omega)
    have hc : c.1 = 3 := UInt64.toNat_inj.mp (by simp only [UInt64.reduceToNat]; omega)
    rw [← ha, ← hb, ← hc]
  · clear hone htwo hthree
    omega

/-! ## Spelling parameters out -/

/-- The map of these pairs. -/
def mapBytes (pairs : List Pair) : Bytes :=
  putHead 5 (.ofNat pairs.length) ++ pairsBytes pairs

theorem decodeParams_mapBytes {pairs : List Pair} (hascends : Ascends none pairs)
    (hfew : pairs.length ≤ 23) : decodeParams (mapBytes pairs) = applyPairs pairs default := by
  have hcount : (UInt64.ofNat pairs.length).toNat = pairs.length := by
    rw [UInt64.toNat_ofNat', Nat.mod_eq_of_lt (by omega)]
  have hmap := (@cborUintHeader_eq_ok (mapBytes pairs) (pairsBytes pairs) 5 0xA0 "map" _ _
    (by decide) map_base).mpr ⟨.ofNat pairs.length, rfl, rfl, rfl⟩
  have hinfo : (infoOf (UInt64.ofNat pairs.length)).toNat = pairs.length := by
    rw [Cbor.toNat_infoOf, hcount, if_pos (by omega)]
  have hne : mapBytes pairs ≠ [] := by
    rw [mapBytes, Cbor.putHead_eq]
    exact List.cons_ne_nil _ _
  have hpairs := @decodePairs_pairsBytes pairs none default [] hascends
  rw [List.append_nil] at hpairs
  rw [decodeParams, if_neg hne, hmap, Decoding.ok_bind]
  simp only
  rw [hinfo, hcount, if_neg (by omega), hpairs]
  cases applyPairs pairs default with
  | error e => rfl
  | ok q => rfl

theorem decodeParams_eq_ok (hdecode : decodeParams bytes = .ok p) :
    bytes = [] ∧ p = default ∨
      ∃ pairs, Ascends none pairs ∧ applyPairs pairs default = .ok p ∧ bytes = mapBytes pairs := by
  unfold decodeParams at hdecode
  split at hdecode
  · rename_i hempty
    cases hdecode
    exact .inl ⟨hempty, rfl⟩
  · obtain ⟨⟨count, info, after⟩, hmap, hdecode⟩ := Decoding.bind_eq_ok.mp hdecode
    simp only at hdecode
    split at hdecode
    · cases hdecode
    obtain ⟨⟨q, rest⟩, hpairs, hdecode⟩ := Decoding.bind_eq_ok.mp hdecode
    simp only at hdecode
    split at hdecode
    · cases hdecode
    rename_i hend
    cases hdecode
    obtain ⟨value, rfl, -, rfl⟩ := (cborUintHeader_eq_ok (by decide) map_base).mp hmap
    obtain ⟨pairs, hlength, hascends, happly, rfl⟩ := decodePairs_eq_ok hpairs
    refine .inr ⟨pairs, hascends, happly, ?_⟩
    rw [mapBytes, hlength, UInt64.ofNat_toNat, not_not.mp hend, List.append_nil]

/-- The encoding that spells every parameter. -/
def spelled (block level align : UInt64) : Bytes := mapBytes [(1, block), (2, level), (3, align)]

/-- All three keys are there, and none has its default. -/
def FullySpelled (bytes : Bytes) : Prop :=
  ∃ block level align, bytes = spelled block level align ∧ block ≠ 2048 ∧ level ≠ 9 ∧ align ≠ 0

/-- Some of the parameters, spelled. -/
def spelling (p : CompressParams) (size level align : Bool) : List Pair :=
  (if size then [(1, p.blockSize.toUInt64)] else []) ++
    ((if level then [(2, p.level.toUInt64)] else []) ++
      if align then [(3, p.align.toUInt64)] else [])

/-- Parameters may be left out that have their defaults. -/
theorem decodeParams_spelling {p : CompressParams} {size level align : Bool}
    (hsize : size = false → p.blockSize = 2048) (hlevel : level = false → p.level = 9)
    (halign : align = false → p.align = 0) :
    decodeParams (mapBytes (spelling p size level align)) = .ok p := by
  have hascends : Ascends none (spelling p size level align) := by
    cases size <;> cases level <;> cases align <;> simp [spelling, Ascends]
  have hfew : (spelling p size level align).length ≤ 23 := by
    cases size <;> cases level <;> cases align <;> simp [spelling]
  rw [decodeParams_mapBytes hascends hfew]
  let sized : CompressParams := { (default : CompressParams) with
    blockSize := p.blockSize
    hsize := p.hsize }
  let levelled : CompressParams := { sized with
    level := p.level
    hlevel := p.hlevel }
  have hfirst : ∀ rest, applyPairs ((if size then [(1, p.blockSize.toUInt64)] else []) ++ rest)
      default = applyPairs rest sized := by
    intro rest
    cases size with
    | false =>
      have heq : (default : CompressParams) = sized :=
        CompressParams.eq_of_fields (hsize rfl).symm rfl rfl
      rw [if_neg Bool.false_ne_true, List.nil_append, heq]
    | true =>
      have hset : setParam default 1 p.blockSize.toUInt64.toNat = .ok sized :=
        setParam_eq_ok.mpr (.inl ⟨rfl, UInt32.toNat_toUInt64 _, rfl, rfl⟩)
      rw [if_pos rfl, List.singleton_append, applyPairs]
      exact congrArg (· >>= applyPairs rest) hset
  have hsecond : ∀ rest, applyPairs ((if level then [(2, p.level.toUInt64)] else []) ++ rest)
      sized = applyPairs rest levelled := by
    intro rest
    cases level with
    | false =>
      have heq : sized = levelled := CompressParams.eq_of_fields rfl (hlevel rfl).symm rfl
      rw [if_neg Bool.false_ne_true, List.nil_append, heq]
    | true =>
      have hset : setParam sized 2 p.level.toUInt64.toNat = .ok levelled :=
        setParam_eq_ok.mpr (.inr (.inl ⟨rfl, UInt8.toNat_toUInt64 _, rfl, rfl⟩))
      rw [if_pos rfl, List.singleton_append, applyPairs]
      exact congrArg (· >>= applyPairs rest) hset
  rw [spelling, hfirst, hsecond]
  cases align with
  | false =>
    have heq : levelled = p := CompressParams.eq_of_fields rfl rfl (halign rfl).symm
    rw [if_neg Bool.false_ne_true, applyPairs, heq]
  | true =>
    have hset : setParam levelled 3 p.align.toUInt64.toNat = .ok p :=
      setParam_eq_ok.mpr (.inr (.inr ⟨rfl, UInt8.toNat_toUInt64 _, rfl, rfl⟩))
    rw [if_pos rfl, applyPairs]
    exact congrArg (· >>= applyPairs []) hset

theorem length_eq_of_mapBytes {pairs pairs' : List Pair} (hfew : pairs.length ≤ 23)
    (hfew' : pairs'.length ≤ 23) (heq : mapBytes pairs = mapBytes pairs') :
    pairs.length = pairs'.length := by
  have hread := fun ps : List Pair => (@cborUintHeader_eq_ok (mapBytes ps) (pairsBytes ps) 5 0xA0
    "map" _ _ (by decide) map_base).mpr ⟨.ofNat ps.length, rfl, rfl, rfl⟩
  have hsame := hread pairs
  rw [heq, hread pairs', Except.ok.injEq, Prod.mk.injEq, UInt64.toNat_ofNat', UInt64.toNat_ofNat',
    Nat.mod_eq_of_lt (by omega), Nat.mod_eq_of_lt (by omega)] at hsame
  exact hsame.1.symm

theorem ascends_three (block level align : UInt64) :
    Ascends none [(1, block), (2, level), (3, align)] := by
  simp [Ascends]

/-- The values of parameters that are all spelled. -/
theorem applyPairs_three {block level align : UInt64}
    (happly : applyPairs [(1, block), (2, level), (3, align)] default = .ok p) :
    block = p.blockSize.toUInt64 ∧ level = p.level.toUInt64 ∧ align = p.align.toUInt64 := by
  simp only [applyPairs, Decoding.bind_eq_ok] at happly
  obtain ⟨p₁, hfirst, p₂, hsecond, p₃, hthird, hend⟩ := happly
  cases hend
  obtain ⟨-, hblock, -⟩ := (setParam_eq_ok.mp hfirst).resolve_right fun hother =>
    hother.elim (fun hset => absurd hset.1 (by decide)) fun hset => absurd hset.1 (by decide)
  obtain ⟨-, hlevel, hsize, -⟩ := ((setParam_eq_ok.mp hsecond).resolve_left fun hset =>
    absurd hset.1 (by decide)).resolve_right fun hset => absurd hset.1 (by decide)
  obtain ⟨-, halign, hsize', hlevel'⟩ := ((setParam_eq_ok.mp hthird).resolve_left fun hset =>
    absurd hset.1 (by decide)).resolve_left fun hset => absurd hset.1 (by decide)
  refine ⟨?_, ?_, ?_⟩
  · rw [← UInt64.toNat_inj, UInt32.toNat_toUInt64, hsize', hsize]
    exact hblock
  · rw [← UInt64.toNat_inj, UInt8.toNat_toUInt64, hlevel']
    exact hlevel
  · rw [← UInt64.toNat_inj, UInt8.toNat_toUInt64]
    exact halign

/-- No other bytes decode to the same parameters exactly if all of them are spelled, and none
has its default. -/
theorem decodeParams_unique_iff (hdecode : decodeParams bytes = .ok p) :
    (∀ other, decodeParams other = .ok p → other = bytes) ↔ FullySpelled bytes := by
  constructor
  · intro hunique
    have hkept : ∀ {P : Prop}, true = false → P := fun hfalse => (by cases hfalse)
    have hfull := hunique _ (@decodeParams_spelling p true true true hkept hkept hkept)
    -- A default could also be left out, and the map would be shorter.
    have hleft : ∀ size level align, (size = false → p.blockSize = 2048) →
        (level = false → p.level = 9) → (align = false → p.align = 0) →
        (spelling p size level align).length = 3 := by
      intro size level align hsize hlevel halign
      refine @length_eq_of_mapBytes _ (spelling p true true true) ?_ (by simp [spelling]) ?_
      · cases size <;> cases level <;> cases align <;> simp [spelling]
      · rw [hfull, hunique _ (decodeParams_spelling hsize hlevel halign)]
    refine ⟨p.blockSize.toUInt64, p.level.toUInt64, p.align.toUInt64, hfull.symm, ?_, ?_, ?_⟩
    · intro hdefault
      have hsize : p.blockSize = 2048 := by
        rw [← UInt32.toNat_inj, ← UInt32.toNat_toUInt64, hdefault]
        rfl
      exact absurd (hleft false true true (fun _ => hsize) hkept hkept) (by simp [spelling])
    · intro hdefault
      have hlevel : p.level = 9 := by
        rw [← UInt8.toNat_inj, ← UInt8.toNat_toUInt64, hdefault]
        rfl
      exact absurd (hleft true false true hkept (fun _ => hlevel) hkept) (by simp [spelling])
    · intro hdefault
      have halign : p.align = 0 := by
        rw [← UInt8.toNat_inj, ← UInt8.toNat_toUInt64, hdefault]
        rfl
      exact absurd (hleft true true false hkept hkept fun _ => halign) (by simp [spelling])
  · rintro ⟨block, level, align, rfl, hblock, hlevel, halign⟩ other hother
    rw [spelled, decodeParams_mapBytes (ascends_three _ _ _) (by simp)] at hdecode
    obtain ⟨rfl, rfl, rfl⟩ := applyPairs_three hdecode
    rcases decodeParams_eq_ok hother with ⟨-, rfl⟩ | ⟨pairs, hascends, happly, rfl⟩
    · exact absurd rfl hblock
    · obtain ⟨hkeys, hsize, hlevel', halign'⟩ := applyPairs_kept happly
      have hthere : ∀ n, ¬ (∀ pair ∈ pairs, pair.1.toNat ≠ n) → ∃ pair ∈ pairs, pair.1.toNat = n :=
        fun n hsome => by simpa using hsome
      obtain ⟨b, l, a, rfl⟩ := three_keys hascends hkeys
        (hthere 1 fun hnone => hblock (by rw [hsize hnone]; rfl))
        (hthere 2 fun hnone => hlevel (by rw [hlevel' hnone]; rfl))
        (hthere 3 fun hnone => halign (by rw [halign' hnone]; rfl))
      obtain ⟨rfl, rfl, rfl⟩ := applyPairs_three happly
      rfl

end Cso

/-- The strict readers accept exactly the encodings of the values in range, so each value has one.
Accepted parameters of the compressor have one encoding exactly if all of them are spelled, and
none has its default. -/
theorem params_encodings (bytes : Bytes) (p : Cso.CompressParams)
    (hdecode : Cso.decodeParams bytes = .ok p) :
    (∀ bytes (p : Xgd1.Params), Xgd1.Params.decode bytes = .ok p ↔ p.InRange ∧ bytes = p.encode) ∧
    (∀ bytes (p : GcJunk.Params),
      GcJunk.Params.decode bytes = .ok p ↔ p.InRange ∧ bytes = p.encode) ∧
    (∀ bytes (p : WiiCrypt.Params),
      WiiCrypt.Params.decode bytes = .ok p ↔ p.InRange ∧ bytes = p.encode) ∧
    ((∀ other, Cso.decodeParams other = .ok p → other = bytes) ↔ Cso.FullySpelled bytes) :=
  ⟨fun _ _ => Xgd1.Params.decode_eq_ok, fun _ _ => GcJunk.Params.decode_eq_ok,
    fun _ _ => WiiCrypt.Params.decode_eq_ok, Cso.decodeParams_unique_iff hdecode⟩

/-- No bytes and an empty map are both the defaults. -/
theorem defaults_encoded_twice :
    ¬ ∀ bytes other p, Cso.decodeParams bytes = .ok p → Cso.decodeParams other = .ok p →
      bytes = other := by
  intro hone
  have hmap : Cso.decodeParams [0xA0] = .ok default :=
    @Cso.decodeParams_mapBytes [] trivial (Nat.zero_le _)
  have hsame := hone [] [0xA0] default rfl hmap
  cases hsame

/-- Small blocks, fast, aligned to pairs. -/
def Cso.smallParams : Cso.CompressParams where
  blockSize := 512
  level := 1
  align := 1
  hsize := by decide
  hlevel := by decide
  halign := by decide

theorem params_encodings_small :
    Cso.decodeParams (Cso.spelled 512 1 1) = .ok Cso.smallParams ∧
      ∀ other, Cso.decodeParams other = .ok Cso.smallParams → other = Cso.spelled 512 1 1 := by
  have hkept : ∀ {P : Prop}, true = false → P := fun hfalse => (by cases hfalse)
  have hdecode : Cso.decodeParams (Cso.spelled 512 1 1) = .ok Cso.smallParams :=
    @Cso.decodeParams_spelling Cso.smallParams true true true hkept hkept hkept
  exact ⟨hdecode, (params_encodings (Cso.spelled 512 1 1) Cso.smallParams hdecode).2.2.2.mpr
    ⟨512, 1, 1, rfl, by decide, by decide, by decide⟩⟩

end Datboi
