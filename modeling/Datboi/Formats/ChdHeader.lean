import Datboi.Core.Host
import Datboi.Lib.Outcome
import Datboi.Lib.Wire

/-!
# Headers of compressed discs

Five versions of a header, all of fixed length. The last one derives its number of hunks, the
first two derive their size from a geometry, and versions one to four declare a number of hunks
that has to cover the size.
-/

namespace Datboi

namespace Chd

open Outcome (ensure mulIn)
open Reader (slice)
open Wire (ofBe)

inductive ChdError where
  | malformed (message : String)
  | unsupported (message : String)
  | io (e : IoError)
  deriving DecidableEq, Repr

abbrev Decode := Outcome ChdError

def malformed {α : Type} (message : String) : Decode α := .error (.malformed message)

/-! ## Codecs -/

def fourcc (tag : Bytes) : Nat := ofBe tag

abbrev CODEC_NONE : Nat := 0
abbrev CODEC_ZLIB : Nat := fourcc [0x7A, 0x6C, 0x69, 0x62]
abbrev CODEC_LZMA : Nat := fourcc [0x6C, 0x7A, 0x6D, 0x61]
abbrev CODEC_HUFFMAN : Nat := fourcc [0x68, 0x75, 0x66, 0x66]
abbrev CODEC_FLAC : Nat := fourcc [0x66, 0x6C, 0x61, 0x63]
abbrev CODEC_CD_ZLIB : Nat := fourcc [0x63, 0x64, 0x7A, 0x6C]
abbrev CODEC_CD_LZMA : Nat := fourcc [0x63, 0x64, 0x6C, 0x7A]
abbrev CODEC_CD_FLAC : Nat := fourcc [0x63, 0x64, 0x66, 0x6C]
abbrev CODEC_AVHUFF : Nat := fourcc [0x61, 0x76, 0x68, 0x75]

def legacyCodec : Nat → Option Nat
  | 0 => some CODEC_NONE
  | 1 => some CODEC_ZLIB
  | 2 => some CODEC_ZLIB
  | 3 => some CODEC_AVHUFF
  | _ => none

/-! ## Headers -/

def CHD_MAGIC : Bytes := [0x4D, 0x43, 0x6F, 0x6D, 0x70, 0x72, 0x48, 0x44]

abbrev CHD_V5_HEADER_LEN : Nat := 124
abbrev CHD_V1_HEADER_LEN : Nat := 76
abbrev CHD_V2_HEADER_LEN : Nat := 80
abbrev CHD_V3_HEADER_LEN : Nat := 120
abbrev CHD_V4_HEADER_LEN : Nat := 108

abbrev CHD_V1_SECTOR_SIZE : Nat := 512

structure ChdHeader where
  version : Nat
  logicalBytes : Nat
  hunkBytes : Nat
  unitBytes : Nat
  totalHunks : Nat
  mapOffset : Nat
  metaOffset : Nat
  compressors : List Nat
  rawSha1 : Option Bytes
  combinedSha1 : Option Bytes
  rawMd5 : Option Bytes
  hasParent : Bool
  deriving DecidableEq, Repr

/-- The version-dependent half of an old header. -/
structure Legacy where
  logicalBytes : Nat
  hunkBytes : Nat
  totalHunks : Nat
  metaOffset : Nat
  rawMd5 : Option Bytes
  rawSha1 : Option Bytes
  combinedSha1 : Option Bytes

def headerLen : Nat → Option Nat
  | 1 => some CHD_V1_HEADER_LEN
  | 2 => some CHD_V2_HEADER_LEN
  | 3 => some CHD_V3_HEADER_LEN
  | 4 => some CHD_V4_HEADER_LEN
  | 5 => some CHD_V5_HEADER_LEN
  | _ => none

/-- The field of `count` bytes at an offset. -/
def field (input : Bytes) (offset count : Nat) : Decode Bytes :=
  if offset + count ≤ input.length then .ok (slice input offset count)
  else malformed "CHD header truncated"

def be32 (input : Bytes) (offset : Nat) : Decode Nat := do
  let bytes ← field input offset 4
  pure (ofBe bytes)

def be64 (input : Bytes) (offset : Nat) : Decode Nat := do
  let bytes ← field input offset 8
  pure (ofBe bytes)

def hunkCount (logicalBytes hunkBytes : Nat) : Decode Nat :=
  if hunkBytes = 0 then malformed "CHD hunk size is zero"
  else
    let hunks := (logicalBytes + hunkBytes - 1) / hunkBytes
    if hunks < 2 ^ 32 then .ok hunks else malformed "CHD hunk count overflows u32"

def parseV5 (input : Bytes) : Decode ChdHeader := do
  let hunkBytes ← be32 input 56
  let logicalBytes ← be64 input 32
  let c₀ ← be32 input 16
  let c₁ ← be32 input 20
  let c₂ ← be32 input 24
  let c₃ ← be32 input 28
  let parent ← field input 104 20
  let unitBytes ← be32 input 60
  let totalHunks ← hunkCount logicalBytes hunkBytes
  let mapOffset ← be64 input 40
  let metaOffset ← be64 input 48
  let rawSha1 ← field input 64 20
  let combinedSha1 ← field input 84 20
  pure
    { version := 5
      logicalBytes
      hunkBytes
      unitBytes
      totalHunks
      mapOffset
      metaOffset
      compressors := [c₀, c₁, c₂, c₃]
      rawSha1 := some rawSha1
      combinedSha1 := some combinedSha1
      rawMd5 := none
      hasParent := parent ≠ List.replicate 20 0 }

/-- The first version does not store the length of a sector. -/
def sectorLength (input : Bytes) (version : Nat) : Decode Nat :=
  if version = 1 then pure CHD_V1_SECTOR_SIZE else be32 input 76

/-- A size that is given by cylinders, heads, sectors and the length of a sector. -/
def parseGeometry (input : Bytes) (version : Nat) : Decode Legacy := do
  let secLen ← sectorLength input version
  let sectors ← be32 input 24
  ensure (sectors * secLen < 2 ^ 32) (.malformed "CHD v1/v2 hunk size overflows")
  let cylinders ← be32 input 32
  let heads ← be32 input 36
  let tracks ← mulIn 64 cylinders heads
  let perTrack ← be32 input 40
  let all ← mulIn 64 tracks perTrack
  let logical ← mulIn 64 all secLen
  let totalHunks ← be32 input 28
  let rawMd5 ← field input 44 16
  pure
    { logicalBytes := logical
      hunkBytes := sectors * secLen
      totalHunks
      metaOffset := 0
      rawMd5 := some rawMd5
      rawSha1 := none
      combinedSha1 := none }

def parseV3 (input : Bytes) : Decode Legacy := do
  let logicalBytes ← be64 input 28
  let hunkBytes ← be32 input 76
  let totalHunks ← be32 input 24
  let metaOffset ← be64 input 36
  let rawMd5 ← field input 44 16
  let rawSha1 ← field input 80 20
  pure
    { logicalBytes
      hunkBytes
      totalHunks
      metaOffset
      rawMd5 := some rawMd5
      rawSha1 := some rawSha1
      combinedSha1 := none }

def parseV4 (input : Bytes) : Decode Legacy := do
  let logicalBytes ← be64 input 28
  let hunkBytes ← be32 input 44
  let totalHunks ← be32 input 24
  let metaOffset ← be64 input 36
  let rawSha1 ← field input 88 20
  let combinedSha1 ← field input 48 20
  pure
    { logicalBytes
      hunkBytes
      totalHunks
      metaOffset
      rawMd5 := none
      rawSha1 := some rawSha1
      combinedSha1 := some combinedSha1 }

def legacyHalf (input : Bytes) (version : Nat) : Decode Legacy :=
  if version ≤ 2 then parseGeometry input version
  else if version = 3 then parseV3 input
  else parseV4 input

/-- The shared half of the old versions: the declared hunks have to cover the size. -/
def parseLegacy (input : Bytes) (version want : Nat) : Decode ChdHeader := do
  let flags ← be32 input 16
  let compression ← be32 input 20
  match legacyCodec compression with
  | none => malformed s!"CHD v{version} declares unknown compression {compression}"
  | some codec =>
    let legacy ← legacyHalf input version
    let need ← hunkCount legacy.logicalBytes legacy.hunkBytes
    ensure (need ≤ legacy.totalHunks)
      (.malformed
        (s!"CHD v{version} declares {legacy.totalHunks} hunks but needs {need} for " ++
          s!"{legacy.logicalBytes} logical bytes"))
    pure
      { version
        logicalBytes := legacy.logicalBytes
        hunkBytes := legacy.hunkBytes
        unitBytes := legacy.hunkBytes
        totalHunks := legacy.totalHunks
        mapOffset := want
        metaOffset := legacy.metaOffset
        compressors := [codec, CODEC_NONE, CODEC_NONE, CODEC_NONE]
        rawSha1 := legacy.rawSha1
        combinedSha1 := legacy.combinedSha1
        rawMd5 := legacy.rawMd5
        hasParent := flags % 2 ≠ 0 }

def parseChecked (input : Bytes) : Decode ChdHeader := do
  let declaredLen ← be32 input 8
  let version ← be32 input 12
  match headerLen version with
  | none => malformed s!"unknown CHD version {version}"
  | some want =>
    ensure (want ≤ input.length)
      (.malformed s!"CHD v{version} header needs {want} bytes, got {input.length}")
    ensure (declaredLen = want)
      (.malformed s!"CHD v{version} declares a {declaredLen}-byte header, not {want}")
    if version = 5 then parseV5 input else parseLegacy input version want

/-- Nothing, if the bytes are not such a disc at all. -/
def tryParseHeader (input : Bytes) : Option (Decode ChdHeader) :=
  if CHD_MAGIC.isPrefixOf input then some (parseChecked input) else none

def parseHeader (input : Bytes) : Decode ChdHeader :=
  match tryParseHeader input with
  | some r => r
  | none => malformed "not a CHD (no MComprHD magic)"

/-! ## What a header promises -/

/-- The word at an offset. -/
def word (input : Bytes) (offset : Nat) : Nat := ofBe (slice input offset 4)

def sectorLen (input : Bytes) : Nat :=
  if word input 12 = 1 then CHD_V1_SECTOR_SIZE else word input 76

/-- The size that the geometry of the first two versions spells. -/
def geometry (input : Bytes) : Nat :=
  word input 32 * word input 36 * word input 40 * sectorLen input

/-- The geometry is multiplied from the left, in words of 64 bits. -/
def GeometryFits (input : Bytes) : Prop :=
  word input 32 * word input 36 * word input 40 < 2 ^ 64 ∧ geometry input < 2 ^ 64

/-- The hunks of a header cover its size. -/
structure Covers (input : Bytes) (header : ChdHeader) : Prop where
  hversion : header.version = word input 12 ∧ 1 ≤ header.version ∧ header.version ≤ 5
  hhunk : 0 < header.hunkBytes ∧ header.hunkBytes < 2 ^ 32
  hlogical : header.logicalBytes < 2 ^ 64
  htotal : header.totalHunks < 2 ^ 32
  hcover : header.logicalBytes ≤ header.totalHunks * header.hunkBytes
  htight : header.version = 5 →
    header.totalHunks * header.hunkBytes < header.logicalBytes + header.hunkBytes
  hunit : header.version ≤ 4 → header.unitBytes = header.hunkBytes
  hgeometry : header.version ≤ 2 → header.logicalBytes = geometry input

section Fields

variable {input bytes : Bytes} {offset count n : Nat}

theorem field_eq_ok (hfield : field input offset count = .ok bytes) :
    bytes = slice input offset count := by
  unfold field at hfield
  split at hfield
  · exact (Outcome.ok.inj hfield).symm
  · cases hfield

theorem field_ne_panic : field input offset count ≠ .panic := by
  unfold field
  split
  · exact fun h => by cases h
  · exact fun h => by cases h

theorem be32_eq_ok (hword : be32 input offset = .ok n) : n = word input offset := by
  obtain ⟨bytes, hbytes, heq⟩ := Outcome.bind_eq_ok.mp hword
  rw [field_eq_ok hbytes] at heq
  exact (Outcome.ok.inj heq).symm

theorem be64_eq_ok (hword : be64 input offset = .ok n) : n = ofBe (slice input offset 8) := by
  obtain ⟨bytes, hbytes, heq⟩ := Outcome.bind_eq_ok.mp hword
  rw [field_eq_ok hbytes] at heq
  exact (Outcome.ok.inj heq).symm

theorem be32_ne_panic : be32 input offset ≠ .panic :=
  Outcome.bind_ne_panic.mpr ⟨field_ne_panic, fun _ _ h => by cases h⟩

theorem be64_ne_panic : be64 input offset ≠ .panic :=
  Outcome.bind_ne_panic.mpr ⟨field_ne_panic, fun _ _ h => by cases h⟩

theorem word_lt (input : Bytes) (offset : Nat) : word input offset < 2 ^ 32 := by
  have hlt := Wire.ofBe_lt (slice input offset 4)
  have hlen : (slice input offset 4).length ≤ 4 := by
    rw [Reader.length_slice]
    exact Nat.min_le_left _ _
  exact hlt.trans_le (Nat.pow_le_pow_right (by decide) hlen)

theorem long_lt (input : Bytes) (offset : Nat) : ofBe (slice input offset 8) < 2 ^ 64 := by
  have hlt := Wire.ofBe_lt (slice input offset 8)
  have hlen : (slice input offset 8).length ≤ 8 := by
    rw [Reader.length_slice]
    exact Nat.min_le_left _ _
  exact hlt.trans_le (Nat.pow_le_pow_right (by decide) hlen)

theorem hunkCount_ne_panic {logicalBytes hunkBytes : Nat} :
    hunkCount logicalBytes hunkBytes ≠ .panic := by
  unfold hunkCount
  split
  · exact fun h => by cases h
  · simp only
    split
    · exact fun h => by cases h
    · exact fun h => by cases h

/-- The number of hunks is the least that covers the size. -/
theorem hunkCount_eq_ok {logicalBytes hunkBytes : Nat}
    (hcount : hunkCount logicalBytes hunkBytes = .ok n) :
    0 < hunkBytes ∧ n < 2 ^ 32 ∧ logicalBytes ≤ n * hunkBytes ∧
      n * hunkBytes < logicalBytes + hunkBytes := by
  unfold hunkCount at hcount
  split at hcount
  · cases hcount
  · rename_i hzero
    simp only at hcount
    split at hcount
    · rename_i hlt
      obtain rfl := Outcome.ok.inj hcount
      have hpos : 0 < hunkBytes := Nat.pos_of_ne_zero hzero
      have hdiv := Nat.div_mul_le_self (logicalBytes + hunkBytes - 1) hunkBytes
      have hmod := Nat.lt_div_mul_add (a := logicalBytes + hunkBytes - 1) hpos
      exact ⟨hpos, hlt, by omega, by omega⟩
    · cases hcount

end Fields

section Parsers

variable {input : Bytes} {header : ChdHeader} {legacy : Legacy} {version want : Nat}

theorem parseV5_ne_panic : parseV5 input ≠ .panic := by
  simp only [parseV5, Outcome.bind_ne_panic]
  exact ⟨be32_ne_panic, fun _ _ => ⟨be64_ne_panic, fun _ _ => ⟨be32_ne_panic, fun _ _ =>
    ⟨be32_ne_panic, fun _ _ => ⟨be32_ne_panic, fun _ _ => ⟨be32_ne_panic, fun _ _ =>
    ⟨field_ne_panic, fun _ _ => ⟨be32_ne_panic, fun _ _ => ⟨hunkCount_ne_panic, fun _ _ =>
    ⟨be64_ne_panic, fun _ _ => ⟨be64_ne_panic, fun _ _ => ⟨field_ne_panic, fun _ _ =>
    ⟨field_ne_panic, fun _ _ h => by cases h⟩⟩⟩⟩⟩⟩⟩⟩⟩⟩⟩⟩⟩

theorem covers_parseV5 (hversion : word input 12 = 5) (hparse : parseV5 input = .ok header) :
    Covers input header := by
  obtain ⟨hunkBytes, hhunk, hparse⟩ := Outcome.bind_eq_ok.mp hparse
  obtain ⟨logicalBytes, hlogical, hparse⟩ := Outcome.bind_eq_ok.mp hparse
  obtain ⟨c₀, -, hparse⟩ := Outcome.bind_eq_ok.mp hparse
  obtain ⟨c₁, -, hparse⟩ := Outcome.bind_eq_ok.mp hparse
  obtain ⟨c₂, -, hparse⟩ := Outcome.bind_eq_ok.mp hparse
  obtain ⟨c₃, -, hparse⟩ := Outcome.bind_eq_ok.mp hparse
  obtain ⟨parent, -, hparse⟩ := Outcome.bind_eq_ok.mp hparse
  obtain ⟨unitBytes, -, hparse⟩ := Outcome.bind_eq_ok.mp hparse
  obtain ⟨totalHunks, htotal, hparse⟩ := Outcome.bind_eq_ok.mp hparse
  obtain ⟨mapOffset, -, hparse⟩ := Outcome.bind_eq_ok.mp hparse
  obtain ⟨metaOffset, -, hparse⟩ := Outcome.bind_eq_ok.mp hparse
  obtain ⟨rawSha1, -, hparse⟩ := Outcome.bind_eq_ok.mp hparse
  obtain ⟨combinedSha1, -, hparse⟩ := Outcome.bind_eq_ok.mp hparse
  obtain rfl := Outcome.ok.inj hparse
  obtain ⟨hpos, hfits, hcover, htight⟩ := hunkCount_eq_ok htotal
  have hhunkLt : hunkBytes < 2 ^ 32 := by
    rw [be32_eq_ok hhunk]
    exact word_lt _ _
  have hlogicalLt : logicalBytes < 2 ^ 64 := by
    rw [be64_eq_ok hlogical]
    exact long_lt _ _
  exact
    { hversion := ⟨hversion.symm, Nat.le_add_left 1 4, Nat.le_refl 5⟩
      hhunk := ⟨hpos, hhunkLt⟩
      hlogical := hlogicalLt
      htotal := hfits
      hcover := hcover
      htight := fun _ => htight
      hunit := fun hle => absurd hle (Nat.not_succ_le_self 4)
      hgeometry := fun hle => absurd (Nat.le_trans hle (Nat.le_add_left 2 2))
        (Nat.not_succ_le_self 4) }

/-- What the version-dependent half of an old header promises. -/
structure LegacyExact (input : Bytes) (version : Nat) (legacy : Legacy) : Prop where
  hlogical : legacy.logicalBytes < 2 ^ 64
  hhunk : legacy.hunkBytes < 2 ^ 32
  htotal : legacy.totalHunks < 2 ^ 32
  hgeometry : version ≤ 2 → legacy.logicalBytes = geometry input

/-- The sector length as the geometry takes it. -/
theorem sectorLen_eq_ok {secLen : Nat} (hversion : word input 12 = version)
    (hlen : sectorLength input version = .ok secLen) : secLen = sectorLen input := by
  unfold sectorLen
  unfold sectorLength at hlen
  rw [hversion]
  split at hlen
  · rename_i hone
    rw [if_pos hone]
    exact (Outcome.ok.inj hlen).symm
  · rename_i hone
    rw [if_neg hone]
    exact be32_eq_ok hlen

theorem parseGeometry_ne_panic (hversion : word input 12 = version) (hfits : GeometryFits input) :
    parseGeometry input version ≠ .panic := by
  refine Outcome.bind_ne_panic.mpr ⟨?_, fun secLen hlen => ?_⟩
  · unfold sectorLength
    split
    · exact fun h => by cases h
    · exact be32_ne_panic
  refine Outcome.bind_ne_panic.mpr ⟨be32_ne_panic, fun sectors hsectors => ?_⟩
  refine Outcome.bind_ne_panic.mpr ⟨Outcome.ensure_ne_panic, fun _ _ => ?_⟩
  refine Outcome.bind_ne_panic.mpr ⟨be32_ne_panic, fun cylinders hcylinders => ?_⟩
  refine Outcome.bind_ne_panic.mpr ⟨be32_ne_panic, fun heads hheads => ?_⟩
  obtain rfl := sectorLen_eq_ok hversion hlen
  obtain rfl := be32_eq_ok hcylinders
  obtain rfl := be32_eq_ok hheads
  refine Outcome.bind_ne_panic.mpr ⟨Outcome.mulIn_ne_panic.mpr ?_, fun tracks htracks => ?_⟩
  · calc word input 32 * word input 36
        < 2 ^ 32 * 2 ^ 32 := Nat.mul_lt_mul'' (word_lt input 32) (word_lt input 36)
      _ = 2 ^ 64 := by decide
  obtain ⟨-, rfl⟩ := Outcome.mulIn_eq_ok.mp htracks
  refine Outcome.bind_ne_panic.mpr ⟨be32_ne_panic, fun perTrack hperTrack => ?_⟩
  obtain rfl := be32_eq_ok hperTrack
  refine Outcome.bind_ne_panic.mpr ⟨Outcome.mulIn_ne_panic.mpr hfits.1, fun all hall => ?_⟩
  obtain ⟨-, rfl⟩ := Outcome.mulIn_eq_ok.mp hall
  refine Outcome.bind_ne_panic.mpr ⟨Outcome.mulIn_ne_panic.mpr hfits.2, fun _ _ => ?_⟩
  exact Outcome.bind_ne_panic.mpr ⟨be32_ne_panic, fun _ _ =>
    Outcome.bind_ne_panic.mpr ⟨field_ne_panic, fun _ _ h => by cases h⟩⟩

theorem parseGeometry_exact (hversion : word input 12 = version)
    (hparse : parseGeometry input version = .ok legacy) : LegacyExact input version legacy := by
  obtain ⟨secLen, hlen, hparse⟩ := Outcome.bind_eq_ok.mp hparse
  obtain ⟨sectors, hsectors, hparse⟩ := Outcome.bind_eq_ok.mp hparse
  obtain ⟨_, hhunk, hparse⟩ := Outcome.bind_eq_ok.mp hparse
  obtain ⟨cylinders, hcylinders, hparse⟩ := Outcome.bind_eq_ok.mp hparse
  obtain ⟨heads, hheads, hparse⟩ := Outcome.bind_eq_ok.mp hparse
  obtain ⟨tracks, htracks, hparse⟩ := Outcome.bind_eq_ok.mp hparse
  obtain ⟨perTrack, hperTrack, hparse⟩ := Outcome.bind_eq_ok.mp hparse
  obtain ⟨all, hall, hparse⟩ := Outcome.bind_eq_ok.mp hparse
  obtain ⟨logical, hlogical, hparse⟩ := Outcome.bind_eq_ok.mp hparse
  obtain ⟨totalHunks, htotal, hparse⟩ := Outcome.bind_eq_ok.mp hparse
  obtain ⟨rawMd5, -, hparse⟩ := Outcome.bind_eq_ok.mp hparse
  obtain rfl := Outcome.ok.inj hparse
  obtain rfl := sectorLen_eq_ok hversion hlen
  obtain rfl := be32_eq_ok hcylinders
  obtain rfl := be32_eq_ok hheads
  obtain rfl := be32_eq_ok hperTrack
  obtain ⟨-, rfl⟩ := Outcome.mulIn_eq_ok.mp htracks
  obtain ⟨-, rfl⟩ := Outcome.mulIn_eq_ok.mp hall
  obtain ⟨hlt, rfl⟩ := Outcome.mulIn_eq_ok.mp hlogical
  have htotalLt : totalHunks < 2 ^ 32 := by
    rw [be32_eq_ok htotal]
    exact word_lt _ _
  exact
    { hlogical := hlt
      hhunk := Outcome.ensure_eq_ok.mp hhunk
      htotal := htotalLt
      hgeometry := fun _ => rfl }

theorem parseV3_ne_panic : parseV3 input ≠ .panic := by
  simp only [parseV3, Outcome.bind_ne_panic]
  exact ⟨be64_ne_panic, fun _ _ => ⟨be32_ne_panic, fun _ _ => ⟨be32_ne_panic, fun _ _ =>
    ⟨be64_ne_panic, fun _ _ => ⟨field_ne_panic, fun _ _ => ⟨field_ne_panic, fun _ _ h => by
      cases h⟩⟩⟩⟩⟩⟩

theorem parseV4_ne_panic : parseV4 input ≠ .panic := by
  simp only [parseV4, Outcome.bind_ne_panic]
  exact ⟨be64_ne_panic, fun _ _ => ⟨be32_ne_panic, fun _ _ => ⟨be32_ne_panic, fun _ _ =>
    ⟨be64_ne_panic, fun _ _ => ⟨field_ne_panic, fun _ _ => ⟨field_ne_panic, fun _ _ h => by
      cases h⟩⟩⟩⟩⟩⟩

/-- Versions three and four read their size. -/
theorem LegacyExact.of_words {logicalAt hunkAt totalAt : Nat}
    (hlogical : be64 input logicalAt = .ok legacy.logicalBytes)
    (hhunk : be32 input hunkAt = .ok legacy.hunkBytes)
    (htotal : be32 input totalAt = .ok legacy.totalHunks) (hversion : ¬ version ≤ 2) :
    LegacyExact input version legacy where
  hlogical := by
    rw [be64_eq_ok hlogical]
    exact long_lt _ _
  hhunk := by
    rw [be32_eq_ok hhunk]
    exact word_lt _ _
  htotal := by
    rw [be32_eq_ok htotal]
    exact word_lt _ _
  hgeometry := fun hle => absurd hle hversion

theorem parseV3_exact (hversion : ¬ version ≤ 2) (hparse : parseV3 input = .ok legacy) :
    LegacyExact input version legacy := by
  obtain ⟨logicalBytes, hlogical, hparse⟩ := Outcome.bind_eq_ok.mp hparse
  obtain ⟨hunkBytes, hhunk, hparse⟩ := Outcome.bind_eq_ok.mp hparse
  obtain ⟨totalHunks, htotal, hparse⟩ := Outcome.bind_eq_ok.mp hparse
  obtain ⟨metaOffset, -, hparse⟩ := Outcome.bind_eq_ok.mp hparse
  obtain ⟨rawMd5, -, hparse⟩ := Outcome.bind_eq_ok.mp hparse
  obtain ⟨rawSha1, -, hparse⟩ := Outcome.bind_eq_ok.mp hparse
  obtain rfl := Outcome.ok.inj hparse
  exact .of_words hlogical hhunk htotal hversion

theorem parseV4_exact (hversion : ¬ version ≤ 2) (hparse : parseV4 input = .ok legacy) :
    LegacyExact input version legacy := by
  obtain ⟨logicalBytes, hlogical, hparse⟩ := Outcome.bind_eq_ok.mp hparse
  obtain ⟨hunkBytes, hhunk, hparse⟩ := Outcome.bind_eq_ok.mp hparse
  obtain ⟨totalHunks, htotal, hparse⟩ := Outcome.bind_eq_ok.mp hparse
  obtain ⟨metaOffset, -, hparse⟩ := Outcome.bind_eq_ok.mp hparse
  obtain ⟨rawSha1, -, hparse⟩ := Outcome.bind_eq_ok.mp hparse
  obtain ⟨combinedSha1, -, hparse⟩ := Outcome.bind_eq_ok.mp hparse
  obtain rfl := Outcome.ok.inj hparse
  exact .of_words hlogical hhunk htotal hversion

theorem parseLegacy_ne_panic (hversion : word input 12 = version)
    (hfits : version ≤ 2 → GeometryFits input) : parseLegacy input version want ≠ .panic := by
  refine Outcome.bind_ne_panic.mpr ⟨be32_ne_panic, fun flags _ => ?_⟩
  refine Outcome.bind_ne_panic.mpr ⟨be32_ne_panic, fun compression _ => ?_⟩
  split
  · exact fun h => by cases h
  · refine Outcome.bind_ne_panic.mpr ⟨?_, fun legacy _ => ?_⟩
    · unfold legacyHalf
      split
      · rename_i hold
        exact parseGeometry_ne_panic hversion (hfits hold)
      · split
        · exact parseV3_ne_panic
        · exact parseV4_ne_panic
    · exact Outcome.bind_ne_panic.mpr ⟨hunkCount_ne_panic, fun _ _ =>
        Outcome.bind_ne_panic.mpr ⟨Outcome.ensure_ne_panic, fun _ _ h => by cases h⟩⟩

theorem covers_parseLegacy (hversion : word input 12 = version) (hpos : 1 ≤ version)
    (hle : version ≤ 4) (hparse : parseLegacy input version want = .ok header) :
    Covers input header := by
  obtain ⟨flags, -, hparse⟩ := Outcome.bind_eq_ok.mp hparse
  obtain ⟨compression, -, hparse⟩ := Outcome.bind_eq_ok.mp hparse
  split at hparse
  · cases hparse
  · obtain ⟨legacy, hlegacy, hparse⟩ := Outcome.bind_eq_ok.mp hparse
    obtain ⟨need, hneed, hparse⟩ := Outcome.bind_eq_ok.mp hparse
    obtain ⟨_, henough, hparse⟩ := Outcome.bind_eq_ok.mp hparse
    obtain rfl := Outcome.ok.inj hparse
    have hexact : LegacyExact input version legacy := by
      unfold legacyHalf at hlegacy
      split at hlegacy
      · exact parseGeometry_exact hversion hlegacy
      · rename_i hnew
        split at hlegacy
        · exact parseV3_exact hnew hlegacy
        · exact parseV4_exact hnew hlegacy
    obtain ⟨hhunk, -, hcover, -⟩ := hunkCount_eq_ok hneed
    have hmore := Nat.mul_le_mul_right legacy.hunkBytes (Outcome.ensure_eq_ok.mp henough)
    exact
      { hversion := ⟨hversion.symm, hpos, hle.trans (by decide)⟩
        hhunk := ⟨hhunk, hexact.hhunk⟩
        hlogical := hexact.hlogical
        htotal := hexact.htotal
        hcover := hcover.trans hmore
        htight := fun hfive => by
          have hnot : version = 5 := hfive
          omega
        hunit := fun _ => rfl
        hgeometry := hexact.hgeometry }

theorem headerLen_range (hlen : headerLen version = some want) : 1 ≤ version ∧ version ≤ 5 := by
  unfold headerLen at hlen
  split at hlen <;> first | omega | cases hlen

theorem parseChecked_ne_panic (hfits : word input 12 ≤ 2 → GeometryFits input) :
    parseChecked input ≠ .panic := by
  refine Outcome.bind_ne_panic.mpr ⟨be32_ne_panic, fun declaredLen _ => ?_⟩
  refine Outcome.bind_ne_panic.mpr ⟨be32_ne_panic, fun version hversion => ?_⟩
  obtain rfl := be32_eq_ok hversion
  split
  · exact fun h => by cases h
  · refine Outcome.bind_ne_panic.mpr ⟨Outcome.ensure_ne_panic, fun _ _ => ?_⟩
    refine Outcome.bind_ne_panic.mpr ⟨Outcome.ensure_ne_panic, fun _ _ => ?_⟩
    split
    · exact parseV5_ne_panic
    · exact parseLegacy_ne_panic rfl hfits

theorem covers_parseChecked (hparse : parseChecked input = .ok header) : Covers input header := by
  obtain ⟨declaredLen, -, hparse⟩ := Outcome.bind_eq_ok.mp hparse
  obtain ⟨version, hversion, hparse⟩ := Outcome.bind_eq_ok.mp hparse
  obtain rfl := be32_eq_ok hversion
  split at hparse
  · cases hparse
  · rename_i want hlen
    obtain ⟨-, -, hparse⟩ := Outcome.bind_eq_ok.mp hparse
    obtain ⟨-, -, hparse⟩ := Outcome.bind_eq_ok.mp hparse
    obtain ⟨hpos, hle⟩ := headerLen_range hlen
    split at hparse
    · rename_i hfive
      exact covers_parseV5 hfive hparse
    · exact covers_parseLegacy rfl hpos (by omega) hparse

theorem parseHeader_ne_panic (hfits : word input 12 ≤ 2 → GeometryFits input) :
    parseHeader input ≠ .panic := by
  unfold parseHeader tryParseHeader
  split
  · rename_i r hr
    split at hr
    · obtain rfl := Option.some.inj hr
      exact parseChecked_ne_panic hfits
    · cases hr
  · exact fun h => by cases h

theorem covers_parseHeader (hparse : parseHeader input = .ok header) : Covers input header := by
  unfold parseHeader tryParseHeader at hparse
  split at hparse
  · rename_i r hr
    split at hr
    · obtain rfl := Option.some.inj hr
      exact covers_parseChecked hparse
    · cases hr
  · cases hparse

end Parsers

/-- A header of version three that declares five hunks for no data. -/
def spareHunks : Bytes :=
  CHD_MAGIC ++ Wire.toBe 4 120 ++ Wire.toBe 4 3 ++ List.replicate 8 0 ++ Wire.toBe 4 5 ++
    List.replicate 48 0 ++ Wire.toBe 4 1 ++ List.replicate 40 0

/-- A header of version five whose units are empty. -/
def emptyUnits : Bytes :=
  CHD_MAGIC ++ Wire.toBe 4 124 ++ Wire.toBe 4 5 ++ List.replicate 40 0 ++ Wire.toBe 4 1 ++
    List.replicate 64 0

end Chd

open Chd (Covers GeometryFits emptyUnits parseHeader spareHunks word)

/-- If the geometry of the first two versions fits 64 bits, no arithmetic of the header parser
overflows, and a header's hunks are not empty and cover its size; in version five they are as
few as that takes, and in the other versions a unit is a hunk. -/
theorem parseHeader_covers (input : Bytes)
    (hgeometry : word input 12 ≤ 2 → GeometryFits input) :
    parseHeader input ≠ .panic ∧
      ∀ header, parseHeader input = .ok header → Covers input header :=
  ⟨Chd.parseHeader_ne_panic hgeometry, fun _ hparse => Chd.covers_parseHeader hparse⟩

theorem parseHeader_covers_spareHunks :
    parseHeader spareHunks ≠ .panic ∧
      ∀ header, parseHeader spareHunks = .ok header → Covers spareHunks header :=
  parseHeader_covers spareHunks fun hold => absurd hold (by decide)

/-- The hunks of an old header may be more than its size needs, and the units of a new one may
be empty. -/
theorem spareHunks_not_tight :
    (∃ header, parseHeader spareHunks = .ok header ∧
        ¬ header.totalHunks * header.hunkBytes < header.logicalBytes + header.hunkBytes) ∧
      ∃ header, parseHeader emptyUnits = .ok header ∧ header.unitBytes = 0 := by
  constructor
  · exact
      ⟨{ version := 3
         logicalBytes := 0
         hunkBytes := 1
         unitBytes := 1
         totalHunks := 5
         mapOffset := 120
         metaOffset := 0
         compressors := [0, 0, 0, 0]
         rawSha1 := some (List.replicate 20 0)
         combinedSha1 := none
         rawMd5 := some (List.replicate 16 0)
         hasParent := false }, by decide +kernel, by decide⟩
  · exact
      ⟨{ version := 5
         logicalBytes := 0
         hunkBytes := 1
         unitBytes := 0
         totalHunks := 0
         mapOffset := 0
         metaOffset := 0
         compressors := [0, 0, 0, 0]
         rawSha1 := some (List.replicate 20 0)
         combinedSha1 := some (List.replicate 20 0)
         rawMd5 := none
         hasParent := false }, by decide +kernel, by decide⟩

end Datboi
