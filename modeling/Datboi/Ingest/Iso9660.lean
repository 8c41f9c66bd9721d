import Datboi.Ingest.Extents

/-!
# The ISO 9660 reader

The primary volume descriptor leads to a tree of directory tables, each a run of records.
The walk keeps the tables it has visited, refuses a second visit, and so terminates on any
bytes. The whole image then becomes a coverage map of the extents and the gaps between them.
-/

namespace Datboi

open Reader (slice)
open Nds (Coverage Region)

namespace Iso9660

def sector : Nat := 2048
def pvdSector : Nat := 16
def pvdType : UInt8 := 1
/-- The five characters of the standard identifier. -/
def standardId : Bytes := [0x43, 0x44, 0x30, 0x30, 0x31]
def flagDirectory : UInt8 := 0x02
def flagMultiExtent : UInt8 := 0x80
def maxDepth : Nat := 32
def maxEntries : Nat := 2 ^ 16
def maxDescriptors : Nat := 64
def terminatorType : UInt8 := 0xFF
def residueFloor : Nat := 4 * 2 ^ 20
def maxDirExtent : Nat := 16 * 2 ^ 20
/-- Files this long are read once to see whether they are uniform. -/
def uniformFileMin : Nat := 2 ^ 20
def uniformChunk : Nat := 2 ^ 20

inductive Refusal where
  | notIso9660
  | structural (what : String)
  | truncated (what : String)
  | overlap (first second : String)
  | excessResidue (residual total : Nat)
  deriving DecidableEq, Repr

abbrev Parsed := Except (Failure Refusal)

/-- One extent of the volume: a file or a directory's record table. -/
structure Entry where
  path : String
  lba : Nat
  len : Nat
  isDir : Bool
  deriving DecidableEq, Repr

structure Volume where
  sectors : Nat
  entries : List Entry
  fileCount : Nat
  dirCount : Nat
  emptyFiles : Nat
  multiExtentFiles : Nat
  descriptorSectors : Nat
  deriving DecidableEq, Repr

def looksLikePvd (bytes : Bytes) : Bool :=
  7 ≤ bytes.length && bytes.getD 0 0 = pvdType && slice bytes 1 5 = standardId

/-- The identifiers of ECMA-167 volume recognition descriptors. -/
def ecma167Ids : List Bytes :=
  [[0x42, 0x45, 0x41, 0x30, 0x31], [0x4E, 0x53, 0x52, 0x30, 0x32], [0x4E, 0x53, 0x52, 0x30, 0x33],
    [0x54, 0x45, 0x41, 0x30, 0x31], [0x42, 0x4F, 0x4F, 0x54, 0x32], [0x43, 0x44, 0x57, 0x30, 0x32]]

/-- Count the descriptors, `n` so far, through the set's terminator. -/
def descriptorSet (image : Bytes) (base limit n : Nat) : Parsed Nat :=
  let start := (pvdSector + n) * sector
  if limit < start + sector ∨ maxDescriptors < n then
    .error (.refused (.structural "no volume descriptor set terminator"))
  else
    match readAt image (base + start) 7 with
    | .error e => .error e
    | .ok vd =>
      let id := slice vd 1 5
      if id ≠ standardId ∧ id ∉ ecma167Ids then
        .error (.refused (.structural
          ("descriptor " ++ toString n ++ " lacks the CD001 identifier")))
      else if vd.getD 0 0 = terminatorType ∧ id = standardId then .ok (n + 1)
      else descriptorSet image base limit (n + 1)
termination_by maxDescriptors + 1 - n
decreasing_by omega

/-- A directory still to be visited. -/
structure Dir where
  lba : Nat
  len : Nat
  path : String
  depth : Nat
  deriving DecidableEq, Repr

/-- What the walk has found. -/
structure Walk where
  entries : List Entry := []
  fileCount : Nat := 0
  dirCount : Nat := 0
  emptyFiles : Nat := 0
  multiExtentFiles : Nat := 0
  deriving DecidableEq, Repr

/-- The walk inside one directory: the multi-extent file that the next record may
continue, what was found, and the directories to visit, the last one first. -/
structure Scan where
  continued : Option (String × Nat) := none
  walk : Walk
  stack : List Dir
  deriving DecidableEq, Repr

def Dir.refuse {α : Type} (dir : Dir) (what : String) : Parsed α :=
  .error (.refused (.structural ((if dir.path = "" then "/" else dir.path) ++ ": " ++ what)))

/-- A path up to its version suffix. -/
def stripVersion (name : String) : String := String.ofList (name.toList.takeWhile (· ≠ ';'))

/-- The cap on the tree, checked after a record that added to it. -/
def Scan.capped (dir : Dir) (scan : Scan) : Parsed Scan :=
  if maxEntries < scan.walk.entries.length then dir.refuse "more entries than the tree cap"
  else .ok scan

/-- Which extent of a file of this name the next record is. -/
def Scan.ordinal (scan : Scan) (full : String) : Nat :=
  match scan.continued with
  | some (previous, k) => if previous = full then k + 1 else 0
  | none => 0

/-- A file counts at its first extent, and as multi-extent at its second. -/
def Walk.countFile (walk : Walk) (ordinal : Nat) : Walk :=
  if ordinal = 0 then { walk with fileCount := walk.fileCount + 1 }
  else if ordinal = 1 then { walk with multiExtentFiles := walk.multiExtentFiles + 1 }
  else walk

/-- A file record: one extent of a file that may have several. -/
def fileRecord (dir : Dir) (limit : Nat) (full : String) (lba len : Nat) (flags : UInt8)
    (scan : Scan) : Parsed Scan :=
  let ordinal := scan.ordinal full
  let continued := if flags &&& flagMultiExtent ≠ 0 then some (full, ordinal) else none
  if ordinal = 0 ∧ len = 0 ∧ flags &&& flagMultiExtent = 0 then
    .ok ⟨continued, { scan.walk with emptyFiles := scan.walk.emptyFiles + 1 }, scan.stack⟩
  else
    let walk := scan.walk.countFile ordinal
    if len = 0 then .ok ⟨continued, walk, scan.stack⟩
    else if limit < lba * sector + len then dir.refuse (full ++ " extends past the volume limit")
    else
      let path := if ordinal = 0 then full else full ++ "#" ++ toString ordinal
      Scan.capped dir ⟨continued,
        { walk with entries := walk.entries ++ [⟨path, lba, len, false⟩] }, scan.stack⟩

/-- One record of a directory table; `lossy` is the lossy decoding of names. -/
def record (lossy : Bytes → String) (dir : Dir) (limit : Nat) (bytes : Bytes) (scan : Scan) :
    Parsed Scan :=
  let nameLen := (bytes.getD 32 0).toNat
  if bytes.length < 33 + nameLen then
    dir.refuse ("record name of " ++ toString nameLen ++ " bytes overruns the record")
  else
    let name := slice bytes 33 nameLen
    if name = [0] ∨ name = [1] then .ok scan
    else if bytes.getD 26 0 ≠ 0 ∨ bytes.getD 27 0 ≠ 0 then dir.refuse "interleaved file"
    else
      let flags := bytes.getD 25 0
      let lba := u32At bytes 2
      let len := u32At bytes 10
      let full := dir.path ++ "/" ++ stripVersion (lossy name)
      if flags &&& flagDirectory ≠ 0 then
        Scan.capped dir ⟨none, scan.walk, ⟨lba, len, full, dir.depth + 1⟩ :: scan.stack⟩
      else fileRecord dir limit full lba len flags scan

/-- The records of a table from `off` on. Records never straddle a sector: a zero length
byte pads the rest of it. -/
def records (lossy : Bytes → String) (dir : Dir) (limit : Nat) (table : Bytes) (off : Nat)
    (scan : Scan) : Parsed Scan :=
  if table.length ≤ off then .ok scan
  else
    let recLen := (table.getD off 0).toNat
    if recLen = 0 then records lossy dir limit table ((off / sector + 1) * sector) scan
    else if recLen < 33 ∨ table.length < off + recLen then
      dir.refuse ("record at " ++ toString off ++ " has length " ++ toString recLen)
    else
      match record lossy dir limit (slice table off recLen) scan with
      | .error e => .error e
      | .ok scan => records lossy dir limit table (off + recLen) scan
termination_by table.length - off
decreasing_by
  · have hnext : off < (off / sector + 1) * sector := by
      rw [Nat.mul_comm]
      exact Nat.lt_mul_div_succ off (by decide)
    omega
  · omega

/-- The block addresses of the limit that no visited table has. -/
def unseen (limit : Nat) (seen : List Nat) : List Nat :=
  (List.range (limit / sector + 1)).filter fun lba => lba ∉ seen

/-- The checks on a directory before its table is read. -/
def admits (limit : Nat) (seen : List Nat) (dir : Dir) : Parsed Unit :=
  if maxDepth < dir.depth then dir.refuse "tree deeper than 32 levels"
  else if dir.len = 0 ∨ maxDirExtent < dir.len then
    dir.refuse ("directory extent of " ++ toString dir.len ++ " bytes")
  else if limit < dir.lba * sector + dir.len then
    dir.refuse "directory extent past the partition"
  else if dir.lba ∈ seen then dir.refuse "directory extent referenced twice"
  else .ok ()

section

variable {dir : Dir} {seen : List Nat} {limit : Nat} (hadmitted : admits limit seen dir = .ok ())

include hadmitted

theorem admit_eq_ok : 0 < dir.len ∧ dir.lba * sector + dir.len ≤ limit ∧ dir.lba ∉ seen := by
  unfold admits Dir.refuse at hadmitted
  split at hadmitted
  · cases hadmitted
  split at hadmitted
  · cases hadmitted
  split at hadmitted
  · cases hadmitted
  split at hadmitted
  · cases hadmitted
  · rename_i _ hlen hlimit hseen
    exact ⟨by omega, by omega, hseen⟩

/-- A table that is visited is no longer among the unseen. -/
theorem unseen_lt : (unseen limit (dir.lba :: seen)).length < (unseen limit seen).length := by
  obtain ⟨_, hlimit, hnot⟩ := admit_eq_ok hadmitted
  have hrange : dir.lba ∈ unseen limit seen := by
    have hlimit : dir.lba * 2048 + dir.len ≤ limit := hlimit
    have hlt : dir.lba < limit / 2048 + 1 := by omega
    simp only [unseen, List.mem_filter, List.mem_range, decide_eq_true_eq]
    exact ⟨hlt, hnot⟩
  have hfilter : unseen limit (dir.lba :: seen) =
      (unseen limit seen).filter fun lba => lba ≠ dir.lba := by
    simp only [unseen, List.filter_filter]
    congr 1
    funext lba
    simp [Bool.decide_and, not_or]
  rw [hfilter]
  exact List.length_filter_lt_length_iff_exists.mpr ⟨dir.lba, hrange, by simp⟩

end

/-- Visit the directories on the stack; the tables visited so far are in `seen`. -/
def visit (lossy : Bytes → String) (image : Bytes) (base limit : Nat) (seen : List Nat)
    (walk : Walk) : List Dir → Parsed Walk
  | [] => .ok walk
  | dir :: stack =>
    match _hadmitted : admits limit seen dir with
    | .error e => .error e
    | .ok () =>
      let path := if dir.path = "" then "/" else dir.path
      let walk := { walk with
        dirCount := walk.dirCount + 1
        entries := walk.entries ++ [⟨path, dir.lba, dir.len, true⟩] }
      match readAt image (base + dir.lba * sector) dir.len with
      | .error e => .error e
      | .ok table =>
        match records lossy dir limit table 0 ⟨none, walk, stack⟩ with
        | .error e => .error e
        | .ok scan => visit lossy image base limit (dir.lba :: seen) scan.walk scan.stack
termination_by (unseen limit seen).length
decreasing_by exact unseen_lt _hadmitted

/-- The volume at byte offset `base`; every extent must lie within `limit` bytes of it. -/
def parseVolume (lossy : Bytes → String) (image : Bytes) (base limit : Nat) : Parsed Volume :=
  if limit < pvdSector * sector + sector then .error (.refused .notIso9660)
  else
    match readAt image (base + pvdSector * sector) 2048 with
    | .error e => .error e
    | .ok pvd =>
      let block := u16At pvd 128
      let root := slice pvd 156 34
      if looksLikePvd pvd = false then .error (.refused .notIso9660)
      else if block ≠ 2048 then
        .error (.refused (.structural
          ("logical block size " ++ toString block ++ ", not 2048")))
      else if root.getD 25 0 &&& flagDirectory = 0 then
        .error (.refused (.structural "root record is not a directory"))
      else
        match descriptorSet image base limit 1 with
        | .error e => .error e
        | .ok descriptorSectors =>
          match visit lossy image base limit [] {} [⟨u32At root 2, u32At root 10, "", 0⟩] with
          | .error e => .error e
          | .ok walk => .ok
              { sectors := u32At pvd 80
                entries := walk.entries
                fileCount := walk.fileCount
                dirCount := walk.dirCount
                emptyFiles := walk.emptyFiles
                multiExtentFiles := walk.multiExtentFiles
                descriptorSectors := descriptorSectors }

/-! ## The whole image -/

structure Layout where
  totalLen : Nat
  declaredSectors : Nat
  pieces : List Nds.Piece
  regions : List Region
  fileCount : Nat
  dirCount : Nat
  emptyFiles : Nat
  multiExtentFiles : Nat
  uniformFiles : Nat
  fillBytes : Nat
  residualBytes : Nat
  coalesced : Bool
  deriving DecidableEq, Repr

/-- One declared byte range of the image. -/
structure Declared where
  name : String
  start : Nat
  len : Nat
  deriving DecidableEq, Repr

def Declared.span (d : Declared) : Nat × Nat := (d.start, d.len)

/-- What the volume declares: its extents, and the descriptor set. -/
def Volume.declared (vol : Volume) : List Declared :=
  (vol.entries.map fun e =>
    ⟨if e.isDir then "dir:" ++ e.path else e.path, e.lba * sector, e.len⟩) ++
    [⟨"descriptors", pvdSector * sector, vol.descriptorSectors * sector⟩]

/-- Read on from `pos` while every byte is `byte`, which the first byte read sets. -/
def uniformFrom (image : Bytes) (pos remaining : Nat) (byte : Option UInt8) :
    Parsed (Option UInt8) :=
  if remaining = 0 then .ok byte
  else
    let want := min remaining uniformChunk
    match readAt image pos want with
    | .error e => .error e
    | .ok chunk =>
      let b := byte.getD (chunk.getD 0 0)
      if chunk.any (· ≠ b) then .ok none
      else uniformFrom image (pos + want) (remaining - want) (some b)
termination_by remaining
decreasing_by
  have : 0 < uniformChunk := by decide
  omega

/-- The byte that a range repeats, if it repeats one. -/
def uniformByte (image : Bytes) (start len : Nat) : Parsed (Option UInt8) :=
  uniformFrom image start len none

/-- Does the name label a directory table? -/
def isDirName (name : String) : Bool := "dir:".toList.isPrefixOf name.toList

/-- Each extent with the byte it repeats; only long files are read. -/
def markUniform (image : Bytes) : List Declared → Parsed (List (Declared × Option UInt8))
  | [] => .ok []
  | d :: rest =>
    let byte := if uniformFileMin ≤ d.len ∧ ¬ isDirName d.name then
        uniformByte image d.start d.len else .ok none
    match byte with
    | .error e => .error e
    | .ok byte =>
      match markUniform image rest with
      | .error e => .error e
      | .ok marked => .ok ((d, byte) :: marked)

def roundDown (n : Nat) : Nat := n / sector * sector

def roundUp (n : Nat) : Nat := (n + sector - 1) / sector * sector

/-- The sector-aligned run around one extent. -/
def runOf (d : Declared) : Declared :=
  let start := roundDown d.start
  ⟨"extent@0x" ++ hexPadded 9 start, start, roundUp (d.start + d.len) - start⟩

/-- An extent joins the last run when it does not start behind its end; a uniform file
stays on its own. -/
def joinRun (runs : List (Declared × Option UInt8)) :
    Declared × Option UInt8 → List (Declared × Option UInt8)
  | (d, some byte) => runs ++ [(d, some byte)]
  | (d, none) =>
    match runs.getLast? with
    | some (last, none) =>
      let stop := last.start + last.len
      if roundDown d.start ≤ stop then
        runs.dropLast ++
          [({ last with len := max (roundUp (d.start + d.len)) stop - last.start }, none)]
      else runs ++ [(runOf d, none)]
    | _ => runs ++ [(runOf d, none)]

def coalesce (marked : List (Declared × Option UInt8)) : List (Declared × Option UInt8) :=
  marked.foldl joinRun []

/-- Lay down the declared ranges in order, with every gap before them classified. -/
def cover (checks : Bool) (image : Bytes) (cursor : Nat) (map : Coverage) :
    List (Declared × Option UInt8) → Parsed (Nat × Coverage)
  | [] => .ok (cursor, map)
  | (d, byte) :: rest =>
    match subU64 checks d.start cursor with
    | .error e => .error e
    | .ok gap =>
      match Nds.classifyGap image cursor gap map with
      | .error e => .error e
      | .ok map =>
        let map := match byte with
          | some byte => map.pushRegion (.fill byte d.len)
          | none => map.pushPiece ⟨d.name, d.start, d.len⟩
        cover checks image (d.start + d.len) map rest

/-- The coverage walk up to the end of the image. -/
def coverAll (checks : Bool) (image : Bytes) (declared : List (Declared × Option UInt8)) :
    Parsed Coverage :=
  match cover checks image 0 {} declared with
  | .error e => .error e
  | .ok (cursor, map) =>
    match subU64 checks image.length cursor with
    | .error e => .error e
    | .ok gap => Nds.classifyGap image cursor gap map

def fillLen : Region → Nat
  | .fill _ len => len
  | _ => 0

/-- `parse_layout`; `checks` says whether the build checks its arithmetic. -/
def parseLayout (lossy : Bytes → String) (checks : Bool) (image : Image) (maxPieces : Nat) :
    Parsed Layout :=
  let totalLen := image.bytes.length
  match parseVolume lossy image.bytes 0 totalLen with
  | .error e => .error e
  | .ok vol =>
    let declared := Extents.dedup Declared.span (Extents.sort Declared.span vol.declared)
    match Extents.overlap? Declared.span declared with
    | some (a, b) => .error (.refused (.overlap a.name b.name))
    | none =>
      match markUniform image.bytes declared with
      | .error e => .error e
      | .ok marked =>
        let coalesced : Bool := maxPieces < declared.length
        match coverAll checks image.bytes (if coalesced then coalesce marked else marked) with
        | .error e => .error e
        | .ok map =>
          if totalLen / 4 < map.residualBytes ∧ residueFloor < map.residualBytes then
            .error (.refused (.excessResidue map.residualBytes totalLen))
          else .ok
            { totalLen := totalLen
              declaredSectors := vol.sectors
              pieces := map.pieces
              regions := map.regions
              fileCount := vol.fileCount
              dirCount := vol.dirCount
              emptyFiles := vol.emptyFiles
              multiExtentFiles := vol.multiExtentFiles
              uniformFiles := marked.countP fun d => d.2.isSome
              fillBytes := (map.regions.map fillLen).sum
              residualBytes := map.residualBytes
              coalesced := coalesced }

end Iso9660

end Datboi
