import Datboi.Xf.Params
import Datboi.Xf.WiiCryptExact

/-!
# Windows of a partition body

Encrypted windows are served by the hash groups they touch, and decrypted ones by the sectors
they touch. Either way the window is the slice of what a run over the whole body writes, and
decrypting a run of the encryption gives the plaintext back.
-/

namespace Datboi.WiiCrypt

open Guest (Program)
open Reader (slice)
open Xf (Shape collect)

variable (prims : Primitives)

abbrev GROUP_DATA_LEN : Nat := GROUP_SECTORS * DATA_LEN

/-! ## Serving windows -/

def readExactAt (ix offset n : Nat) (what : String) (next : Bytes → Program UInt8) :
    Program UInt8 :=
  .readAt ix offset n fun bytes =>
    if bytes.length ≠ n then
      .refuse s!"{what}: wanted {n} bytes at {offset}, got {bytes.length}"
    else next bytes

/-- What the window has of a piece of `len` bytes that starts at `base`. -/
def clip (piece : Bytes) (base len start stop : Nat) : Bytes :=
  let lo := max start base - base
  let hi := min stop (base + len) - base
  slice piece lo (hi - lo)

/-- The touched groups in order; of each, the touched sectors. -/
def serveGroups (key : Key) (p : Params) (start stop firstSector lastSector : Nat) :
    List Nat → Program UInt8
  | [] => .done
  | g :: gs =>
    let n := groupSectors p g
    readExactAt 0 (g * GROUP_DATA_LEN) (n * DATA_LEN) "plaintext group" fun data =>
      let hashes := GroupHashes.compute prims data
      let s0 := max firstSector (g * GROUP_SECTORS)
      let s1 := min lastSector (g * GROUP_SECTORS + n - 1)
      let sectors := (List.range' s0 (s1 + 1 - s0)).map fun sector =>
        let s := sector - g * GROUP_SECTORS
        let out := encryptSector prims key hashes s (slice data (s * DATA_LEN) DATA_LEN)
        clip out (sector * SECTOR_LEN) SECTOR_LEN start stop
      .writeAll 0 sectors (serveGroups key p start stop firstSector lastSector gs)

/-- The touched sectors in order. -/
def serveSectors (key : Key) (start stop : Nat) : List Nat → Program UInt8
  | [] => .done
  | sector :: sectors =>
    readExactAt 0 (sector * SECTOR_LEN) SECTOR_LEN "encrypted sector" fun enc =>
      .write 0 (clip (decryptData prims key enc) (sector * DATA_LEN) DATA_LEN start stop)
        (serveSectors key start stop sectors)

def serveBody (op : Op) (p : Params) (key : Key) (offset len : UInt64) : Program UInt8 :=
  match op with
  | .encrypt =>
    let (start, stop) := Xf.window offset len p.encryptedLen
    if stop ≤ start then .done
    else
      let firstSector := start / SECTOR_LEN
      let lastSector := (stop - 1) / SECTOR_LEN
      let firstGroup := firstSector / GROUP_SECTORS
      let lastGroup := lastSector / GROUP_SECTORS
      serveGroups prims key p start stop firstSector lastSector
        (List.range' firstGroup (lastGroup - firstGroup + 1))
  | .decrypt =>
    let (start, stop) := Xf.window offset len p.plainLen
    if stop ≤ start then .done
    else
      let first := start / DATA_LEN
      let last := (stop - 1) / DATA_LEN
      serveSectors prims key start stop (List.range' first (last - first + 1))

def serveParams (op : Op) (p : Params) (inputs : List Shape) (outputIx : Nat)
    (offset len : UInt64) : Program UInt8 :=
  match inputs with
  | [bodyShape, keyShape] =>
    if outputIx ≠ 0 then .refuse s!"no output {outputIx}: {op.name} is 1-output"
    else
      commonKey keyShape fun common =>
        match bodyShape with
        | .sequential => .refuse s!"{op.name}: serve-range inputs must be random-access"
        | .randomAccess =>
          serveBody prims op p (titleKey prims common p.wrappedTitleKey p.titleId) offset len
  | _ => .refuse s!"{op.name} takes 2 inputs (body, common key), got {inputs.length}"

/-! ## Calls by name -/

/-- The operation and the parameters that a call names. -/
def call (op : String) (params : Bytes) : Except String (Op × Params) :=
  if op = "encrypt" then (Params.decode params).map (Op.encrypt, ·)
  else if op = "decrypt" then (Params.decode params).map (Op.decrypt, ·)
  else .error s!"unknown op {repr op}"

def runCall (op : String) (params : Bytes) (inputs : List Shape) (outputs : Nat) :
    Program UInt8 :=
  match call op params with
  | .error message => .refuse message
  | .ok (op, p) => run prims op p inputs outputs

def serveRange (op : String) (params : Bytes) (inputs : List Shape) (outputIx : Nat)
    (offset len : UInt64) : Program UInt8 :=
  match call op params with
  | .error message => .refuse message
  | .ok (op, p) => serveParams prims op p inputs outputIx offset len

/-- What the host gets for a body and a common key. -/
def produced (op : String) (params body : Bytes) (common : Key) : Option Bytes :=
  collect ((runCall prims op params [.sequential, .sequential] 1).run maxRead
    { inputs := [.sequential (.feed body 0),
        (.sequential (.feed common.toList 0) : Guest.Input IoError UInt8)]
      sinks := [.open []] })

/-- The common key in one of the two shapes. -/
def keyInput (common : Key) : Shape → Guest.Input IoError UInt8
  | .sequential => .sequential (.feed common.toList 0)
  | .randomAccess => .randomAccess (.ofList common.toList)

/-- What the host gets of a body that it offers for random access. -/
def served (op : String) (params : Bytes) (keyShape : Shape) (body : Bytes) (common : Key)
    (offset len : UInt64) : Option Bytes :=
  collect ((serveRange prims op params [.randomAccess, keyShape] 0 offset len).run maxRead
    { inputs := [.randomAccess (.ofList body), keyInput common keyShape]
      sinks := [.open []] })

variable {prims}

theorem clip_eq_part {piece : Bytes} {base len start stop : Nat} (hlen : piece.length = len) :
    clip piece base len start stop = Chunks.part piece base start stop := by
  have hoffset : max start base - base = start - base := by omega
  have hcount : min (min stop (base + len) - base - (start - base)) (len - (start - base)) =
      min (stop - base - (start - base)) (len - (start - base)) := by omega
  rw [clip, Chunks.part, hoffset, slice, slice, List.take_eq_take_iff, List.length_drop, hlen,
    hcount]

section Windows

variable {key : Key} {p : Params} {start stop : Nat}
  {other : Guest.Input IoError UInt8} {written : Bytes}

theorem run_readExactAt {body : Bytes} {offset n : Nat} {what : String}
    {next : Bytes → Program UInt8} (hmax : n ≤ maxRead) (hin : offset + n ≤ body.length) :
    (readExactAt 0 offset n what next).run maxRead
        ⟨[(.randomAccess (.ofList body)), other], [.open written]⟩ =
      (next (slice body offset n)).run maxRead
        ⟨[(.randomAccess (.ofList body)), other], [.open written]⟩ := by
  have hlen : (slice body offset n).length = n := by
    rw [Reader.length_slice]
    omega
  rw [readExactAt, Program.run_readAt_ofList rfl hmax, if_neg (not_not.mpr hlen)]

/-- Decrypted windows, sector after sector. -/
theorem serveSectors_run {body : Bytes} (hlen : body.length = p.sectors * SECTOR_LEN)
    {first m : Nat} (hin : first + m ≤ p.sectors) :
    (serveSectors prims key start stop (List.range' first m)).run maxRead
        ⟨[.randomAccess (.ofList body), other], [.open written]⟩ =
      (.done, ⟨[.randomAccess (.ofList body), other], [.open (written ++
        (List.range m).flatMap fun j => Chunks.part
          (decryptData prims key (slice body ((first + j) * SECTOR_LEN) SECTOR_LEN))
          ((first + j) * DATA_LEN) start stop)]⟩) := by
  induction m generalizing first written with
  | zero => simp [serveSectors, Program.run]
  | succ m ih =>
    have hfits : first * SECTOR_LEN + SECTOR_LEN ≤ body.length := by
      rw [hlen, ← Nat.succ_mul]
      exact Nat.mul_le_mul_right _ (by omega)
    have hsector : (slice body (first * SECTOR_LEN) SECTOR_LEN).length = SECTOR_LEN := by
      rw [Reader.length_slice]
      omega
    rw [List.range'_succ, serveSectors, run_readExactAt (by decide) hfits,
      Program.run_write_open rfl, clip_eq_part (length_decryptData hsector)]
    simp only [List.set_cons_zero]
    rw [ih (by omega), Nat.add_comm m 1, Chunks.flatMap_range_add, List.append_assoc]
    simp [Nat.add_assoc]

variable {data : Nat → Bytes} (hdata : ∀ s < p.sectors, (data s).length = DATA_LEN)

include hdata

/-- The sectors of a group that a window touches. -/
theorem serveGroup_flatten {first last g : Nat} (hlast : last < p.sectors)
    (hg : g * GROUP_SECTORS < p.sectors) :
    ((List.range' (max first (g * GROUP_SECTORS))
        (min last (g * GROUP_SECTORS + groupSectors p g - 1) + 1 -
          max first (g * GROUP_SECTORS))).map fun sector =>
      clip (encryptSector prims key (GroupHashes.compute prims (groupData p data g))
          (sector - g * GROUP_SECTORS)
          (slice (groupData p data g) ((sector - g * GROUP_SECTORS) * DATA_LEN) DATA_LEN))
        (sector * SECTOR_LEN) SECTOR_LEN start stop).flatten =
      (List.range' (max first (g * GROUP_SECTORS))
        (min (last + 1) ((g + 1) * GROUP_SECTORS) - max first (g * GROUP_SECTORS))).flatMap
        fun s => Chunks.part (encrypted prims key p data s) (s * SECTOR_LEN) start stop := by
  have hcount : min last (g * GROUP_SECTORS + groupSectors p g - 1) + 1 =
      min (last + 1) ((g + 1) * GROUP_SECTORS) := by
    simp only [groupSectors, GROUP_SECTORS] at hg ⊢
    omega
  have hpiece : ∀ j < groupSectors p g, (data (g * GROUP_SECTORS + j)).length = DATA_LEN := by
    intro j hj
    rw [groupSectors] at hj
    exact hdata _ (by omega)
  rw [hcount, ← List.flatMap_def]
  refine List.flatMap_congr fun s hs => ?_
  rw [List.mem_range'_1] at hs
  obtain ⟨j, rfl⟩ := Nat.exists_eq_add_of_le (Nat.le_trans (Nat.le_max_right first _) hs.1)
  have hj : j < groupSectors p g := by
    simp only [groupSectors, GROUP_SECTORS] at hs ⊢
    omega
  have hdiv : (g * GROUP_SECTORS + j) / GROUP_SECTORS = g := by
    simp only [groupSectors, GROUP_SECTORS] at hj ⊢
    omega
  have hmod : (g * GROUP_SECTORS + j) % GROUP_SECTORS = j := by
    simp only [groupSectors, GROUP_SECTORS] at hj ⊢
    omega
  have hslice : slice (groupData p data g) (j * DATA_LEN) DATA_LEN =
      data (g * GROUP_SECTORS + j) := Chunks.slice_flatMap_range_one hpiece hj
  rw [Nat.add_sub_cancel_left, hslice, clip_eq_part (length_encryptSector (hpiece j hj)), encrypted,
    hdiv, hmod]

/-- Encrypted windows, group after group. -/
theorem serveGroups_run {first last : Nat} (hlast : last < p.sectors) {g m : Nat}
    (hgroups : ∀ h < g + m, h * GROUP_SECTORS < p.sectors) :
    (serveGroups prims key p start stop first last (List.range' g m)).run maxRead
        ⟨[.randomAccess (.ofList ((List.range p.sectors).flatMap data)), other],
          [.open written]⟩ =
      (.done, ⟨[.randomAccess (.ofList ((List.range p.sectors).flatMap data)), other],
        [.open (written ++ (List.range m).flatMap fun j =>
          (List.range' (max first ((g + j) * GROUP_SECTORS))
            (min (last + 1) ((g + j + 1) * GROUP_SECTORS) -
              max first ((g + j) * GROUP_SECTORS))).flatMap fun s =>
                Chunks.part (encrypted prims key p data s) (s * SECTOR_LEN) start stop)]⟩) := by
  induction m generalizing g written with
  | zero => simp [serveGroups, Program.run]
  | succ m ih =>
    have hg := hgroups g (by omega)
    have hin : g * GROUP_SECTORS + groupSectors p g ≤ p.sectors := by
      rw [groupSectors]
      omega
    have hmax : groupSectors p g * DATA_LEN ≤ maxRead :=
      Nat.le_trans (Nat.mul_le_mul_right _ (Nat.min_le_right _ _)) (by decide)
    have hoffset : g * GROUP_DATA_LEN = g * GROUP_SECTORS * DATA_LEN :=
      (Nat.mul_assoc g GROUP_SECTORS DATA_LEN).symm
    have hfits : g * GROUP_SECTORS * DATA_LEN + groupSectors p g * DATA_LEN ≤
        ((List.range p.sectors).flatMap data).length := by
      rw [Chunks.length_flatMap_range hdata, ← Nat.add_mul]
      exact Nat.mul_le_mul_right _ hin
    rw [List.range'_succ, serveGroups, hoffset, run_readExactAt hmax hfits,
      Chunks.slice_flatMap_range hdata hin]
    change (Program.writeAll 0 _ _).run maxRead _ = _
    rw [Program.run_writeAll_open rfl]
    simp only [List.set_cons_zero]
    rw [← groupData, serveGroup_flatten hdata hlast hg, ih fun h hh => hgroups h (by omega),
      Nat.add_comm m 1, Chunks.flatMap_range_add, List.append_assoc]
    simp [Nat.add_assoc]

end Windows

/-! ## Whole windows -/

section Served

variable {op : Op} {p : Params} {body : Bytes} {common key : Key} {keyShape : Shape}

/-- The ports after the common key has been read. -/
def keyRead (common : Key) : Shape → Guest.Input IoError UInt8
  | .sequential => .sequential (.feed common.toList 16)
  | .randomAccess => .randomAccess (.ofList common.toList)

/-- In both shapes the key is read as it is. -/
theorem run_commonKey {next : Key → Program UInt8} :
    (commonKey keyShape next).run maxRead
        ⟨[.randomAccess (.ofList body), keyInput common keyShape], [.open []]⟩ =
      (next common).run maxRead
        ⟨[.randomAccess (.ofList body), keyRead common keyShape], [.open []]⟩ := by
  have hlen := common.toList_length
  have hkey : slice common.toList 0 16 = common.toList := by
    rw [slice, List.drop_zero, List.take_of_length_le (Nat.le_of_eq hlen)]
  have hcount : (keyInput common keyShape).len = 16 := by
    cases keyShape <;> exact hlen
  simp only [commonKey, Program.run, List.getElem?_cons_succ, List.getElem?_cons_zero, hcount,
    ne_eq, not_true_eq_false, if_false]
  cases keyShape with
  | sequential =>
    have hfits : 0 + 16 ≤ common.toList.length := by rw [hlen]
    simp only [keyInput]
    rw [Program.run_readExact_feed rfl (by decide) hfits]
    simp only [hkey, hlen, dif_pos]
    rfl
  | randomAccess =>
    simp only [keyInput]
    rw [Program.run_readAt_ofList rfl (by decide)]
    simp only [hkey, hlen, dif_pos]
    rfl

theorem encryptedLen_lt (hrange : p.InRange) : p.encryptedLen < 2 ^ 64 := by
  have hsectors := hrange.2
  rw [Params.encryptedLen, SECTOR_LEN]
  omega

theorem plainLen_lt (hrange : p.InRange) : p.plainLen < 2 ^ 64 := by
  have hsectors := hrange.2
  rw [Params.plainLen, DATA_LEN, SECTOR_LEN, HASHES_LEN]
  omega

/-- An encrypted window is a slice of the encrypted body. -/
theorem serveBody_encrypt {data : Nat → Bytes} {other : Guest.Input IoError UInt8}
    (hdata : ∀ s < p.sectors, (data s).length = DATA_LEN) (hrange : p.InRange)
    (offset len : UInt64) :
    collect ((serveBody prims .encrypt p key offset len).run maxRead
        ⟨[.randomAccess (.ofList ((List.range p.sectors).flatMap data)), other], [.open []]⟩) =
      some (slice ((List.range p.sectors).flatMap (encrypted prims key p data)) offset.toNat
        len.toNat) := by
  have hpiece : ∀ s < p.sectors, (encrypted prims key p data s).length = SECTOR_LEN :=
    fun s hs => length_encryptSector (hdata s hs)
  have htotal := Chunks.length_flatMap_range hpiece
  have hslice := @Xf.slice_window _ (htotal.trans_lt (encryptedLen_lt hrange)) offset len
  have hle := Xf.window_le offset len p.encryptedLen
  rw [htotal, ← Params.encryptedLen] at hslice
  rw [← hslice]
  simp only [serveBody]
  generalize Xf.window offset len p.encryptedLen = bounds at hle ⊢
  split_ifs with hempty
  · rw [Nat.sub_eq_zero_of_le hempty, Reader.slice_zero_right]
    rfl
  · have hwindow : bounds.1 < bounds.2 := Nat.lt_of_not_le hempty
    have hsectors : (bounds.2 - 1) / SECTOR_LEN < p.sectors := by
      rw [Params.encryptedLen] at hle
      rw [Nat.div_lt_iff_lt_mul (by decide)]
      omega
    have htouched : bounds.1 / SECTOR_LEN ≤ (bounds.2 - 1) / SECTOR_LEN :=
      Nat.div_le_div_right (by omega)
    have hparts := Chunks.flatMap_part_touched hpiece hwindow hle
    generalize bounds.1 / SECTOR_LEN = first at htouched hparts ⊢
    generalize (bounds.2 - 1) / SECTOR_LEN = last at hsectors htouched hparts ⊢
    have hgroups : ∀ h < first / GROUP_SECTORS +
        (last / GROUP_SECTORS - first / GROUP_SECTORS + 1), h * GROUP_SECTORS < p.sectors := by
      intro h hh
      have hdiv : first / GROUP_SECTORS ≤ last / GROUP_SECTORS := Nat.div_le_div_right htouched
      have hmul := (Nat.le_div_iff_mul_le (show 0 < GROUP_SECTORS by decide)).mp
        (show h ≤ last / GROUP_SECTORS by omega)
      omega
    have hcount : last + 1 - first = last - first + 1 := by omega
    rw [serveGroups_run hdata hsectors hgroups, List.nil_append, ← List.flatMap_assoc,
      Chunks.range'_groups (by decide) htouched, hcount, List.range'_eq_map_range,
      List.flatMap_map, ← hparts]
    rfl

/-- A decrypted window is a slice of the decrypted body. -/
theorem serveBody_decrypt {other : Guest.Input IoError UInt8}
    (hlen : body.length = p.encryptedLen) (hrange : p.InRange) (offset len : UInt64) :
    collect ((serveBody prims .decrypt p key offset len).run maxRead
        ⟨[.randomAccess (.ofList body), other], [.open []]⟩) =
      some (slice ((List.range p.sectors).flatMap fun s =>
        decryptData prims key (slice body (s * SECTOR_LEN) SECTOR_LEN)) offset.toNat
        len.toNat) := by
  have hpiece : ∀ s < p.sectors,
      (decryptData prims key (slice body (s * SECTOR_LEN) SECTOR_LEN)).length = DATA_LEN := by
    intro s hs
    refine length_decryptData ?_
    have hend : (s + 1) * SECTOR_LEN ≤ p.sectors * SECTOR_LEN := Nat.mul_le_mul_right _ hs
    rw [Nat.succ_mul] at hend
    rw [Reader.length_slice, hlen, Params.encryptedLen]
    omega
  have htotal := Chunks.length_flatMap_range hpiece
  have hslice := @Xf.slice_window _ (htotal.trans_lt (plainLen_lt hrange)) offset len
  have hle := Xf.window_le offset len p.plainLen
  rw [htotal, ← Params.plainLen] at hslice
  rw [← hslice]
  simp only [serveBody]
  generalize Xf.window offset len p.plainLen = bounds at hle ⊢
  split_ifs with hempty
  · rw [Nat.sub_eq_zero_of_le hempty, Reader.slice_zero_right]
    rfl
  · have hwindow : bounds.1 < bounds.2 := Nat.lt_of_not_le hempty
    have hsectors : (bounds.2 - 1) / DATA_LEN < p.sectors := by
      rw [Params.plainLen] at hle
      rw [Nat.div_lt_iff_lt_mul (by decide)]
      omega
    have htouched : bounds.1 / DATA_LEN ≤ (bounds.2 - 1) / DATA_LEN :=
      Nat.div_le_div_right (by omega)
    rw [serveSectors_run hlen (by omega), List.nil_append,
      ← Chunks.flatMap_part_touched hpiece hwindow hle]
    rfl

end Served

/-! ## Calls -/

section Calls

variable {op : Op} {p : Params} {params body : Bytes} {common : Key} {keyShape : Shape}

theorem call_name (hparams : Params.decode params = .ok p) : call op.name params = .ok (op, p) := by
  cases op with
  | encrypt =>
    rw [call, Op.name, if_pos rfl, hparams]
    rfl
  | decrypt =>
    rw [call, Op.name, if_neg (by decide), if_pos rfl, hparams]
    rfl

/-- A call names one of the two operations. -/
theorem call_eq_ok {name : String} (hcall : call name params = .ok (op, p)) :
    name = op.name ∧ Params.decode params = .ok p := by
  rw [call] at hcall
  split_ifs at hcall with hencrypt hdecrypt
  · cases hdecode : Params.decode params with
    | error message =>
      rw [hdecode] at hcall
      cases hcall
    | ok found =>
      rw [hdecode] at hcall
      cases hcall
      exact ⟨hencrypt, rfl⟩
  · cases hdecode : Params.decode params with
    | error message =>
      rw [hdecode] at hcall
      cases hcall
    | ok found =>
      rw [hdecode] at hcall
      cases hcall
      exact ⟨hdecrypt, rfl⟩

theorem produced_name (hparams : Params.decode params = .ok p) :
    produced prims op.name params body common = output prims op p body common := by
  simp only [produced, runCall, call_name hparams]
  rfl

theorem collect_refuse (message : String) (ports : Guest.Ports IoError UInt8) :
    collect ((Program.refuse message).run maxRead ports) = none := rfl

/-- The length of body that the parameters describe. -/
def Params.bodyLen (p : Params) : Op → Nat
  | .encrypt => p.plainLen
  | .decrypt => p.encryptedLen

/-- A run that ends well was given such a body. -/
theorem length_of_output {out : Bytes} (hout : output prims op p body common = some out) :
    body.length = p.bodyLen op := by
  rw [output_eq] at hout
  by_contra hlen
  cases op with
  | encrypt =>
    rw [Params.bodyLen] at hlen
    rw [runBody, if_pos hlen, collect_refuse] at hout
    cases hout
  | decrypt =>
    rw [Params.bodyLen] at hlen
    rw [runBody, if_pos hlen, collect_refuse] at hout
    cases hout

/-- The plaintext of a sector. -/
def plainSector (body : Bytes) (s : Nat) : Bytes := slice body (s * DATA_LEN) DATA_LEN

theorem length_plainSector (hlen : body.length = p.plainLen) :
    ∀ s < p.sectors, (plainSector body s).length = DATA_LEN := by
  intro s hs
  have hend : (s + 1) * DATA_LEN ≤ p.sectors * DATA_LEN := Nat.mul_le_mul_right _ hs
  rw [Nat.succ_mul] at hend
  rw [plainSector, Reader.length_slice, hlen, Params.plainLen]
  omega

theorem flatMap_plainSector (hlen : body.length = p.plainLen) :
    (List.range p.sectors).flatMap (plainSector body) = body := Chunks.flatMap_slice body hlen

theorem served_name (hparams : Params.decode params = .ok p) (offset len : UInt64) :
    served prims op.name params keyShape body common offset len =
      collect ((serveBody prims op p (titleKey prims common p.wrappedTitleKey p.titleId) offset
        len).run maxRead
          ⟨[.randomAccess (.ofList body), keyRead common keyShape], [.open []]⟩) := by
  simp only [served, serveRange, call_name hparams, serveParams, ne_eq, not_true_eq_false,
    if_false]
  rw [run_commonKey]

/-- Whatever a run writes is served in windows. -/
theorem served_of_output (hparams : Params.decode params = .ok p) {out : Bytes}
    (hout : output prims op p body common = some out) (offset len : UInt64) :
    served prims op.name params keyShape body common offset len =
      some (slice out offset.toNat len.toNat) := by
  obtain ⟨hrange, -⟩ := Params.decode_eq_ok.mp hparams
  have hlen := length_of_output hout
  rw [served_name hparams]
  cases op with
  | encrypt =>
    rw [Params.bodyLen] at hlen
    have hdata := length_plainSector hlen
    rw [← flatMap_plainSector hlen, output_encrypt hdata, Option.some.injEq] at hout
    rw [← flatMap_plainSector hlen, serveBody_encrypt hdata hrange, hout]
  | decrypt =>
    rw [Params.bodyLen] at hlen
    rw [output_decrypt common hlen, Option.some.injEq] at hout
    rw [serveBody_decrypt hlen hrange, hout]

/-- Decrypting a sector's encryption gives its data back. -/
theorem decryptData_encryptSector (hinverts : prims.Inverts) {key : Key} {hashes : GroupHashes}
    {s : Nat} {data : Bytes} (hdata : data.length = DATA_LEN) :
    decryptData prims key (encryptSector prims key hashes s data) = data := by
  have hblock : (cbcEncrypt prims key zeroKey (hashes.block s)).length = HASHES_LEN := by
    rw [length_cbcEncrypt _ _ _ _ (by rw [length_block]; decide), length_block]
  rw [decryptData, ← dataIv_take, encryptSector, List.take_left' hblock, List.drop_left' hblock,
    cbcDecrypt_cbcEncrypt hinverts _ _ (by rw [hdata]; decide)]

/-- The encryption of whole sectors is decrypted to them. -/
theorem output_decrypt_encrypt (hinverts : prims.Inverts) (hlen : body.length = p.plainLen)
    (common : Key) : ∃ enc, output prims .encrypt p body common = some enc ∧
      output prims .decrypt p enc common = some body := by
  have hdata := length_plainSector hlen
  have hpiece : ∀ s < p.sectors, (encrypted prims
      (titleKey prims common p.wrappedTitleKey p.titleId) p (plainSector body) s).length =
      SECTOR_LEN := fun s hs => length_encryptSector (hdata s hs)
  have henc := @output_encrypt prims p (plainSector body) hdata common
  rw [flatMap_plainSector hlen] at henc
  refine ⟨_, henc, ?_⟩
  rw [output_decrypt common (Chunks.length_flatMap_range hpiece)]
  refine congrArg some (Eq.trans (List.flatMap_congr fun s hs => ?_) (flatMap_plainSector hlen))
  rw [List.mem_range] at hs
  rw [Chunks.slice_flatMap_range_one hpiece hs, encrypted,
    decryptData_encryptSector hinverts (hdata s hs)]

end Calls

/-- Windows of either operation are slices of what a run writes, and a run of the one over whole
sectors is undone by a run of the other. -/
theorem serveRange_exact (prims : Primitives) :
    (∀ op params body common out, produced prims op params body common = some out →
      ∀ keyShape offset len, served prims op params keyShape body common offset len =
        some (slice out offset.toNat len.toNat)) ∧
    (prims.Inverts → ∀ params p, Params.decode params = .ok p →
      ∀ plain : Bytes, plain.length = p.plainLen → ∀ common,
        ∃ enc, produced prims "encrypt" params plain common = some enc ∧
          produced prims "decrypt" params enc common = some plain) := by
  refine ⟨fun name params body common out hout keyShape offset len => ?_, ?_⟩
  · cases hcall : call name params with
    | error message =>
      simp only [produced, runCall, hcall] at hout
      cases hout
    | ok found =>
      obtain ⟨op, p⟩ := found
      obtain ⟨rfl, hparams⟩ := call_eq_ok hcall
      rw [produced_name hparams] at hout
      exact served_of_output hparams hout offset len
  · intro hinverts params p hparams plain hlen common
    obtain ⟨enc, henc, hdec⟩ := output_decrypt_encrypt hinverts hlen common
    exact ⟨enc, (produced_name hparams).trans henc, (produced_name hparams).trans hdec⟩

/-- A cipher that masks a block with the key, and one digest for everything. -/
def maskPrimitives : Primitives where
  encryptBlock key block := xor block key
  decryptBlock key block := xor block key
  sha1 _ := List.Vector.replicate SHA1_LEN 0

/-- A partition of one sector. -/
def oneSectorParams : Params := ⟨zeroKey, List.Vector.replicate 8 0, 1⟩

theorem serveRange_exact_oneSector : ∃ enc,
    produced maskPrimitives "encrypt" oneSectorParams.encode (List.replicate DATA_LEN 7) zeroKey =
      some enc ∧
    produced maskPrimitives "decrypt" oneSectorParams.encode enc zeroKey =
      some (List.replicate DATA_LEN 7) ∧
    served maskPrimitives "encrypt" oneSectorParams.encode .sequential (List.replicate DATA_LEN 7)
      zeroKey 100 2000 = some (slice enc 100 2000) := by
  have hparams : Params.decode oneSectorParams.encode = .ok oneSectorParams :=
    Params.decode_eq_ok.mpr ⟨⟨by decide, by decide⟩, rfl⟩
  obtain ⟨enc, henc, hdec⟩ := (serveRange_exact maskPrimitives).2 (fun key block => xor_xor block key)
    _ _ hparams (List.replicate DATA_LEN 7) List.length_replicate zeroKey
  exact ⟨enc, henc, hdec, (serveRange_exact maskPrimitives).1 _ _ _ _ _ henc .sequential 100 2000⟩

end Datboi.WiiCrypt
