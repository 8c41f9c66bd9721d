import Datboi.Lib.Cbc
import Datboi.Xf.Component

/-!
# Wii partition body encryption

A partition body is a run of sectors, each a hash block followed by data, both
chain-encrypted under the partition's title key. The hash block holds three levels of
a SHA-1 tree over the plaintext of its group of sectors, so encryption is a function
of the plaintext and the key, and its unit is the group; decryption works on one
sector, which carries its data's initial value in its encrypted hash block.
-/

namespace Datboi.WiiCrypt

open Guest (Program)
open Reader (slice)
open Xf (Shape collect copyAt)

/-- Bytes per encrypted sector. -/
abbrev SECTOR_LEN : Nat := 0x8000

/-- Bytes of hash block at the head of every sector. -/
abbrev HASHES_LEN : Nat := 0x400

abbrev DATA_LEN : Nat := SECTOR_LEN - HASHES_LEN

abbrev GROUP_SECTORS : Nat := 64

abbrev SUBGROUP_SECTORS : Nat := 8

/-- H0 hashes per sector, one per 1 KiB of data. -/
abbrev H0_PER_SECTOR : Nat := DATA_LEN / HASHES_LEN

abbrev H1_OFFSET : Nat := 0x280

abbrev H2_OFFSET : Nat := 0x340

/-- The data's initial value is this window of the encrypted hash block. -/
abbrev DATA_IV_OFFSET : Nat := 0x3D0

abbrev SHA1_LEN : Nat := 20

/-- An AES-128 key, and a cipher block. -/
abbrev Key := List.Vector UInt8 16

abbrev Sha1 := List.Vector UInt8 SHA1_LEN

/-- The ciphers and digests the crate is linked against. -/
structure Primitives where
  encryptBlock : Key → Key → Key
  decryptBlock : Key → Key → Key
  sha1 : Bytes → Sha1

variable (prims : Primitives)

/-! ## Chaining over bytes -/

def xor (a b : Key) : Key := ⟨List.zipWith (· ^^^ ·) a.toList b.toList, by simp⟩

def zeroKey : Key := List.Vector.replicate 16 0

/-- The callers pass whole blocks. -/
def cbcEncrypt (key iv : Key) (data : Bytes) : Bytes :=
  Chunks.flattened
    (Cbc.encrypt (prims.encryptBlock key) xor iv (Chunks.blocks 16 (data.length / 16) data))

def cbcDecrypt (key iv : Key) (data : Bytes) : Bytes :=
  Chunks.flattened
    (Cbc.decrypt (prims.decryptBlock key) xor iv (Chunks.blocks 16 (data.length / 16) data))

@[simp] theorem length_cbcEncrypt (key iv : Key) (data : Bytes) (hwhole : 16 ∣ data.length) :
    (cbcEncrypt prims key iv data).length = data.length := by
  have hlen := (Nat.div_mul_cancel hwhole).symm
  rw [cbcEncrypt, Chunks.length_flattened, Cbc.length_encrypt, Chunks.length_blocks hlen, ← hlen]

@[simp] theorem length_cbcDecrypt (key iv : Key) (data : Bytes) (hwhole : 16 ∣ data.length) :
    (cbcDecrypt prims key iv data).length = data.length := by
  have hlen := (Nat.div_mul_cancel hwhole).symm
  rw [cbcDecrypt, Chunks.length_flattened, Cbc.length_decrypt, Chunks.length_blocks hlen, ← hlen]

/-- Unwrap a ticket's title key: the title ID, padded with zeros, is the initial
value. -/
def titleKey (common wrapped : Key) (titleId : List.Vector UInt8 8) : Key :=
  let iv : Key := ⟨titleId.toList ++ List.replicate 8 0, by simp⟩
  ⟨cbcDecrypt prims common iv wrapped.toList, by
    have hlen := wrapped.toList_length
    rw [length_cbcDecrypt _ _ _ _ (by rw [hlen]), hlen]⟩

/-! ## The hash tree of a group -/

structure GroupHashes where
  /-- Sector by sector. -/
  h0 : List Sha1
  h1 : List.Vector Sha1 GROUP_SECTORS
  h2 : List.Vector Sha1 (GROUP_SECTORS / SUBGROUP_SECTORS)
  h3 : Sha1

/-- The H0 hashes of one sector of a group; a sector the group does not have hashes as
zero data. -/
def sectorHashes (data : Bytes) (sector : Nat) : List Sha1 :=
  if sector < data.length / DATA_LEN then
    let d := slice data (sector * DATA_LEN) DATA_LEN
    (List.range H0_PER_SECTOR).map fun i => prims.sha1 (slice d (i * HASHES_LEN) HASHES_LEN)
  else List.replicate H0_PER_SECTOR (prims.sha1 (List.replicate HASHES_LEN 0))

/-- Hash a group's plaintext, which is at most a group of whole sectors. -/
def GroupHashes.compute (data : Bytes) : GroupHashes :=
  let h1 : List.Vector Sha1 GROUP_SECTORS :=
    List.Vector.ofFn fun sector => prims.sha1 (Chunks.flattened (sectorHashes prims data sector))
  let h2 : List.Vector Sha1 (GROUP_SECTORS / SUBGROUP_SECTORS) :=
    List.Vector.ofFn fun sub =>
      prims.sha1 (Chunks.flattened (slice h1.toList (sub * SUBGROUP_SECTORS) SUBGROUP_SECTORS))
  { h0 := (List.range GROUP_SECTORS).flatMap (sectorHashes prims data)
    h1
    h2
    h3 := prims.sha1 (Chunks.flattened h2.toList) }

/-- The plaintext hash block of a sector, padding included. -/
def GroupHashes.block (hashes : GroupHashes) (sector : Nat) : Bytes :=
  let out := List.replicate HASHES_LEN 0
  let h0 := slice hashes.h0 (sector * H0_PER_SECTOR) H0_PER_SECTOR
  let out := copyAt out 0 (Chunks.flattened h0)
  let h1 := slice hashes.h1.toList (sector / SUBGROUP_SECTORS * SUBGROUP_SECTORS) SUBGROUP_SECTORS
  let out := copyAt out H1_OFFSET (Chunks.flattened h1)
  copyAt out H2_OFFSET (Chunks.flattened hashes.h2.toList)

/-! ## Sectors -/

/-- The data's initial value, out of an encrypted hash block or sector. -/
def dataIv (enc : Bytes) : Key :=
  List.Vector.ofFn fun i => enc.getD (DATA_IV_OFFSET + i) 0

/-- The hash block under a zero initial value, then the data under the one the
encrypted block yields. -/
def encryptSector (key : Key) (hashes : GroupHashes) (sector : Nat) (data : Bytes) : Bytes :=
  let block := cbcEncrypt prims key zeroKey (hashes.block sector)
  block ++ cbcEncrypt prims key (dataIv block) data

/-- A sector in full, hash block and data. -/
def decryptSector (key : Key) (enc : Bytes) : Bytes :=
  cbcDecrypt prims key zeroKey (enc.take HASHES_LEN) ++
    cbcDecrypt prims key (dataIv enc) (enc.drop HASHES_LEN)

/-- Only the data of a sector. -/
def decryptData (key : Key) (enc : Bytes) : Bytes :=
  cbcDecrypt prims key (dataIv enc) (enc.drop HASHES_LEN)

/-- Does a decrypted sector's hash block equal what the group's plaintext yields,
padding included? -/
def hashBlockMatches (plain : Bytes) (hashes : GroupHashes) (sector : Nat) : Bool :=
  plain.take HASHES_LEN == hashes.block sector

/-! ## The component -/

/-- The decoded parameters of both operations. -/
structure Params where
  wrappedTitleKey : Key
  titleId : List.Vector UInt8 8
  sectors : Nat

def Params.encryptedLen (p : Params) : Nat := p.sectors * SECTOR_LEN

def Params.plainLen (p : Params) : Nat := p.sectors * DATA_LEN

inductive Op where
  | encrypt
  | decrypt
  deriving DecidableEq, Repr

def Op.name : Op → String
  | encrypt => "encrypt"
  | decrypt => "decrypt"

def shortMessage (what : String) (n got : Nat) : String :=
  s!"{what}: wanted {n} bytes, stream ended after {got}"

/-- Sectors in the group `g`. -/
def groupSectors (p : Params) (g : Nat) : Nat := min (p.sectors - g * GROUP_SECTORS) GROUP_SECTORS

/-- The ciphertext of a group of `n` sectors. -/
def encryptGroup (key : Key) (n : Nat) (data : Bytes) : List Bytes :=
  let hashes := GroupHashes.compute prims data
  (List.range n).map fun s => encryptSector prims key hashes s (slice data (s * DATA_LEN) DATA_LEN)

def encryptGroups (key : Key) (p : Params) : List Nat → Program UInt8
  | [] => .done
  | g :: gs =>
    let n := groupSectors p g
    .readExact 0 (n * DATA_LEN) (shortMessage "plaintext group" (n * DATA_LEN)) fun data =>
      .writeAll 0 (encryptGroup prims key n data) (encryptGroups key p gs)

def decryptSectors (key : Key) : Nat → Program UInt8
  | 0 => .done
  | sectors + 1 =>
    .readExact 0 SECTOR_LEN (shortMessage "encrypted sector" SECTOR_LEN) fun enc =>
      .write 0 (decryptData prims key enc) (decryptSectors key sectors)

/-- The common key input, which is exactly sixteen bytes whichever shape it has. -/
def commonKey (shape : Shape) (next : Key → Program UInt8) : Program UInt8 :=
  .inputLen 1 fun len =>
    if len ≠ 16 then .refuse s!"common key must be 16 bytes, got {len}"
    else
      let accept (bytes : Bytes) : Program UInt8 :=
        if hlen : bytes.length = 16 then next ⟨bytes, hlen⟩
        else .refuse s!"common key: wanted 16 bytes at 0, got {bytes.length}"
      match shape with
      | .sequential => .readExact 1 16 (shortMessage "common key" 16) accept
      | .randomAccess => .readAt 1 0 16 accept

/-- The operation over a body of `len` bytes. -/
def runBody (op : Op) (p : Params) (key : Key) (len : Nat) : Program UInt8 :=
  match op with
  | .encrypt =>
    if len ≠ p.plainLen then .refuse s!"plaintext is {len} bytes, params describe {p.plainLen}"
    else
      let groups := (p.sectors + (GROUP_SECTORS - 1)) / GROUP_SECTORS
      encryptGroups prims key p (List.range groups)
  | .decrypt =>
    if len ≠ p.encryptedLen then
      .refuse s!"ciphertext is {len} bytes, params describe {p.encryptedLen}"
    else decryptSectors prims key p.sectors

/-- `inputs` are the shapes of the inputs and `outputs` how many outputs are claimed. -/
def run (op : Op) (p : Params) (inputs : List Shape) (outputs : Nat) : Program UInt8 :=
  match inputs with
  | [bodyShape, keyShape] =>
    if outputs ≠ 1 then .refuse s!"{op.name} claims 1 output, got {outputs}"
    else
      commonKey keyShape fun common =>
        let key := titleKey prims common p.wrappedTitleKey p.titleId
        match bodyShape with
        | .randomAccess => .refuse s!"{op.name}: run reads its inputs sequentially"
        | .sequential => .inputLen 0 (runBody prims op p key)
  | _ => .refuse s!"{op.name} takes 2 inputs (body, common key), got {inputs.length}"

/-- What the host gets for a body and a common key. -/
def output (op : Op) (p : Params) (body : Bytes) (common : Key) : Option Bytes :=
  let ports : Guest.Ports IoError UInt8 :=
    { inputs := [.sequential (.feed body 0), .sequential (.feed common.toList 0)]
      sinks := [.open []] }
  collect ((run prims op p [.sequential, .sequential] 1).run maxRead ports)

end Datboi.WiiCrypt
