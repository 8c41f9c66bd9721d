import Datboi.Lib.Moves
import Datboi.Store.Pack

/-!
# The store on a file system that fails

The tree of files under the store's root and the in-memory pack map, with every file-system
call allowed to fail. A file is staged under a fresh temporary name, synced, and moved to its
final path by an atomic rename; a failure in between leaves what was done until then. Streams
are copied byte by byte, so a write may stop at any offset.
-/

namespace Datboi.StoreFs

open Moves (final)

/-- The files of the store. Temporary names never repeat. -/
inductive Path where
  | temp (n : Nat)
  | blob (ns : Namespace) (hash : Blake3)
  | outboard (ns : Namespace) (hash : Blake3)
  | pack (hash : Blake3)
  deriving DecidableEq, Repr

def Path.IsTemp : Path → Prop
  | .temp _ => True
  | _ => False

/-- A file-system call. The directory calls are named by the file they are made for; `nth`
tells calls apart that an operation makes more than once, and offsets tell the parts of a
stream apart. -/
inductive FsCall where
  | stat (path : Path) (nth : Nat)
  | create (path : Path)
  | write (path : Path) (offset : Nat)
  | read (path : Path) (offset : Nat)
  | footer (path : Path)
  | seek (path : Path)
  | sync (path : Path)
  | createDir (path : Path)
  | rename (target : Path)
  | syncDir (path : Path)
  | remove (path : Path)
  | openFile (path : Path) (nth : Nat)
  deriving DecidableEq, Repr

/-- Which calls of an operation fail, other than because a file is missing. -/
abbrev Faults := FsCall → Option IoError

inductive StoreError where
  | io (path : Path) (source : IoError)
  | obao (path : Path) (source : ObaoError)
  | hashMismatch (expected actual : Blake3)
  | emptyPack
  | packMemberMismatch (expected got : Blake3) (expectedLen gotLen : Nat)
  | packFooter (path : Path) (detail : String)
  /-- An expectation of the code that failed. -/
  | panic (message : String)
  deriving DecidableEq, Repr

/-- Where a packed blob's bytes live: the pack, the member's window and its tree's window. -/
structure PackedLoc where
  pack : Blake3
  offset : Nat
  len : Nat
  obaoOffset : Nat
  obaoLen : Nat
  deriving DecidableEq, Repr

def MemberEntry.loc (pack : Blake3) (entry : MemberEntry) : PackedLoc :=
  ⟨pack, entry.offset, entry.len, entry.obaoOffset, entry.obaoLen⟩

structure Files where
  disk : Path → Option Bytes
  packs : Blake3 → Option PackedLoc
  nextTemp : Nat

def Files.empty : Files where
  disk _ := none
  packs _ := none
  nextTemp := 0

abbrev FsM := EStateM StoreError Files

namespace Files

def setFile (files : Files) (path : Path) (file : Option Bytes) : Files :=
  { files with disk := fun other => if other = path then file else files.disk other }

/-- Point the members of a table at a pack; later rows win, as repeated inserts do. -/
def mapPack (files : Files) (pack : Blake3) (table : List MemberEntry) : Files :=
  { files with packs := fun hash =>
      match table.reverse.find? fun entry => entry.hash = hash with
      | some entry => some (entry.loc pack)
      | none => files.packs hash }

def unmap (files : Files) (hashes : List Blake3) : Files :=
  { files with packs := fun hash => if hash ∈ hashes then none else files.packs hash }

end Files

/-! ## Calls -/

/-- A call that changes no file. -/
def touch (faults : Faults) (call : FsCall) (path : Path) : FsM Unit :=
  match faults call with
  | some e => throw (.io path e)
  | none => pure ()

/-- `Path::exists`: a failed look-up reads as absent. -/
def pathExists (faults : Faults) (path : Path) (nth : Nat) : FsM Bool := fun files =>
  .ok ((faults (.stat path nth)).isNone && (files.disk path).isSome) files

/-- `new_temp_path` and `staging_path`. -/
def newTempPath : FsM Path := fun files =>
  .ok (.temp files.nextTemp) { files with nextTemp := files.nextTemp + 1 }

def createFile (faults : Faults) (path : Path) : FsM Unit := do
  touch faults (.create path) path
  modify (·.setFile path (some []))

/-- Offsets are signed 64-bit numbers, so no file grows beyond them. -/
def maxFileBytes : Nat := 2 ^ 63 - 1

def writeFault (faults : Faults) (path : Path) (offset : Nat) : Option IoError :=
  if maxFileBytes ≤ offset then some {} else faults (.write path offset)

/-- The first offset of a stretch at which a call fails. -/
def firstFault (fault : Nat → Option IoError) (start len : Nat) : Option (Nat × IoError) :=
  (List.range' start len).findSome? fun offset => (fault offset).map fun e => (offset, e)

/-- Append to an open file, up to the first offset that cannot be written. -/
def append (faults : Faults) (path : Path) (wrap : IoError → StoreError) (bytes : Bytes) :
    FsM Unit := fun files =>
  let old := (files.disk path).getD []
  match firstFault (writeFault faults path) old.length bytes.length with
  | none => .ok () (files.setFile path (some (old ++ bytes)))
  | some (offset, e) =>
    .error (wrap e) (files.setFile path (some (old ++ bytes.take (offset - old.length))))

/-- `rename`: atomic, and an error when there is nothing to move. -/
def rename (faults : Faults) (source target : Path) : FsM Unit := fun files =>
  match faults (.rename target), files.disk source with
  | some e, _ => .error (.io target e) files
  | none, none => .error (.io target {}) files
  | none, some bytes => .ok () ((files.setFile target (some bytes)).setFile source none)

/-- `let _ = fs::remove_file(..)`. -/
def discard (faults : Faults) (path : Path) (files : Files) : Files :=
  if (faults (.remove path)).isSome then files else files.setFile path none

/-- On an error, remove the staged file; a panic unwinds past the removal. -/
def cleaning {α : Type} (faults : Faults) (path : Path) (m : FsM α) : FsM α := fun files =>
  match m files with
  | .ok a files => .ok a files
  | .error (.panic message) files => .error (.panic message) files
  | .error e files => .error e (discard faults path files)

/-- Remove the staged file either way. -/
def discarding {α : Type} (faults : Faults) (path : Path) (m : FsM α) : FsM α := fun files =>
  match m files with
  | .ok a files => .ok a (discard faults path files)
  | .error (.panic message) files => .error (.panic message) files
  | .error e files => .error e (discard faults path files)

/-- Sync a staged file and move it to its final path. -/
def publish (faults : Faults) (temp target : Path) : FsM Unit := do
  touch faults (.sync temp) temp
  touch faults (.createDir target) target
  rename faults temp target
  touch faults (.syncDir target) target

/-- Publish a verified staged file, unless its path is already taken. -/
def publishNew (faults : Faults) (temp target : Path) (nth : Nat) : FsM PutOutcome := do
  let present ← pathExists faults target nth
  if present then do
    modify (discard faults temp)
    pure .alreadyPresent
  else do
    publish faults temp target
    pure .stored

/-! ## Puts -/

/-- Copy a reader into a staged file. -/
def stream (faults : Faults) (temp : Path) (reader : ByteStream) : FsM Unit := do
  append faults temp (.io temp) reader.items
  match reader.failure with
  | some e => throw (.io temp e)
  | none => pure ()

variable (host : Host)

/-- The fast path of a put: without the alias request, a blob that is there is not read again. -/
def skipsRead (faults : Faults) (ns : Namespace) (expected : Blake3) (wantAliases : Bool) :
    FsM Bool :=
  if wantAliases then pure false else pathExists faults (.blob ns expected) 0

def putInner (faults : Faults) (ns : Namespace) (expected : Blake3) (reader : ByteStream)
    (wantAliases : Bool) : FsM PutOutcome := do
  let present ← skipsRead faults ns expected wantAliases
  if present then pure .alreadyPresent
  else do
    let temp ← newTempPath
    createFile faults temp
    cleaning faults temp (stream faults temp reader)
    let actual := host.blake3 reader.items
    if actual ≠ expected then do
      modify (discard faults temp)
      throw (.hashMismatch expected actual)
    else publishNew faults temp (.blob ns expected) 1

def put (faults : Faults) (ns : Namespace) (expected : Blake3) (reader : ByteStream) :
    FsM PutOutcome :=
  putInner host faults ns expected reader false

def putWithAliases (faults : Faults) (ns : Namespace) (expected : Blake3) (reader : ByteStream) :
    FsM PutOutcome :=
  putInner host faults ns expected reader true

/-- Stream a reader into the store under the address computed on the way. -/
def putNew (faults : Faults) (ns : Namespace) (reader : ByteStream) :
    FsM (Blake3 × PutOutcome) := do
  let temp ← newTempPath
  createFile faults temp
  cleaning faults temp (stream faults temp reader)
  let hash := host.blake3 reader.items
  let outcome ← publishNew faults temp (.blob ns hash) 0
  pure (hash, outcome)

/-- Publish an outboard sidecar. Empty outboards are never written, and an existing sidecar
wins. -/
def putObao (faults : Faults) (ns : Namespace) (hash : Blake3) (sidecar : Bytes) :
    FsM PutOutcome :=
  if sidecar = [] then pure .alreadyPresent
  else do
    let present ← pathExists faults (.outboard ns hash) 0
    if present then pure .alreadyPresent
    else do
      let temp ← newTempPath
      createFile faults temp
      cleaning faults temp (append faults temp (.io temp) sidecar)
      publish faults temp (.outboard ns hash)
      pure .stored

/-- Pull exactly `len` bytes through the outboard builder, teeing them into a file. -/
def compute (faults : Faults) (path : Path) (wrap : ObaoError → StoreError) (reader : ByteStream)
    (len : Nat) : FsM (Blake3 × Bytes) := do
  append faults path (fun e => wrap (.io e)) (reader.items.take len)
  match Obao.compute host reader len with
  | .ok found => pure found
  | .error e => throw (wrap e)

/-- Are there bytes behind the first `len`? -/
def trailing (temp : Path) (reader : ByteStream) (len : Nat) : FsM Bool :=
  if len < reader.items.length then pure true
  else
    match reader.failure with
    | some e => throw (.io temp e)
    | none => pure false

/-- Materialize exactly `len` claimed bytes with their outboard. -/
def putWithObao (faults : Faults) (ns : Namespace) (expected : Blake3) (len : Nat)
    (reader : ByteStream) : FsM PutOutcome := do
  let temp ← newTempPath
  createFile faults temp
  let (root, sidecar) ← cleaning faults temp (compute host faults temp (.obao temp) reader len)
  let more ← cleaning faults temp (trailing temp reader len)
  if root ≠ expected ∨ more then do
    modify (discard faults temp)
    throw (.hashMismatch expected root)
  else do
    let outcome ← publishNew faults temp (.blob ns expected) 0
    let _ ← putObao faults ns expected sidecar
    pure outcome

/-! ## Removal -/

/-- Remove a file and make that durable; `false` when there was none. -/
def removeFile (faults : Faults) (path : Path) : FsM Bool := fun files =>
  match faults (.remove path), files.disk path with
  | some e, _ => .error (.io path e) files
  | none, none => .ok false files
  | none, some _ => (do touch faults (.syncDir path) path; pure true) (files.setFile path none)

/-- Remove a blob's loose literal, keeping its sidecar. -/
def evictLiteral (faults : Faults) (ns : Namespace) (hash : Blake3) : FsM Bool :=
  removeFile faults (.blob ns hash)

/-- Remove a blob's loose literal and its sidecar. -/
def removeBlob (faults : Faults) (ns : Namespace) (hash : Blake3) : FsM Bool := do
  modify (discard faults (.outboard ns hash))
  evictLiteral faults ns hash

/-! ## Packs -/

/-- One member a caller intends to pack. -/
structure PackMember where
  hash : Blake3
  len : Nat
  deriving DecidableEq, Repr

/-- The bytes and the rows that a pack write has put out. -/
structure Written where
  out : Bytes := []
  rows : List (Blake3 × Nat × Nat) := []

/-- How `write_pack_spooled` reports an outboard failure. -/
def packObaoError (temp : Path) : ObaoError → StoreError
  | .io e => .io temp e
  | e => .obao temp e

/-- Write one member and spool its tree. The stream must be the declared bytes exactly. -/
def writeMember (faults : Faults) (temp spool : Path) (opened : Except IoError ByteStream)
    (member : PackMember) (written : Written) : FsM Written :=
  match opened with
  | .error e => throw (.io temp e)
  | .ok reader => do
      let (root, sidecar) ← compute host faults temp (packObaoError temp) reader member.len
      match reader.failure with
      | some e => throw (.io temp e)
      | none =>
        let extra := reader.items.length - member.len
        if root ≠ member.hash ∨ 0 < extra then
          throw (.packMemberMismatch member.hash root member.len
            (min (2 ^ 64 - 1) (member.len + extra)))
        else do
          append faults spool (.io spool) sidecar
          pure {
            out := written.out ++ reader.items.take member.len
            rows := written.rows ++ [(member.hash, written.out.length, member.len)] }

def writeMembers (faults : Faults) (temp spool : Path)
    (openMember : Nat → Except IoError ByteStream) : Nat → List PackMember → Written → FsM Written
  | _, [], written => pure written
  | ix, member :: members, written => do
      let written ← writeMember host faults temp spool (openMember ix) member written
      writeMembers faults temp spool openMember (ix + 1) members written

/-- A window of an open file, as a stream that stops where a read fails. -/
def readWindow (faults : Faults) (path : Path) (file : Bytes) (offset len : Nat) : ByteStream :=
  let window := Reader.slice file offset len
  match firstFault (fun at_ => faults (.read path at_)) offset window.length with
  | none => ⟨window, none⟩
  | some (at_, e) => ⟨window.take (at_ - offset), some e⟩

/-- Write the members, the spooled trees, the footer and the trailer to `temp`; the identity
is the digest of what was written. -/
def writePackSpooled (faults : Faults) (temp spool : Path) (members : List PackMember)
    (openMember : Nat → Except IoError ByteStream) : FsM (Blake3 × List MemberEntry) := do
  createFile faults temp
  createFile faults spool
  let written ← writeMembers host faults temp spool openMember 0 members {}
  touch faults (.seek spool) spool
  let trees := ((← get).disk spool).getD []
  stream faults temp (readWindow faults spool trees 0 trees.length)
  let table := deriveTrees written.out.length written.rows
  if 2 ^ 32 ≤ table.length then throw (.panic "member count fits u32")
  else do
    append faults temp (.io temp) (encodeTail host table)
    touch faults (.sync temp) temp
    pure (host.blake3 (written.out ++ (trees ++ encodeTail host table)), table)

/-- Write one sealed pack. Its members resolve only once the rename is durable. -/
def putPack (faults : Faults) (members : List PackMember)
    (openMember : Nat → Except IoError ByteStream) : FsM Blake3 :=
  if members = [] then throw .emptyPack
  else do
    let temp ← newTempPath
    let spool ← newTempPath
    let (pack, table) ← cleaning faults temp
      (discarding faults spool (writePackSpooled host faults temp spool members openMember))
    touch faults (.createDir (.pack pack)) (.pack pack)
    rename faults temp (.pack pack)
    touch faults (.syncDir (.pack pack)) (.pack pack)
    modify (·.mapPack pack table)
    pure pack

def openPack (faults : Faults) (pack : Blake3) (nth : Nat) : FsM Bytes := fun files =>
  match faults (.openFile (.pack pack) nth), files.disk (.pack pack) with
  | some e, _ => .error (.io (.pack pack) e) files
  | none, none => .error (.io (.pack pack) {}) files
  | none, some file => .ok file files

def readTable (faults : Faults) (pack : Blake3) (file : Bytes) : FsM (List MemberEntry) :=
  match faults (.footer (.pack pack)), parseFooter host file with
  | some _, _ => throw (.packFooter (.pack pack) "i/o error")
  | none, .error detail => throw (.packFooter (.pack pack) detail)
  | none, .ok members => pure members

/-- The reader of a survivor: its window of the old pack. -/
def openSurvivor (faults : Faults) (pack : Blake3) (old : Bytes) (survivors : List MemberEntry)
    (ix : Nat) : Except IoError ByteStream :=
  match survivors[ix]?, faults (.openFile (.pack pack) (2 + ix)) with
  | none, _ => .error {}
  | some _, some e => .error e
  | some member, none => .ok (readWindow faults (.pack pack) old member.offset member.len)

structure RepackOutcome where
  newPack : Option Blake3
  dropped : List Blake3
  bytesFreed : Nat
  deriving DecidableEq, Repr

def dropped (drop : List Blake3) (members : List MemberEntry) : List MemberEntry :=
  members.filter fun member => member.hash ∈ drop

def survivors (drop : List Blake3) (members : List MemberEntry) : List MemberEntry :=
  members.filter fun member => member.hash ∉ drop

/-- Rewrite a pack without the members in `drop`. The dropped members are forgotten before the
old file is unlinked. -/
def repack (faults : Faults) (pack : Blake3) (drop : List Blake3) : FsM RepackOutcome := do
  let file ← openPack faults pack 0
  let members ← readTable host faults pack file
  let outcome := fun newPack : Option Blake3 => RepackOutcome.mk newPack
    ((dropped drop members).map MemberEntry.hash) ((dropped drop members).map MemberEntry.len).sum
  if dropped drop members = [] then pure (outcome (some pack))
  else if survivors drop members = [] then do
    modify (·.unmap (members.map MemberEntry.hash))
    let _ ← removeFile faults (.pack pack)
    pure (outcome none)
  else do
    let old ← openPack faults pack 1
    let newPack ← putPack host faults
      ((survivors drop members).map fun member => ⟨member.hash, member.len⟩)
      (openSurvivor faults pack old (survivors drop members))
    modify (·.unmap ((dropped drop members).map MemberEntry.hash))
    if newPack = pack then pure (outcome (some newPack))
    else do
      let _ ← removeFile faults (.pack pack)
      pure (outcome (some newPack))

/-! ## Reads -/

namespace Files

/-- The bytes of a blob: loose files win, data blobs fall through to the pack map. -/
def get (files : Files) (faults : Faults) (ns : Namespace) (hash : Blake3) :
    Except StoreError (Option Bytes) :=
  match faults (.openFile (.blob ns hash) 0), files.disk (.blob ns hash) with
  | some e, _ => .error (.io (.blob ns hash) e)
  | none, some bytes => .ok (some bytes)
  | none, none =>
    match if ns = .data then files.packs hash else none with
    | none => .ok none
    | some loc =>
      match faults (.openFile (.pack loc.pack) 0), files.disk (.pack loc.pack) with
      | some e, _ => .error (.io (.pack loc.pack) e)
      | none, none => .error (.io (.pack loc.pack) {})
      | none, some file => .ok (some (Reader.slice file loc.offset loc.len))

def has (files : Files) (faults : Faults) (ns : Namespace) (hash : Blake3) : Bool :=
  (faults (.stat (.blob ns hash) 0)).isNone && (files.disk (.blob ns hash)).isSome ||
    (ns = .data && (files.packs hash).isSome)

def len (files : Files) (faults : Faults) (ns : Namespace) (hash : Blake3) :
    Except StoreError (Option Nat) :=
  match faults (.stat (.blob ns hash) 0), files.disk (.blob ns hash) with
  | some e, _ => .error (.io (.blob ns hash) e)
  | none, some bytes => .ok (some bytes.length)
  | none, none => .ok ((if ns = .data then files.packs hash else none).map PackedLoc.len)

/-- A blob's outboard: the loose sidecar, then the pack's tree, then the empty one of a small
stored blob. -/
def getObao (files : Files) (faults : Faults) (ns : Namespace) (hash : Blake3) :
    Except StoreError (Option Bytes) :=
  match faults (.openFile (.outboard ns hash) 0), files.disk (.outboard ns hash) with
  | some e, _ => .error (.io (.outboard ns hash) e)
  | none, some sidecar => .ok (some sidecar)
  | none, none =>
    match if ns = .data then files.packs hash else none with
    | some loc =>
      if loc.obaoLen = 0 then .ok (some [])
      else
        match faults (.openFile (.pack loc.pack) 0), files.disk (.pack loc.pack) with
        | some e, _ => .error (.io (.pack loc.pack) e)
        | none, none => .error (.io (.pack loc.pack) {})
        | none, some file => .ok (some (Reader.slice file loc.obaoOffset loc.obaoLen))
    | none =>
      match files.len faults ns hash with
      | .error e => .error e
      | .ok (some len) => .ok (if outboardSize len = 0 then some [] else none)
      | .ok none => .ok none

end Files

/-! ## Operations -/

/-- A call on the store, with what it is given. -/
inductive Op where
  | put (ns : Namespace) (expected : Blake3) (reader : ByteStream)
  | putWithAliases (ns : Namespace) (expected : Blake3) (reader : ByteStream)
  | putNew (ns : Namespace) (reader : ByteStream)
  | putWithObao (ns : Namespace) (expected : Blake3) (len : Nat) (reader : ByteStream)
  | putPack (members : List PackMember) (openMember : Nat → Except IoError ByteStream)
  | repack (pack : Blake3) (drop : List Blake3)
  | evictLiteral (ns : Namespace) (hash : Blake3)
  | removeBlob (ns : Namespace) (hash : Blake3)

def Op.run (faults : Faults) : Op → FsM Unit
  | .put ns expected reader => do
      let _ ← StoreFs.put host faults ns expected reader
  | .putWithAliases ns expected reader => do
      let _ ← StoreFs.putWithAliases host faults ns expected reader
  | .putNew ns reader => do
      let _ ← StoreFs.putNew host faults ns reader
  | .putWithObao ns expected len reader => do
      let _ ← StoreFs.putWithObao host faults ns expected len reader
  | .putPack members openMember => do
      let _ ← StoreFs.putPack host faults members openMember
  | .repack pack drop => do
      let _ ← StoreFs.repack host faults pack drop
  | .evictLiteral ns hash => do
      let _ ← StoreFs.evictLiteral faults ns hash
  | .removeBlob ns hash => do
      let _ ← StoreFs.removeBlob faults ns hash

end Datboi.StoreFs
