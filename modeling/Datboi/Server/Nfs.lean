import Mathlib.Data.Char
import Mathlib.Data.List.AList
import Mathlib.Data.List.Lex
import Datboi.Catalog.Names
import Datboi.Core.Decoding
import Datboi.Lib.Rows

/-!
# Handles of the network file system

A fileid is derived from what it names: it is the low half of a 128-bit key, moved past a
clash by a probe. A handle carries the whole key, so that a later process can find the node
again, and a process that does not know the node yet keeps the key as a cold note until the
first operation on the id. Requests run next to each other; each goes through the decoding
of its handle, the lookup of its id and, for a cold note, the recovery of the path.
-/

namespace Datboi

open Catalog (Text)

namespace Nfs

/-- A hash map. -/
abbrev Dict (κ β : Type) := AList fun _ : κ => β

abbrev FileId := BitVec 64

/-- The leading 16 bytes of an identity hash, first byte lowest. -/
abbrev NodeKey := BitVec 128

inductive NfsStat where
  | noEnt
  | io
  | notDir
  | isDir
  | stale
  | badCookie
  deriving DecidableEq, Repr

def rootId : FileId := 1

/-- What a fileid names. -/
inductive Node where
  | root
  | view (name : Text)
  | path (snapshot : Blake3) (path : Text)
  deriving DecidableEq

/-- A handle whose node this process has not met yet. -/
inductive Cold where
  | view (key : NodeKey)
  | path (snapshot : Blake3) (key : NodeKey)
  deriving DecidableEq

/-- The two identity hashes, each under a probe number. -/
structure Keys where
  pathKey : Blake3 → Text → Nat → NodeKey
  viewKey : Text → Nat → NodeKey

/-- The key of a node; the root has none. -/
def Keys.keyOf (keys : Keys) (node : Node) (probe : Nat) : Option NodeKey :=
  match node with
  | .root => none
  | .view name => some (keys.viewKey name probe)
  | .path snapshot path => some (keys.pathKey snapshot path probe)

/-- The low 64 bits, kept clear of 0 and of the root. -/
def idOfKey (key : NodeKey) : FileId :=
  let id := key.setWidth 64
  if id ≤ rootId then id + rootId + 1 else id

/-! ## The table of ids -/

structure IdTable where
  byId : Dict FileId Node
  byNode : Dict Node FileId

namespace IdTable

def new : IdTable where
  byId := AList.singleton rootId .root
  byNode := AList.singleton .root rootId

def node (table : IdTable) (id : FileId) : Option Node := table.byId.lookup id

/-- Some id holds another node. -/
def clashes (table : IdTable) (id : FileId) (node : Node) : Bool :=
  match table.byId.lookup id with
  | some held => held != node
  | none => false

/-- The first probe whose id is free for the node. The counter is a 64-bit one; `none` is
the loop that finds no free id. -/
def probeFrom (keys : Keys) (table : IdTable) (node : Node) : Nat → Nat → Option FileId
  | 0, _ => none
  | fuel + 1, probe =>
    match keys.keyOf node probe with
    | none => none
    | some key =>
      if table.clashes (idOfKey key) node then probeFrom keys table node fuel (probe + 1)
      else some (idOfKey key)

def bind (table : IdTable) (id : FileId) (node : Node) : IdTable where
  byId := table.byId.insert id node
  byNode := table.byNode.insert node id

/-- The fileid for a node, and the table with it. -/
def idFor (keys : Keys) (table : IdTable) (node : Node) : Option (FileId × IdTable) :=
  match table.byNode.lookup node with
  | some id => some (id, table)
  | none =>
    match keys.keyOf node 0 with
    | none => some (rootId, table)
    | some _ =>
      (probeFrom keys table node (2 ^ 64) 0).map fun id => (id, table.bind id node)

end IdTable

/-! ## Handles on the wire -/

def fhRoot : UInt8 := 0
def fhView : UInt8 := 1
def fhPath : UInt8 := 2
def fhOpaque : UInt8 := 3

def NodeKey.toBytes (key : NodeKey) : Bytes := Wire.toLe 16 key.toNat

def NodeKey.ofBytes (bytes : Bytes) : NodeKey := BitVec.ofNat 128 (Wire.ofLe bytes)

/-- The handle of a node: a class byte and the identity that class needs. -/
def Keys.handle (keys : Keys) : Node → Bytes
  | .root => [fhRoot]
  | .view name => fhView :: NodeKey.toBytes (keys.viewKey name 0)
  | .path snapshot path =>
    fhPath :: (snapshot.toBytes ++ NodeKey.toBytes (keys.pathKey snapshot path 0))

/-- The handle for an id; one that was never minted gets the process-local form. -/
def idToFh (keys : Keys) (table : IdTable) (id : FileId) : Bytes :=
  match table.node id with
  | some node => keys.handle node
  | none => fhOpaque :: Wire.toLe 8 id.toNat

/-- What a handle claims: an id, with the note it leaves unless the id is bound. -/
def decodeFh : Bytes → Option (FileId × Option Cold)
  | [] => none
  | tag :: rest =>
    if tag = fhRoot ∧ rest.length = 0 then some (rootId, none)
    else if tag = fhView ∧ rest.length = 16 then
      let key := NodeKey.ofBytes rest
      some (idOfKey key, some (.view key))
    else if tag = fhPath ∧ rest.length = 48 then
      let key := NodeKey.ofBytes (rest.drop 32)
      some (idOfKey key, some (.path (Blake3.ofBytes (rest.take 32)) key))
    else if tag = fhOpaque ∧ rest.length = 8 then some (BitVec.ofNat 64 (Wire.ofLe rest), none)
    else none

/-! ## Views over immutable snapshots -/

structure RowMeta where
  hash : Blake3
  size : Nat
  deriving DecidableEq

/-- A decoded manifest, its rows in path order. -/
structure ViewIndex where
  snapshot : Blake3
  rows : List (Text × RowMeta)
  createdAt : Nat

namespace ViewIndex

variable (idx : ViewIndex)

def file (path : Text) : Option RowMeta :=
  (idx.rows.find? fun row => row.1 = path).map Prod.snd

/-- Is there a row below this path? The empty path is the root. -/
def isDir (path : Text) : Bool :=
  let start := path ++ ['/']
  path.isEmpty ||
    (idx.rows.dropWhile fun row => row.1 < start).head?.any fun row => start.isPrefixOf row.1

/-- Immediate children, directories and files apart. -/
structure Listing where
  dirs : List Text := []
  files : List (Text × RowMeta) := []

/-- Rows are sorted, so a subdirectory is compared with the previous child only. -/
def Listing.add (out : Listing) (rest : Text) (row : RowMeta) : Listing :=
  if '/' ∈ rest then
    let child := rest.takeWhile (· != '/')
    if out.dirs.getLast? = some child then out else { out with dirs := out.dirs ++ [child] }
  else { out with files := out.files ++ [(rest, row)] }

/-- What the rows below a directory start with. -/
def startOf (path : Text) : Text := if path.isEmpty then [] else path ++ ['/']

def below (path : Text) : List (Text × RowMeta) :=
  (idx.rows.dropWhile fun row => row.1 < startOf path).takeWhile fun row =>
    (startOf path).isPrefixOf row.1

def list (path : Text) : Listing :=
  (idx.below path).foldl (fun out row => out.add (row.1.drop (startOf path).length) row.2) {}

end ViewIndex

/-- The directories a path lies in, outermost first. -/
def dirsOf (path : Text) : List Text :=
  (List.range path.length).filterMap fun cut =>
    if path[cut]? = some '/' then some (path.take cut) else none

/-- The previous row lay inside this directory too. -/
def covered (prev dir : Text) : Bool := dir.isPrefixOf prev && prev[dir.length]? == some '/'

/-- Key one row and the directories it is the first to imply. -/
def keyRow (keys : Keys) (snapshot : Blake3) (out : Dict NodeKey Text) (prev path : Text) :
    Dict NodeKey Text :=
  let dirs := (dirsOf path).filter fun dir => !covered prev dir
  (dirs.foldl (fun out dir => out.insert (keys.pathKey snapshot dir 0) dir) out).insert
    (keys.pathKey snapshot path 0) path

def keyRows (keys : Keys) (snapshot : Blake3) (out : Dict NodeKey Text) (prev : Text) :
    List Text → Dict NodeKey Text
  | [] => out
  | path :: rest => keyRows keys snapshot (keyRow keys snapshot out prev path) path rest

/-- Every node a snapshot holds by its key. -/
def snapshotKeys (keys : Keys) (idx : ViewIndex) : Dict NodeKey Text :=
  keyRows keys idx.snapshot ∅ [] (idx.rows.map Prod.fst)

/-- What stays as it is while the daemon comes and goes: the names that views go by, the
contents of the snapshots, and the bytes behind their rows. -/
structure Tree where
  views : List Text
  manifest : Blake3 → Option (List (Text × RowMeta))
  serveRange : Blake3 → Nat → Nat → Option Bytes

/-- What can change under a server: the snapshot of each view, and what is within reach. -/
structure App where
  tags : Text → Option Blake3
  tagsFail : Bool
  missing : Blake3 → Bool
  createdAt : Blake3 → Nat

namespace Tree

variable (tree : Tree) (app : App)

def viewTags : Except NfsStat (List (Text × Blake3)) :=
  if app.tagsFail then .error .io
  else .ok (tree.views.filterMap fun name => (app.tags name).map fun hash => (name, hash))

def snapshotIndex (snapshot : Blake3) : Except NfsStat ViewIndex :=
  match tree.manifest snapshot with
  | some rows =>
    if app.missing snapshot then .error .io else .ok ⟨snapshot, rows, app.createdAt snapshot⟩
  | none => .error .io

def viewIndex (name : Text) : Except NfsStat ViewIndex :=
  if app.tagsFail then .error .io
  else if name ∈ tree.views then
    match app.tags name with
    | some snapshot => tree.snapshotIndex app snapshot
    | none => .error .noEnt
  else .error .noEnt

end Tree

/-- One child as listings and lookups see it. -/
structure Child where
  name : Text
  node : Node
  isDir : Bool
  size : Nat
  mtime : Nat

def rootChild (tree : Tree) (app : App) (view : Text × Blake3) : Except NfsStat Child :=
  (tree.snapshotIndex app view.2).map fun idx =>
    ⟨view.1, .view view.1, true, 4096, idx.createdAt⟩

/-- One directory for each tagged view, by name. -/
def rootChildren (tree : Tree) (app : App) : Except NfsStat (List Child) := do
  let views ← tree.viewTags app
  (Rows.sortBy Prod.fst views).mapM (rootChild tree app)

def join (path name : Text) : Text := if path.isEmpty then name else path ++ '/' :: name

def listingNodes (idx : ViewIndex) (path : Text) : List Child :=
  let listing := idx.list path
  Rows.sortBy Child.name
    (listing.dirs.map (fun dir =>
        ⟨dir, .path idx.snapshot (join path dir), true, 4096, idx.createdAt⟩) ++
      listing.files.map fun file =>
        ⟨file.1, .path idx.snapshot (join path file.1), false, file.2.size, idx.createdAt⟩)

/-! ## The server -/

structure Attr where
  isDir : Bool
  mode : Nat
  nlink : Nat
  size : Nat
  used : Nat
  fileId : FileId
  mtime : Nat
  deriving DecidableEq

/-- Seconds on the wire are 32 bits wide. -/
def time (secondsUnix : Nat) : Nat := min secondsUnix (2 ^ 32 - 1)

def dirAttr (id : FileId) (mtimeUnix : Nat) : Attr :=
  ⟨true, 0o555, 2, 4096, 4096, id, time mtimeUnix⟩

def fileAttr (id : FileId) (size mtimeUnix : Nat) : Attr :=
  ⟨false, 0o444, 1, size, size, id, time mtimeUnix⟩

/-- One directory's children with their fileids, and the place of each cookie. -/
structure Listing where
  entries : List (FileId × Child)
  byId : Dict FileId Nat

structure DirEntry where
  fileId : FileId
  name : Text
  attr : Attr
  deriving DecidableEq

/-- What an operation asks of a node. A name that is not UTF-8 is `none`. -/
inductive Op where
  | lookup (name : Option Text)
  | getattr
  | read (offset count : Nat)
  | readdir (startAfter : FileId) (maxEntries : Nat)

inductive Reply where
  | id (id : FileId)
  | attr (attr : Attr)
  | bytes (bytes : Bytes) (eof : Bool)
  | entries (entries : List DirEntry) (complete : Bool)
  deriving DecidableEq

/-- One process: the table, the notes and the two caches. -/
structure Server where
  ids : IdTable := IdTable.new
  cold : Dict FileId Cold := ∅
  keys : Dict Blake3 (Dict NodeKey Text) := ∅
  listings : Dict (Blake3 × Text) Listing := ∅

/-- Notes held at once. -/
def coldHandleCeiling : Nat := 64 * 1024

/-- Cached entries, summed over the cache, before it is dropped. -/
def listingCacheEntries : Nat := 250000

namespace Server

variable (keys : Keys) (tree : Tree) (app : App) (server : Server)

/-- Note a handle whose node is not known yet; a bound id is left as it is. -/
def rememberCold (id : FileId) (cold : Cold) : Server :=
  if (server.ids.node id).isSome then server
  else
    let notes := if coldHandleCeiling ≤ server.cold.keys.length then ∅ else server.cold
    { server with cold := notes.insert id cold }

/-- A snapshot's node keys, from the cache or built. -/
def keyMap (snapshot : Blake3) : Except NfsStat (Dict NodeKey Text) × Server :=
  match server.keys.lookup snapshot with
  | some hit => (.ok hit, server)
  | none =>
    match tree.snapshotIndex app snapshot with
    | .error stat => (.error stat, server)
    | .ok idx =>
      let built := snapshotKeys keys idx
      let cached := (server.keys.entries.map fun entry => entry.2.keys.length).sum
      let cache := if listingCacheEntries ≤ cached then ∅ else server.keys
      (.ok built, { server with keys := cache.insert snapshot built })

/-- Match a note's key back to the node it names. -/
def thaw : Cold → Except NfsStat Node × Server
  | .view key =>
    match tree.viewTags app with
    | .error stat => (.error stat, server)
    | .ok views =>
      match (views.map Prod.fst).find? fun name => keys.viewKey name 0 = key with
      | some name => (.ok (.view name), server)
      | none => (.error .stale, server)
  | .path snapshot key =>
    match server.keyMap keys tree app snapshot with
    | (.error stat, server) => (.error stat, server)
    | (.ok found, server) =>
      match found.lookup key with
      | some path => (.ok (.path snapshot path), server)
      | none => (.error .stale, server)

/-- Mint every child's fileid. -/
def mintAll (table : IdTable) : List Child → Option (List (FileId × Child) × IdTable)
  | [] => some ([], table)
  | child :: rest => do
      let (id, table) ← table.idFor keys child.node
      let (entries, table) ← mintAll table rest
      return ((id, child) :: entries, table)

def materialize (children : List Child) : Option (Listing × Server) := do
  let (entries, table) ← mintAll keys server.ids children
  let byId := entries.zipIdx.foldl (fun (byId : Dict FileId Nat) entry =>
    byId.insert entry.1.1 entry.2) ∅
  return (⟨entries, byId⟩, { server with ids := table })

/-- The children of a path, from the cache or built. -/
def listing (snapshot : Blake3) (path : Text) : Option (Except NfsStat Listing × Server) :=
  match server.listings.lookup (snapshot, path) with
  | some hit => some (.ok hit, server)
  | none =>
    match tree.snapshotIndex app snapshot with
    | .error stat => some (.error stat, server)
    | .ok idx =>
      if idx.isDir path then do
        let (built, server) ← server.materialize keys (listingNodes idx path)
        let cached := (server.listings.entries.map fun entry => entry.2.entries.length).sum
        let cache := if listingCacheEntries ≤ cached then ∅ else server.listings
        return (.ok built, { server with listings := cache.insert (snapshot, path) built })
      else some (.error .notDir, server)

/-- The snapshot an enumeration of a view root is already walking, by its cookie. -/
def pinnedSnapshot (startAfter : FileId) : Option Blake3 :=
  if startAfter = 0 then none
  else
    match server.ids.node startAfter with
    | some (.path snapshot path) => if '/' ∈ path then none else some snapshot
    | some _ => none
    | none =>
      match server.cold.lookup startAfter with
      | some (.path snapshot _) => some snapshot
      | _ => none

/-- The node a name leads to from a directory, before it gets its id. -/
def child (node : Node) (name : Text) : Except NfsStat Node :=
  match node with
  | .root => do
      let views ← tree.viewTags app
      if name ∈ views.map Prod.fst then return .view name else throw .noEnt
  | .view view => do
      let idx ← tree.viewIndex app view
      if (idx.file name).isSome || idx.isDir name then return .path idx.snapshot name
      else throw .noEnt
  | .path snapshot path => do
      let idx ← tree.snapshotIndex app snapshot
      let child := path ++ '/' :: name
      if (idx.file child).isSome || idx.isDir child then return .path snapshot child
      else throw .noEnt

/-- The node a lookup mints an id for, or the answer it gives without. -/
def lookupTarget (dirId : FileId) (node : Node) : Option Text → Except NfsStat (FileId ⊕ Node)
  | none => .error .noEnt
  | some name =>
    if name = ['.'] then .ok (.inl dirId)
    else if name = ['.', '.'] then
      match node with
      | .path snapshot path =>
        match path.rsplitOnce '/' with
        | some (parent, _) => .ok (.inr (.path snapshot parent))
        | none => .ok (.inl rootId)
      | _ => .ok (.inl rootId)
    else (child tree app node name).map .inr

def getattr (id : FileId) : Node → Except NfsStat Attr
  | .root => .ok (dirAttr id 0)
  | .view name => do
      let idx ← tree.viewIndex app name
      return dirAttr id idx.createdAt
  | .path snapshot path => do
      let idx ← tree.snapshotIndex app snapshot
      match idx.file path with
      | some row => return fileAttr id row.size idx.createdAt
      | none => if idx.isDir path then return dirAttr id idx.createdAt else throw .noEnt

def read (node : Node) (offset count : Nat) : Except NfsStat (Bytes × Bool) :=
  match node with
  | .path snapshot path => do
      let idx ← tree.snapshotIndex app snapshot
      match idx.file path with
      | none => throw .isDir
      | some row =>
        let start := min offset row.size
        let want := min count (row.size - start)
        if want = 0 then return ([], row.size ≤ start)
        else
          match tree.serveRange row.hash start want with
          | some bytes => return (bytes, row.size ≤ start + bytes.length)
          | none => throw .io
  | _ => .error .isDir

/-- The listing that a directory's enumeration goes through. -/
def dirListing (node : Node) (startAfter : FileId) :
    Option (Except NfsStat Listing × Server) :=
  match node with
  | .root =>
    match rootChildren tree app with
    | .error stat => some (.error stat, server)
    | .ok children => (server.materialize keys children).map fun (built, server) =>
      (.ok built, server)
  | .path snapshot path => server.listing keys tree app snapshot path
  | .view name =>
    match server.pinnedSnapshot startAfter with
    | some snapshot => server.listing keys tree app snapshot []
    | none =>
      match tree.viewIndex app name with
      | .error stat => some (.error stat, server)
      | .ok idx => server.listing keys tree app idx.snapshot []

/-- The window of a listing behind a cookie. -/
def page (listing : Listing) (startAfter : FileId) (maxEntries : Nat) : Except NfsStat Reply := do
  let skip ←
    if startAfter = 0 then pure 0
    else
      match listing.byId.lookup startAfter with
      | some pos => pure (pos + 1)
      | none => throw .badCookie
  let window := listing.entries.drop skip
  let entries := (window.take maxEntries).map fun (id, child) =>
    ⟨id, child.name,
      if child.isDir then dirAttr id child.mtime else fileAttr id child.size child.mtime⟩
  return .entries entries (window.length ≤ maxEntries)

/-- An operation on a node, under the id it was presented with. -/
def operate (id : FileId) (node : Node) : Op → Option (Except NfsStat Reply × Server)
  | .lookup name =>
    match lookupTarget tree app id node name with
    | .error stat => some (.error stat, server)
    | .ok (.inl id) => some (.ok (.id id), server)
    | .ok (.inr child) => (server.ids.idFor keys child).map fun (id, table) =>
      (.ok (.id id), { server with ids := table })
  | .getattr => some ((getattr tree app id node).map .attr, server)
  | .read offset count =>
    some ((read tree app node offset count).map fun (bytes, eof) => .bytes bytes eof, server)
  | .readdir startAfter maxEntries =>
    (server.dirListing keys tree app node startAfter).map fun (listing, server) =>
      (listing.bind fun listing => page listing startAfter maxEntries, server)

end Server

/-! ## Requests side by side -/

/-- How far an operation has come on the way from an id to its node. -/
inductive Stage where
  | ready (last : Option (Except NfsStat Reply))
  | thawing (cold : Cold)
  | thawed (found : Except NfsStat Node)
  | resolved (node : Node)
  deriving DecidableEq

/-- A request holds the id it decoded for as many operations as it makes. -/
inductive Request where
  | idle
  | rejected (fh : Bytes) (stat : NfsStat)
  | held (fh : Bytes) (id : FileId) (stage : Stage)
  deriving DecidableEq

/-- One process and its requests, over what changes under it. -/
structure World (ρ : Type) where
  app : App
  server : Server := {}
  requests : ρ → Request := fun _ => .idle

/-- One atomic step: of the outside, of one request, or a restart of the process. -/
inductive Step (ρ : Type) where
  | outside (app : App)
  | restart
  | present (who : ρ) (fh : Bytes)
  | look (who : ρ)
  | thaw (who : ρ)
  | settle (who : ρ)
  | operate (who : ρ) (op : Op)
  | finish (who : ρ)

namespace World

variable {ρ : Type} [DecidableEq ρ] (keys : Keys) (tree : Tree)

def set (world : World ρ) (who : ρ) (request : Request) (server : Server) : World ρ :=
  { world with server := server, requests := Function.update world.requests who request }

/-- The note of a handle, on a server that does not know its id. -/
def present (world : World ρ) (who : ρ) (fh : Bytes) : World ρ :=
  match decodeFh fh with
  | none => world.set who (.rejected fh .stale) world.server
  | some (id, none) => world.set who (.held fh id (.ready none)) world.server
  | some (id, some cold) =>
    world.set who (.held fh id (.ready none)) (world.server.rememberCold id cold)

def look (world : World ρ) (who : ρ) (fh : Bytes) (id : FileId) : World ρ :=
  match world.server.ids.node id with
  | some node => world.set who (.held fh id (.resolved node)) world.server
  | none =>
    match world.server.cold.lookup id with
    | some cold => world.set who (.held fh id (.thawing cold)) world.server
    | none => world.set who (.held fh id (.ready (some (.error .stale)))) world.server

/-- The note has done its job, whatever came of it. A node that was probed past its id is
refused. -/
def settle (world : World ρ) (who : ρ) (fh : Bytes) (id : FileId)
    (found : Except NfsStat Node) : World ρ :=
  let server := { world.server with cold := world.server.cold.erase id }
  match found with
  | .error stat => world.set who (.held fh id (.ready (some (.error stat)))) server
  | .ok node =>
    match server.ids.idFor keys node with
    | none => { world with server := server }
    | some (own, ids) =>
      let stage := if own ≠ id then .ready (some (.error .stale)) else .resolved node
      world.set who (.held fh id stage) { server with ids := ids }

/-- A step that is not the request's next one does nothing, and neither does one whose
probing never ends. -/
def step (world : World ρ) : Step ρ → World ρ
  | .outside app => { world with app := app }
  | .restart => { app := world.app }
  | .present who fh => world.present who fh
  | .look who =>
    match world.requests who with
    | .held fh id (.ready _) => world.look who fh id
    | _ => world
  | .thaw who =>
    match world.requests who with
    | .held fh id (.thawing cold) =>
      let (found, server) := world.server.thaw keys tree world.app cold
      world.set who (.held fh id (.thawed found)) server
    | _ => world
  | .settle who =>
    match world.requests who with
    | .held fh id (.thawed found) => world.settle keys who fh id found
    | _ => world
  | .operate who op =>
    match world.requests who with
    | .held fh id (.resolved node) =>
      match world.server.operate keys tree world.app id node op with
      | none => world
      | some (reply, server) => world.set who (.held fh id (.ready (some reply))) server
    | _ => world
  | .finish who => world.set who .idle world.server

def run (world : World ρ) (steps : List (Step ρ)) : World ρ := steps.foldl (step keys tree) world

end World

end Nfs

end Datboi
