import Datboi.Catalog.Views
import Datboi.Lib.Moves

/-!
# FAT32 images

An image is planned from a list of files sorted by path: the directory tree, the 8.3 names,
the number of entry slots of each directory and the cluster runs. A directory is known
here by its path, `[]` for the root; `nodes` lists the directories and files in the order
in which the source creates them.
-/

namespace Datboi.Catalog

namespace Fat32

def sectorSize : Nat := 512

def reservedSectors : Nat := 32

/-- Fewer data clusters would be read as FAT16. -/
def minClusters : Nat := 65525

def maxClusters : Nat := 0x0FFFFFF4 - 2

def maxDirEntrySlots : Nat := 65536

/-- 4 GiB less one byte. -/
def maxFileSize : Nat := 4 * 2 ^ 30 - 1

structure FileEntry where
  path : Text
  size : Nat
  deriving DecidableEq

/-- What the plan reads of the image parameters. The label is eleven bytes. -/
structure Params where
  volumeLabel : List Nat
  clusterSize : Nat
  partition : Bool
  deriving DecidableEq

/-- The errors of the layout. `tailsExhausted` is the panic at the end of the numeric
tails. -/
inductive Error where
  | badClusterSize (size : Nat)
  | badPath (path : Text)
  | nameTooLong (path : Text)
  | fileTooLarge (path : Text) (size : Nat)
  | pathConflict (path : Text)
  | unsorted (path : Text)
  | dirTooLarge (path : Text)
  | tooManyClusters (clusters : Nat)
  | imageTooLarge (bytes : Nat)
  | tailsExhausted
  deriving DecidableEq

/-- `str::to_uppercase`: each character by itself, ASCII letters as usual. -/
structure CaseFold where
  upper : Char → Text
  ascii : ∀ c : Char, c.toNat < 128 → upper c = [c.toUpper]

def CaseFold.toUppercase (fold : CaseFold) (text : Text) : Text := text.flatMap fold.upper

/-- `char::encode_utf16`. -/
def utf16Units (c : Char) : List Nat :=
  if c.toNat < 0x10000 then [c.toNat]
  else [0xD800 + (c.toNat - 0x10000) / 0x400, 0xDC00 + (c.toNat - 0x10000) % 0x400]

def encodeUtf16 (text : Text) : List Nat := text.flatMap utf16Units

/-! ## The directory tree -/

def bannedChars : Text := "\"*/:<>?\\|".toList

def componentIsFatLegal (c : Text) : Bool :=
  !c.isEmpty && c != ['.'] && c != ['.', '.'] && c.getLast? != some '.' && c.getLast? != some ' ' &&
    !c.any fun ch => bannedChars.contains ch || ch.toNat < 0x20

inductive NodeKind where
  | dir
  | file (index : Nat)
  deriving DecidableEq

/-- A directory or a file, under the directory it is in. -/
structure Node where
  parent : Text
  name : Text
  kind : NodeKind
  deriving DecidableEq

def joinPath (parent name : Text) : Text := if parent = [] then name else parent ++ '/' :: name

def Node.path (node : Node) : Text := joinPath node.parent node.name

/-- The case-folded names of each directory; files and directories share them. -/
def foldedNames (fold : CaseFold) (nodes : List Node) : List (Text × Text) :=
  nodes.map fun node => (node.parent, fold.toUppercase node.name)

def isDir (nodes : List Node) (path : Text) : Bool :=
  path = [] ∨ nodes.any fun node => node.kind = .dir ∧ node.path = path

/-- The first of two neighbours that are not in strictly ascending order. -/
def checkSorted : List FileEntry → Except Error Unit
  | first :: second :: rest =>
    if first.path < second.path then checkSorted (second :: rest)
    else .error (.unsorted second.path)
  | _ => .ok ()

/-- Create what is missing of a directory's ancestors, left to right; `here` is the
directory reached. -/
def createDirs (fold : CaseFold) : List Node → Text → List Text → Except Error (List Node × Text)
  | nodes, here, [] => .ok (nodes, here)
  | nodes, here, comp :: rest =>
    let path := joinPath here comp
    if isDir nodes path then createDirs fold nodes path rest
    else if !componentIsFatLegal comp then .error (.badPath path)
    else if 255 < (encodeUtf16 comp).length then .error (.nameTooLong path)
    else if (here, fold.toUppercase comp) ∈ foldedNames fold nodes then
      .error (.pathConflict path)
    else createDirs fold (nodes ++ [⟨here, comp, .dir⟩]) path rest

def ensureDir (fold : CaseFold) (nodes : List Node) (path : Text) :
    Except Error (List Node × Text) :=
  if isDir nodes path then .ok (nodes, path) else createDirs fold nodes [] path.components

def addFile (fold : CaseFold) (nodes : List Node) (index : Nat) (file : FileEntry) :
    Except Error (List Node) :=
  let (dir, name) := splitPath file.path
  if maxFileSize < file.size then .error (.fileTooLarge file.path file.size)
  else if !componentIsFatLegal name then .error (.badPath file.path)
  else if 255 < (encodeUtf16 name).length then .error (.nameTooLong file.path)
  else
    match ensureDir fold nodes dir with
    | .error e => .error e
    | .ok (nodes, parent) =>
      if (parent, fold.toUppercase name) ∈ foldedNames fold nodes then
        .error (.pathConflict file.path)
      else .ok (nodes ++ [⟨parent, name, .file index⟩])

def addFiles (fold : CaseFold) : List Node → Nat → List FileEntry → Except Error (List Node)
  | nodes, _, [] => .ok nodes
  | nodes, index, file :: rest => do
      let nodes ← addFile fold nodes index file
      addFiles fold nodes (index + 1) rest

def buildTree (fold : CaseFold) (files : List FileEntry) : Except Error (List Node) := do
  checkSorted files
  addFiles fold [] 0 files

/-- The directories in the order of their creation, the root first. -/
def dirPaths (nodes : List Node) : List Text :=
  [] :: (nodes.filter fun node => node.kind = .dir).map Node.path

/-- A directory's entries in the order of their names. -/
def childrenOf (nodes : List Node) (dir : Text) : List Node :=
  (nodes.filter fun node => node.parent = dir).insertionSort fun a b => ¬ b.name < a.name

/-! ## Short names -/

def keptChars : Text :=
  "!#$%&'()-@^_".toList ++ ['\x60', '\x7b', '\x7d', '~']

/-- A character of a stem or an extension in the 8.3 charset, and whether that loses
something. -/
def mangleChar (c : Char) : Option Char × Bool :=
  if c.isUpper ∨ c.isDigit then (some c, false)
  else if c.isLower then (some c.toUpper, false)
  else if keptChars.contains c then (some c, false)
  else if c = ' ' ∨ c = '.' then (none, true)
  else (some '_', true)

/-- Mangle a field of at most `cap` characters. -/
def mangle (cap : Nat) : Text → Bool → Text → Text × Bool
  | out, lossy, [] => (out, lossy)
  | out, lossy, c :: rest =>
    if out.length = cap then (out, true)
    else mangle cap (out ++ (mangleChar c).1.toList) (lossy || (mangleChar c).2) rest

/-- An 8.3 name is eleven characters, its two fields padded with spaces. A stem over eight
characters runs into the extension's field. -/
def render (stem ext : Text) : Text :=
  let padded := stem ++ List.replicate (11 - stem.length) ' '
  padded.take 8 ++ ext ++ padded.drop (8 + ext.length)

/-- The stem with a numeric tail. -/
def withTail (stem : Text) (n : Nat) : Text :=
  let tail := '~' :: Nat.toDigits 10 n
  stem.take (8 - min tail.length 8) ++ tail

/-- The first numeric tail that gives a free name. -/
def tailLoop (used : List Text) (stem ext : Text) : Nat → Nat → Option Text
  | 0, _ => none
  | fuel + 1, n =>
    let candidate := render (withTail stem n) ext
    if candidate ∈ used then tailLoop used stem ext fuel (n + 1) else some candidate

def trimDots (text : Text) : Text := text.dropWhile fun c => c = '.'

/-- What of a long name becomes the stem and the extension. -/
def shortSources (long : Text) : Text × Option Text :=
  match long.rsplitOnce '.' with
  | some (stem, ext) => if trimDots stem = [] then (long, none) else (stem, some ext)
  | none => (long, none)

def mangledStem (source : Text) : Text × Bool :=
  let (stem, lossy) := mangle 8 [] (source.length ≠ (trimDots source).length) (trimDots source)
  if stem = [] then (['_'], true) else (stem, lossy)

/-- The mangled stem and extension of a long name, and whether something was lost. -/
def mangled (long : Text) : Text × Text × Bool :=
  let (stemSrc, extSrc) := shortSources long
  let (stem, lossy) := mangledStem stemSrc
  let (ext, lossy) := mangle 3 [] lossy (extSrc.getD [])
  (stem, ext, lossy)

/-- The text an 8.3 name stands for. -/
def withDot (stem ext : Text) : Text := if ext = [] then stem else stem ++ '.' :: ext

/-- The 8.3 name of a long name, and whether the long name has to be stored with it. -/
def shortName (long : Text) (used : List Text) : Option (Text × Bool) :=
  let (stem, ext, lossy) := mangled long
  if !lossy ∧ render stem ext ∉ used then some (render stem ext, withDot stem ext ≠ long)
  else (tailLoop used stem ext (2 ^ 32 - 1) 1).map fun short => (short, true)

/-- An entry of a directory with its names. -/
structure Child where
  node : Node
  short : Text
  needsLfn : Bool
  deriving DecidableEq

/-- The children's short names, each against those before it. -/
def nameChildren : List Text → List Node → Option (List Child)
  | _, [] => some []
  | used, node :: rest => do
      let (short, needsLfn) ← shortName node.name used
      let later ← nameChildren (short :: used) rest
      return ⟨node, short, needsLfn⟩ :: later

/-! ## Slots and clusters -/

def lfnEntryCount (name : Text) : Nat := ((encodeUtf16 name).length + 12) / 13

def Child.slots (child : Child) : Nat :=
  1 + if child.needsLfn then lfnEntryCount child.node.name else 0

/-- A directory with its named entries and its run of clusters. -/
structure Dir where
  path : Text
  children : List Child
  slots : Nat
  firstCluster : Nat := 0
  clusters : Nat := 0
  deriving DecidableEq

def blankLabel : List Nat := List.replicate 11 32

/-- Slots of a directory besides those of its children: the label, or `.` and `..`. -/
def ownSlots (params : Params) (path : Text) : Nat :=
  if path = [] then (if params.volumeLabel = blankLabel then 0 else 1) else 2

def nameDir (params : Params) (nodes : List Node) (path : Text) : Except Error Dir :=
  match nameChildren [] (childrenOf nodes path) with
  | none => .error .tailsExhausted
  | some children =>
    let slots := ownSlots params path + (children.map Child.slots).sum
    if maxDirEntrySlots < slots then .error (.dirTooLarge (if path = [] then ['/'] else path))
    else .ok { path := path, children := children, slots := slots }

def nameDirs (params : Params) (nodes : List Node) : List Text → Except Error (List Dir)
  | [] => .ok []
  | path :: rest => do
      let dir ← nameDir params nodes path
      let later ← nameDirs params nodes rest
      return dir :: later

/-- The number of blocks of `size` that `n` needs. -/
def divCeil (n size : Nat) : Nat := (n + size - 1) / size

/-- Give each directory its run, from cluster `cur` on. -/
def allocDirs (clusterSize : Nat) : Nat → List Dir → Except Error (List Dir × Nat)
  | cur, [] => .ok ([], cur)
  | cur, dir :: rest =>
    let clusters := max (divCeil (dir.slots * 32) clusterSize) 1
    if 2 ^ 32 ≤ cur then .error (.tooManyClusters cur)
    else do
      let (later, stop) ← allocDirs clusterSize (cur + clusters) rest
      return ({ dir with firstCluster := cur, clusters := clusters } :: later, stop)

/-- Give each file its run; an empty file has none and starts at 0. -/
def allocFiles (clusterSize : Nat) :
    Nat → List FileEntry → Except Error (List (Nat × Nat) × Nat)
  | cur, [] => .ok ([], cur)
  | cur, file :: rest =>
    let clusters := divCeil file.size clusterSize
    if clusters ≠ 0 ∧ 2 ^ 32 ≤ cur then .error (.tooManyClusters cur)
    else do
      let (later, stop) ← allocFiles clusterSize (cur + clusters) rest
      return ((if clusters = 0 then 0 else cur, clusters) :: later, stop)

/-- Everything that decides the image's bytes. -/
structure Plan where
  nodes : List Node
  dirs : List Dir
  fileClusters : List (Nat × Nat)
  dirClusters : Nat
  usedClusters : Nat
  clusters : Nat
  fatSectors : Nat
  partitionSectors : Nat
  deriving DecidableEq

def Params.isValid (params : Params) : Bool :=
  512 ≤ params.clusterSize ∧ params.clusterSize ≤ 65536 ∧
    (List.range 17).any fun k => params.clusterSize = 2 ^ k

/-- The sizes of the image, checked. -/
def geometry (params : Params) (nodes : List Node) (dirs : List Dir)
    (fileClusters : List (Nat × Nat)) (cur stop : Nat) : Except Error Plan :=
  let clusters := max (stop - 2) minClusters
  let fatSectors := divCeil ((clusters + 2) * 4) sectorSize
  let partitionSectors := reservedSectors + 2 * fatSectors +
    clusters * (params.clusterSize / sectorSize)
  if maxClusters < clusters then .error (.tooManyClusters clusters)
  else if 2 ^ 32 ≤ partitionSectors then .error (.imageTooLarge (partitionSectors * sectorSize))
  else .ok ⟨nodes, dirs, fileClusters, cur - 2, stop - 2, clusters, fatSectors, partitionSectors⟩

/-- The layout up to its bytes: every check the source makes is made here. -/
def layout (fold : CaseFold) (files : List FileEntry) (params : Params) : Except Error Plan :=
  if !params.isValid then .error (.badClusterSize params.clusterSize)
  else do
    let nodes ← buildTree fold files
    let named ← nameDirs params nodes (dirPaths nodes)
    let (dirs, cur) ← allocDirs params.clusterSize 2 named
    let (fileClusters, stop) ← allocFiles params.clusterSize cur files
    geometry params nodes dirs fileClusters cur stop

end Fat32

end Datboi.Catalog
