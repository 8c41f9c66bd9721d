import Datboi.Catalog.Names
import Datboi.Index.Db

/-!
# Laying out a view

A view's picked claims become rows: each gets a path from the template, constrained to
the target device, and a path that is already taken gets a tag from the blob's address.
Directories with too many entries then have their files moved one alphabetic level down.
-/

namespace Datboi.Catalog

/-- A claim with the blob that was picked for it. `identityId` is the claim's identity;
the layout does not read it. -/
structure Picked where
  entryId : Nat
  entry : Text
  claim : Text
  identityId : Nat
  hash : Blake3
  size : Nat
  deriving DecidableEq

/-- What the layout reads of a view: its template, its profile, and the entries a
selection policy chose, if it has one. -/
structure ViewDef where
  template : Text
  profile : Option Profile
  selected : Option (List Nat) := none

structure Row where
  pick : Picked
  path : Text
  seek : Nat
  deriving DecidableEq

/-! ## Paths -/

/-- The template with its placeholders filled in. -/
def expand (template : Text) (pick : Picked) : Text :=
  let path := template.replace "{entry}".toList (sanitizeComponent pick.entry)
  let path := Text.replace path "{name}".toList (sanitizeName pick.claim)
  Text.replace path "{alpha_bucket}".toList (alphaBucket pick.claim)

/-- The path a pick asks for; `none` where fitting a component panics. -/
def ViewDef.place (view : ViewDef) (pick : Picked) : Option Text :=
  let path := expand view.template pick
  let path := if pathIsCanonical path then path else sanitizeName path
  match view.profile with
  | none => some path
  | some profile => profile.constrainPath path

/-- The lowercase hex digits of an address, `Blake3::to_hex`. -/
def hexDigits (hash : Blake3) : Text :=
  (List.range 64).map fun i => (hash.toNat / 16 ^ (63 - i) % 16).digitChar

/-- The first eight hex digits of an address. -/
def tagOf (hash : Blake3) : Text := (hexDigits hash).take 8

def tagSuffix (hash : Blake3) : Text := " (".toList ++ tagOf hash ++ [')']

/-- A taken path with its tag, in front of what follows the last dot. -/
def tagged (path : Text) (hash : Blake3) : Text :=
  match path.rsplitOnce '.' with
  | some (stem, ext) =>
    if stem = [] then path ++ tagSuffix hash else stem ++ tagSuffix hash ++ '.' :: ext
  | none => path ++ tagSuffix hash

/-- The class a blob reads with: resident literals affinely, the others as their best
live route. -/
def seekClassOf (db : Db) (hash : Blake3) : Nat :=
  match db.blobByHash hash with
  | none => 2
  | some row =>
    if row.residency = .resident then 0
    else ((db.recipesForOutput row.blobId).filter fun recipe => recipe.verify ≠ .failed).foldl
      (fun best recipe => min best recipe.seekClass.code) 2

/-! ## Collisions -/

/-- What becomes of one pick, given the paths already taken. -/
inductive Turn where
  | unselected
  | oversize
  | kept (path : Text)
  | renamed (path : Text)
  | duplicate (path : Text)
  deriving DecidableEq

namespace ViewDef

variable (view : ViewDef)

def selects (pick : Picked) : Bool :=
  view.selected.all fun entries => entries.contains pick.entryId

/-- The profile's target cannot hold a file of this size. -/
def isOversize (pick : Picked) : Bool :=
  (view.profile.bind Profile.maxFileSize).any fun cap => cap < pick.size

def turn (seen : List Text) (pick : Picked) : Option Turn :=
  if !view.selects pick then some .unselected
  else if view.isOversize pick then some .oversize
  else do
    let path ← view.place pick
    if path ∉ seen then return .kept path
    if tagged path pick.hash ∉ seen then return .renamed path
    return .duplicate path

end ViewDef

structure Layout where
  seen : List Text := []
  rows : List Row := []
  disambiguated : Nat := 0
  skippedOversize : Nat := 0

namespace Layout

def push (layout : Layout) (db : Db) (pick : Picked) (path : Text) : Layout :=
  { layout with
    seen := path :: layout.seen
    rows := layout.rows ++ [⟨pick, path, seekClassOf db pick.hash⟩] }

def after (layout : Layout) (db : Db) (pick : Picked) : Turn → Layout
  | .unselected => layout
  | .oversize => { layout with skippedOversize := layout.skippedOversize + 1 }
  | .kept path => layout.push db pick path
  | .renamed path =>
    { layout.push db pick (tagged path pick.hash) with
      disambiguated := layout.disambiguated + 1 }
  | .duplicate _ => layout

def step (view : ViewDef) (db : Db) (layout : Layout) (pick : Picked) : Option Layout :=
  (view.turn layout.seen pick).map (layout.after db pick)

end Layout

def ViewDef.layout (view : ViewDef) (db : Db) (picks : List Picked) : Option Layout :=
  picks.foldlM (Layout.step view db) {}

/-! ## Overfull directories -/

/-- Each directory on the way to a path with the child it has there. -/
def ancestry : Nat → Text → List (Text × Text)
  | 0, _ => []
  | fuel + 1, node =>
    match node.rsplitOnce '/' with
    | some (parent, leaf) => (parent, leaf) :: ancestry fuel parent
    | none => [([], node)]

/-- The immediate children of each directory, files and directories alike. -/
def dirChildren (rows : List Row) : List (Text × Text) :=
  (rows.flatMap fun row => ancestry (row.path.length + 1) row.path).dedup

def overfullDirs (rows : List Row) (cap : Nat) : List Text :=
  let children := dirChildren rows
  (children.map Prod.fst).dedup.filter fun dir =>
    cap < (children.filter fun child => child.1 = dir).length

/-- The directory and the name of a path. -/
def splitPath (path : Text) : Text × Text := (path.rsplitOnce '/').getD ([], path)

/-- The path one alphabetic level down. -/
def bucketed (path : Text) : Text :=
  let (parent, leaf) := splitPath path
  if parent = [] then alphaBucket leaf ++ '/' :: leaf
  else parent ++ '/' :: (alphaBucket leaf ++ '/' :: leaf)

/-- What becomes of one row, given the other rows' paths. -/
inductive BucketTurn where
  | stays
  | moves
  | renamed
  | blocked
  deriving DecidableEq

def bucketTurn (overfull seen : List Text) (row : Row) : BucketTurn :=
  if (splitPath row.path).1 ∉ overfull then .stays
  else
    let others := seen.filter (· ≠ row.path)
    if bucketed row.path ∉ others then .moves
    else if tagged (bucketed row.path) row.pick.hash ∉ others then .renamed
    else .blocked

def Row.bucketPath (row : Row) : BucketTurn → Text
  | .stays => row.path
  | .moves => bucketed row.path
  | .renamed => tagged (bucketed row.path) row.pick.hash
  | .blocked => row.path

/-- The bucketing loop: the rows with their new paths, and how many got a tag. -/
def bucketLoop (overfull : List Text) : List Text → List Row → List Row × Nat
  | _, [] => ([], 0)
  | seen, row :: rest =>
    let turn := bucketTurn overfull seen row
    let path := row.bucketPath turn
    let (rows, renamed) := bucketLoop overfull (path :: seen.filter (· ≠ row.path)) rest
    ({ row with path := path } :: rows, if turn = .renamed then renamed + 1 else renamed)

structure Bucketed where
  rows : List Row
  renamed : Nat
  bucketedDirs : Nat
  overfullDirs : Nat

def bucketOverfullDirs (rows : List Row) (cap : Nat) : Bucketed :=
  let overfull := overfullDirs rows cap
  let (moved, renamed) :=
    if overfull = [] then (rows, 0) else bucketLoop overfull (rows.map Row.path) rows
  ⟨moved, renamed, overfull.length, (overfullDirs moved cap).length⟩

/-! ## Evaluation -/

structure EvalReport where
  rows : List Row
  disambiguated : Nat
  skippedOversize : Nat
  bucketedDirs : Nat
  overfullDirs : Nat

/-- The rows a laid out view ends up with. -/
def ViewDef.bucket (view : ViewDef) (layout : Layout) : EvalReport :=
  match view.profile.bind Profile.maxDirEntries with
  | none => ⟨layout.rows, layout.disambiguated, layout.skippedOversize, 0, 0⟩
  | some cap =>
    let moved := bucketOverfullDirs layout.rows cap
    ⟨moved.rows, layout.disambiguated + moved.renamed, layout.skippedOversize,
      moved.bucketedDirs, moved.overfullDirs⟩

/-- Lay out a view's picks. -/
def ViewDef.evaluate (view : ViewDef) (db : Db) (picks : List Picked) : Option EvalReport :=
  (view.layout db picks).map view.bucket

end Datboi.Catalog
