import Datboi.Catalog.Names
import Mathlib.Data.Finset.Dedup
import Mathlib.Data.List.Dedup

/-!
# One game, one rom

A view that wants one entry of each clone family ranks the entries of a family and takes the
first: fully held ones before others unless the policy is strict, releases before betas, then
the preferred regions and languages, later revisions, and last the name.
-/

namespace Datboi.Catalog

/-- Ordered priorities; an empty list is no preference. -/
structure SelectionPolicy where
  regions : List Text := []
  langs : List Text := []
  strict : Bool := false
  deriving DecidableEq

/-- An entry as the selector sees it: of its required claims, how many are held. -/
structure Candidate where
  entryId : Nat
  name : Text
  cloneofId : Option Nat := none
  required : Nat := 1
  held : Nat := 0
  deriving DecidableEq

/-- Search terms in lower case, with their groups. -/
abbrev Clonelist := Text → Option Text

inductive FamilyKey where
  | id (entryId : Nat)
  | name (base : Text)
  | group (group : Text)
  deriving DecidableEq

namespace Selection

def toAsciiLowercase (text : Text) : Text := text.map Char.toLower

/-- `split_whitespace`, joined by single blanks: `pending` is a blank still to be written. -/
def collapseFrom : (started pending : Bool) → Text → Text
  | _, _, [] => []
  | started, pending, c :: rest =>
    if Text.isWhitespace c then collapseFrom started started rest
    else if pending then ' ' :: c :: collapseFrom true false rest
    else c :: collapseFrom true false rest

/-- Everything before the first bracket, in lower case and with single blanks. -/
def baseName (name : Text) : Text :=
  toAsciiLowercase (collapseFrom false false (name.takeWhile (· ≠ '\x28')))

/-- What stands in brackets. Inside a group only the closing bracket counts, and a group that
does not close is none. -/
def groupsFrom : Option Text → Text → List Text
  | _, [] => []
  | none, c :: rest => if c = '\x28' then groupsFrom (some []) rest else groupsFrom none rest
  | some read, c :: rest =>
    if c = '\x29' then read.reverse :: groupsFrom none rest else groupsFrom (some (c :: read)) rest

/-- The comma-separated tokens of all groups. -/
def parenTokens (name : Text) : List Text :=
  (groupsFrom none name).flatMap fun group =>
    ((group.splitOn ',').map Text.trim).filter fun token => !token.isEmpty

/-- The place of the best priority that some token answers, one past the end if none does. -/
def axisRank (tokens priorities : List Text) (normalize : Text → Text) : Nat :=
  priorities.findIdx fun want => tokens.any fun token => normalize token = normalize want

def normalizeRegion (token : Text) : Text :=
  let token := toAsciiLowercase token
  if token = "us".toList then "usa".toList
  else if token = "eu".toList then "europe".toList
  else if token = "jp".toList then "japan".toList
  else token

def devFlags : List Text :=
  ["beta", "proto", "prototype", "sample", "demo", "alpha", "debug"].map String.toList

/-- Development and incomplete releases. -/
def isDevFlag (token : Text) : Bool :=
  let token := toAsciiLowercase token
  devFlags.any fun flag => token = flag || (flag ++ [' ']).isPrefixOf token

/-- `str::parse::<u32>`. -/
def parseU32 (text : Text) : Option Nat :=
  let digits := if text.head? = some '+' then text.tail else text
  if digits.isEmpty || digits.any (fun c => !c.isDigit) then none
  else
    let n := digits.foldl (fun n c => n * 10 + (c.toNat - '0'.toNat)) 0
    if n < 2 ^ 32 then some n else none

/-- The number of a `rev` token, or the place of its letter in the alphabet. -/
def revisionOf (token : Text) : Option Nat :=
  let lower := toAsciiLowercase token
  if "rev ".toList.isPrefixOf lower then
    let rest := Text.trim (lower.drop 4)
    match parseU32 rest with
    | some n => some n
    | none =>
      match rest with
      | [c] => if c.isAlpha then some (c.toLower.toNat - 'a'.toNat + 1) else none
      | _ => none
  else none

def revision (tokens : List Text) : Nat := (tokens.findSome? revisionOf).getD 0

/-- Does a candidate rank behind those that are fully held? -/
def heldRank (policy : SelectionPolicy) (c : Candidate) : Nat :=
  if policy.strict then 0 else if 0 < c.required ∧ c.held = c.required then 0 else 1

structure Score where
  heldRank : Nat
  devFlag : Nat
  region : Nat
  lang : Nat
  revision : Nat
  name : Text
  deriving DecidableEq

def score (policy : SelectionPolicy) (c : Candidate) : Score :=
  let tokens := parenTokens c.name
  { heldRank := heldRank policy c
    devFlag := if tokens.any isDevFlag then 1 else 0
    region := axisRank tokens policy.regions normalizeRegion
    lang := axisRank tokens policy.langs toAsciiLowercase
    revision := revision tokens
    name := c.name }

/-- Smaller, or equal and then so by the rest. -/
def thenBy (a b : Nat) (rest : Prop) : Prop := a < b ∨ (a = b ∧ rest)

instance {a b : Nat} {rest : Prop} [Decidable rest] : Decidable (thenBy a b rest) :=
  inferInstanceAs (Decidable (_ ∨ _))

/-- The order of scores; the later revision comes first. -/
def Score.before (a b : Score) : Prop :=
  thenBy a.heldRank b.heldRank (thenBy a.devFlag b.devFlag (thenBy a.region b.region
    (thenBy a.lang b.lang (thenBy b.revision a.revision (a.name < b.name)))))

instance (a b : Score) : Decidable (a.before b) := by
  unfold Score.before
  infer_instance

variable (lowercase : Text → Text)

/-- The full name is looked up first, then the name without its tags. -/
def lookupGroup (clonelist : Clonelist) (name : Text) : Option Text :=
  (clonelist (lowercase name)).or (clonelist (baseName name))

/-- A clonelist's group wins, then the dat's clone links if it has any, then the base name. -/
def familyKey (candidates : List Candidate) (clonelist : Option Clonelist) (c : Candidate) :
    FamilyKey :=
  match clonelist.bind fun clonelist => lookupGroup lowercase clonelist c.name with
  | some group => .group group
  | none =>
    if candidates.any fun c => c.cloneofId.isSome then .id (c.cloneofId.getD c.entryId)
    else .name (baseName c.name)

def families (candidates : List Candidate) (clonelist : Option Clonelist) :
    List (List Candidate) :=
  ((candidates.map (familyKey lowercase candidates clonelist)).dedup).map fun key =>
    candidates.filter fun c => familyKey lowercase candidates clonelist c = key

/-- The first entry of a family after a stable sort by score. -/
def best (policy : SelectionPolicy) : List Candidate → Option Candidate
  | [] => none
  | c :: family =>
    match best policy family with
    | none => some c
    | some other => if (score policy other).before (score policy c) then some other else some c

/-- Pick one entry per clone family. -/
def select1g1r (candidates : List Candidate) (policy : SelectionPolicy)
    (clonelist : Option Clonelist) : Finset Nat :=
  ((families lowercase candidates clonelist).filterMap fun family =>
    (best policy family).map Candidate.entryId).toFinset

end Selection

end Datboi.Catalog
