import Datboi.Catalog.Holdings
import Datboi.Lib.Assignment

/-!
# Content identities

A claim of a dat names its content by some of a size and four digests. Claims that may speak
of the same content share an identity, whose tuple collects what they say; a claim that
bridges identities merges them. Identities are linked to blobs by the alias rows of ingest,
each link with the grade of its evidence.
-/

namespace Datboi

namespace Catalog

/-! ## Tuples -/

def basisSha256 : Int := 3
def basisSha1 : Int := 2
def basisMd5 : Int := 1
def basisCrcSize : Int := 0
def basisDeclared : Int := -1

/-- The partial hash tuple of a claim or an identity. -/
structure Tuple where
  size : Option Int := none
  crc32 : Option Bytes := none
  md5 : Option Bytes := none
  sha1 : Option Bytes := none
  sha256 : Option Bytes := none
  deriving DecidableEq

/-- The columns of a tuple. -/
inductive Column where
  | size
  | crc32
  | md5
  | sha1
  | sha256
  deriving DecidableEq, Repr

abbrev Column.Value : Column → Type
  | .size => Int
  | .crc32 | .md5 | .sha1 | .sha256 => Bytes

/-- A digest that is evidence by itself. -/
def Column.Strong (col : Column) : Prop := col = .md5 ∨ col = .sha1 ∨ col = .sha256

namespace Tuple

def get (tuple : Tuple) : (col : Column) → Option col.Value
  | .size => tuple.size
  | .crc32 => tuple.crc32
  | .md5 => tuple.md5
  | .sha1 => tuple.sha1
  | .sha256 => tuple.sha256

/-- The grade of the best evidence in the tuple; `none` if nothing identifies by it. -/
def strength (tuple : Tuple) : Option Int :=
  if tuple.sha256.isSome then some basisSha256
  else if tuple.sha1.isSome then some basisSha1
  else if tuple.md5.isSome then some basisMd5
  else if tuple.crc32.isSome && tuple.size.isSome then some basisCrcSize
  else none

/-- A field that both tuples have is the same. -/
def fieldOk {α : Type} [DecidableEq α] : Option α → Option α → Bool
  | some a, some b => a = b
  | _, _ => true

/-- No overlapping field disagrees. -/
def compatible (tuple other : Tuple) : Bool :=
  fieldOk tuple.size other.size && fieldOk tuple.crc32 other.crc32 &&
    fieldOk tuple.md5 other.md5 && fieldOk tuple.sha1 other.sha1 &&
    fieldOk tuple.sha256 other.sha256

def fieldEq {α : Type} [DecidableEq α] : Option α → Option α → Bool
  | some a, some b => a = b
  | _, _ => false

/-- The grade of the best value the tuples share: a strong digest, or failing that crc32
and size. -/
def matchGrade (tuple other : Tuple) : Option Int :=
  if fieldEq tuple.sha256 other.sha256 then some basisSha256
  else if fieldEq tuple.sha1 other.sha1 then some basisSha1
  else if fieldEq tuple.md5 other.md5 then some basisMd5
  else if fieldEq tuple.crc32 other.crc32 && fieldEq tuple.size other.size then
    some basisCrcSize
  else none

/-- Fill the fields that are still empty. -/
def absorb (tuple other : Tuple) : Tuple where
  size := tuple.size.or other.size
  crc32 := tuple.crc32.or other.crc32
  md5 := tuple.md5.or other.md5
  sha1 := tuple.sha1.or other.sha1
  sha256 := tuple.sha256.or other.sha256

end Tuple

/-! ## Aliases -/

inductive AliasAlgo where
  | crc32
  | md5
  | sha1
  | sha256
  | chdSha1
  | chdSha1Verified
  deriving DecidableEq, Repr

structure AliasRow where
  algo : AliasAlgo
  digest : Bytes
  blobId : Nat
  deriving DecidableEq

/-- The alias table with the sizes of the blobs it refers to. -/
structure Aliases where
  rows : List AliasRow
  blobSize : Nat → Option Int

namespace Aliases

variable (aliases : Aliases)

def lookup (algo : AliasAlgo) (digest : Bytes) : List Nat :=
  (aliases.rows.filter fun row => row.algo = algo ∧ row.digest = digest).map AliasRow.blobId

def hit (algo : AliasAlgo) (blobId : Nat) : Option Bytes → Bool
  | none => true
  | some digest => ⟨algo, digest, blobId⟩ ∈ aliases.rows

/-- Every digest of the tuple is an alias of the blob, and its size is the blob's. -/
def blobMatches (blobId : Nat) (tuple : Tuple) : Bool :=
  (tuple.size.isNone || aliases.blobSize blobId = tuple.size) &&
    aliases.hit .crc32 blobId tuple.crc32 && aliases.hit .md5 blobId tuple.md5 &&
    aliases.hit .sha1 blobId tuple.sha1 && aliases.hit .sha256 blobId tuple.sha256

end Aliases

/-- The strongest digest, by which a tuple's blobs are looked up. -/
def Tuple.seed (tuple : Tuple) : Option (AliasAlgo × Bytes) :=
  match tuple.sha256, tuple.sha1, tuple.md5, tuple.crc32 with
  | some digest, _, _, _ => some (.sha256, digest)
  | none, some digest, _, _ => some (.sha1, digest)
  | none, none, some digest, _ => some (.md5, digest)
  | none, none, none, some digest => some (.crc32, digest)
  | none, none, none, none => none

/-! ## Tables -/

structure Identity where
  identityId : Nat
  tuple : Tuple
  strength : Int
  deriving DecidableEq

end Catalog

instance : Row Catalog.Identity Nat where
  id := Catalog.Identity.identityId
  key := Catalog.Identity.identityId

namespace Catalog

/-- The columns of a claim that unification reads and writes. -/
structure HashClaim where
  tuple : Tuple
  identityId : Option Nat
  deriving DecidableEq

/-- The links of identities to blobs, one for each pair. -/
structure Links where
  rows : List IdentityBlob
  nodup : (rows.map fun link => (link.identityId, link.blobId)).Nodup

namespace Links

variable (links : Links)

/-- The grade of the link between an identity and a blob, if there is one. -/
def basis (identityId blobId : Nat) : Option Int :=
  (links.rows.find? fun link => link.identityId = identityId ∧ link.blobId = blobId).map
    IdentityBlob.basis

/-- Record a link or raise it to a better grade. -/
def link (identityId blobId : Nat) (basis : Int) : Links :=
  if hfound : (identityId, blobId) ∈
      links.rows.map fun link => (link.identityId, link.blobId) then
    { rows := links.rows.map fun link =>
        if link.identityId = identityId ∧ link.blobId = blobId then
          { link with basis := max link.basis basis }
        else link
      nodup := by
        have hkeys : ((fun link : IdentityBlob => (link.identityId, link.blobId)) ∘ fun link =>
            if link.identityId = identityId ∧ link.blobId = blobId then
              { link with basis := max link.basis basis }
            else link) = fun link => (link.identityId, link.blobId) := by
          funext link
          simp only [Function.comp_apply]
          split <;> rfl
        rw [List.map_map, hkeys]
        exact links.nodup }
  else
    { rows := links.rows ++ [⟨identityId, blobId, basis⟩]
      nodup := by
        rw [List.map_append, List.nodup_append]
        refine ⟨links.nodup, List.nodup_singleton _, ?_⟩
        intro key hkey new hnew heq
        rw [heq, List.mem_singleton.mp hnew] at hkey
        exact hfound hkey }

/-- Move the links of one identity to another. A blob that is linked there already keeps
the link it has. -/
def repoint (loserId survivorId : Nat) : Links where
  rows := links.rows.filter (fun link => link.identityId ≠ loserId) ++
    ((links.rows.filter fun link => link.identityId = loserId ∧
        (survivorId, link.blobId) ∉
          links.rows.map fun link => (link.identityId, link.blobId)).map
      fun link => { link with identityId := survivorId })
  nodup := by
    rw [List.map_append, List.nodup_append, List.map_map]
    refine ⟨links.nodup.sublist (List.filter_sublist.map _), ?_, ?_⟩
    · -- The moved rows had one identity, so their blobs tell them apart.
      refine List.Nodup.map_on ?_ (List.Nodup.of_map _ links.nodup |>.filter _)
      intro a ha b hb heq
      have haid := of_decide_eq_true (List.mem_filter.mp ha).2
      have hbid := of_decide_eq_true (List.mem_filter.mp hb).2
      have hblob : a.blobId = b.blobId := congrArg Prod.snd heq
      apply List.inj_on_of_nodup_map links.nodup (List.mem_filter.mp ha).1 (List.mem_filter.mp hb).1
      rw [haid.1, hbid.1, hblob]
    · intro key hkey new hnew heq
      obtain ⟨link, hlink, rfl⟩ := List.mem_map.mp hkey
      obtain ⟨moved, hmoved, rfl⟩ := List.mem_map.mp hnew
      have hfree := (of_decide_eq_true (List.mem_filter.mp hmoved).2).2
      apply hfree
      have hkeys : (link.identityId, link.blobId) = (survivorId, moved.blobId) := heq
      rw [← hkeys]
      exact List.mem_map_of_mem (List.mem_filter.mp hlink).1

section

variable {links : Links} {identityId blobId otherId otherBlob : Nat} {grade : Int}

theorem basis_eq_some : links.basis identityId blobId = some grade ↔
    ⟨identityId, blobId, grade⟩ ∈ links.rows := by
  unfold basis
  constructor
  · intro hbasis
    obtain ⟨link, hfind, rfl⟩ := Option.map_eq_some_iff.mp hbasis
    have hkey : link.identityId = identityId ∧ link.blobId = blobId := by
      simpa using List.find?_some hfind
    rw [← hkey.1, ← hkey.2]
    exact List.mem_of_find?_eq_some hfind
  · intro hmem
    obtain ⟨link, hfind⟩ : ∃ link, (links.rows.find? fun link =>
        link.identityId = identityId ∧ link.blobId = blobId) = some link := by
      rw [← Option.isSome_iff_exists, List.find?_isSome]
      exact ⟨_, hmem, by simp⟩
    have hkey : link.identityId = identityId ∧ link.blobId = blobId := by
      simpa using List.find?_some hfind
    rw [hfind, List.inj_on_of_nodup_map links.nodup (List.mem_of_find?_eq_some hfind) hmem
      (Prod.ext hkey.1 hkey.2)]
    rfl

theorem basis_eq_none : links.basis identityId blobId = none ↔
    (identityId, blobId) ∉ links.rows.map fun link => (link.identityId, link.blobId) := by
  simp [basis]

/-- A link is recorded, or raised to the better of the two grades. -/
theorem basis_link : (links.link identityId blobId grade).basis otherId otherBlob =
    if otherId = identityId ∧ otherBlob = blobId then
      some ((links.basis identityId blobId).elim grade (max · grade))
    else links.basis otherId otherBlob := by
  by_cases hfound : (identityId, blobId) ∈
      links.rows.map fun link => (link.identityId, link.blobId)
  · obtain ⟨old, hold⟩ : ∃ old, links.basis identityId blobId = some old := by
      rw [← Option.ne_none_iff_exists', Ne, basis_eq_none, not_not]
      exact hfound
    split
    · rename_i hpair
      obtain ⟨rfl, rfl⟩ := hpair
      rw [hold, basis_eq_some, link, dif_pos hfound]
      exact List.mem_map.mpr ⟨_, basis_eq_some.mp hold, by simp⟩
    · rename_i hpair
      apply Option.ext
      intro other
      rw [basis_eq_some, basis_eq_some, link, dif_pos hfound, List.mem_map]
      constructor
      · rintro ⟨row, hrow, heq⟩
        split at heq
        · rename_i hrowPair
          cases heq
          exact absurd hrowPair hpair
        · rwa [heq] at hrow
      · intro hrow
        exact ⟨_, hrow, by rw [if_neg hpair]⟩
  · have hnone := basis_eq_none.mpr hfound
    apply Option.ext
    intro other
    rw [basis_eq_some, link, dif_neg hfound, List.mem_append, List.mem_singleton, hnone]
    split
    · rename_i hpair
      obtain ⟨rfl, rfl⟩ := hpair
      constructor
      · rintro (hrow | hnew)
        · rw [← basis_eq_some, hnone] at hrow
          cases hrow
        · cases hnew
          rfl
      · intro heq
        cases heq
        exact Or.inr rfl
    · rename_i hpair
      rw [basis_eq_some]
      constructor
      · rintro (hrow | hnew)
        · exact hrow
        · cases hnew
          exact absurd ⟨rfl, rfl⟩ hpair
      · exact Or.inl

/-- The links of an identity that moves go where there was none. -/
theorem basis_repoint {loserId survivorId : Nat} (hne : loserId ≠ survivorId) :
    (links.repoint loserId survivorId).basis otherId otherBlob =
      if otherId = loserId then none
      else if otherId = survivorId then
        (links.basis survivorId otherBlob).or (links.basis loserId otherBlob)
      else links.basis otherId otherBlob := by
  apply Option.ext
  intro other
  rw [basis_eq_some, repoint, List.mem_append, List.mem_filter, List.mem_map]
  split
  · rename_i hloser
    constructor
    · rintro (⟨_, hkept⟩ | ⟨row, _, heq⟩)
      · simp [hloser] at hkept
      · cases heq
        exact absurd hloser.symm hne
    · intro hnone
      cases hnone
  · rename_i hloser
    split
    · rename_i hsurvivor
      subst hsurvivor
      rw [Option.or_eq_some_iff, basis_eq_some, basis_eq_none, basis_eq_some]
      constructor
      · rintro (⟨hrow, _⟩ | ⟨row, hrow, heq⟩)
        · exact Or.inl hrow
        · obtain ⟨hmem, hkey⟩ := List.mem_filter.mp hrow
          have hkey := of_decide_eq_true hkey
          cases heq
          rw [← hkey.1]
          exact Or.inr ⟨hkey.2, hmem⟩
      · rintro (hrow | ⟨hfree, hrow⟩)
        · exact Or.inl ⟨hrow, by simpa using hloser⟩
        · refine Or.inr ⟨_, List.mem_filter.mpr ⟨hrow, ?_⟩, rfl⟩
          exact decide_eq_true ⟨rfl, hfree⟩
    · rename_i hsurvivor
      rw [basis_eq_some]
      constructor
      · rintro (⟨hrow, _⟩ | ⟨row, _, heq⟩)
        · exact hrow
        · cases heq
          exact absurd rfl hsurvivor
      · intro hrow
        exact Or.inl ⟨hrow, by simpa using hloser⟩

end

end Links

/-- The tables that unification and linking work on. `claims` are the rows it has visited,
in order. -/
structure Identities where
  identities : Table Identity
  claims : List HashClaim
  links : Links

/-- The order in which a query without `ORDER BY` happens to deliver its rows. -/
structure RowOrder where
  rows : List Identity → List Identity
  perm : ∀ list, (rows list).Perm list

def RowOrder.asStored : RowOrder := ⟨id, fun _ => .refl _⟩

namespace Identities

def empty : Identities where
  identities := ∅
  claims := []
  links := ⟨[], List.nodup_nil⟩

variable (state : Identities)

/-! ## Unification -/

/-- The identities with this value in a digest column. -/
def lookup (order : RowOrder) {α : Type} [DecidableEq α] (column : Tuple → Option α) :
    Option α → List Identity
  | none => []
  | some digest =>
    order.rows (state.identities.rows.filter fun row => column row.tuple = some digest)

/-- The identities that share a digest with a tuple, each once. -/
def candidates (order : RowOrder) (tuple : Tuple) : List Identity :=
  keepFirst Identity.identityId []
    (state.lookup order Tuple.sha256 tuple.sha256 ++ state.lookup order Tuple.sha1 tuple.sha1 ++
      state.lookup order Tuple.md5 tuple.md5 ++ state.lookup order Tuple.crc32 tuple.crc32)

def qualifying (order : RowOrder) (tuple : Tuple) : List Identity :=
  (state.candidates order tuple).filter fun row =>
    tuple.compatible row.tuple && (tuple.matchGrade row.tuple).isSome

/-- `(strength, Reverse(id))` is larger. -/
def outranks (row other : Identity) : Bool :=
  other.tuple.strength.getD (-1) < row.tuple.strength.getD (-1) ||
    (row.tuple.strength.getD (-1) = other.tuple.strength.getD (-1) &&
      row.identityId < other.identityId)

/-- The strongest of some identities, the oldest where several are as strong. -/
def survivor : List Identity → Option Identity
  | [] => none
  | row :: rows =>
    match survivor rows with
    | none => some row
    | some other => if outranks other row then some other else some row

/-- Add an identity for a tuple that no identity qualifies for. -/
def mint (tuple : Tuple) (strength : Int) : Identities × Nat :=
  ({ state with
      identities := state.identities.insert ⟨state.identities.nextId, tuple, strength⟩ rfl
        fun _ hold => Nat.ne_of_lt (Table.id_lt_nextId hold) },
    state.identities.nextId)

/-- Repoint the claims and links of an identity and delete it. -/
def mergeAway (loserId survivorId : Nat) : Identities where
  identities := state.identities.delete loserId
  claims := state.claims.map fun claim =>
    if claim.identityId = some loserId then { claim with identityId := some survivorId }
    else claim
  links := state.links.repoint loserId survivorId

/-- Merge into the survivor the identities that do not conflict with what it holds by then. -/
def mergeLosers (survivorId : Nat) : Identities → Tuple → List Identity → Identities × Tuple
  | state, tuple, [] => (state, tuple)
  | state, tuple, loser :: losers =>
    if tuple.compatible loser.tuple then
      mergeLosers survivorId (state.mergeAway loser.identityId survivorId)
        (tuple.absorb loser.tuple) losers
    else mergeLosers survivorId state tuple losers

def writeTuple (tuple : Tuple) : Table.Rewrite Identity where
  apply row := { row with tuple := tuple, strength := tuple.strength.getD (-1) }
  id_eq _ := rfl
  key_eq _ := rfl

/-- Find or create the identity of a tuple, and merge those it bridges; `none` for a tuple
that identifies nothing. -/
def unifyClaim (order : RowOrder) (tuple : Tuple) : Identities × Option Nat :=
  match tuple.strength with
  | none => (state, none)
  | some strength =>
    let qualifying := state.qualifying order tuple
    match survivor qualifying with
    | none =>
      let (state, identityId) := state.mint tuple strength
      (state, some identityId)
    | some survivor =>
      let (state, tuple) := mergeLosers survivor.identityId state
        (survivor.tuple.absorb tuple)
        (qualifying.filter fun row => row.identityId ≠ survivor.identityId)
      ({ state with
          identities := state.identities.modify survivor.identityId (writeTuple tuple) },
        some survivor.identityId)

/-- Unify one claim row and note its identity. -/
def unifyRow (order : RowOrder) (tuple : Tuple) : Identities :=
  let (state, identityId) := state.unifyClaim order tuple
  { state with claims := state.claims ++ [⟨tuple, identityId⟩] }

/-! ## Linking -/

def linkAll (basis : Int) (pairs : List (Nat × Nat)) : Identities :=
  { state with
    links := pairs.foldl (fun links pair => links.link pair.1 pair.2 basis) state.links }

/-- Link an identity to the blobs whose aliases answer all it knows, at its own strength.
A disk claim, which has a sha1 and no size, is also answered by the digest a CHD declares
and by the one a verification computed. -/
def linkIdentity (aliases : Aliases) (identityId : Nat) : Identities :=
  match state.identities.byId identityId with
  | none => state
  | some row =>
    match row.tuple.seed with
    | none => state
    | some (algo, digest) =>
      let strength := row.tuple.strength.getD basisCrcSize
      let matched := (aliases.lookup algo digest).filter fun blobId =>
        aliases.blobMatches blobId row.tuple
      let state := state.linkAll strength (matched.map fun blobId => (identityId, blobId))
      match row.tuple.sha1, row.tuple.size with
      | some sha1, none =>
        let state := state.linkAll basisDeclared
          ((aliases.lookup .chdSha1 sha1).map fun blobId => (identityId, blobId))
        state.linkAll basisSha1
          ((aliases.lookup .chdSha1Verified sha1).map fun blobId => (identityId, blobId))
      | _, _ => state

def linkIdentitiesToBlobs (aliases : Aliases) (identityIds : List Nat) : Identities :=
  identityIds.foldl (fun state identityId => state.linkIdentity aliases identityId) state

/-- Link a verified CHD to every disk claim its digest answers. -/
def linkVerifiedChdSha1 (blobId : Nat) (sha1 : Bytes) : Identities :=
  state.linkAll basisSha1
    ((state.identities.rows.filter fun row => row.tuple.sha1 = some sha1 ∧ row.tuple.size = none).map
      fun row => (row.identityId, blobId))

/-- What changes identities and their links. Aliases and blobs come and go in between, so
each linking pass reads its own. -/
inductive Call where
  | unify (order : RowOrder) (tuple : Tuple)
  | linkIdentities (aliases : Aliases) (identityIds : List Nat)
  | linkVerified (blobId : Nat) (sha1 : Bytes)

def apply : Call → Identities
  | .unify order tuple => state.unifyRow order tuple
  | .linkIdentities aliases identityIds => state.linkIdentitiesToBlobs aliases identityIds
  | .linkVerified blobId sha1 => state.linkVerifiedChdSha1 blobId sha1

def run (calls : List Call) : Identities := calls.foldl apply state

end Identities

end Catalog

end Datboi
