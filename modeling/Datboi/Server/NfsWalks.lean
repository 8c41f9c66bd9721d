import Datboi.Lib.Runs
import Datboi.Server.NfsSafe
import Datboi.Server.NfsTree

/-!
# Enumerations of a directory

An enumeration asks for one page after another, each from the cookie of the last entry it was
given. A page takes several atomic steps: the id of the directory is resolved, the tree to
read is chosen, the cache of listings is asked, the snapshot is read, fileids are minted, and
the listing is cached and answered from. Between any two of them other requests and other
enumerations run, views move to other snapshots, and caches are dropped.

Without clashes each node has its plain id in every table, so a listing that is built again
has the same cookies in the same places.
-/

namespace Datboi

open Catalog (Text)

namespace Nfs

/-- How far the current page has come. The listing of the export root has no key in the cache. -/
inductive WalkStage where
  | between
  | resolved (node : Node) (max : Nat)
  | chosen (snapshot : Blake3) (path : Text) (max : Nat)
  | missed (snapshot : Blake3) (path : Text) (max : Nat)
  | loaded (key : Option (Blake3 × Text)) (max : Nat) (children : List Child)
  | minted (key : Option (Blake3 × Text)) (max : Nat) (built : Listing)
  | ended
  | refused (stat : NfsStat)

/-- An enumeration and what it was given so far. The snapshot it reads and the number of its
steps are kept for the statements only. -/
structure Walk where
  dir : FileId
  returned : List DirEntry := []
  stage : WalkStage := .between
  snapshot : Option Blake3 := none
  taken : Nat := 0

namespace Walk

/-- The fileid of the last entry; zero asks for the first page. -/
def cookie (walk : Walk) : FileId := (walk.returned.getLast?.map DirEntry.fileId).getD 0

def goTo (walk : Walk) (stage : WalkStage) : Walk :=
  { walk with stage := stage, taken := walk.taken + 1 }

/-- One page from a listing. -/
def answer (walk : Walk) (listing : Listing) (max : Nat) : Walk :=
  match Server.page listing walk.cookie max with
  | .ok (.entries entries complete) =>
    { walk.goTo (if complete then .ended else .between) with
      returned := walk.returned ++ entries }
  | .ok _ => walk.goTo .between
  | .error stat => walk.goTo (.refused stat)

end Walk

namespace Server

variable (keys : Keys) (tree : Tree) (app : App) (server : Server)

/-- The tree a page is read from. An enumeration under way stays on the one that its cookie
names; a first page follows the view. -/
def choose (node : Node) (startAfter : FileId) : Except NfsStat (Blake3 × Text) :=
  match node with
  | .path snapshot path => .ok (snapshot, path)
  | .view name =>
    match server.pinnedSnapshot startAfter with
    | some snapshot => .ok (snapshot, [])
    | none => (tree.viewIndex app name).map fun idx => (idx.snapshot, [])
  | .root => .error .notDir

def keepListing (key : Option (Blake3 × Text)) (built : Listing) : Server :=
  match key with
  | none => server
  | some key =>
    let cached := (server.listings.entries.map fun entry => entry.2.entries.length).sum
    let cache := if listingCacheEntries ≤ cached then ∅ else server.listings
    { server with listings := cache.insert key built }

/-- The next atomic step of an enumeration; a page of up to `max` entries is asked for when
none is under way. There is no step while the directory's id is not bound, which a request
that holds its handle does first, and none when it is over. -/
def advance (walk : Walk) (max : Nat) : Option (Walk × Server) :=
  match walk.stage with
  | .between =>
    (server.ids.node walk.dir).map fun node => (walk.goTo (.resolved node max), server)
  | .resolved .root max =>
    match rootChildren tree app with
    | .error stat => some (walk.goTo (.refused stat), server)
    | .ok children => some (walk.goTo (.loaded none max children), server)
  | .resolved node max =>
    match server.choose tree app node walk.cookie with
    | .error stat => some (walk.goTo (.refused stat), server)
    | .ok (snapshot, path) =>
      some ({ walk.goTo (.chosen snapshot path max) with snapshot := some snapshot }, server)
  | .chosen snapshot path max =>
    match server.listings.lookup (snapshot, path) with
    | some hit => some (walk.answer hit max, server)
    | none => some (walk.goTo (.missed snapshot path max), server)
  | .missed snapshot path max =>
    match tree.snapshotIndex app snapshot with
    | .error stat => some (walk.goTo (.refused stat), server)
    | .ok idx =>
      if idx.isDir path then
        some (walk.goTo (.loaded (some (snapshot, path)) max (listingNodes idx path)), server)
      else some (walk.goTo (.refused .notDir), server)
  | .loaded key max children =>
    (server.materialize keys children).map fun (built, server) =>
      (walk.goTo (.minted key max built), server)
  | .minted key max built => some (walk.answer built max, server.keepListing key built)
  | .ended | .refused _ => none

end Server

/-! ## Requests and enumerations side by side -/

/-- A server with its requests and enumerations. -/
structure Walks (ρ ω : Type) where
  world : World ρ
  walks : ω → Option Walk := fun _ => none

inductive Move (ρ ω : Type) where
  | other (step : Step ρ)
  | dropListings
  | dropKeys
  | start (who : ω) (dir : FileId)
  | advance (who : ω) (max : Nat)

namespace Walks

variable {ρ ω : Type} [DecidableEq ρ] [DecidableEq ω] (keys : Keys) (tree : Tree)

def serve (state : Walks ρ ω) (server : Server) : Walks ρ ω :=
  { state with world := { state.world with server := server } }

def next (state : Walks ρ ω) : Move ρ ω → Walks ρ ω
  | .other step => { state with world := state.world.step keys tree step }
  | .dropListings => state.serve { state.world.server with listings := ∅ }
  | .dropKeys => state.serve { state.world.server with keys := ∅ }
  | .start who dir => { state with walks := Function.update state.walks who (some { dir := dir }) }
  | .advance who max =>
    match state.walks who with
    | none => state
    | some walk =>
      match state.world.server.advance keys tree state.world.app walk max with
      | none => state
      | some (walk, server) =>
        { state.serve server with walks := Function.update state.walks who (some walk) }

end Walks

/-! ## Ids without clashes -/

/-- No two nodes of the tree have one plain id. -/
def Keys.Clashless (keys : Keys) (tree : Tree) : Prop :=
  ∀ a b, tree.Holds a → tree.Holds b → keys.plainId a = keys.plainId b → a = b

variable {keys : Keys} {tree : Tree}

theorem Keys.Clashless.distinct (hclashless : keys.Clashless tree) : keys.Distinct tree := by
  intro a b ha hb key hkey hkey'
  refine hclashless a b ha hb ?_
  rw [plainId, plainId, hkey, hkey']

theorem idOfKey_ne_zero (key : NodeKey) : idOfKey key ≠ 0 := by
  unfold idOfKey rootId
  generalize key.setWidth 64 = id
  dsimp only
  split <;> bv_omega

theorem Keys.plainId_ne_zero (keys : Keys) (node : Node) : keys.plainId node ≠ 0 := by
  unfold plainId
  cases keys.keyOf node 0 with
  | none => decide
  | some key => exact idOfKey_ne_zero key

/-- Every bound id is the plain one. -/
def IdTable.Plain (keys : Keys) (table : IdTable) : Prop :=
  ∀ id node, table.node id = some node → id = keys.plainId node

theorem IdTable.plain_new : IdTable.new.Plain keys := by
  intro id node hbound
  obtain ⟨rfl, rfl⟩ := IdTable.node_new hbound
  rfl

/-- A node that is not bound finds its plain id free. -/
theorem probeFrom_plain {table : IdTable} (hclashless : keys.Clashless tree)
    (hplain : table.Plain keys)
    (hholds : ∀ id node, table.node id = some node → tree.Holds node) {node : Node}
    (hnode : tree.Holds node) {key : NodeKey} (hkey : keys.keyOf node 0 = some key) (fuel : Nat) :
    IdTable.probeFrom keys table node (fuel + 1) 0 = some (keys.plainId node) := by
  have hid : keys.plainId node = idOfKey key := by
    rw [Keys.plainId, hkey]
    rfl
  have hfree : table.clashes (idOfKey key) node = false := by
    unfold IdTable.clashes
    cases hheld : table.byId.lookup (idOfKey key) with
    | none => rfl
    | some held =>
      have hsame := hclashless held node (hholds _ _ hheld) hnode
        ((hplain _ _ hheld).symm.trans hid.symm)
      simpa using hsame
  rw [IdTable.probeFrom, hkey]
  dsimp only
  rw [if_neg (by simp [hfree]), hid]

/-- Minting always succeeds, and hands out plain ids. -/
theorem idFor_plain {table : IdTable} (hclashless : keys.Clashless tree)
    (hbijective : table.Bijective) (hroot : table.node rootId = some .root)
    (hplain : table.Plain keys)
    (hholds : ∀ id node, table.node id = some node → tree.Holds node) {node : Node}
    (hnode : tree.Holds node) :
    ∃ table', table.idFor keys node = some (keys.plainId node, table') ∧ table'.Plain keys := by
  unfold IdTable.idFor
  cases hbound : table.byNode.lookup node with
  | some id =>
    have hid := hplain id node ((hbijective id node).mpr hbound)
    exact ⟨table, by rw [hid], hplain⟩
  | none =>
    cases hkey : keys.keyOf node 0 with
    | none =>
      cases node with
      | root =>
        rw [(hbijective rootId .root).mp hroot] at hbound
        cases hbound
      | view name => cases hkey
      | path snapshot path => cases hkey
    | some key =>
      refine ⟨table.bind (keys.plainId node) node, ?_, ?_⟩
      · have hprobe := probeFrom_plain hclashless hplain hholds hnode hkey (2 ^ 64 - 1)
        rw [show 2 ^ 64 - 1 + 1 = 2 ^ 64 from rfl] at hprobe
        dsimp only
        rw [hprobe]
        rfl
      · intro id other hother
        by_cases hid : id = keys.plainId node
        · rw [hid, IdTable.node, IdTable.bind, AList.lookup_insert] at hother
          rw [hid, Option.some.inj hother]
        · rw [IdTable.node, IdTable.bind, AList.lookup_insert_ne hid] at hother
          exact hplain id other hother

/-! ## Listings with plain ids -/

/-- The place of each cookie. -/
def placesOf (entries : List (FileId × Child)) : Dict FileId Nat :=
  entries.zipIdx.foldl (fun (byId : Dict FileId Nat) entry => byId.insert entry.1.1 entry.2) ∅

/-- The children of a directory under their plain ids. -/
def Listing.plain (keys : Keys) (children : List Child) : Listing where
  entries := children.map fun child => (keys.plainId child.node, child)
  byId := placesOf (children.map fun child => (keys.plainId child.node, child))

namespace Server

variable {app : App} {server server' : Server} {node : Node} {id : FileId}

/-- A listing of a directory, by plain ids that are bound. -/
def Lists (keys : Keys) (tree : Tree) (server : Server) (snapshot : Blake3) (path : Text)
    (listing : Listing) : Prop :=
  ∃ rows createdAt, tree.manifest snapshot = some rows ∧
    listing = Listing.plain keys (listingNodes ⟨snapshot, rows, createdAt⟩ path) ∧
    ∀ child ∈ listingNodes ⟨snapshot, rows, createdAt⟩ path,
      server.ids.node (keys.plainId child.node) = some child.node

/-- All ids are plain, and what is cached is right. -/
structure Faithful (keys : Keys) (tree : Tree) (server : Server) : Prop where
  sound : server.Sound keys tree
  plain : server.ids.Plain keys
  listed : ∀ snapshot path listing, server.listings.lookup (snapshot, path) = some listing →
    server.Lists keys tree snapshot path listing

variable {snapshot : Blake3} {path : Text}

theorem Lists.mono {listing : Listing} (hlists : server.Lists keys tree snapshot path listing)
    {nodes : Node → Prop} (hgrows : IdTable.Grows nodes server.ids server'.ids) :
    server'.Lists keys tree snapshot path listing := by
  obtain ⟨rows, createdAt, hrows, hlisting, hbound⟩ := hlists
  exact ⟨rows, createdAt, hrows, hlisting, fun child hchild =>
    hgrows.old _ _ (hbound child hchild)⟩

theorem faithful_fresh : Faithful keys tree {} :=
  ⟨sound_fresh, IdTable.plain_new, fun _ _ _ hcached => by cases hcached⟩

section

variable (hfaithful : server.Faithful keys tree)

include hfaithful

/-- A later server whose cache has nothing new in it. -/
theorem Faithful.later (hsound : server'.Sound keys tree)
    (hgrows : IdTable.Grows tree.Holds server.ids server'.ids) (hplain : server'.ids.Plain keys)
    (hlistings : server'.listings = server.listings) : server'.Faithful keys tree where
  sound := hsound
  plain := hplain
  listed snapshot path listing hcached :=
    (hfaithful.listed snapshot path listing (hlistings ▸ hcached)).mono hgrows

theorem Faithful.idFor (hclashless : keys.Clashless tree) (hnode : tree.Holds node) :
    ∃ ids, server.ids.idFor keys node = some (keys.plainId node, ids) ∧
      Faithful keys tree { server with ids := ids } ∧
      ids.node (keys.plainId node) = some node ∧ IdTable.Grows tree.Holds server.ids ids := by
  obtain ⟨ids, hrun, hplain⟩ := idFor_plain hclashless hfaithful.sound.bijective
    hfaithful.sound.root hfaithful.plain hfaithful.sound.holds hnode
  obtain ⟨hsound, hbound, hgrows⟩ := hfaithful.sound.idFor hnode hrun
  exact ⟨ids, hrun, hfaithful.later hsound hgrows hplain rfl, hbound, hgrows⟩

theorem Faithful.mintAll (hclashless : keys.Clashless tree) {children : List Child}
    (hchildren : ∀ child ∈ children, tree.Holds child.node) :
    ∃ ids, Server.mintAll keys server.ids children =
        some (children.map fun child => (keys.plainId child.node, child), ids) ∧
      Faithful keys tree { server with ids := ids } ∧
      (∀ child ∈ children, ids.node (keys.plainId child.node) = some child.node) ∧
      IdTable.Grows tree.Holds server.ids ids := by
  induction children generalizing server with
  | nil => exact ⟨server.ids, rfl, hfaithful, nofun, IdTable.Grows.refl _ _⟩
  | cons child rest ih =>
    obtain ⟨first, hfirst, hfaithful', hbound, hgrows⟩ :=
      hfaithful.idFor hclashless (hchildren child List.mem_cons_self)
    obtain ⟨last, hrest, hfaithful'', hbound', hgrows'⟩ := ih hfaithful'
      fun other hother => hchildren other (List.mem_cons_of_mem child hother)
    refine ⟨last, ?_, hfaithful'', ?_, hgrows.trans hgrows'⟩
    · replace hrest : Server.mintAll keys first rest = _ := hrest
      rw [Server.mintAll, hfirst]
      simp [hrest]
    · intro other hother
      rcases List.mem_cons.mp hother with rfl | hlater
      · exact hgrows'.old _ _ hbound
      · exact hbound' other hlater

theorem Faithful.materialize (hclashless : keys.Clashless tree) {children : List Child}
    (hchildren : ∀ child ∈ children, tree.Holds child.node) :
    ∃ server', server.materialize keys children = some (Listing.plain keys children, server') ∧
      server'.Faithful keys tree ∧ IdTable.Grows tree.Holds server.ids server'.ids ∧
      ∀ child ∈ children, server'.ids.node (keys.plainId child.node) = some child.node := by
  obtain ⟨ids, hrun, hfaithful', hbound, hgrows⟩ := hfaithful.mintAll hclashless hchildren
  refine ⟨{ server with ids := ids }, ?_, hfaithful', hgrows, hbound⟩
  rw [Server.materialize, hrun]
  rfl

/-- Caching a right listing, whether or not the cache is dropped for it. -/
theorem Faithful.keepListing {built : Listing}
    (hlists : server.Lists keys tree snapshot path built) :
    (server.keepListing (some (snapshot, path)) built).Faithful keys tree := by
  obtain ⟨hsound, hplain, hlisted⟩ := hfaithful
  refine ⟨⟨hsound.bijective, hsound.root, hsound.holds, hsound.keyed⟩, hplain, ?_⟩
  intro other otherPath listing hcached
  rw [Server.keepListing] at hcached
  dsimp only at hcached
  by_cases hkey : (other, otherPath) = (snapshot, path)
  · obtain ⟨rfl, rfl⟩ := Prod.mk.injEq .. ▸ hkey
    rw [AList.lookup_insert] at hcached
    rw [← Option.some.inj hcached]
    exact hlists
  · rw [AList.lookup_insert_ne hkey] at hcached
    split at hcached
    · cases hcached
    · exact hlisted other otherPath listing hcached

theorem Faithful.listing (hclashless : keys.Clashless tree) {answer : Except NfsStat Listing}
    (hrun : server.listing keys tree app snapshot path = some (answer, server')) :
    server'.Faithful keys tree ∧ IdTable.Grows tree.Holds server.ids server'.ids := by
  unfold Server.listing at hrun
  split at hrun
  · cases hrun
    exact ⟨hfaithful, IdTable.Grows.refl _ _⟩
  split at hrun
  · cases hrun
    exact ⟨hfaithful, IdTable.Grows.refl _ _⟩
  · rename_i idx hindex
    split at hrun
    · obtain ⟨rfl, hrows⟩ := Tree.snapshotIndex_spec hindex
      obtain ⟨middle, hbuilt, hfaithful', hgrows, hbound⟩ := hfaithful.materialize hclashless
        fun child hchild => holds_of_mem_listingNodes hrows hchild
      rw [hbuilt] at hrun
      cases hrun
      refine ⟨?_, hgrows⟩
      have hlists : middle.Lists keys tree idx.snapshot path
          (Listing.plain keys (listingNodes idx path)) :=
        ⟨idx.rows, idx.createdAt, hrows, rfl, hbound⟩
      exact hfaithful'.keepListing hlists
    · cases hrun
      exact ⟨hfaithful, IdTable.Grows.refl _ _⟩

theorem Faithful.dirListing (hclashless : keys.Clashless tree) {startAfter : FileId}
    {answer : Except NfsStat Listing}
    (hrun : server.dirListing keys tree app node startAfter = some (answer, server')) :
    server'.Faithful keys tree ∧ IdTable.Grows tree.Holds server.ids server'.ids := by
  unfold Server.dirListing at hrun
  split at hrun
  · split at hrun
    · cases hrun
      exact ⟨hfaithful, IdTable.Grows.refl _ _⟩
    · rename_i children hchildren
      obtain ⟨middle, hbuilt, hfaithful', hgrows, -⟩ := hfaithful.materialize hclashless
        fun child hchild => holds_of_mem_rootChildren hchildren hchild
      rw [hbuilt] at hrun
      cases hrun
      exact ⟨hfaithful', hgrows⟩
  · exact hfaithful.listing hclashless hrun
  · split at hrun
    · exact hfaithful.listing hclashless hrun
    · split at hrun
      · cases hrun
        exact ⟨hfaithful, IdTable.Grows.refl _ _⟩
      · exact hfaithful.listing hclashless hrun

/-- An operation on a node of the tree. -/
theorem Faithful.operate (hclashless : keys.Clashless tree) (hholds : tree.Holds node) {op : Op}
    {reply : Except NfsStat Reply}
    (hrun : server.operate keys tree app id node op = some (reply, server')) :
    server'.Faithful keys tree ∧ IdTable.Grows tree.Holds server.ids server'.ids := by
  cases op with
  | lookup name =>
    simp only [Server.operate] at hrun
    split at hrun
    · cases hrun
      exact ⟨hfaithful, IdTable.Grows.refl _ _⟩
    · cases hrun
      exact ⟨hfaithful, IdTable.Grows.refl _ _⟩
    · rename_i found htarget
      obtain ⟨ids, hmint, hfaithful', -, hgrows⟩ :=
        hfaithful.idFor hclashless (holds_of_lookupTarget hholds htarget)
      rw [hmint] at hrun
      cases hrun
      exact ⟨hfaithful', hgrows⟩
  | getattr =>
    cases hrun
    exact ⟨hfaithful, IdTable.Grows.refl _ _⟩
  | read offset count =>
    cases hrun
    exact ⟨hfaithful, IdTable.Grows.refl _ _⟩
  | readdir startAfter maxEntries =>
    obtain ⟨⟨listing, middle⟩, hlisting, heq⟩ := Option.map_eq_some_iff.mp hrun
    cases heq
    exact hfaithful.dirListing hclashless hlisting

end

theorem listings_thaw (cold : Cold) :
    (server.thaw keys tree app cold).2.listings = server.listings := by
  have hkeyMap : ∀ snapshot,
      (server.keyMap keys tree app snapshot).2.listings = server.listings := by
    intro snapshot
    unfold Server.keyMap
    split
    · rfl
    split <;> rfl
  cases cold with
  | view key =>
    unfold Server.thaw
    dsimp only
    split
    · rfl
    split <;> rfl
  | path snapshot key =>
    have hmap := hkeyMap snapshot
    unfold Server.thaw
    dsimp only
    split
    · rename_i heq
      rw [heq] at hmap
      exact hmap
    · rename_i heq
      rw [heq] at hmap
      split <;> exact hmap

end Server

/-! ## Requests leave the listings right -/

namespace World

variable {ρ : Type} [DecidableEq ρ] {world : World ρ}

/-- A step of a request, or of the outside, on a server whose listings are right. -/
theorem step_faithful (hclashless : keys.Clashless tree)
    (hsound : world.Sound keys tree fun _ => False)
    (hfaithful : world.server.Faithful keys tree) {step : Step ρ} (hstep : step ≠ .restart) :
    (world.step keys tree step).server.Faithful keys tree ∧
      IdTable.Grows tree.Holds world.server.ids (world.step keys tree step).server.ids := by
  have hrefl := IdTable.Grows.refl tree.Holds world.server.ids
  cases step with
  | outside app => exact ⟨hfaithful, hrefl⟩
  | restart => exact absurd rfl hstep
  | present who fh =>
    rw [World.step, World.present]
    split
    · exact ⟨hfaithful, hrefl⟩
    · exact ⟨hfaithful, hrefl⟩
    · rename_i id cold _
      dsimp only [World.set]
      unfold Server.rememberCold
      split
      · exact ⟨hfaithful, hrefl⟩
      · exact ⟨hfaithful.later (hfaithful.sound.withCold _) hrefl hfaithful.plain rfl, hrefl⟩
  | look who =>
    rw [World.step]
    split
    · rw [server_look]
      exact ⟨hfaithful, hrefl⟩
    · exact ⟨hfaithful, hrefl⟩
  | thaw who =>
    rw [World.step]
    split
    · rename_i fh id cold _
      obtain ⟨hserves, hids, -⟩ := hfaithful.sound.thaw world.app cold
      have hplain : (world.server.thaw keys tree world.app cold).2.ids.Plain keys := by
        rw [hids]
        exact hfaithful.plain
      exact ⟨hfaithful.later hserves.sound hserves.grows hplain (Server.listings_thaw cold),
        hserves.grows⟩
    · exact ⟨hfaithful, hrefl⟩
  | settle who =>
    rw [World.step]
    split
    · rename_i fh id found hheld
      have hcold : Server.Faithful keys tree
          { world.server with cold := world.server.cold.erase id } :=
        hfaithful.later (hfaithful.sound.withCold _) hrefl hfaithful.plain rfl
      unfold World.settle
      cases found with
      | error stat => exact ⟨hcold, hrefl⟩
      | ok node =>
        obtain ⟨ids, hmint, hfaithful', -, hgrows⟩ :=
          hcold.idFor hclashless (hsound.known who fh id _ hheld node rfl)
        dsimp only at hmint ⊢
        rw [hmint]
        exact ⟨hfaithful', hgrows⟩
    · exact ⟨hfaithful, hrefl⟩
  | operate who op =>
    rw [World.step]
    split
    · rename_i fh id node hheld
      split
      · exact ⟨hfaithful, hrefl⟩
      · rename_i reply server hrun
        exact hfaithful.operate hclashless (hsound.known who fh id _ hheld) hrun
    · exact ⟨hfaithful, hrefl⟩
  | finish who => exact ⟨hfaithful, hrefl⟩

end World

end Nfs

end Datboi
