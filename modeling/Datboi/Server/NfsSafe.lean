import Datboi.Server.NfsNodes
import Mathlib.Data.BitVec

/-!
# What a handle can come to name

The table of ids is a bijection whatever happens. A handle is another matter: only a cold
note is compared with the whole key, an id that is bound is taken as it is. So a handle
keeps its node as long as no other node holds, takes or claims its id while it is in use, and
the loser of a clash comes back as the winner.
-/

namespace Datboi

open Catalog (Text)

namespace Nfs

variable {keys : Keys} {tree : Tree}

/-! ## One process -/

namespace Server

variable {app : App} {server server' : Server} {node : Node} {id : FileId}

/-- The table is a bijection around the root, over nodes of the tree, and cached keys lead to
their paths. -/
structure Sound (keys : Keys) (tree : Tree) (server : Server) : Prop where
  bijective : server.ids.Bijective
  root : server.ids.node rootId = some .root
  holds : ∀ id node, server.ids.node id = some node → tree.Holds node
  keyed : ∀ snapshot found, server.keys.lookup snapshot = some found →
    Keyed keys tree snapshot found

theorem sound_fresh : Sound keys tree {} where
  bijective := IdTable.bijective_new
  root := rfl
  holds id node hbound := by
    rw [(IdTable.node_new hbound).2]
    trivial
  keyed _ _ hfound := by cases hfound

section

variable (hsound : server.Sound keys tree)

include hsound

theorem Sound.withCold (cold : Dict FileId Cold) : Sound keys tree { server with cold := cold } :=
  ⟨hsound.bijective, hsound.root, hsound.holds, hsound.keyed⟩

/-- Minting ids for nodes of the tree. -/
theorem Sound.mint {nodes : Node → Prop} {ids : IdTable} (hbijective : ids.Bijective)
    (hgrows : IdTable.Grows nodes server.ids ids) (hnodes : ∀ node, nodes node → tree.Holds node) :
    Sound keys tree { server with ids := ids } where
  bijective := hbijective
  root := hgrows.old rootId .root hsound.root
  holds id node hbound := by
    rcases hgrows.new id node hbound with hold | hnew
    · exact hsound.holds id node hold
    · exact hnodes node hnew
  keyed := hsound.keyed

theorem Sound.idFor (hholds : tree.Holds node) {ids : IdTable}
    (hrun : server.ids.idFor keys node = some (id, ids)) :
    Sound keys tree { server with ids := ids } ∧ ids.node id = some node ∧
      IdTable.Grows tree.Holds server.ids ids := by
  obtain ⟨hbijective, hbound, hgrows⟩ := IdTable.idFor_spec hsound.bijective hsound.root hrun
  have hgrows' : IdTable.Grows tree.Holds server.ids ids :=
    ⟨hgrows.old, fun id found hnew => (hgrows.new id found hnew).imp_right fun heq => by
      rw [heq]
      exact hholds⟩
  exact ⟨hsound.mint hbijective hgrows' fun _ hnode => hnode, hbound, hgrows'⟩

theorem Sound.mintAll {children : List Child}
    (hchildren : ∀ child ∈ children, tree.Holds child.node) {entries : List (FileId × Child)}
    {ids : IdTable} (hrun : Server.mintAll keys server.ids children = some (entries, ids)) :
    Sound keys tree { server with ids := ids } ∧ IdTable.Grows tree.Holds server.ids ids := by
  induction children generalizing server entries with
  | nil =>
    cases hrun
    exact ⟨hsound, IdTable.Grows.refl _ _⟩
  | cons child rest ih =>
    rw [Server.mintAll] at hrun
    obtain ⟨⟨id, first⟩, hfirst, hrun⟩ := Option.bind_eq_some_iff.mp hrun
    obtain ⟨⟨others, last⟩, hrest, hrun⟩ := Option.bind_eq_some_iff.mp hrun
    cases hrun
    obtain ⟨hmiddle, -, hgrows⟩ := hsound.idFor (hchildren child List.mem_cons_self) hfirst
    obtain ⟨hlast, hgrows'⟩ := ih hmiddle
      (fun other hother => hchildren other (List.mem_cons_of_mem child hother)) hrest
    exact ⟨hlast, hgrows.trans hgrows'⟩

end

/-- What an operation may do to a server: mint ids of the tree and fill the caches. -/
structure Serves (keys : Keys) (tree : Tree) (server server' : Server) : Prop where
  sound : server'.Sound keys tree
  grows : IdTable.Grows tree.Holds server.ids server'.ids
  cold : server'.cold = server.cold

theorem Sound.serves (hsound : server.Sound keys tree) : Serves keys tree server server :=
  ⟨hsound, IdTable.Grows.refl _ _, rfl⟩

theorem Sound.materialize (hsound : server.Sound keys tree) {children : List Child}
    (hchildren : ∀ child ∈ children, tree.Holds child.node) {built : Listing}
    (hrun : server.materialize keys children = some (built, server')) :
    Serves keys tree server server' := by
  unfold Server.materialize at hrun
  obtain ⟨⟨entries, ids⟩, hmint, hrun⟩ := Option.bind_eq_some_iff.mp hrun
  cases hrun
  obtain ⟨hsound', hgrows⟩ := hsound.mintAll hchildren hmint
  exact ⟨hsound', hgrows, rfl⟩

theorem Serves.cacheListing (hserves : Serves keys tree server server')
    (listings : Dict (Blake3 × Text) Listing) :
    Serves keys tree server { server' with listings := listings } :=
  ⟨⟨hserves.sound.bijective, hserves.sound.root, hserves.sound.holds, hserves.sound.keyed⟩,
    hserves.grows, hserves.cold⟩

theorem Sound.listing (hsound : server.Sound keys tree) {snapshot : Blake3} {path : Text}
    {answer : Except NfsStat Listing}
    (hrun : server.listing keys tree app snapshot path = some (answer, server')) :
    Serves keys tree server server' := by
  unfold Server.listing at hrun
  split at hrun
  · cases hrun
    exact hsound.serves
  split at hrun
  · cases hrun
    exact hsound.serves
  · rename_i idx hindex
    split at hrun
    · obtain ⟨⟨built, middle⟩, hbuilt, hrun⟩ := Option.bind_eq_some_iff.mp hrun
      cases hrun
      obtain ⟨hsnapshot, hrows⟩ := Tree.snapshotIndex_spec hindex
      rw [← hsnapshot] at hrows
      exact (hsound.materialize (fun child hchild => holds_of_mem_listingNodes hrows hchild)
        hbuilt).cacheListing _
    · cases hrun
      exact hsound.serves

theorem Sound.dirListing (hsound : server.Sound keys tree) {startAfter : FileId}
    {answer : Except NfsStat Listing}
    (hrun : server.dirListing keys tree app node startAfter = some (answer, server')) :
    Serves keys tree server server' := by
  unfold Server.dirListing at hrun
  split at hrun
  · split at hrun
    · cases hrun
      exact hsound.serves
    · rename_i children hchildren
      obtain ⟨⟨built, middle⟩, hbuilt, heq⟩ := Option.map_eq_some_iff.mp hrun
      cases heq
      exact hsound.materialize (fun child hchild => holds_of_mem_rootChildren hchildren hchild)
        hbuilt
  · exact hsound.listing hrun
  · split at hrun
    · exact hsound.listing hrun
    · split at hrun
      · cases hrun
        exact hsound.serves
      · exact hsound.listing hrun

theorem holds_of_child {name : Text} {found : Node}
    (hrun : Server.child tree app node name = .ok found) : tree.Holds found := by
  cases node with
  | root =>
    cases htags : tree.viewTags app with
    | error stat =>
      simp only [child, htags] at hrun
      cases hrun
    | ok views =>
      simp only [child, htags, Bind.bind, Except.bind] at hrun
      split at hrun
      · rename_i hname
        cases hrun
        exact Tree.mem_views_of_viewTags htags hname
      · cases hrun
  | view view =>
    cases hindex : tree.viewIndex app view with
    | error stat =>
      simp only [child, hindex] at hrun
      cases hrun
    | ok idx =>
      simp only [child, hindex, Bind.bind, Except.bind] at hrun
      split at hrun
      · rename_i hthere
        cases hrun
        exact Tree.holds_of_file_or_dir (Tree.viewIndex_spec hindex) hthere
      · cases hrun
  | path snapshot path =>
    cases hindex : tree.snapshotIndex app snapshot with
    | error stat =>
      simp only [child, hindex] at hrun
      cases hrun
    | ok idx =>
      simp only [child, hindex, Bind.bind, Except.bind] at hrun
      split at hrun
      · rename_i hthere
        cases hrun
        obtain ⟨rfl, hrows⟩ := Tree.snapshotIndex_spec hindex
        exact Tree.holds_of_file_or_dir hrows hthere
      · cases hrun

theorem holds_of_lookupTarget {name : Option Text} {dirId : FileId} {found : Node}
    (hholds : tree.Holds node)
    (hrun : Server.lookupTarget tree app dirId node name = .ok (.inr found)) :
    tree.Holds found := by
  unfold lookupTarget at hrun
  split at hrun
  · cases hrun
  split at hrun
  · cases hrun
  split at hrun
  · split at hrun
    · split at hrun
      · rename_i hparent
        cases hrun
        exact hholds.parent hparent
      · cases hrun
    · cases hrun
  · rename_i name _ _
    cases hchild : child tree app node name with
    | error stat =>
      rw [hchild] at hrun
      cases hrun
    | ok other =>
      rw [hchild] at hrun
      cases hrun
      exact holds_of_child hchild

/-- An operation on a node of the tree. -/
theorem Sound.operate (hsound : server.Sound keys tree) (hholds : tree.Holds node) {op : Op}
    {reply : Except NfsStat Reply}
    (hrun : server.operate keys tree app id node op = some (reply, server')) :
    Serves keys tree server server' := by
  cases op with
  | lookup name =>
    simp only [Server.operate] at hrun
    split at hrun
    · cases hrun
      exact hsound.serves
    · cases hrun
      exact hsound.serves
    · rename_i found htarget
      obtain ⟨⟨own, ids⟩, hmint, heq⟩ := Option.map_eq_some_iff.mp hrun
      cases heq
      obtain ⟨hsound', -, hgrows⟩ := hsound.idFor (holds_of_lookupTarget hholds htarget) hmint
      exact ⟨hsound', hgrows, rfl⟩
  | getattr =>
    cases hrun
    exact hsound.serves
  | read offset count =>
    cases hrun
    exact hsound.serves
  | readdir startAfter maxEntries =>
    obtain ⟨⟨listing, middle⟩, hlisting, heq⟩ := Option.map_eq_some_iff.mp hrun
    cases heq
    exact hsound.dirListing hlisting

theorem Sound.keyMap (hsound : server.Sound keys tree) (app : App) (snapshot : Blake3) :
    Serves keys tree server (server.keyMap keys tree app snapshot).2 ∧
      (server.keyMap keys tree app snapshot).2.ids = server.ids ∧
      ∀ found, (server.keyMap keys tree app snapshot).1 = .ok found →
        Keyed keys tree snapshot found := by
  unfold Server.keyMap
  split
  · rename_i hit hhit
    refine ⟨hsound.serves, rfl, fun found hfound => ?_⟩
    cases hfound
    exact hsound.keyed snapshot hit hhit
  split
  · exact ⟨hsound.serves, rfl, nofun⟩
  · rename_i idx hindex
    obtain ⟨hsnapshot, hrows⟩ := Tree.snapshotIndex_spec hindex
    have hkeyed : Keyed keys tree snapshot (snapshotKeys keys idx) := by
      rw [snapshotKeys, hsnapshot]
      exact Keyed.keyRows hrows (List.Subset.refl _) nofun
    refine ⟨⟨⟨hsound.bijective, hsound.root, hsound.holds, ?_⟩, IdTable.Grows.refl _ _, rfl⟩,
      rfl, fun found hfound => ?_⟩
    · intro other found hfound
      by_cases hother : other = snapshot
      · subst hother
        rw [AList.lookup_insert] at hfound
        cases hfound
        exact hkeyed
      · rw [AList.lookup_insert_ne hother] at hfound
        split at hfound
        · cases hfound
        · exact hsound.keyed other found hfound
    · cases hfound
      exact hkeyed

/-- What a note thaws to is the node that was noted. -/
theorem Sound.thaw (hsound : server.Sound keys tree) (app : App) (cold : Cold) :
    Serves keys tree server (server.thaw keys tree app cold).2 ∧
      (server.thaw keys tree app cold).2.ids = server.ids ∧
      ∀ found, (server.thaw keys tree app cold).1 = .ok found →
        tree.Holds found ∧ keys.note found = some cold := by
  cases cold with
  | view key =>
    unfold Server.thaw
    simp only
    split
    · exact ⟨hsound.serves, rfl, fun _ hfound => by cases hfound⟩
    · rename_i views htags
      split
      · rename_i name hname
        refine ⟨hsound.serves, rfl, fun found hfound => ?_⟩
        cases hfound
        have hkey : keys.viewKey name 0 = key := by simpa using List.find?_some hname
        refine ⟨Tree.mem_views_of_viewTags htags (List.mem_of_find?_eq_some hname), ?_⟩
        rw [Keys.note, hkey]
      · exact ⟨hsound.serves, rfl, fun _ hfound => by cases hfound⟩
  | path snapshot key =>
    obtain ⟨hserves, hids, hkeyed⟩ :=
      hsound.keyMap app snapshot
    unfold Server.thaw
    simp only
    split
    · rename_i stat middle hmap
      rw [hmap] at hserves hids
      exact ⟨hserves, hids, fun _ hfound => by cases hfound⟩
    · rename_i found middle hmap
      rw [hmap] at hserves hids hkeyed
      split
      · rename_i path hpath
        refine ⟨hserves, hids, fun other hother => ?_⟩
        cases hother
        obtain ⟨hholds, hkey⟩ := hkeyed found rfl key path hpath
        refine ⟨hholds, ?_⟩
        rw [Keys.note, hkey]
      · exact ⟨hserves, hids, fun _ hfound => by cases hfound⟩

end Server

/-! ## Runs -/

/-- An id stands for a node: it is bound to nothing else, and while it is bound to nothing
its note is nobody else's. -/
def Server.StandsFor (keys : Keys) (tree : Tree) (server : Server) (id : FileId) (node : Node) :
    Prop :=
  (∀ other, server.ids.node id = some other → other = node) ∧
    (server.ids.node id = none → ∀ cold, server.cold.lookup id = some cold →
      ∀ other, tree.Holds other → keys.note other = some cold → other = node)

theorem Server.StandsFor.later {server server' : Server} {id : FileId} {node : Node}
    (hstands : server.StandsFor keys tree id node) (hsound : server'.Sound keys tree)
    (hold : ∀ id other, server.ids.node id = some other → server'.ids.node id = some other)
    (hbinds : ∀ other, tree.Holds other → server'.ids.node id = some other →
      server.ids.node id = none → other = node)
    (hnotes : ∀ cold, server'.ids.node id = none → server'.cold.lookup id = some cold →
      server.cold.lookup id ≠ some cold →
        ∀ other, tree.Holds other → keys.note other = some cold → other = node) :
    server'.StandsFor keys tree id node := by
  constructor
  · intro other hother
    cases hbound : server.ids.node id with
    | none => exact hbinds other (hsound.holds id other hother) hother hbound
    | some held =>
      have hheld := hold id held hbound
      rw [hother] at hheld
      cases hheld
      exact hstands.1 other hbound
  · intro hunbound cold hcold
    have hunbound' : server.ids.node id = none := by
      cases hbound : server.ids.node id with
      | none => rfl
      | some held =>
        rw [hold id held hbound] at hunbound
        cases hunbound
    by_cases hsame : server.cold.lookup id = some cold
    · exact hstands.2 hunbound' cold hsame
    · exact hnotes cold hunbound hcold hsame

/-- The nodes an operation has come to are nodes of the tree. -/
def Stage.Known (tree : Tree) : Stage → Prop
  | .thawed found => ∀ node, found = .ok node → tree.Holds node
  | .resolved node => tree.Holds node
  | _ => True

/-- What an operation on the handle of a node has found so far is that node. -/
def Stage.Finds (keys : Keys) (tree : Tree) (node : Node) : Stage → Prop
  | .ready _ => True
  | .thawing cold => ∀ other, tree.Holds other → keys.note other = some cold → other = node
  | .thawed found => ∀ other, found = .ok other → other = node
  | .resolved other => other = node

section

variable {ρ : Type}

/-- The handle a request came with. -/
def Request.handle : Request → Option Bytes
  | .idle => none
  | .rejected fh _ => some fh
  | .held fh _ _ => some fh

/-- A request that holds an id. -/
def World.Holding (world : World ρ) (who : ρ) (fh : Bytes) (id : FileId) : Prop :=
  ∃ stage, world.requests who = .held fh id stage

/-- No id that a request holds by the handle of one of these nodes comes to be bound to, or
noted for, another node. -/
def World.Respects (keys : Keys) (tree : Tree) (nodes : Node → Prop) (world world' : World ρ) :
    Prop :=
  ∀ who fh id, world.Holding who fh id → world'.Holding who fh id →
    ∀ node, nodes node → fh = keys.handle node → ∀ other, tree.Holds other →
      (world'.server.ids.node id = some other → world.server.ids.node id = none →
        other = node) ∧
      ∀ cold, world'.server.ids.node id = none → world'.server.cold.lookup id = some cold →
        world.server.cold.lookup id ≠ some cold → keys.note other = some cold → other = node

variable [DecidableEq ρ]

/-- A handle of one of these nodes is decoded to an id that is free or bound to the node, and
the step takes no id away from a request that holds it. -/
def Step.Meets (keys : Keys) (tree : Tree) (nodes : Node → Prop) (world : World ρ)
    (step : Step ρ) : Prop :=
  (∀ who fh, step = .present who fh → ∀ node, nodes node → fh = keys.handle node →
    ∀ other, world.server.ids.node (keys.plainId node) = some other → other = node) ∧
  world.Respects keys tree nodes (world.step keys tree step)

def Along (keys : Keys) (tree : Tree) (nodes : Node → Prop) : World ρ → List (Step ρ) → Prop
  | _, [] => True
  | world, step :: rest =>
    step.Meets keys tree nodes world ∧ Along keys tree nodes (world.step keys tree step) rest

end

namespace World

variable {ρ : Type} {world : World ρ} {nodes : Node → Prop}

/-- What requests hold by the handles of these nodes stands for them, and what they have found
is the node of the handle. -/
structure Sound (keys : Keys) (tree : Tree) (nodes : Node → Prop) (world : World ρ) : Prop where
  server : world.server.Sound keys tree
  known : ∀ who fh id stage, world.requests who = .held fh id stage → stage.Known tree
  finds : ∀ who fh id stage, world.requests who = .held fh id stage →
    ∀ node, nodes node → fh = keys.handle node →
      world.server.StandsFor keys tree id node ∧ stage.Finds keys tree node

theorem Sound.of_idle (hserver : world.server.Sound keys tree)
    (hidle : ∀ who, world.requests who = .idle) : world.Sound keys tree nodes where
  server := hserver
  known who fh id stage hheld := by
    rw [hidle who] at hheld
    cases hheld
  finds who fh id stage hheld := by
    rw [hidle who] at hheld
    cases hheld

variable [DecidableEq ρ]

variable {who : ρ} {fh : Bytes}

section

variable (hsound : world.Sound keys tree nodes)

include hsound

/-- One request moves on, over a server that only grows. -/
theorem Sound.set {request : Request} {server : Server} (hserver : server.Sound keys tree)
    (hold : ∀ id node, world.server.ids.node id = some node → server.ids.node id = some node)
    (hrespects : world.Respects keys tree nodes (world.set who request server))
    (hrequest : ∀ fh id stage, request = .held fh id stage → stage.Known tree ∧
      ∀ node, nodes node → fh = keys.handle node →
        (world.Holding who fh id ∨ server.StandsFor keys tree id node) ∧
          stage.Finds keys tree node) : (world.set who request server).Sound keys tree nodes := by
  have hstands : ∀ other fh id, world.Holding other fh id →
      (world.set who request server).Holding other fh id → ∀ node, nodes node →
        fh = keys.handle node → server.StandsFor keys tree id node := by
    intro other fh id hbefore hafter node hholds hfh
    obtain ⟨stage, hstage⟩ := hbefore
    have hrespected := hrespects other fh id ⟨stage, hstage⟩ hafter node hholds hfh
    exact (hsound.finds other fh id stage hstage node hholds hfh).1.later hserver hold
      (fun bound hbound => (hrespected bound hbound).1)
      fun cold hunbound hcold hnew bound hbound =>
        (hrespected bound hbound).2 cold hunbound hcold hnew
  refine ⟨hserver, ?_, ?_⟩
  · intro other fh id stage hheld
    by_cases hother : other = who
    · subst hother
      simp only [World.set, Function.update_self] at hheld
      exact (hrequest fh id stage hheld).1
    · simp only [World.set, Function.update_of_ne hother] at hheld
      exact hsound.known other fh id stage hheld
  · intro other fh id stage hheld node hholds hfh
    by_cases hother : other = who
    · subst hother
      have hafter : (world.set other request server).Holding other fh id := ⟨stage, hheld⟩
      simp only [World.set, Function.update_self] at hheld
      obtain ⟨hstands', hfinds⟩ := (hrequest fh id stage hheld).2 node hholds hfh
      refine ⟨?_, hfinds⟩
      rcases hstands' with hbefore | hnew
      · exact hstands other fh id hbefore hafter node hholds hfh
      · exact hnew
    · have hafter : (world.set who request server).Holding other fh id := ⟨stage, hheld⟩
      simp only [World.set, Function.update_of_ne hother] at hheld
      exact ⟨hstands other fh id ⟨stage, hheld⟩ hafter node hholds hfh,
        (hsound.finds other fh id stage hheld node hholds hfh).2⟩

/-- A fresh decoding: either the id is bound to the handle's node, or the note is its own. -/
theorem Sound.present (hdistinct : keys.Distinct tree)
    (hnodes : ∀ node, nodes node → tree.Holds node)
    (hfree : ∀ node, nodes node → fh = keys.handle node →
      ∀ other, world.server.ids.node (keys.plainId node) = some other → other = node)
    (hrespects : world.Respects keys tree nodes (world.present who fh)) :
    (world.present who fh).Sound keys tree nodes := by
  unfold World.present at hrespects ⊢
  cases hdecode : decodeFh fh with
  | none =>
    rw [hdecode] at hrespects
    exact hsound.set hsound.server (fun _ _ hbound => hbound) hrespects nofun
  | some decoded =>
    obtain ⟨id, noted⟩ := decoded
    rw [hdecode] at hrespects
    cases noted with
    | none =>
      refine hsound.set hsound.server (fun _ _ hbound => hbound) hrespects ?_
      intro fh' id' stage hheld
      cases hheld
      refine ⟨trivial, fun node hholds hfh => ⟨.inr ?_, trivial⟩⟩
      -- Only the root's handle leaves no note, and the root is bound.
      rw [hfh] at hdecode
      obtain ⟨rfl, hnote⟩ := of_decodeFh hdecode
      obtain rfl := eq_root_of_note hnote
      refine ⟨hfree .root hholds hfh, fun hunbound => ?_⟩
      have hroot := hsound.server.root
      rw [show keys.plainId .root = rootId from rfl, hroot] at hunbound
      cases hunbound
    | some cold =>
      have hids : (world.server.rememberCold id cold).ids = world.server.ids := by
        unfold Server.rememberCold
        split <;> rfl
      refine hsound.set ?_ (fun _ _ hbound => hids ▸ hbound) hrespects ?_
      · unfold Server.rememberCold
        split
        · exact hsound.server
        · exact hsound.server.withCold _
      intro fh' id' stage hheld
      cases hheld
      refine ⟨trivial, fun node hholds hfh => ⟨.inr ?_, trivial⟩⟩
      rw [hfh] at hdecode
      obtain ⟨rfl, hnote⟩ := of_decodeFh hdecode
      refine ⟨hids ▸ hfree node hholds hfh, ?_⟩
      intro hunbound other hother bound hbound hclaim
      -- The note of an unbound id is the one this handle left.
      rw [hids] at hunbound
      simp only [Server.rememberCold, hunbound, Option.isSome_none, Bool.false_eq_true,
        if_false, AList.lookup_insert] at hother
      cases hother
      exact hdistinct.eq_of_note hbound (hnodes node hholds) hclaim hnote.symm

theorem Sound.look {id : FileId} (hholding : world.Holding who fh id)
    (hrespects : world.Respects keys tree nodes (world.look who fh id)) :
    (world.look who fh id).Sound keys tree nodes := by
  obtain ⟨stage, hstage⟩ := hholding
  unfold World.look at hrespects ⊢
  cases hbound : world.server.ids.node id with
  | some node =>
    rw [hbound] at hrespects
    refine hsound.set hsound.server (fun _ _ hbound => hbound) hrespects ?_
    intro fh' id' stage' hheld
    cases hheld
    refine ⟨hsound.server.holds id node hbound, ?_⟩
    intro own hholds hfh
    refine ⟨.inl ⟨stage, hstage⟩, ?_⟩
    exact (hsound.finds who fh id stage hstage own hholds hfh).1.1 node hbound
  | none =>
    rw [hbound] at hrespects
    cases hcold : world.server.cold.lookup id with
    | none =>
      rw [hcold] at hrespects
      refine hsound.set hsound.server (fun _ _ hbound => hbound) hrespects ?_
      intro fh' id' stage' hheld
      cases hheld
      exact ⟨trivial, fun own hholds hfh => ⟨.inl ⟨stage, hstage⟩, trivial⟩⟩
    | some cold =>
      rw [hcold] at hrespects
      refine hsound.set hsound.server (fun _ _ hbound => hbound) hrespects ?_
      intro fh' id' stage' hheld
      cases hheld
      refine ⟨trivial, fun own hholds hfh => ⟨.inl ⟨stage, hstage⟩, ?_⟩⟩
      exact (hsound.finds who fh id stage hstage own hholds hfh).1.2 hbound cold hcold

theorem Sound.settle {id : FileId} {found : Except NfsStat Node}
    (hheld : world.requests who = .held fh id (.thawed found))
    (hrespects : world.Respects keys tree nodes (world.settle keys who fh id found)) :
    (world.settle keys who fh id found).Sound keys tree nodes := by
  have hcold : Server.Sound keys tree
      { world.server with cold := world.server.cold.erase id } := hsound.server.withCold _
  unfold World.settle at hrespects ⊢
  cases found with
  | error stat =>
    refine hsound.set hcold (fun _ _ hbound => hbound) hrespects ?_
    intro fh' id' stage' hstage
    cases hstage
    exact ⟨trivial, fun own hholds hfh => ⟨.inl ⟨_, hheld⟩, trivial⟩⟩
  | ok node =>
    simp only at hrespects ⊢
    have hholds := hsound.known who fh id _ hheld node rfl
    split at hrespects
    · -- The probing never ends: the note is gone, and the request waits.
      rename_i hmint
      have hsame : ({ world with server := { world.server with
          cold := world.server.cold.erase id } } : World ρ) =
            world.set who (.held fh id (.thawed (.ok node)))
              { world.server with cold := world.server.cold.erase id } := by
        rw [World.set, ← hheld, Function.update_eq_self]
      rw [hsame] at hrespects ⊢
      refine hsound.set hcold (fun _ _ hbound => hbound) hrespects ?_
      intro fh' id' stage' hstage
      cases hstage
      refine ⟨hsound.known who fh id _ hheld, ?_⟩
      intro other hother hfh
      refine ⟨.inl ⟨_, hheld⟩, ?_⟩
      exact (hsound.finds who fh id _ hheld other hother hfh).2
    · rename_i own ids hmint
      obtain ⟨hserver, -, hgrows⟩ := hcold.idFor hholds hmint
      refine hsound.set hserver hgrows.old hrespects ?_
      intro fh' id' stage' hstage
      split at hstage
      · cases hstage
        exact ⟨trivial, fun _ _ _ => ⟨.inl ⟨_, hheld⟩, trivial⟩⟩
      · cases hstage
        refine ⟨hholds, fun other hother hfh => ⟨.inl ⟨_, hheld⟩, ?_⟩⟩
        exact (hsound.finds who fh id _ hheld other hother hfh).2 node rfl

end

/-- One step keeps what the handles in use stand for. -/
theorem Sound.step (hsound : world.Sound keys tree nodes) (hdistinct : keys.Distinct tree)
    (hnodes : ∀ node, nodes node → tree.Holds node) {step : Step ρ}
    (hmeets : step.Meets keys tree nodes world) :
    (world.step keys tree step).Sound keys tree nodes := by
  obtain ⟨hfree, hrespects⟩ := hmeets
  cases step with
  | outside app => exact ⟨hsound.server, hsound.known, hsound.finds⟩
  | restart => exact Sound.of_idle Server.sound_fresh fun _ => rfl
  | present who fh =>
    exact hsound.present hdistinct hnodes (fun node => hfree who fh rfl node) hrespects
  | look who =>
    simp only [World.step] at hrespects ⊢
    split
    · rename_i fh id last hheld
      rw [hheld] at hrespects
      exact hsound.look ⟨_, hheld⟩ hrespects
    · exact hsound
  | thaw who =>
    simp only [World.step] at hrespects ⊢
    split
    · rename_i fh id cold hheld
      rw [hheld] at hrespects
      obtain ⟨hserves, hids, hfound⟩ :=
        hsound.server.thaw world.app cold
      refine hsound.set hserves.sound hserves.grows.old hrespects ?_
      intro fh' id' stage hstage
      cases hstage
      refine ⟨fun node hnode => (hfound node hnode).1, fun node hholds hfh =>
        ⟨.inl ⟨_, hheld⟩, fun other hother => ?_⟩⟩
      obtain ⟨hother', hnote⟩ := hfound other hother
      exact (hsound.finds who fh id _ hheld node hholds hfh).2 other hother' hnote
    · exact hsound
  | settle who =>
    simp only [World.step] at hrespects ⊢
    split
    · rename_i fh id found hheld
      rw [hheld] at hrespects
      exact hsound.settle hheld hrespects
    · exact hsound
  | operate who op =>
    simp only [World.step] at hrespects ⊢
    split
    · rename_i fh id node hheld
      rw [hheld] at hrespects
      simp only at hrespects
      split
      · exact hsound
      · rename_i reply server hrun
        rw [hrun] at hrespects
        have hserves := hsound.server.operate (hsound.known who fh id _ hheld) hrun
        refine hsound.set hserves.sound hserves.grows.old hrespects ?_
        intro fh' id' stage hstage
        cases hstage
        exact ⟨trivial, fun _ _ _ => ⟨.inl ⟨_, hheld⟩, trivial⟩⟩
    · exact hsound
  | finish who =>
    exact hsound.set hsound.server (fun _ _ hbound => hbound) hrespects nofun

theorem Sound.run (hsound : world.Sound keys tree nodes) (hdistinct : keys.Distinct tree)
    (hnodes : ∀ node, nodes node → tree.Holds node) {steps : List (Step ρ)}
    (halong : Along keys tree nodes world steps) :
    (world.run keys tree steps).Sound keys tree nodes := by
  induction steps generalizing world with
  | nil => exact hsound
  | cons step rest ih =>
    obtain ⟨hmeets, hrest⟩ := halong
    exact ih (hsound.step hdistinct hnodes hmeets) hrest

omit [DecidableEq ρ] in
/-- A step that leaves the server alone takes nothing away. -/
theorem respects_of_server_eq {world' : World ρ} (hserver : world'.server = world.server) :
    world.Respects keys tree nodes world' := by
  intro who fh id _ _ node _ _ other _
  rw [hserver]
  refine ⟨fun hbound hunbound => ?_, fun cold _ hcold hnew => (hnew hcold).elim⟩
  rw [hbound] at hunbound
  cases hunbound

omit [DecidableEq ρ] in
/-- Neither does one while no request holds such a handle. -/
theorem respects_of_not_held {world' : World ρ}
    (hfree : ∀ who node, nodes node → (world.requests who).handle ≠ some (keys.handle node)) :
    world.Respects keys tree nodes world' := by
  intro who fh id hholding _ node hnode hfh
  obtain ⟨stage, hstage⟩ := hholding
  refine absurd ?_ (hfree who node hnode)
  rw [hstage, hfh]
  rfl

theorem server_look (who : ρ) (fh : Bytes) (id : FileId) :
    (world.look who fh id).server = world.server := by
  unfold World.look
  split
  · rfl
  · split <;> rfl

/-- A lookup in the table takes nothing away. -/
theorem meets_look (who : ρ) : (Step.look who).Meets keys tree nodes world := by
  refine ⟨nofun, respects_of_server_eq ?_⟩
  rw [World.step]
  split
  · exact server_look who _ _
  · rfl

theorem along_false {steps : List (Step ρ)} : Along keys tree (fun _ => False) world steps := by
  induction steps generalizing world with
  | nil => trivial
  | cons step rest ih =>
    exact ⟨⟨fun _ _ _ _ hnode => hnode.elim, fun _ _ _ _ _ _ hnode => hnode.elim⟩, ih⟩

end World

/-- The table is a bijection in every run. A handle that was made for a node resolves to that
node, or not at all, in every later state of a run that leaves the node's id to it. -/
theorem handle_resolves_to_node {ρ : Type} [DecidableEq ρ] (keys : Keys) (tree : Tree)
    (hdistinct : keys.Distinct tree) (app : App) (before after : List (Step ρ)) :
    (({ app } : World ρ).run keys tree before).server.ids.Bijective ∧
      ∀ id node, (({ app } : World ρ).run keys tree before).server.ids.node id = some node →
        Along keys tree (· = node) ({ app } : World ρ) (before ++ after) →
          ∀ who fh id' found,
            fh = idToFh keys (({ app } : World ρ).run keys tree before).server.ids id →
            (({ app } : World ρ).run keys tree (before ++ after)).requests who =
              .held fh id' (.resolved found) → found = node := by
  have hstart : ∀ nodes, World.Sound keys tree nodes ({ app } : World ρ) := fun nodes =>
    World.Sound.of_idle Server.sound_fresh fun _ => rfl
  have hnobody : Along keys tree (fun _ => False) ({ app } : World ρ) before := World.along_false
  have hserver := ((hstart fun _ => False).run hdistinct (fun _ hnode => hnode.elim) hnobody).server
  refine ⟨hserver.bijective, fun id node hbound halong who fh id' found hfh hheld => ?_⟩
  have hholds : ∀ other, other = node → tree.Holds other := by
    rintro other rfl
    exact hserver.holds id other hbound
  have hsound := (hstart (· = node)).run hdistinct hholds halong
  rw [idToFh_eq_handle hbound] at hfh
  exact (hsound.finds who fh id' _ hheld node rfl hfh).2

/-! ## A clash -/

/-- The keys of `a` and `b` agree in their low halves. -/
def clashKeys : Keys where
  pathKey _ _ _ := 9
  viewKey name probe := if name = ['a'] then 7 else if probe = 0 then 7 + 2 ^ 64 else 8

def clashTree : Tree where
  views := [['a'], ['b']]
  manifest snapshot := if snapshot = 0 then some [] else none
  serveRange _ _ _ := none

def clashApp : App where
  tags _ := some 0
  tagsFail := false
  missing _ := false
  createdAt _ := 0

/-- Look up one view and then the other. -/
def clashMints : List (Step Unit) :=
  [.present () (clashKeys.handle .root), .look (), .operate () (.lookup (some ['a'])),
    .look (), .operate () (.lookup (some ['b']))]

abbrev clashRun (steps : List (Step Unit)) : World Unit :=
  ({ app := clashApp } : World Unit).run clashKeys clashTree steps

/-- Both views are minted, and then the handle of an id comes back. -/
def clashUse (id : FileId) : List (Step Unit) :=
  [.present () (idToFh clashKeys (clashRun clashMints).server.ids id), .look ()]

/-- Besides the root, the tree holds its two views and the root of its one snapshot. -/
theorem eq_of_clashTree_holds {node : Node} (hholds : clashTree.Holds node) :
    node = .root ∨ node = .view ['a'] ∨ node = .view ['b'] ∨ node = .path 0 [] := by
  cases node with
  | root => exact .inl rfl
  | view name =>
    have hname : name ∈ [['a'], ['b']] := hholds
    simpa using hname
  | path snapshot path =>
    obtain ⟨rows, hrows, hpath⟩ := hholds
    simp only [clashTree, Option.ite_none_right_eq_some] at hrows
    obtain ⟨rfl, hempty⟩ := hrows
    cases hempty
    simpa using hpath

theorem clashKeys_distinct : clashKeys.Distinct clashTree := by
  intro a b ha hb key hkey hkey'
  have hsame : clashKeys.keyOf a 0 = clashKeys.keyOf b 0 := hkey.trans hkey'.symm
  rcases eq_of_clashTree_holds ha with rfl | rfl | rfl | rfl
  · cases hkey
  all_goals
    rcases eq_of_clashTree_holds hb with rfl | rfl | rfl | rfl
    · cases hkey'
    all_goals
      revert hsame
      decide +kernel

theorem respects_of_handle_ne {world world' : World Unit} {node : Node}
    (hhandle : (world.requests ()).handle ≠ some (keys.handle node)) :
    world.Respects keys tree (· = node) world' := by
  refine World.respects_of_not_held fun _ other hother => ?_
  rw [hother]
  exact hhandle

theorem clash_along : Along clashKeys clashTree (· = .view ['a'])
    ({ app := clashApp } : World Unit) (clashMints ++ clashUse 7) := by
  refine ⟨⟨?_, respects_of_handle_ne ?_⟩, World.meets_look (), ⟨nofun, respects_of_handle_ne ?_⟩,
    World.meets_look (), ⟨nofun, respects_of_handle_ne ?_⟩, ⟨?_, respects_of_handle_ne ?_⟩,
    World.meets_look (), trivial⟩
  · intro who fh hstep node hnode hfh
    cases hstep
    subst hnode
    exact absurd hfh (by decide +kernel)
  · decide +kernel
  · decide +kernel
  · decide +kernel
  · intro who fh _ node hnode _ other hother
    subst hnode
    exact Option.some.inj (hother.symm.trans (by decide +kernel))
  · decide +kernel

/-- The handle of the view that kept its id comes back as that view. -/
theorem clash_winner_resolves : ∃ id found,
    (clashRun (clashMints ++ clashUse 7)).requests () =
      .held (idToFh clashKeys (clashRun clashMints).server.ids 7) id (.resolved found) ∧
    found = .view ['a'] := by
  have hbound : (clashRun clashMints).server.ids.node 7 = some (.view ['a']) := by decide +kernel
  have hheld : (clashRun (clashMints ++ clashUse 7)).requests () =
      .held (idToFh clashKeys (clashRun clashMints).server.ids 7) 7 (.resolved (.view ['a'])) := by
    decide +kernel
  refine ⟨7, .view ['a'], hheld, ?_⟩
  obtain ⟨-, hresolves⟩ := handle_resolves_to_node clashKeys clashTree clashKeys_distinct
    clashApp clashMints (clashUse 7)
  unfold clashRun at hbound hheld
  exact hresolves 7 (.view ['a']) hbound clash_along () _ 7 _ rfl hheld

/-- The handle of the view that was probed past the clash comes back as the other view. -/
theorem clash_loser_resolves_to_winner :
    clashKeys.Distinct clashTree ∧
      (clashRun clashMints).server.ids.node 8 = some (.view ['b']) ∧
      (clashRun (clashMints ++ clashUse 8)).requests () =
        .held (idToFh clashKeys (clashRun clashMints).server.ids 8) 7 (.resolved (.view ['a'])) :=
  ⟨clashKeys_distinct, by decide +kernel, by decide +kernel⟩

end Nfs

end Datboi
