import Datboi.Server.NfsWalks

/-!
# What an enumeration returns

Along a run that takes no snapshot away and does not restart the server, an enumeration keeps
to one snapshot, and what it has been given is a beginning of the listing of its directory.
Each page moves it on, so it ends, and then it has been given the whole listing. The one
condition is on the directory: no name in it is both a file and a directory. Such a name has
two entries in the listing under one fileid, and a cookie leads behind the second.
-/

namespace Datboi

open Catalog (Text)

namespace Nfs

variable {keys : Keys} {tree : Tree}

/-! ## Pages -/

/-- The entry for a child. -/
def Child.entry (id : FileId) (child : Child) : DirEntry :=
  ⟨id, child.name,
    if child.isDir then dirAttr id child.mtime else fileAttr id child.size child.mtime⟩

def DirEntry.seen (entry : DirEntry) : Seen :=
  (entry.name, entry.fileId, entry.attr.isDir, entry.attr.size)

theorem Child.seen_entry {child : Child} (hsize : child.isDir = true → child.size = 4096) :
    (child.entry (keys.plainId child.node)).seen = child.seen keys := by
  unfold Child.entry DirEntry.seen Child.seen
  split
  · rename_i hdir
    rw [hsize hdir, hdir]
    rfl
  · rename_i hfile
    rw [eq_false_of_ne_true hfile]
    rfl

/-- Directories have the size that every directory shows. -/
theorem size_of_mem_listingNodes {idx : ViewIndex} {path : Text} {child : Child}
    (hchild : child ∈ listingNodes idx path) : child.isDir = true → child.size = 4096 := by
  simp only [listingNodes, Rows.mem_sortBy, List.mem_append, List.mem_map] at hchild
  rcases hchild with ⟨dir, -, rfl⟩ | ⟨file, -, rfl⟩
  · exact fun _ => rfl
  · exact nofun

theorem lookup_foldl_of_notMem {entries : List (FileId × Child)} {id : FileId}
    (hid : id ∉ entries.map Prod.fst) (n : Nat) (places : Dict FileId Nat) :
    ((entries.zipIdx n).foldl (fun (byId : Dict FileId Nat) entry =>
      byId.insert entry.1.1 entry.2) places).lookup id = places.lookup id := by
  induction entries generalizing n places with
  | nil => rfl
  | cons entry entries ih =>
    rw [List.map_cons, List.mem_cons, not_or] at hid
    rw [List.zipIdx_cons, List.foldl_cons, ih hid.2, AList.lookup_insert_ne hid.1]

/-- Under distinct ids, a cookie leads to the place of its entry. -/
theorem lookup_placesOf {entries : List (FileId × Child)} (hnodup : (entries.map Prod.fst).Nodup)
    {i : Nat} {entry : FileId × Child} (hentry : entries[i]? = some entry) :
    (placesOf entries).lookup entry.1 = some i := by
  have hgeneral : ∀ n places, ((entries.zipIdx n).foldl (fun (byId : Dict FileId Nat) entry =>
      byId.insert entry.1.1 entry.2) places).lookup entry.1 = some (n + i) := by
    induction entries generalizing i with
    | nil => cases hentry
    | cons first entries ih =>
      intro n places
      rw [List.map_cons, List.nodup_cons] at hnodup
      rw [List.zipIdx_cons, List.foldl_cons]
      cases i with
      | zero =>
        obtain rfl := Option.some.inj hentry
        rw [lookup_foldl_of_notMem hnodup.1, AList.lookup_insert]
        rfl
      | succ i =>
        rw [ih hnodup.2 hentry]
        congr 1
        omega
  rw [placesOf, hgeneral 0 ∅, Nat.zero_add]

namespace Server

variable {children : List Child} {startAfter : FileId} {max : Nat}

/-- The cookie for what comes behind the first `k` children. -/
def CookieAt (keys : Keys) (children : List Child) (startAfter : FileId) (k : Nat) : Prop :=
  (k = 0 ∧ startAfter = 0) ∨
    ∃ child, children[k - 1]? = some child ∧ 0 < k ∧ startAfter = keys.plainId child.node

/-- A page of a listing with distinct ids is the window behind its cookie. -/
theorem page_plain (hnodup : (children.map fun child => keys.plainId child.node).Nodup) {k : Nat}
    (hcookie : CookieAt keys children startAfter k) :
    page (Listing.plain keys children) startAfter max =
      .ok (.entries (((children.drop k).take max).map fun child =>
        child.entry (keys.plainId child.node)) ((children.drop k).length ≤ max)) := by
  have hwindow : ∀ skip, (Listing.plain keys children).entries.drop skip =
      (children.drop skip).map fun child => (keys.plainId child.node, child) := fun skip => by
    rw [Listing.plain, List.map_drop]
  unfold page
  rcases hcookie with ⟨rfl, rfl⟩ | ⟨child, hchild, hk, rfl⟩
  · simp only [if_true, pure_bind, hwindow, ← List.map_take, List.map_map, List.length_map]
    rfl
  · have hplace : (Listing.plain keys children).byId.lookup (keys.plainId child.node) =
        some (k - 1) := by
      refine @lookup_placesOf _ ?_ _ (keys.plainId child.node, child) ?_
      · rw [List.map_map]
        exact hnodup
      · rw [List.getElem?_map, hchild]
        rfl
    rw [if_neg (keys.plainId_ne_zero child.node), hplace]
    simp only [pure_bind, hwindow, ← List.map_take, List.map_map, List.length_map,
      Nat.sub_add_cancel hk]
    rfl

/-- Whatever the cookie, a page is made of children, and only the last may be empty. -/
theorem page_spec {reply : Reply} (hmax : 0 < max)
    (hrun : page (Listing.plain keys children) startAfter max = .ok reply) :
    ∃ entries complete, reply = .entries entries complete ∧
      (∀ entry ∈ entries, ∃ child ∈ children, entry = child.entry (keys.plainId child.node)) ∧
      (complete = false → entries ≠ []) := by
  have hwindow : ∀ skip, ∃ entries complete,
      Reply.entries ((((Listing.plain keys children).entries.drop skip).take max).map
        fun row => ⟨row.1, row.2.name, if row.2.isDir then dirAttr row.1 row.2.mtime
          else fileAttr row.1 row.2.size row.2.mtime⟩)
        (((Listing.plain keys children).entries.drop skip).length ≤ max) =
          .entries entries complete ∧
      (∀ entry ∈ entries, ∃ child ∈ children, entry = child.entry (keys.plainId child.node)) ∧
      (complete = false → entries ≠ []) := by
    intro skip
    refine ⟨_, _, rfl, ?_, ?_⟩
    · intro entry hentry
      obtain ⟨⟨id, child⟩, hmem, rfl⟩ := List.mem_map.mp hentry
      obtain ⟨found, hfound, heq⟩ :=
        List.mem_map.mp (List.mem_of_mem_drop (List.mem_of_mem_take hmem))
      cases heq
      exact ⟨child, hfound, rfl⟩
    · intro hmore hnone
      rw [List.map_eq_nil_iff, List.take_eq_nil_iff] at hnone
      rw [decide_eq_false_iff_not, not_le] at hmore
      rcases hnone with hzero | hempty
      · omega
      · rw [hempty] at hmore
        exact absurd hmore (Nat.not_lt_zero _)
  unfold page at hrun
  split at hrun
  · cases hrun
    exact hwindow _
  · split at hrun
    · cases hrun
      exact hwindow _
    · cases hrun

end Server

/-! ## The children of a directory -/

section

variable {snapshot : Blake3} {path : Text} {rows : List (Text × RowMeta)}

theorem node_of_mem_listingNodes {idx : ViewIndex} {child : Child}
    (hchild : child ∈ listingNodes idx path) :
    child.node = .path idx.snapshot (join path child.name) := by
  simp only [listingNodes, Rows.mem_sortBy, List.mem_append, List.mem_map] at hchild
  rcases hchild with ⟨dir, -, rfl⟩ | ⟨file, -, rfl⟩ <;> rfl

theorem holds_of_mem_childrenSeen (hrows : tree.manifest snapshot = some rows)
    (hsorted : PrefixRange.Sorted rows) {seen : Seen}
    (hseen : seen ∈ childrenSeen keys snapshot rows path) :
    tree.Holds (.path snapshot (join path seen.1)) := by
  refine ⟨rows, hrows, .inr ?_⟩
  rcases ((mem_childrenSeen hsorted).mp hseen).2 with ⟨-, -, row, hrow, hstart⟩ | ⟨row, -, -, hrow⟩
  · exact ⟨row, hrow, .inr hstart⟩
  · exact ⟨_, hrow, .inl rfl⟩

/-- Distinct names have distinct ids. -/
theorem nodup_ids (hclashless : keys.Clashless tree) (hrows : tree.manifest snapshot = some rows)
    (hsorted : PrefixRange.Sorted rows) (hapart : Apart rows path) :
    ((childrenSeen keys snapshot rows path).map fun seen => seen.2.1).Nodup := by
  have hnames := @nodup_names keys snapshot rows path hsorted hapart
  rw [List.Nodup, List.pairwise_map] at hnames ⊢
  refine List.Pairwise.imp_of_mem ?_ hnames
  intro a b ha hb hname hid
  rw [((mem_childrenSeen hsorted).mp ha).1, ((mem_childrenSeen hsorted).mp hb).1] at hid
  have hnode := hclashless _ _ (holds_of_mem_childrenSeen hrows hsorted ha)
    (holds_of_mem_childrenSeen hrows hsorted hb) hid
  rw [Node.path.injEq, join_inj] at hnode
  exact hname hnode.2

end

/-! ## One enumeration -/

def HasDir (rows : List (Text × RowMeta)) (path : Text) : Prop :=
  path = [] ∨ ∃ row ∈ rows, (path ++ ['/']) <+: row.1

/-- A view, or a directory below the root of a snapshot. The root itself goes by its view; a
lookup of the empty name leads to it under the empty path, where lookups find nothing. -/
def Tree.Directory (tree : Tree) : Node → Prop
  | .root => False
  | .view _ => True
  | .path snapshot path =>
    path ≠ [] ∧ ∃ rows, tree.manifest snapshot = some rows ∧ HasDir rows path

def WalkStage.rank : WalkStage → Nat
  | .between | .ended | .refused _ => 0
  | .resolved _ _ => 1
  | .chosen _ _ _ => 2
  | .missed _ _ _ => 3
  | .loaded _ _ _ => 4
  | .minted _ _ _ => 5

/-- A page is under way whose tree is chosen. -/
def WalkStage.Reading (stage : WalkStage) : Prop := 2 ≤ stage.rank

namespace Walk

variable {server server' : Server} {walk : Walk} {snapshot : Blake3} {path : Text}
  {rows : List (Text × RowMeta)}

/-- The directory that an enumeration of this snapshot is of. -/
structure Reads (tree : Tree) (server : Server) (walk : Walk) (snapshot : Blake3) (path : Text)
    (rows : List (Text × RowMeta)) : Prop where
  node : path ≠ [] ∧ server.ids.node walk.dir = some (.path snapshot path) ∨
    path = [] ∧ ∃ name, server.ids.node walk.dir = some (.view name)
  manifest : tree.manifest snapshot = some rows
  dir : HasDir rows path

/-- A beginning of a listing, and a bound on the steps it took to get it. -/
structure Progress (listing : List Seen) (walk : Walk) : Prop where
  exact : walk.returned.map DirEntry.seen = listing.take walk.returned.length
  served : ∀ stat, walk.stage ≠ .refused stat
  complete : walk.stage = .ended → walk.returned.length = listing.length
  soon : walk.stage ≠ .ended → walk.taken ≤ 6 * walk.returned.length + walk.stage.rank

/-- What was returned are children of one directory in one snapshot. -/
structure Returned (keys : Keys) (server : Server) (walk : Walk) (snapshot : Blake3)
    (path : Text) (rows : List (Text × RowMeta)) : Prop where
  children : ∀ entry ∈ walk.returned, entry.seen ∈ childrenSeen keys snapshot rows path ∧
    server.ids.node entry.fileId = some (.path snapshot (join path entry.name))
  asked : ¬ walk.stage.Reading → walk.stage ≠ .ended → (∀ stat, walk.stage ≠ .refused stat) →
    walk.returned ≠ []
  progress : Apart rows path → Progress (childrenSeen keys snapshot rows path) walk

/-- What the current page has come to fits the directory and the snapshot. -/
def StageSound (keys : Keys) (tree : Tree) (server : Server) (walk : Walk) : Prop :=
  match walk.stage with
  | .between | .ended | .refused _ => True
  | .resolved node max => server.ids.node walk.dir = some node ∧ 0 < max
  | .chosen snapshot path max | .missed snapshot path max =>
    walk.snapshot = some snapshot ∧ (∃ rows, walk.Reads tree server snapshot path rows) ∧ 0 < max
  | .loaded key max children =>
    ∃ snapshot path rows createdAt, key = some (snapshot, path) ∧
      walk.snapshot = some snapshot ∧ walk.Reads tree server snapshot path rows ∧
      children = listingNodes ⟨snapshot, rows, createdAt⟩ path ∧ 0 < max
  | .minted key max built =>
    ∃ snapshot path, key = some (snapshot, path) ∧ walk.snapshot = some snapshot ∧
      (∃ rows, walk.Reads tree server snapshot path rows) ∧
      server.Lists keys tree snapshot path built ∧ 0 < max

structure Sound (keys : Keys) (tree : Tree) (server : Server) (walk : Walk) : Prop where
  node : ∃ node, server.ids.node walk.dir = some node ∧ tree.Directory node
  fresh : walk.snapshot = none → walk.returned = [] ∧
    (walk.stage = .between ∧ walk.taken = 0 ∨
      ∃ node max, walk.stage = .resolved node max ∧ walk.taken = 1)
  reads : ∀ snapshot, walk.snapshot = some snapshot → ∃ path rows,
    walk.Reads tree server snapshot path rows ∧ walk.Returned keys server snapshot path rows
  stage : walk.StageSound keys tree server

/-- The snapshot tells the directory. -/
theorem Reads.unique (hreads : walk.Reads tree server snapshot path rows) {path' : Text}
    {rows' : List (Text × RowMeta)} (hreads' : walk.Reads tree server snapshot path' rows') :
    path' = path ∧ rows' = rows := by
  have hrows : rows' = rows := Option.some.inj (hreads'.manifest.symm.trans hreads.manifest)
  refine ⟨?_, hrows⟩
  rcases hreads.node with ⟨-, hnode⟩ | ⟨hpath, name, hnode⟩ <;>
    rcases hreads'.node with ⟨-, hnode'⟩ | ⟨hpath', name', hnode'⟩ <;>
    rw [hnode] at hnode' <;> cases hnode'
  · rfl
  · rw [hpath, hpath']

theorem Reads.mono (hreads : walk.Reads tree server snapshot path rows) {nodes : Node → Prop}
    (hgrows : IdTable.Grows nodes server.ids server'.ids) :
    walk.Reads tree server' snapshot path rows := by
  refine ⟨?_, hreads.manifest, hreads.dir⟩
  rcases hreads.node with ⟨hpath, hnode⟩ | ⟨hpath, name, hnode⟩
  · exact .inl ⟨hpath, hgrows.old _ _ hnode⟩
  · exact .inr ⟨hpath, name, hgrows.old _ _ hnode⟩

theorem Returned.mono (hreturned : walk.Returned keys server snapshot path rows)
    {nodes : Node → Prop} (hgrows : IdTable.Grows nodes server.ids server'.ids) :
    walk.Returned keys server' snapshot path rows where
  children entry hentry :=
    (hreturned.children entry hentry).imp_right fun hbound => hgrows.old _ _ hbound
  asked := hreturned.asked
  progress := hreturned.progress

theorem Sound.mono (hsound : walk.Sound keys tree server) {nodes : Node → Prop}
    (hgrows : IdTable.Grows nodes server.ids server'.ids) : walk.Sound keys tree server' := by
  obtain ⟨⟨node, hnode, hdir⟩, hfresh, hreads, hstage⟩ := hsound
  refine ⟨⟨node, hgrows.old _ _ hnode, hdir⟩, hfresh, ?_, ?_⟩
  · intro snapshot hsnapshot
    obtain ⟨path, rows, hread, hreturned⟩ := hreads snapshot hsnapshot
    exact ⟨path, rows, hread.mono hgrows, hreturned.mono hgrows⟩
  · unfold StageSound at hstage ⊢
    split at hstage
    · trivial
    · trivial
    · trivial
    · exact ⟨hgrows.old _ _ hstage.1, hstage.2⟩
    · obtain ⟨hsnapshot, ⟨rows, hread⟩, hmax⟩ := hstage
      exact ⟨hsnapshot, ⟨rows, hread.mono hgrows⟩, hmax⟩
    · obtain ⟨hsnapshot, ⟨rows, hread⟩, hmax⟩ := hstage
      exact ⟨hsnapshot, ⟨rows, hread.mono hgrows⟩, hmax⟩
    · obtain ⟨snapshot, path, rows, createdAt, hkey, hsnapshot, hread, hrest⟩ := hstage
      exact ⟨snapshot, path, rows, createdAt, hkey, hsnapshot, hread.mono hgrows, hrest⟩
    · obtain ⟨snapshot, path, hkey, hsnapshot, ⟨rows, hread⟩, hlists, hmax⟩ := hstage
      exact ⟨snapshot, path, hkey, hsnapshot, ⟨rows, hread.mono hgrows⟩, hlists.mono hgrows, hmax⟩

/-- Going on to the next stage of a page. -/
theorem Returned.goTo (hreturned : walk.Returned keys server snapshot path rows)
    {stage : WalkStage} (hrank : stage.rank = walk.stage.rank + 1) (hold : walk.stage ≠ .ended)
    (hasked : stage.Reading ∨ walk.returned ≠ []) :
    (walk.goTo stage).Returned keys server snapshot path rows where
  children := hreturned.children
  asked hreading _ _ := hasked.resolve_left hreading
  progress hapart := by
    obtain ⟨hexact, -, -, hsoon⟩ := hreturned.progress hapart
    refine ⟨hexact, ?_, ?_, fun _ => ?_⟩
    · intro stat hstat
      rw [show stage = .refused stat from hstat] at hrank
      cases hrank
    · intro hended
      rw [show stage = .ended from hended] at hrank
      cases hrank
    · have := hsoon hold
      change walk.taken + 1 ≤ 6 * walk.returned.length + stage.rank
      omega

/-- The cookie of a beginning of the listing is the one for what comes behind it. -/
theorem cookieAt {children : List Child} (hexact : walk.returned.map DirEntry.seen =
    (children.map (Child.seen keys)).take walk.returned.length) :
    Server.CookieAt keys children walk.cookie walk.returned.length := by
  cases hlast : walk.returned.getLast? with
  | none =>
    rw [List.getLast?_eq_none_iff] at hlast
    exact .inl ⟨by rw [hlast]; rfl, by rw [cookie, hlast]; rfl⟩
  | some last =>
    have hcookie : walk.cookie = last.fileId := by
      rw [cookie, hlast]
      rfl
    have hpos : 0 < walk.returned.length := by
      refine List.length_pos_iff.mpr fun hnil => ?_
      rw [hnil] at hlast
      cases hlast
    rw [List.getLast?_eq_getElem?] at hlast
    have hplace := congrArg (fun seen => seen[walk.returned.length - 1]?) hexact
    rw [List.getElem?_map, hlast, List.getElem?_take_of_lt (by omega),
      List.getElem?_map] at hplace
    obtain ⟨child, hchild, hseen⟩ := Option.map_eq_some_iff.mp hplace.symm
    refine .inr ⟨child, hchild, hpos, ?_⟩
    rw [hcookie]
    exact (congrArg (fun seen : Seen => seen.2.1) hseen).symm

/-- One page more of a listing whose names are distinct. -/
theorem Progress.answer {children : List Child} {listing : List Seen}
    (hlisting : children.map (Child.seen keys) = listing)
    (hsize : ∀ child ∈ children, child.isDir = true → child.size = 4096)
    (hnodup : (children.map fun child => keys.plainId child.node).Nodup)
    (hprogress : walk.Progress listing) (hstage : walk.stage.Reading) {max : Nat}
    (hmax : 0 < max) :
    Progress listing (walk.answer (Listing.plain keys children) max) := by
  obtain ⟨hexact, -, -, hsoon⟩ := hprogress
  have hold : walk.stage ≠ .ended := by
    intro hended
    rw [WalkStage.Reading, hended] at hstage
    exact absurd hstage (by decide)
  have hrank : walk.stage.rank ≤ 5 := by
    cases walk.stage <;> exact Nat.le_of_ble_eq_true rfl
  have htaken := hsoon hold
  have hlength := congrArg List.length hexact
  rw [List.length_map, List.length_take] at hlength
  subst hlisting
  rw [List.length_map] at hlength
  have hpage := @Server.page_plain _ _ _ max hnodup _ (cookieAt hexact)
  rw [Walk.answer, hpage]
  dsimp only
  have hseen : (((children.drop walk.returned.length).take max).map fun child =>
      child.entry (keys.plainId child.node)).map DirEntry.seen =
        ((children.map (Child.seen keys)).drop walk.returned.length).take max := by
    rw [List.map_map, ← List.map_drop, ← List.map_take]
    refine List.map_congr_left fun child hchild => ?_
    exact Child.seen_entry (hsize child (List.mem_of_mem_drop (List.mem_of_mem_take hchild)))
  refine ⟨?_, ?_, ?_, ?_⟩
  · have hmin : ((children.map (Child.seen keys)).drop walk.returned.length).take max =
        ((children.map (Child.seen keys)).drop walk.returned.length).take
          (min max (children.length - walk.returned.length)) := by
      conv_lhs => rw [List.take_eq_take_min, List.length_drop, List.length_map]
    rw [List.map_append, hexact, hseen, List.length_append, List.length_map, List.length_take,
      List.take_add, List.length_drop, hmin]
  · intro stat hstat
    dsimp only [goTo] at hstat
    split at hstat <;> cases hstat
  · intro hended
    dsimp only [goTo] at hended
    split at hended
    · rename_i hcomplete
      rw [decide_eq_true_eq, List.length_drop] at hcomplete
      rw [List.length_append, List.length_map, List.length_take, List.length_drop, List.length_map]
      omega
    · cases hended
  · intro hmore
    dsimp only [goTo] at hmore ⊢
    split at hmore
    · exact absurd rfl hmore
    · rename_i hcomplete
      rw [decide_eq_true_eq, List.length_drop, not_le] at hcomplete
      rw [List.length_append, List.length_map, List.length_take, List.length_drop]
      omega

/-- One page more of a listing. -/
theorem Returned.answer (hreturned : walk.Returned keys server snapshot path rows)
    (hclashless : keys.Clashless tree) (hmanifest : Manifest rows)
    (hrows : tree.manifest snapshot = some rows) {listing : Listing}
    (hlists : server.Lists keys tree snapshot path listing) (hstage : walk.stage.Reading)
    {max : Nat} (hmax : 0 < max) :
    (walk.answer listing max).Returned keys server snapshot path rows := by
  obtain ⟨rows', createdAt, hrows', rfl, hbound⟩ := hlists
  obtain rfl : rows' = rows := Option.some.inj (hrows'.symm.trans hrows)
  have hlisting := @seen_listingNodes keys snapshot rows' path createdAt
  have hsize := fun child => @size_of_mem_listingNodes ⟨snapshot, rows', createdAt⟩ path child
  generalize hchildren : listingNodes ⟨snapshot, rows', createdAt⟩ path = children at *
  have hprogress : Apart rows' path → Progress (childrenSeen keys snapshot rows' path)
      (walk.answer (Listing.plain keys children) max) := by
    intro hapart
    refine Progress.answer hlisting hsize ?_ (hreturned.progress hapart) hstage hmax
    have hids := @nodup_ids _ _ _ path _ hclashless hrows hmanifest.sorted hapart
    rw [← hlisting, List.map_map] at hids
    exact hids
  refine ⟨?_, ?_, hprogress⟩
  · intro entry hentry
    unfold Walk.answer at hentry
    split at hentry
    · rename_i entries complete hpage
      rcases List.mem_append.mp hentry with hold | hnew
      · exact hreturned.children entry hold
      · obtain ⟨entries', complete', heq, hmem, -⟩ := Server.page_spec hmax hpage
        cases heq
        obtain ⟨child, hchild, rfl⟩ := hmem entry hnew
        refine ⟨?_, ?_⟩
        · rw [Child.seen_entry (hsize child hchild), ← hlisting]
          exact List.mem_map_of_mem hchild
        · have hnode : child.node = .path snapshot (join path child.name) := by
            rw [← hchildren] at hchild
            exact node_of_mem_listingNodes hchild
          exact (hbound child hchild).trans (congrArg some hnode)
    · exact hreturned.children entry hentry
    · exact hreturned.children entry hentry
  · intro hreading hended hserved
    unfold Walk.answer at hreading hended hserved ⊢
    split at hended
    · rename_i entries complete hpage
      obtain ⟨entries', complete', heq, -, hmore⟩ := Server.page_spec hmax hpage
      cases heq
      cases complete with
      | true => exact absurd rfl hended
      | false => exact fun hnone => hmore rfl (List.append_eq_nil_iff.mp hnone).2
    · rename_i reply hentries hpage
      obtain ⟨entries', complete', heq, -⟩ := Server.page_spec hmax hpage
      exact absurd heq (hentries entries' complete')
    · rename_i stat hpage
      rw [hpage] at hserved
      exact absurd rfl (hserved stat)

end Walk

/-! ## One step -/

/-- Tags and stored snapshots can be read. -/
def App.Readable (app : App) : Prop :=
  app.tagsFail = false ∧ ∀ snapshot, app.missing snapshot = false

theorem Tree.snapshotIndex_readable {app : App} (hreadable : app.Readable) {snapshot : Blake3}
    {rows : List (Text × RowMeta)} (hrows : tree.manifest snapshot = some rows) :
    tree.snapshotIndex app snapshot = .ok ⟨snapshot, rows, app.createdAt snapshot⟩ := by
  rw [snapshotIndex, hrows]
  dsimp only
  rw [hreadable.2 snapshot]
  rfl

theorem Tree.tags_of_viewIndex {app : App} {name : Text} {idx : ViewIndex}
    (hindex : tree.viewIndex app name = .ok idx) : app.tags name = some idx.snapshot := by
  unfold viewIndex at hindex
  split at hindex
  · cases hindex
  split at hindex
  · split at hindex
    · rename_i hash htag
      rw [htag, (snapshotIndex_spec hindex).1]
    · cases hindex
  · cases hindex

namespace Walk

variable {app : App} {server server' : Server} {walk walk' : Walk} {max : Nat}

/-- A first page follows the view, and every later one stays on the snapshot of the cookie. -/
theorem Sound.choose (hsound : walk.Sound keys tree server) (hfaithful : server.Faithful keys tree)
    (hdecoded : tree.Decoded) {node : Node} (hstage : walk.stage = .resolved node max)
    (hview : ∀ name, node = .view name → walk.returned = [] →
      ∃ idx, tree.viewIndex app name = .ok idx) :
    ∃ snapshot path rows, server.choose tree app node walk.cookie = .ok (snapshot, path) ∧
      walk.Reads tree server snapshot path rows ∧
      (walk.snapshot = none ∨ walk.snapshot = some snapshot) ∧
      (walk.returned = [] → ∀ name, node = .view name → app.tags name = some snapshot) := by
  obtain ⟨⟨dirNode, hbound, hdir⟩, hfresh, hreads, hresolved⟩ := hsound
  rw [StageSound, hstage] at hresolved
  have hsame : dirNode = node := Option.some.inj (hbound.symm.trans hresolved.1)
  subst hsame
  cases dirNode with
  | root => exact hdir.elim
  | path snapshot path =>
    obtain ⟨hpath, rows, hrows, hhas⟩ := hdir
    refine ⟨snapshot, path, rows, rfl, ⟨.inl ⟨hpath, hbound⟩, hrows, hhas⟩, ?_, nofun⟩
    cases hsnapshot : walk.snapshot with
    | none => exact .inl rfl
    | some other =>
      obtain ⟨path', rows', hread, -⟩ := hreads other hsnapshot
      rcases hread.node with ⟨-, hnode⟩ | ⟨-, name, hnode⟩ <;>
        rw [hbound] at hnode <;> cases hnode
      exact .inr rfl
  | view name =>
    cases hlast : walk.returned.getLast? with
    | none =>
      rw [List.getLast?_eq_none_iff] at hlast
      obtain ⟨idx, hindex⟩ := hview name rfl hlast
      have hcookie : walk.cookie = 0 := by
        rw [cookie, hlast]
        rfl
      refine ⟨idx.snapshot, [], idx.rows, ?_, ⟨.inr ⟨rfl, name, hbound⟩,
        Tree.viewIndex_spec hindex, .inl rfl⟩, ?_, ?_⟩
      · rw [Server.choose, hcookie, Server.pinnedSnapshot, if_pos rfl]
        dsimp only
        rw [hindex]
        rfl
      · cases hsnapshot : walk.snapshot with
        | none => exact .inl rfl
        | some other =>
          -- An enumeration that has read a page has entries, or it is over.
          obtain ⟨path', rows', -, hreturned⟩ := hreads other hsnapshot
          refine absurd hlast (hreturned.asked ?_ ?_ ?_) <;> rw [hstage]
          · exact (by decide : ¬ 2 ≤ 1)
          · nofun
          · exact fun stat => nofun
      · rintro - other hother
        cases hother
        exact Tree.tags_of_viewIndex hindex
    | some last =>
      have hmem := List.mem_of_getLast? hlast
      have hcookie : walk.cookie = last.fileId := by
        rw [cookie, hlast]
        rfl
      have hsome : walk.snapshot ≠ none := by
        intro hnone
        rw [(hfresh hnone).1] at hmem
        cases hmem
      obtain ⟨snapshot, hsnapshot⟩ := Option.ne_none_iff_exists'.mp hsome
      obtain ⟨path, rows, hread, hreturned⟩ := hreads snapshot hsnapshot
      obtain ⟨hseen, hentry⟩ := hreturned.children last hmem
      have hpath : path = [] := by
        rcases hread.node with ⟨-, hnode⟩ | ⟨hpath, -⟩
        · rw [hbound] at hnode
          cases hnode
        · exact hpath
      subst hpath
      have hname : '/' ∉ last.name := by
        have hsorted := (hdecoded.manifest hread.manifest).sorted
        rcases ((mem_childrenSeen hsorted).mp hseen).2 with ⟨-, hname, -⟩ | ⟨row, -, hname, -⟩
        · exact hname
        · exact hname
      refine ⟨snapshot, [], rows, ?_, hread, .inr hsnapshot, fun hnone => ?_⟩
      · have hne : last.fileId ≠ 0 := by
          rw [hfaithful.plain _ _ hentry]
          exact keys.plainId_ne_zero _
        rw [Server.choose, hcookie, Server.pinnedSnapshot, if_neg hne, hentry]
        dsimp only
        rw [show join [] last.name = last.name from rfl, if_neg hname]
      · rw [hnone] at hmem
        cases hmem

/-- A stage on the way to an answer. -/
theorem Sound.goTo (hsound : walk.Sound keys tree server) {snapshot : Blake3}
    (hsnapshot : walk.snapshot = some snapshot) {stage : WalkStage}
    (hrank : stage.rank = walk.stage.rank + 1) (hold : walk.stage ≠ .ended)
    (hreading : stage.Reading) (hstage : (walk.goTo stage).StageSound keys tree server) :
    (walk.goTo stage).Sound keys tree server where
  node := hsound.node
  fresh hnone := by
    rw [show walk.snapshot = none from hnone] at hsnapshot
    cases hsnapshot
  reads other hother := by
    obtain ⟨path, rows, hread, hreturned⟩ := hsound.reads other hother
    exact ⟨path, rows, ⟨hread.node, hread.manifest, hread.dir⟩,
      hreturned.goTo hrank hold (.inl hreading)⟩
  stage := hstage

theorem Sound.answer (hsound : walk.Sound keys tree server) (hclashless : keys.Clashless tree)
    (hdecoded : tree.Decoded) {snapshot : Blake3} {path : Text} {rows : List (Text × RowMeta)}
    (hsnapshot : walk.snapshot = some snapshot) (hread : walk.Reads tree server snapshot path rows)
    {listing : Listing} (hlists : server.Lists keys tree snapshot path listing)
    (hstage : walk.stage.Reading) (hmax : 0 < max) :
    (walk.answer listing max).Sound keys tree server := by
  obtain ⟨path', rows', hread', hreturned⟩ := hsound.reads snapshot hsnapshot
  obtain ⟨rfl, rfl⟩ := hread.unique hread'
  have hanswer := hreturned.answer hclashless (hdecoded.manifest hread.manifest) hread.manifest
    hlists hstage hmax
  have hkept : (walk.answer listing max).dir = walk.dir ∧
      (walk.answer listing max).snapshot = walk.snapshot ∧
      (walk.answer listing max).StageSound keys tree server := by
    unfold Walk.answer
    split
    · rename_i complete _
      cases complete <;> exact ⟨rfl, rfl, trivial⟩
    · exact ⟨rfl, rfl, trivial⟩
    · exact ⟨rfl, rfl, trivial⟩
  obtain ⟨hdir, hsame, hstage'⟩ := hkept
  refine ⟨by rw [hdir]; exact hsound.node, fun hnone => ?_, fun other hother => ?_, hstage'⟩
  · rw [hsame, hsnapshot] at hnone
    cases hnone
  · rw [hsame, hsnapshot] at hother
    obtain rfl := Option.some.inj hother
    exact ⟨path', rows', ⟨by rw [hdir]; exact hread.node, hread.manifest, hread.dir⟩, hanswer⟩

/-- What a step does to an enumeration besides keeping it right: the directory stays, and its
snapshot is chosen once, from the tag of a view. -/
structure Steps (app : App) (server : Server) (walk walk' : Walk) : Prop where
  dir : walk'.dir = walk.dir
  taken : walk'.taken = walk.taken + 1
  snapshot : walk'.snapshot = walk.snapshot ∨ walk.snapshot = none ∧
    ∃ snapshot, walk'.snapshot = some snapshot ∧
      (∀ name, server.ids.node walk.dir = some (.view name) → app.tags name = some snapshot) ∧
      ∀ other path, server.ids.node walk.dir = some (.path other path) → other = snapshot

theorem steps_answer (listing : Listing) : Steps app server walk (walk.answer listing max) := by
  unfold Walk.answer
  split <;> exact ⟨rfl, rfl, .inl rfl⟩

/-- Every step of an enumeration succeeds, unless it is over. -/
theorem Sound.advance (hsound : walk.Sound keys tree server) (hfaithful : server.Faithful keys tree)
    (hclashless : keys.Clashless tree) (hdecoded : tree.Decoded) (hreadable : app.Readable)
    (hmax : 0 < max) (hview : ∀ name max', walk.stage = .resolved (.view name) max' →
      walk.returned = [] → ∃ idx, tree.viewIndex app name = .ok idx)
    (hgoing : walk.stage ≠ .ended) (hserved : ∀ stat, walk.stage ≠ .refused stat) :
    ∃ walk' server', server.advance keys tree app walk max = some (walk', server') ∧
      walk'.Sound keys tree server' ∧ server'.Faithful keys tree ∧
      IdTable.Grows tree.Holds server.ids server'.ids ∧ Steps app server walk walk' := by
  have hrefl := IdTable.Grows.refl tree.Holds server.ids
  have hstage := hsound.stage
  unfold StageSound at hstage
  unfold Server.advance
  cases hcase : walk.stage with
  | ended => exact absurd hcase hgoing
  | refused stat => exact absurd hcase (hserved stat)
  | between =>
    obtain ⟨node, hbound, hdir⟩ := hsound.node
    refine ⟨walk.goTo (.resolved node max), server, ?_, ⟨⟨node, hbound, hdir⟩, ?_, ?_, ?_⟩,
      hfaithful, hrefl, rfl, rfl, .inl rfl⟩
    · dsimp only
      rw [hbound]
      rfl
    · intro hnone
      obtain ⟨hreturned, ⟨-, htaken⟩ | ⟨other, max', hother, -⟩⟩ := hsound.fresh hnone
      · exact ⟨hreturned, .inr ⟨node, max, rfl, congrArg (· + 1) htaken⟩⟩
      · rw [hcase] at hother
        cases hother
    · intro snapshot hsnapshot
      obtain ⟨path, rows, hread, hreturned⟩ := hsound.reads snapshot hsnapshot
      refine ⟨path, rows, ⟨hread.node, hread.manifest, hread.dir⟩, hreturned.goTo ?_ hgoing ?_⟩
      · rw [hcase]
        rfl
      · refine .inr (hreturned.asked ?_ hgoing hserved)
        rw [hcase]
        exact (by decide : ¬ 2 ≤ 0)
    · exact ⟨hbound, hmax⟩
  | resolved node max' =>
    rw [hcase] at hstage
    obtain ⟨snapshot, path, rows, hchoose, hread, hbefore, htag⟩ := hsound.choose hfaithful
      hdecoded hcase (fun name hname => hview name max' (by rw [hcase, hname]))
    refine ⟨{ walk.goTo (.chosen snapshot path max') with snapshot := some snapshot }, server, ?_,
      ⟨hsound.node, nofun, ?_, ⟨rfl, ⟨rows, hread.node, hread.manifest, hread.dir⟩, hstage.2⟩⟩,
      hfaithful, hrefl, rfl, rfl, ?_⟩
    · cases node with
      | root => cases hchoose
      | view name =>
        dsimp only
        rw [hchoose]
      | path other otherPath =>
        dsimp only
        rw [hchoose]
    · intro other hother
      obtain rfl := Option.some.inj hother
      refine ⟨path, rows, ⟨hread.node, hread.manifest, hread.dir⟩, ?_⟩
      rcases hbefore with hnone | hsome
      · obtain ⟨hreturned, ⟨hother, -⟩ | ⟨-, -, -, htaken⟩⟩ := hsound.fresh hnone
        · rw [hcase] at hother
          cases hother
        refine ⟨?_, ?_, fun _ => ⟨?_, nofun, nofun, fun _ => ?_⟩⟩
        · intro entry hentry
          replace hentry : entry ∈ walk.returned := hentry
          rw [hreturned] at hentry
          cases hentry
        · exact fun hreading => absurd (by decide : 2 ≤ 2) hreading
        · change walk.returned.map DirEntry.seen =
            (childrenSeen keys snapshot rows path).take walk.returned.length
          rw [hreturned]
          rfl
        · change walk.taken + 1 ≤ 6 * walk.returned.length + 2
          omega
      · obtain ⟨path', rows', hread', hreturned⟩ := hsound.reads snapshot hsome
        obtain ⟨rfl, rfl⟩ := hread'.unique hread
        have hnext : (walk.goTo (.chosen snapshot path max')).Returned keys server snapshot path
            rows := hreturned.goTo (by rw [hcase]; rfl) hgoing (.inl (by decide : 2 ≤ 2))
        exact ⟨hnext.children, hnext.asked, fun hapart =>
          ⟨(hnext.progress hapart).exact, (hnext.progress hapart).served,
            (hnext.progress hapart).complete, (hnext.progress hapart).soon⟩⟩
    · rcases hbefore with hnone | hsome
      · refine .inr ⟨hnone, snapshot, rfl, fun name hname => ?_, fun other path' hother => ?_⟩
        · exact htag (hsound.fresh hnone).1 name (Option.some.inj (hstage.1.symm.trans hname))
        · rcases hread.node with ⟨-, hbound⟩ | ⟨-, name, hbound⟩ <;> rw [hother] at hbound <;>
            cases hbound
          rfl
      · exact .inl hsome.symm
  | chosen snapshot path max' =>
    rw [hcase] at hstage
    obtain ⟨hsnapshot, ⟨rows, hread⟩, hmax'⟩ := hstage
    dsimp only
    cases hhit : server.listings.lookup (snapshot, path) with
    | none =>
      refine ⟨_, _, rfl, hsound.goTo hsnapshot ?_ hgoing (by decide : 2 ≤ 3) ?_, hfaithful,
        hrefl, rfl, rfl, .inl rfl⟩
      · rw [hcase]
        rfl
      · exact ⟨hsnapshot, ⟨rows, hread.node, hread.manifest, hread.dir⟩, hmax'⟩
    | some hit =>
      refine ⟨_, _, rfl, hsound.answer hclashless hdecoded hsnapshot hread
        (hfaithful.listed snapshot path hit hhit) ?_ hmax', hfaithful, hrefl, steps_answer hit⟩
      rw [hcase]
      exact (by decide : 2 ≤ 2)
  | missed snapshot path max' =>
    rw [hcase] at hstage
    obtain ⟨hsnapshot, ⟨rows, hread⟩, hmax'⟩ := hstage
    have hsorted := (hdecoded.manifest hread.manifest).sorted
    have hisDir : ViewIndex.isDir ⟨snapshot, rows, app.createdAt snapshot⟩ path = true :=
      (ViewIndex.isDir_iff hsorted).mpr hread.dir
    dsimp only
    rw [Tree.snapshotIndex_readable hreadable hread.manifest]
    dsimp only
    rw [if_pos hisDir]
    refine ⟨_, _, rfl, hsound.goTo hsnapshot ?_ hgoing (by decide : 2 ≤ 4) ?_, hfaithful, hrefl,
      rfl, rfl, .inl rfl⟩
    · rw [hcase]
      rfl
    · exact ⟨snapshot, path, rows, app.createdAt snapshot, rfl, hsnapshot,
        ⟨hread.node, hread.manifest, hread.dir⟩, rfl, hmax'⟩
  | loaded key max' children =>
    rw [hcase] at hstage
    obtain ⟨snapshot, path, rows, createdAt, rfl, hsnapshot, hread, rfl, hmax'⟩ := hstage
    obtain ⟨server', hrun, hfaithful', hgrows, hbound⟩ := hfaithful.materialize hclashless
      fun child hchild =>
        @holds_of_mem_listingNodes _ ⟨snapshot, rows, createdAt⟩ path hread.manifest child hchild
    dsimp only
    rw [hrun]
    refine ⟨_, _, rfl, (hsound.mono hgrows).goTo hsnapshot ?_ hgoing (by decide : 2 ≤ 5) ?_,
      hfaithful', hgrows, rfl, rfl, .inl rfl⟩
    · rw [hcase]
      rfl
    · have hread' := hread.mono hgrows
      exact ⟨snapshot, path, rfl, hsnapshot, ⟨rows, hread'.node, hread'.manifest, hread'.dir⟩,
        ⟨rows, createdAt, hread.manifest, rfl, hbound⟩, hmax'⟩
  | minted key max' built =>
    rw [hcase] at hstage
    obtain ⟨snapshot, path, rfl, hsnapshot, ⟨rows, hread⟩, hlists, hmax'⟩ := hstage
    have hanswer := hsound.answer hclashless hdecoded hsnapshot hread hlists
      (by rw [hcase]; exact (by decide : 2 ≤ 5)) hmax'
    have hgrows : IdTable.Grows tree.Holds server.ids
        (server.keepListing (some (snapshot, path)) built).ids := hrefl
    exact ⟨_, _, rfl, hanswer.mono hgrows, hfaithful.keepListing hlists, hgrows,
      steps_answer built⟩

end Walk

/-! ## Runs -/

/-- Only the outside changes what the server runs over. -/
theorem World.app_step {ρ : Type} [DecidableEq ρ] (world : World ρ) (step : Step ρ) :
    (world.step keys tree step).app =
      match step with
      | .outside app => app
      | _ => world.app := by
  cases step with
  | outside app => rfl
  | restart => rfl
  | present who fh =>
    dsimp only [World.step]
    unfold World.present
    split <;> rfl
  | look who =>
    dsimp only [World.step]
    split
    · unfold World.look
      split
      · rfl
      split <;> rfl
    · rfl
  | thaw who =>
    dsimp only [World.step]
    split <;> rfl
  | settle who =>
    dsimp only [World.step]
    split
    · unfold World.settle
      dsimp only
      split
      · rfl
      split <;> rfl
    · rfl
  | operate who op =>
    dsimp only [World.step]
    split
    · split <;> rfl
    · rfl
  | finish who => rfl

section

variable {ρ ω : Type} [DecidableEq ρ] [DecidableEq ω]

/-- The run goes on in one process, over stores that keep what they hold. Enumerations are of
views and of directories of snapshots that decode, and ask for at least one entry; the first
page of a view is asked for while its snapshot decodes. -/
def Move.Allowed (tree : Tree) (state : Walks ρ ω) : Move ρ ω → Prop
  | .other .restart => False
  | .other (.outside app) => app.Readable
  | .other _ => True
  | .dropListings | .dropKeys => True
  | .start _ dir => ∃ node, state.world.server.ids.node dir = some node ∧ tree.Directory node
  | .advance who max => 0 < max ∧ ∀ walk name max', state.walks who = some walk →
      walk.stage = .resolved (.view name) max' → walk.returned = [] →
        ∃ idx, tree.viewIndex state.world.app name = .ok idx

namespace Walks

variable {state : Walks ρ ω}

structure Sound (keys : Keys) (tree : Tree) (state : Walks ρ ω) : Prop where
  world : state.world.Sound keys tree fun _ => False
  faithful : state.world.server.Faithful keys tree
  readable : state.world.app.Readable
  walks : ∀ who walk, state.walks who = some walk → walk.Sound keys tree state.world.server

omit [DecidableEq ρ] [DecidableEq ω] in
theorem sound_fresh {app : App} (hreadable : app.Readable) :
    Sound keys tree ({ world := { app := app } } : Walks ρ ω) where
  world := World.Sound.of_idle Server.sound_fresh fun _ => rfl
  faithful := Server.faithful_fresh
  readable := hreadable
  walks _ _ hwalk := by cases hwalk

omit [DecidableEq ρ] [DecidableEq ω] in
/-- Another server under the same requests and enumerations. -/
theorem Sound.serve (hsound : state.Sound keys tree) {server : Server}
    (hfaithful : server.Faithful keys tree)
    (hgrows : IdTable.Grows tree.Holds state.world.server.ids server.ids) :
    (state.serve server).Sound keys tree where
  world := ⟨hfaithful.sound, hsound.world.known, fun _ _ _ _ _ _ hnode => hnode.elim⟩
  faithful := hfaithful
  readable := hsound.readable
  walks who walk hwalk := (hsound.walks who walk hwalk).mono hgrows

omit [DecidableEq ρ] in
theorem Sound.withWalk (hsound : state.Sound keys tree) {walk : Walk}
    (hwalk : walk.Sound keys tree state.world.server) (who : ω) :
    Sound keys tree { state with walks := Function.update state.walks who (some walk) } where
  world := hsound.world
  faithful := hsound.faithful
  readable := hsound.readable
  walks other found hfound := by
    replace hfound : Function.update state.walks who (some walk) other = some found := hfound
    by_cases hother : other = who
    · subst hother
      rw [Function.update_self] at hfound
      rwa [← Option.some.inj hfound]
    · rw [Function.update_of_ne hother] at hfound
      exact hsound.walks other found hfound

theorem Sound.next (hsound : state.Sound keys tree) (hclashless : keys.Clashless tree)
    (hdecoded : tree.Decoded) {move : Move ρ ω} (hallowed : move.Allowed tree state) :
    (state.next keys tree move).Sound keys tree ∧
      IdTable.Grows tree.Holds state.world.server.ids
        (state.next keys tree move).world.server.ids := by
  have hrefl := IdTable.Grows.refl tree.Holds state.world.server.ids
  obtain ⟨hworld, hfaithful, hreadable, hwalks⟩ := hsound
  cases move with
  | other step =>
    have hstep : step ≠ .restart := by
      intro heq
      rw [heq] at hallowed
      exact hallowed
    obtain ⟨hfaithful', hgrows⟩ := World.step_faithful hclashless hworld hfaithful hstep
    have hmeets : step.Meets keys tree (fun _ => False) state.world :=
      ⟨fun _ _ _ _ hnode => hnode.elim, fun _ _ _ _ _ _ hnode => hnode.elim⟩
    have hworld' := hworld.step hclashless.distinct (fun _ hnode => hnode.elim) hmeets
    refine ⟨⟨hworld', hfaithful', ?_, fun who walk hwalk => (hwalks who walk hwalk).mono hgrows⟩,
      hgrows⟩
    rw [Walks.next]
    dsimp only
    rw [World.app_step]
    cases step with
    | outside app => exact hallowed
    | _ => exact hreadable
  | dropListings =>
    have hserver : Server.Faithful keys tree { state.world.server with listings := ∅ } :=
      ⟨⟨hfaithful.sound.bijective, hfaithful.sound.root, hfaithful.sound.holds,
        hfaithful.sound.keyed⟩, hfaithful.plain, fun _ _ _ hcached => by cases hcached⟩
    exact ⟨Sound.serve ⟨hworld, hfaithful, hreadable, hwalks⟩ hserver hrefl, hrefl⟩
  | dropKeys =>
    have hserver : Server.Faithful keys tree { state.world.server with keys := ∅ } :=
      ⟨⟨hfaithful.sound.bijective, hfaithful.sound.root, hfaithful.sound.holds,
        fun _ _ hcached => by cases hcached⟩, hfaithful.plain, hfaithful.listed⟩
    exact ⟨Sound.serve ⟨hworld, hfaithful, hreadable, hwalks⟩ hserver hrefl, hrefl⟩
  | start who dir =>
    obtain ⟨node, hbound, hdir⟩ := hallowed
    have hwalk : Walk.Sound keys tree state.world.server { dir := dir } :=
      ⟨⟨node, hbound, hdir⟩, fun _ => ⟨rfl, .inl ⟨rfl, rfl⟩⟩, nofun, trivial⟩
    exact ⟨Sound.withWalk ⟨hworld, hfaithful, hreadable, hwalks⟩ hwalk who, hrefl⟩
  | advance who max =>
    obtain ⟨hmax, hview⟩ := hallowed
    rw [Walks.next]
    cases hwalk : state.walks who with
    | none => exact ⟨⟨hworld, hfaithful, hreadable, hwalks⟩, hrefl⟩
    | some walk =>
      dsimp only
      cases hrun : state.world.server.advance keys tree state.world.app walk max with
      | none => exact ⟨⟨hworld, hfaithful, hreadable, hwalks⟩, hrefl⟩
      | some result =>
        obtain ⟨walk', server'⟩ := result
        have hgoing : walk.stage ≠ .ended := by
          intro hended
          rw [Server.advance, hended] at hrun
          cases hrun
        have hserved : ∀ stat, walk.stage ≠ .refused stat := by
          intro stat hrefused
          rw [Server.advance, hrefused] at hrun
          cases hrun
        obtain ⟨_, _, hrun', hwalk', hfaithful', hgrows, -⟩ := (hwalks who walk hwalk).advance
          hfaithful hclashless hdecoded hreadable hmax
          (fun name max' hstage => hview walk name max' hwalk hstage) hgoing hserved
        rw [hrun] at hrun'
        cases hrun'
        have hserved' := Sound.serve ⟨hworld, hfaithful, hreadable, hwalks⟩ hfaithful' hgrows
        exact ⟨hserved'.withWalk hwalk' who, hgrows⟩

end Walks

end

end Nfs

end Datboi
