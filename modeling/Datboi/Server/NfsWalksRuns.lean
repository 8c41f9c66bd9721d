import Datboi.Server.NfsWalksExact

/-!
# Enumerations along runs

In every state of a run an enumeration of a directory with no name for both a file and a
directory has not been refused, ends in time, and has been given entries that lookups and
attributes agree with; once it is over it has been given each child of its directory once.
With such a name no enumeration ends so. Enumerations from the root of a view, one directory
after another, lead to every row of its snapshot and to nothing else.
-/

namespace Datboi

open Catalog (Text)

namespace Nfs

variable {keys : Keys} {tree : Tree} {ρ ω : Type}

/-- A name in a directory, with its kind and size. -/
def IsChild (rows : List (Text × RowMeta)) (path name : Text) (isDir : Bool) (size : Nat) : Prop :=
  isDir = true ∧ size = 4096 ∧ IsSubdir rows path name ∨
    isDir = false ∧ ∃ row, size = row.size ∧ IsFile rows path name row

/-- The rows of the snapshot that an enumeration reads. -/
def Walk.rows (tree : Tree) (walk : Walk) : List (Text × RowMeta) :=
  (walk.snapshot.bind tree.manifest).getD []

/-- No name in the directory that an enumeration reads is a file and a directory. -/
def Walk.Clean (tree : Tree) (server : Server) (walk : Walk) : Prop :=
  ∀ snapshot path rows, walk.snapshot = some snapshot →
    walk.Reads tree server snapshot path rows → Apart rows path

/-- An enumeration goes on until it ends, what it returned is what the server says of it, and
at its end it returned each child of one directory of one snapshot once. -/
structure Walk.Exact (keys : Keys) (tree : Tree) (state : Walks ρ ω) (walk : Walk) : Prop where
  served : ∀ stat, walk.stage ≠ .refused stat
  ends : walk.stage = .ended ∨ walk.taken < 6 * ((walk.rows tree).length + 1)
  children : walk.stage = .ended → ∃ snapshot path rows, walk.snapshot = some snapshot ∧
    walk.Reads tree state.world.server snapshot path rows ∧
      (walk.returned.map DirEntry.name).Nodup ∧
      ∀ name isDir size, (∃ entry ∈ walk.returned, entry.name = name ∧
        entry.attr.isDir = isDir ∧ entry.attr.size = size) ↔ IsChild rows path name isDir size
  attrs : ∀ entry ∈ walk.returned, ∃ node attr,
    state.world.server.ids.node entry.fileId = some node ∧
      Server.getattr tree state.world.app entry.fileId node = .ok attr ∧
      attr.fileId = entry.fileId ∧ attr.isDir = entry.attr.isDir ∧ attr.size = entry.attr.size
  lookups : ∀ entry ∈ walk.returned, ∀ node,
    state.world.server.ids.node walk.dir = some node →
      (∀ name, node = .view name → state.world.app.tags name = walk.snapshot) →
      ∃ server', state.world.server.operate keys tree state.world.app walk.dir node
        (.lookup (some entry.name)) = some (.ok (.id entry.fileId), server')

/-! ## In one state -/

theorem WalkStage.rank_le (stage : WalkStage) : stage.rank ≤ 5 := by
  cases stage <;> exact Nat.le_of_ble_eq_true rfl

section

variable {app : App} {server : Server} {snapshot : Blake3} {path : Text}
  {rows : List (Text × RowMeta)} {seen : Seen}

/-- What a child of a directory is found as. -/
theorem isChild_of_mem_childrenSeen (hsorted : PrefixRange.Sorted rows)
    (hseen : seen ∈ childrenSeen keys snapshot rows path) :
    IsChild rows path seen.1 seen.2.2.1 seen.2.2.2 := by
  obtain ⟨name, id, isDir, size⟩ := seen
  rcases ((mem_childrenSeen hsorted).mp hseen).2 with ⟨hkind, hdir⟩ | ⟨row, hkind, hfile⟩
  · obtain ⟨rfl, rfl⟩ := Prod.mk.injEq .. ▸ hkind
    exact .inl ⟨rfl, rfl, hdir⟩
  · obtain ⟨rfl, rfl⟩ := Prod.mk.injEq .. ▸ hkind
    exact .inr ⟨rfl, row, rfl, hfile⟩

variable {name : Text} {isDir : Bool} {size : Nat}

theorem IsChild.isChildName (hchild : IsChild rows path name isDir size) :
    IsChildName rows path name := by
  rcases hchild with ⟨-, -, hdir⟩ | ⟨-, row, -, hfile⟩
  · exact .inl hdir
  · exact .inr ⟨row, hfile⟩

theorem IsChild.found {name : Text} {isDir : Bool} {size : Nat}
    (hchild : IsChild rows path name isDir size) (hsorted : PrefixRange.Sorted rows)
    (createdAt : Nat) :
    (ViewIndex.file ⟨snapshot, rows, createdAt⟩ (join path name)).isSome ||
      ViewIndex.isDir ⟨snapshot, rows, createdAt⟩ (join path name) := by
  rw [Bool.or_eq_true]
  rcases hchild with ⟨-, -, hdir⟩ | ⟨-, row, -, hfile⟩
  · exact .inr ((ViewIndex.isDir_iff hsorted).mpr (.inr hdir.2))
  · left
    rw [@ViewIndex.file_eq_some ⟨snapshot, rows, createdAt⟩ _ _ hsorted hfile.2]
    rfl

/-- A directory is not a file besides, so its attributes are a directory's. -/
theorem getattr_of_isChild (hreadable : app.Readable) (hrows : tree.manifest snapshot = some rows)
    (hsorted : PrefixRange.Sorted rows) (hapart : Apart rows path)
    (hchild : IsChild rows path name isDir size) (id : FileId) :
    ∃ attr, Server.getattr tree app id (.path snapshot (join path name)) = .ok attr ∧
      attr.fileId = id ∧ attr.isDir = isDir ∧ attr.size = size := by
  rw [Server.getattr, Tree.snapshotIndex_readable hreadable hrows]
  simp only [Bind.bind, Except.bind]
  generalize app.createdAt snapshot = createdAt
  rcases hchild with ⟨rfl, rfl, hdir⟩ | ⟨rfl, row, rfl, hfile⟩
  · have hnone : ViewIndex.file ⟨snapshot, rows, createdAt⟩ (join path name) = none := by
      refine Option.eq_none_iff_forall_ne_some.mpr fun row hrow => ?_
      obtain ⟨other, hother, heq⟩ := ViewIndex.mem_of_file (Option.isSome_of_eq_some hrow)
      refine hapart name other.2 hdir ⟨hdir.1, ?_⟩
      rw [← heq]
      exact hother
    have hisDir : ViewIndex.isDir ⟨snapshot, rows, createdAt⟩ (join path name) = true :=
      (ViewIndex.isDir_iff hsorted).mpr (.inr hdir.2)
    rw [hnone]
    dsimp only
    rw [if_pos hisDir]
    exact ⟨_, rfl, rfl, rfl, rfl⟩
  · rw [@ViewIndex.file_eq_some ⟨snapshot, rows, createdAt⟩ _ _ hsorted hfile.2]
    exact ⟨_, rfl, rfl, rfl, rfl⟩

theorem Tree.viewIndex_readable (hreadable : app.Readable) (hname : name ∈ tree.views)
    (htag : app.tags name = some snapshot) (hrows : tree.manifest snapshot = some rows) :
    tree.viewIndex app name = .ok ⟨snapshot, rows, app.createdAt snapshot⟩ := by
  rw [viewIndex, hreadable.1, if_neg (by decide), if_pos hname, htag]
  exact snapshotIndex_readable hreadable hrows

/-- Looking the name of a child up leads to its node. -/
theorem child_of_isChild {node : Node} (hreadable : app.Readable)
    (hrows : tree.manifest snapshot = some rows) (hsorted : PrefixRange.Sorted rows)
    (hchild : IsChild rows path name isDir size)
    (hnode : path ≠ [] ∧ node = .path snapshot path ∨ path = [] ∧ ∃ view ∈ tree.views,
      node = .view view ∧ app.tags view = some snapshot) :
    Server.child tree app node name = .ok (.path snapshot (join path name)) := by
  have hfound := @IsChild.found snapshot _ _ _ _ _ hchild hsorted (app.createdAt snapshot)
  rcases hnode with ⟨hpath, rfl⟩ | ⟨rfl, view, hview, rfl, htag⟩
  · have hjoin : join path name = path ++ '/' :: name := by
      rw [join, if_neg (by simpa using hpath)]
    rw [Server.child, Tree.snapshotIndex_readable hreadable hrows]
    simp only [Bind.bind, Except.bind]
    rw [← hjoin, if_pos hfound]
    rfl
  · rw [Server.child, Tree.viewIndex_readable hreadable hview htag hrows]
    simp only [Bind.bind, Except.bind]
    rw [show join [] name = name from rfl] at hfound
    rw [if_pos hfound]
    rfl

/-- A lookup that finds a node answers with the id that is minted for it. -/
theorem operate_lookup {node found : Node} {id dirId : FileId} {ids : IdTable}
    (hdot : name ≠ ['.']) (hdots : name ≠ ['.', '.'])
    (hfound : Server.child tree app node name = .ok found)
    (hmint : server.ids.idFor keys found = some (id, ids)) :
    server.operate keys tree app dirId node (.lookup (some name)) =
      some (.ok (.id id), { server with ids := ids }) := by
  have htarget : Server.lookupTarget tree app dirId node (some name) = .ok (.inr found) := by
    unfold Server.lookupTarget
    dsimp only
    rw [if_neg hdot, if_neg hdots, hfound]
    rfl
  unfold Server.operate
  dsimp only
  rw [htarget]
  dsimp only
  rw [hmint]
  rfl

end

/-- A name for both would have been returned twice. -/
theorem Walk.Exact.clean {state : Walks ρ ω} {walk : Walk} (hexact : walk.Exact keys tree state)
    (hended : walk.stage = .ended) : walk.Clean tree state.world.server := by
  intro snapshot path rows hsnapshot hread name row hdir hfile
  obtain ⟨other, path', rows', hother, hread', hnames, hchildren⟩ := hexact.children hended
  obtain rfl := Option.some.inj (hsnapshot.symm.trans hother)
  obtain ⟨rfl, rfl⟩ := hread.unique hread'
  obtain ⟨first, hfirst, hname, hkind, -⟩ :=
    (hchildren name true 4096).mpr (.inl ⟨rfl, rfl, hdir⟩)
  obtain ⟨second, hsecond, hname', hkind', -⟩ :=
    (hchildren name false row.size).mpr (.inr ⟨rfl, row, rfl, hfile⟩)
  have hsame := List.inj_on_of_nodup_map hnames hfirst hsecond (hname.trans hname'.symm)
  rw [hsame, hkind'] at hkind
  cases hkind

namespace Walks

variable {state : Walks ρ ω} {who : ω} {walk : Walk}

theorem Sound.exact (hsound : state.Sound keys tree) (hclashless : keys.Clashless tree)
    (hdecoded : tree.Decoded) (hwalk : state.walks who = some walk)
    (hclean : walk.Clean tree state.world.server) : walk.Exact keys tree state := by
  have hsoundWalk := hsound.walks who walk hwalk
  cases hsnapshot : walk.snapshot with
  | none =>
    obtain ⟨hreturned, hstage⟩ := hsoundWalk.fresh hsnapshot
    have hearly :
        (∀ stat, walk.stage ≠ .refused stat) ∧ walk.stage ≠ .ended ∧ walk.taken ≤ 1 := by
      rcases hstage with ⟨hbetween, htaken⟩ | ⟨node, max, hresolved, htaken⟩
      · rw [hbetween, htaken]
        exact ⟨nofun, nofun, by decide⟩
      · rw [hresolved, htaken]
        exact ⟨nofun, nofun, by decide⟩
    refine ⟨hearly.1, .inr ?_, fun hended => absurd hended hearly.2.1, ?_, ?_⟩
    · have := hearly.2.2
      omega
    · intro entry hentry
      rw [hreturned] at hentry
      cases hentry
    · intro entry hentry
      rw [hreturned] at hentry
      cases hentry
  | some snapshot =>
    obtain ⟨path, rows, hread, hreturned⟩ := hsoundWalk.reads snapshot hsnapshot
    have hrows : walk.rows tree = rows := by
      rw [Walk.rows, hsnapshot, Option.bind_some, hread.manifest]
      rfl
    have hapart := hclean snapshot path rows hsnapshot hread
    have hmanifest := hdecoded.manifest hread.manifest
    obtain ⟨hexact, hserved, hcomplete, hsoon⟩ := hreturned.progress hapart
    have hlength := congrArg List.length hexact
    rw [List.length_map, List.length_take] at hlength
    have hbound := @length_childrenSeen_le keys snapshot _ path hmanifest.sorted
    refine ⟨hserved, ?_, fun hended =>
      ⟨snapshot, path, rows, hsnapshot, hread, ?_, ?_⟩, ?_, ?_⟩
    · by_cases hended : walk.stage = .ended
      · exact .inl hended
      · right
        have hsteps := hsoon hended
        have hrank := walk.stage.rank_le
        rw [hrows]
        omega
    · rw [hcomplete hended, List.take_length] at hexact
      have hnames := @nodup_names keys snapshot _ path hmanifest.sorted hapart
      rw [← hexact, List.map_map] at hnames
      exact hnames
    · rw [hcomplete hended, List.take_length] at hexact
      intro name isDir size
      constructor
      · rintro ⟨entry, hentry, rfl, rfl, rfl⟩
        exact isChild_of_mem_childrenSeen hmanifest.sorted (hreturned.children entry hentry).1
      · intro hchild
        have hseen : (name, keys.plainId (.path snapshot (join path name)), isDir, size) ∈
            childrenSeen keys snapshot rows path := by
          refine (mem_childrenSeen hmanifest.sorted).mpr ⟨rfl, ?_⟩
          rcases hchild with ⟨rfl, rfl, hdir⟩ | ⟨rfl, row, rfl, hfile⟩
          · exact .inl ⟨rfl, hdir⟩
          · exact .inr ⟨row, rfl, hfile⟩
        rw [← hexact] at hseen
        obtain ⟨entry, hentry, heq⟩ := List.mem_map.mp hseen
        simp only [DirEntry.seen, Prod.mk.injEq] at heq
        exact ⟨entry, hentry, heq.1, heq.2.2.1, heq.2.2.2⟩
    · intro entry hentry
      obtain ⟨hseen, hnode⟩ := hreturned.children entry hentry
      have hchild := isChild_of_mem_childrenSeen hmanifest.sorted hseen
      obtain ⟨attr, hattr, hsame⟩ := getattr_of_isChild hsound.readable hread.manifest
        hmanifest.sorted hapart hchild entry.fileId
      exact ⟨_, attr, hnode, hattr, hsame⟩
    · intro entry hentry node hnode htag
      obtain ⟨hseen, -⟩ := hreturned.children entry hentry
      have hchild := isChild_of_mem_childrenSeen hmanifest.sorted hseen
      obtain ⟨-, hdot, hdots⟩ := hmanifest.name_ne hchild.isChildName
      have hplace : path ≠ [] ∧ node = .path snapshot path ∨ path = [] ∧ ∃ view ∈ tree.views,
          node = .view view ∧ state.world.app.tags view = some snapshot := by
        rcases hread.node with ⟨hpath, hbound⟩ | ⟨hpath, view, hbound⟩
        · exact .inl ⟨hpath, Option.some.inj (hnode.symm.trans hbound)⟩
        · obtain rfl := Option.some.inj (hnode.symm.trans hbound)
          exact .inr ⟨hpath, view, hsound.faithful.sound.holds _ _ hbound, rfl,
            (htag view rfl).trans hsnapshot⟩
      have hfound :=
        child_of_isChild hsound.readable hread.manifest hmanifest.sorted hchild hplace
      obtain ⟨ids, hmint, -⟩ := hsound.faithful.idFor hclashless
        (holds_of_mem_childrenSeen hread.manifest hmanifest.sorted hseen)
      have hid := ((mem_childrenSeen hmanifest.sorted).mp hseen).1
      rw [← hid] at hmint
      exact ⟨_, operate_lookup hdot hdots hfound hmint⟩

/-! ## From directory to directory -/

variable [DecidableEq ρ] [DecidableEq ω]

/-- The paths that enumerations lead to from the root of a view, through directories of one
snapshot. Each of them is a run of its own: it begins at a directory that an earlier one
returned, and is over at the end of the run. -/
inductive Reaches (keys : Keys) (tree : Tree) (snapshot : Blake3) (start : Walks ρ ω)
    (root : FileId) : Walks ρ ω → Text → FileId → Bool → Prop
  | root : Reaches keys tree snapshot start root start [] root true
  | child {state : Walks ρ ω} {path : Text} {dir : FileId} {who : ω} {moves : List (Move ρ ω)}
      {walk : Walk} {entry : DirEntry}
      (hreaches : Reaches keys tree snapshot start root state path dir true)
      (halong : Runs.Along (Walks.next keys tree) (Move.Allowed tree) state
        (.start who dir :: moves))
      (hwalk : (Runs.run (Walks.next keys tree) state (.start who dir :: moves)).walks who =
        some walk)
      (hdir : walk.dir = dir) (hended : walk.stage = .ended)
      (hsnapshot : walk.snapshot = some snapshot) (hentry : entry ∈ walk.returned) :
      Reaches keys tree snapshot start root
        (Runs.run (Walks.next keys tree) state (.start who dir :: moves))
        (join path entry.name) entry.fileId entry.attr.isDir

/-- A run keeps what its steps keep, and ids stay with their nodes. -/
theorem Sound.run (hsound : state.Sound keys tree) (hclashless : keys.Clashless tree)
    (hdecoded : tree.Decoded) {moves : List (Move ρ ω)}
    (halong : Runs.Along (Walks.next keys tree) (Move.Allowed tree) state moves) :
    (Runs.run (Walks.next keys tree) state moves).Sound keys tree ∧
      IdTable.Grows tree.Holds state.world.server.ids
        (Runs.run (Walks.next keys tree) state moves).world.server.ids := by
  constructor
  · exact halong.invariant (fun s move hs hallowed =>
      (hs.next hclashless hdecoded hallowed).1) hsound
  · exact @Runs.Along.relation _ _ _ _ _ _ (Sound keys tree)
      (fun a b => IdTable.Grows tree.Holds a.world.server.ids b.world.server.ids)
      (fun _ => IdTable.Grows.refl _ _) IdTable.Grows.trans
      (fun s move hs hallowed => hs.next hclashless hdecoded hallowed) halong hsound

variable {snapshot : Blake3} {rows : List (Text × RowMeta)} {root : FileId} {view : Text}

/-- The node that a directory of the snapshot goes by. -/
def Place (snapshot : Blake3) (view : Text) (path : Text) (node : Node) : Prop :=
  path = [] ∧ node = .view view ∨ path ≠ [] ∧ node = .path snapshot path

/-- Whatever is reached is in the snapshot, and a directory's id leads to its node. -/
theorem Reaches.sound {start state : Walks ρ ω} {path : Text} {id : FileId} {isDir : Bool}
    (hreaches : Reaches keys tree snapshot start root state path id isDir)
    (hstart : start.Sound keys tree) (hclashless : keys.Clashless tree) (hdecoded : tree.Decoded)
    (hroot : start.world.server.ids.node root = some (.view view))
    (hrows : tree.manifest snapshot = some rows) :
    state.Sound keys tree ∧
      (isDir = true → HasDir rows path ∧ ∃ node, state.world.server.ids.node id = some node ∧
        Place snapshot view path node) ∧
      (isDir = false → ∃ row, (path, row) ∈ rows) := by
  induction hreaches with
  | root => exact ⟨hstart, fun _ => ⟨.inl rfl, _, hroot, .inl ⟨rfl, rfl⟩⟩, nofun⟩
  | @child state path dir who moves walk entry _ halong hwalk hdir hended hsnapshot hentry ih =>
    obtain ⟨hsound, hbefore, -⟩ := ih
    obtain ⟨hsound', hgrows⟩ := hsound.run hclashless hdecoded halong
    obtain ⟨-, node, hnode, hplace⟩ := hbefore rfl
    obtain ⟨path', rows', hread, hreturned⟩ :=
      (hsound'.walks who walk hwalk).reads snapshot hsnapshot
    obtain rfl : rows' = rows := Option.some.inj (hread.manifest.symm.trans hrows)
    have hnode' := hgrows.old _ _ hnode
    have hpath : path' = path := by
      rcases hread.node with ⟨hne, hbound⟩ | ⟨hnil, name, hbound⟩ <;>
        rw [hdir, hnode'] at hbound <;>
        rcases hplace with ⟨hnil', rfl⟩ | ⟨hne', rfl⟩ <;> cases hbound
      · rfl
      · rw [hnil, hnil']
    subst hpath
    obtain ⟨hseen, hbound⟩ := hreturned.children entry hentry
    have hmanifest := hdecoded.manifest hrows
    have hchild : IsChild rows' path' entry.name entry.attr.isDir entry.attr.size :=
      isChild_of_mem_childrenSeen hmanifest.sorted hseen
    have hname := (hmanifest.name_ne hchild.isChildName).1
    refine ⟨hsound', fun hkind => ?_, fun hkind => ?_⟩
    · rcases hchild with ⟨-, -, -, hbelow⟩ | ⟨hfile, -⟩
      · exact ⟨.inr hbelow, _, hbound, .inr ⟨join_ne_nil hname, rfl⟩⟩
      · rw [hkind] at hfile
        cases hfile
    · rcases hchild with ⟨hdir, -⟩ | ⟨-, row, -, hfile⟩
      · rw [hkind] at hdir
        cases hdir
      · exact ⟨row, hfile.2⟩

/-- An enumeration of a directory of the snapshot, which is the view's. -/
structure Follows (snapshot : Blake3) (view path : Text) (who : ω) (state : Walks ρ ω)
    (walk : Walk) : Prop where
  current : state.walks who = some walk
  node : ∃ node, state.world.server.ids.node walk.dir = some node ∧ Place snapshot view path node
  reading : walk.snapshot = none ∨ walk.snapshot = some snapshot
  tag : state.world.app.tags view = some snapshot

omit [DecidableEq ρ] [DecidableEq ω] in
theorem Follows.rows_eq {path : Text} (hfollows : Follows snapshot view path who state walk)
    (hrows : tree.manifest snapshot = some rows) :
    walk.rows tree = [] ∨ walk.rows tree = rows := by
  rcases hfollows.reading with hnone | hsome
  · left
    rw [Walk.rows, hnone]
    rfl
  · right
    rw [Walk.rows, hsome, Option.bind_some, hrows]
    rfl

omit [DecidableEq ρ] [DecidableEq ω] in
theorem Follows.exact {path : Text} (hfollows : Follows snapshot view path who state walk)
    (hsound : state.Sound keys tree) (hclashless : keys.Clashless tree)
    (hdecoded : tree.Decoded) (hrows : tree.manifest snapshot = some rows)
    (hfree : PrefixFree rows) : walk.Exact keys tree state := by
  refine hsound.exact hclashless hdecoded hfollows.current fun other path' rows' hother hread => ?_
  obtain rfl : other = snapshot := by
    rcases hfollows.reading with hnone | hsome
    · rw [hnone] at hother
      cases hother
    · exact Option.some.inj (hother.symm.trans hsome)
  rw [Option.some.inj (hread.manifest.symm.trans hrows)]
  exact hfree.apart path'

section

variable {path : Text} (hfollows : Follows snapshot view path who state walk)
  (hsound : state.Sound keys tree) (hclashless : keys.Clashless tree) (hdecoded : tree.Decoded)
  (hrows : tree.manifest snapshot = some rows) (hfree : PrefixFree rows)

include hfollows hsound hclashless hdecoded hrows hfree

/-- Its next step. -/
theorem Follows.advances (hgoing : walk.stage ≠ .ended) :
    (Move.advance who 1 : Move ρ ω).Allowed tree state ∧
      ∃ walk', Follows snapshot view path who (state.next keys tree (.advance who 1)) walk' ∧
        walk'.dir = walk.dir ∧ walk'.taken = walk.taken + 1 ∧
        (state.next keys tree (.advance who 1)).world.app = state.world.app := by
  have hserved := (hfollows.exact hsound hclashless hdecoded hrows hfree).served
  obtain ⟨hwalk, ⟨node, hnode, hplace⟩, hsnapshot, htag⟩ := hfollows
  have hview : ∀ name max', walk.stage = .resolved (.view name) max' → walk.returned = [] →
      ∃ idx, tree.viewIndex state.world.app name = .ok idx := by
    intro name max' hstage _
    have hresolved := (hsound.walks who walk hwalk).stage
    rw [Walk.StageSound, hstage] at hresolved
    have hsame := Option.some.inj (hresolved.1.symm.trans hnode)
    rcases hplace with ⟨-, rfl⟩ | ⟨-, rfl⟩ <;> cases hsame
    exact ⟨_, Tree.viewIndex_readable hsound.readable
      (hsound.faithful.sound.holds _ _ hnode) htag hrows⟩
  obtain ⟨walk', server', hrun, -, -, hgrows, hsteps⟩ := (hsound.walks who walk hwalk).advance
    hsound.faithful hclashless hdecoded hsound.readable (by decide : 0 < 1) hview hgoing hserved
  have hnext : state.next keys tree (.advance who 1) = { state.serve server' with
      walks := Function.update state.walks who (some walk') } := by
    rw [Walks.next, hwalk]
    dsimp only
    rw [hrun]
  refine ⟨⟨by decide, fun other name max' hother => ?_⟩, walk', ?_, hsteps.dir, hsteps.taken, ?_⟩
  · obtain rfl := Option.some.inj (hwalk.symm.trans hother)
    exact hview name max'
  · rw [hnext]
    refine ⟨Function.update_self .., ⟨node, ?_, hplace⟩, ?_, htag⟩
    · rw [hsteps.dir]
      exact hgrows.old _ _ hnode
    · rcases hsteps.snapshot with hsame | ⟨hnone, chosen, hchosen, hfrom⟩
      · rw [hsame]
        exact hsnapshot
      · right
        rw [hchosen]
        rcases hplace with ⟨-, rfl⟩ | ⟨-, rfl⟩
        · rw [← hfrom.1 view hnode, htag]
        · rw [hfrom.2 snapshot path hnode]
  · rw [hnext]
    rfl

/-- An enumeration left to itself comes to its end. -/
theorem Follows.finishes {fuel : Nat} (hfuel : 6 * (rows.length + 1) ≤ walk.taken + fuel) :
    ∃ moves walk', Runs.Along (Walks.next keys tree) (Move.Allowed tree) state moves ∧
      Follows snapshot view path who (Runs.run (Walks.next keys tree) state moves) walk' ∧
      walk'.dir = walk.dir ∧ walk'.stage = .ended := by
  induction fuel generalizing state walk with
  | zero =>
    have hexact := hfollows.exact hsound hclashless hdecoded hrows hfree
    refine ⟨[], walk, trivial, hfollows, rfl, hexact.ends.resolve_right fun hsoon => ?_⟩
    rcases hfollows.rows_eq hrows with hnil | hsame
    · rw [hnil, List.length_nil] at hsoon
      omega
    · rw [hsame] at hsoon
      omega
  | succ fuel ih =>
    by_cases hended : walk.stage = .ended
    · exact ⟨[], walk, trivial, hfollows, rfl, hended⟩
    · obtain ⟨hallowed, walk', hfollows', hdir, htaken, -⟩ :=
        hfollows.advances hsound hclashless hdecoded hrows hfree hended
      obtain ⟨moves, last, halong, hlast, hdir', hended'⟩ := ih hfollows'
        (hsound.next hclashless hdecoded hallowed).1 (by omega)
      exact ⟨.advance who 1 :: moves, last, ⟨hallowed, halong⟩, hlast, hdir'.trans hdir, hended'⟩

end

/-- From a directory on the way to a row, enumerations lead to the row. -/
theorem Reaches.complete {start : Walks ρ ω} (hstart : start.Sound keys tree)
    (hclashless : keys.Clashless tree) (hdecoded : tree.Decoded)
    (hroot : start.world.server.ids.node root = some (.view view))
    (hrows : tree.manifest snapshot = some rows) (hfree : PrefixFree rows) (who : ω)
    {path rest : Text} {dir : FileId}
    (hreaches : Reaches keys tree snapshot start root state path dir true)
    (htag : state.world.app.tags view = some snapshot) {row : RowMeta}
    (hrow : (ViewIndex.startOf path ++ rest, row) ∈ rows) :
    ∃ later id, Reaches keys tree snapshot start root later (ViewIndex.startOf path ++ rest) id
      false := by
  induction hlength : rest.length using Nat.strong_induction_on
    generalizing path rest dir state with
  | _ n ih =>
  obtain ⟨hsound, hbefore, -⟩ := hreaches.sound hstart hclashless hdecoded hroot hrows
  obtain ⟨hhas, node, hnode, hplace⟩ := hbefore rfl
  have hmanifest := hdecoded.manifest hrows
  -- Enumerate the directory.
  have hdirectory : tree.Directory node := by
    rcases hplace with ⟨-, rfl⟩ | ⟨hne, rfl⟩
    · trivial
    · exact ⟨hne, rows, hrows, hhas⟩
  have hallowed : (Move.start who dir : Move ρ ω).Allowed tree state := ⟨node, hnode, hdirectory⟩
  have hfollows : Follows snapshot view path who (state.next keys tree (.start who dir))
      { dir := dir } := ⟨Function.update_self .., ⟨node, hnode, hplace⟩, .inl rfl, htag⟩
  have hsound' := (hsound.next hclashless hdecoded hallowed).1
  obtain ⟨moves, walk, halong, hlast, hdir, hended⟩ := hfollows.finishes hsound' hclashless
    hdecoded hrows hfree (Nat.le_add_left _ _)
  have hfinal := (hsound'.run hclashless hdecoded halong).1
  obtain ⟨other, path', rows', hsnapshot, hread, -, hchildren⟩ :=
    (hlast.exact hfinal hclashless hdecoded hrows hfree).children hended
  have hother : other = snapshot := by
    rcases hlast.reading with hnone | hsome
    · rw [hnone] at hsnapshot
      cases hsnapshot
    · exact Option.some.inj (hsnapshot.symm.trans hsome)
  subst hother
  obtain rfl : rows' = rows := Option.some.inj (hread.manifest.symm.trans hrows)
  have hpath : path' = path := by
    obtain ⟨found, hfound, hplace'⟩ := hlast.node
    rcases hread.node with ⟨hne, hbound⟩ | ⟨hnil, name, hbound⟩ <;> rw [hfound] at hbound <;>
      rcases hplace' with ⟨hnil', rfl⟩ | ⟨hne', rfl⟩ <;> cases hbound
    · rfl
    · rw [hnil, hnil']
  subst hpath
  have hstep : ∀ entry ∈ walk.returned, Reaches keys tree other start root
      (Runs.run (Walks.next keys tree) state (.start who dir :: moves)) (join path' entry.name)
      entry.fileId entry.attr.isDir := fun entry hentry =>
    .child hreaches ⟨hallowed, halong⟩ hlast.current hdir hended hsnapshot hentry
  by_cases hslash : '/' ∈ rest
  · -- The row lies in a subdirectory; go on from there.
    obtain ⟨tail, htail⟩ := isPrefix_takeWhile_slash hslash
    set name := rest.takeWhile (· != '/') with hname
    have hsubdir : IsSubdir rows' path' name := by
      refine ⟨ViewIndex.slash_notMem_head rest, _, hrow, tail, ?_⟩
      rw [join_append_slash, List.append_assoc, htail]
    obtain ⟨entry, hentry, hentryName, hkind, -⟩ :=
      (hchildren name true 4096).mpr (.inl ⟨rfl, rfl, hsubdir⟩)
    have hreaches' := hstep entry hentry
    rw [hentryName, hkind] at hreaches'
    have hne := (hmanifest.name_ne (.inl hsubdir)).1
    have hrest : ViewIndex.startOf path' ++ rest = ViewIndex.startOf (join path' name) ++ tail := by
      rw [startOf_join hne, join_append_slash, List.append_assoc, htail]
    rw [hrest] at hrow ⊢
    refine ih tail.length ?_ hreaches' hlast.tag hrow rfl
    have hlt := congrArg List.length htail
    simp only [List.length_append, List.length_singleton] at hlt
    omega
  · have hfile : IsFile rows' path' rest row := by
      refine ⟨hslash, ?_⟩
      rw [join_eq]
      exact hrow
    obtain ⟨entry, hentry, hentryName, hkind, -⟩ :=
      (hchildren rest false row.size).mpr (.inr ⟨rfl, row, rfl, hfile⟩)
    have hreaches' := hstep entry hentry
    rw [hentryName, hkind, join_eq] at hreaches'
    exact ⟨_, _, hreaches'⟩

end Walks

/-- Along every run: an enumeration is exact if no name in its directory is both a file and a
directory, and one that has ended is exact only then. Enumerations from the root of a view lead
to rows of its snapshot and directories on the way to them, and without such names to every
row. -/
theorem walks_exact [DecidableEq ρ] [DecidableEq ω] (keys : Keys) (tree : Tree)
    (hclashless : keys.Clashless tree) (hdecoded : tree.Decoded) (app : App)
    (hreadable : app.Readable) (moves : List (Move ρ ω))
    (halong : Runs.Along (Walks.next keys tree) (Move.Allowed tree) { world := { app := app } }
      moves) (state : Walks ρ ω)
    (hstate : state = Runs.run (Walks.next keys tree) { world := { app := app } } moves) :
    (∀ who walk, state.walks who = some walk →
      (walk.Clean tree state.world.server → walk.Exact keys tree state) ∧
      (walk.stage = .ended → walk.Exact keys tree state →
        walk.Clean tree state.world.server)) ∧
    ∀ root view snapshot rows, state.world.server.ids.node root = some (.view view) →
      tree.manifest snapshot = some rows →
        (∀ later path id isDir, Walks.Reaches keys tree snapshot state root later path id isDir →
          (isDir = true → HasDir rows path) ∧ (isDir = false → ∃ row, (path, row) ∈ rows)) ∧
        (PrefixFree rows → state.world.app.tags view = some snapshot → ∀ (_ : ω) path row,
          (path, row) ∈ rows → ∃ later id,
            Walks.Reaches keys tree snapshot state root later path id false) := by
  have hsound : state.Sound keys tree := by
    rw [hstate]
    exact ((Walks.sound_fresh hreadable).run hclashless hdecoded halong).1
  refine ⟨fun who walk hwalk => ⟨hsound.exact hclashless hdecoded hwalk, fun hended hexact =>
    hexact.clean hended⟩, ?_⟩
  intro root view snapshot rows hroot hrows
  constructor
  · intro later path id isDir hreaches
    obtain ⟨-, hdir, hfile⟩ := hreaches.sound hsound hclashless hdecoded hroot hrows
    exact ⟨fun hkind => (hdir hkind).1, hfile⟩
  · intro hfree htag who path row hrow
    exact Walks.Reaches.complete hsound hclashless hdecoded hroot hrows hfree who
      (.root : Walks.Reaches keys tree snapshot _ root _ [] root true) htag hrow

/-! ## Two small snapshots -/

def rowMeta (size : UInt8) : RowMeta := ⟨Blake3.ofBytes (List.replicate 32 size), size.toNat⟩

def shelfRows : List (Text × RowMeta) := [(['a', '/', 'b'], rowMeta 9), (['c', 'd'], rowMeta 7)]

def overlapRows : List (Text × RowMeta) := [(['a'], rowMeta 7), (['a', '/', 'b'], rowMeta 9)]

/-- One view over one snapshot. -/
def oneView (rows : List (Text × RowMeta)) : Tree where
  views := [['v']]
  manifest snapshot := if snapshot = 0 then some rows else none
  serveRange _ _ _ := none

/-- Keys that tell paths apart by their lengths. -/
def lengthKeys : Keys where
  pathKey _ path _ := BitVec.ofNat 128 (10 + path.length)
  viewKey _ _ := 5

def oneTag : App where
  tags _ := some 0
  tagsFail := false
  missing _ := false
  createdAt _ := 0

theorem oneTag_readable : oneTag.Readable := ⟨rfl, fun _ => rfl⟩

/-- A manifest of the view decodes from what it encodes to. -/
theorem decoded_oneView {rows : List ViewRow}
    (hascending : Rows.windowsAny (fun a b => b.path ≤ a.path) rows = false)
    (hvalid : ∀ row ∈ rows, ViewSnap.pathIsCanonical row.path ∧ row.seek ≤ 2)
    (hlength :
      (ViewSnap.viewsnapHeader ++ (ViewSnap.toValue "v" [] rows).encoded).length < 2 ^ 64) :
    (oneView (manifestRows ⟨0, "v", [], rows⟩)).Decoded := by
  intro snapshot found hfound
  have hcanonical := Decoding.canonical_of_length
    (ViewSnap.toValue_shaped "v" [] rows (Cbor.maxDepth - 3)) hlength
  refine ⟨_, ⟨0, "v", [], rows⟩, (ViewSnapshot.decode_eq_ok (Cbor.decode_eq_ok.mpr
    ⟨hcanonical, rfl⟩) fun key hkey => hkey).mpr
      ⟨Rows.windowsAny_le_eq_false.mp hascending, hvalid, rfl, rfl⟩, ?_⟩
  simp only [oneView, Option.ite_none_right_eq_some] at hfound
  exact (Option.some.inj hfound.2).symm

theorem shelf_decoded : (oneView shelfRows).Decoded :=
  @decoded_oneView [⟨"a/b", (rowMeta 9).hash, 9, 0⟩, ⟨"cd", (rowMeta 7).hash, 7, 0⟩]
    (by decide +kernel) (by decide +kernel) (by decide +kernel)

theorem overlap_decoded : (oneView overlapRows).Decoded :=
  @decoded_oneView [⟨"a", (rowMeta 7).hash, 7, 0⟩, ⟨"a/b", (rowMeta 9).hash, 9, 0⟩]
    (by decide +kernel) (by decide +kernel) (by decide +kernel)

/-- Look the view up, and enumerate it one entry at a time. -/
def onePage (steps : Nat) : List (Move Unit Unit) :=
  [.other (.present () (lengthKeys.handle .root)), .other (.look ()),
    .other (.operate () (.lookup (some ['v']))), .start () 5] ++
    List.replicate steps (.advance () 1)

def WalkStage.isEnded : WalkStage → Bool
  | .ended => true
  | _ => false

theorem WalkStage.eq_ended {stage : WalkStage} (hended : stage.isEnded = true) :
    stage = .ended := by
  cases stage <;> first | rfl | cases hended

abbrev oneRun (rows : List (Text × RowMeta)) (moves : List (Move Unit Unit)) : Walks Unit Unit :=
  Runs.run (Walks.next lengthKeys (oneView rows)) { world := { app := oneTag } } moves

/-- Paths of held nodes below the root have distinct lengths. -/
theorem clashless_oneView {rows : List (Text × RowMeta)} (paths : List Text)
    (hpaths : ∀ path, HasDir rows path ∨ (∃ row ∈ rows, row.1 = path) → path ∈ paths)
    (hlengths : ∀ a ∈ paths, ∀ b ∈ paths,
      lengthKeys.plainId (.path 0 a) = lengthKeys.plainId (.path 0 b) → a = b)
    (hapart : ∀ path ∈ paths, lengthKeys.plainId (.path 0 path) ≠ 1 ∧
      lengthKeys.plainId (.path 0 path) ≠ 5) : lengthKeys.Clashless (oneView rows) := by
  have hcases : ∀ node, (oneView rows).Holds node → node = .root ∨ node = .view ['v'] ∨
      ∃ path ∈ paths, node = .path 0 path := by
    intro node hholds
    cases node with
    | root => exact .inl rfl
    | view name =>
      have hname : name ∈ [['v']] := hholds
      rw [List.mem_singleton.mp hname]
      exact .inr (.inl rfl)
    | path snapshot path =>
      obtain ⟨found, hfound, hpath⟩ := hholds
      simp only [oneView, Option.ite_none_right_eq_some] at hfound
      obtain ⟨rfl, hsame⟩ := hfound
      obtain rfl := Option.some.inj hsame
      refine .inr (.inr ⟨path, hpaths path ?_, rfl⟩)
      rcases hpath with hroot | ⟨row, hrow, heq | hstart⟩
      · exact .inl (.inl hroot)
      · exact .inr ⟨row, hrow, heq⟩
      · exact .inl (.inr ⟨row, hrow, hstart⟩)
  have hview : lengthKeys.plainId (.view ['v']) = 5 := by decide
  have hroot : lengthKeys.plainId .root = 1 := rfl
  intro a b ha hb hid
  rcases hcases a ha with rfl | rfl | ⟨path, hpath, rfl⟩ <;>
    rcases hcases b hb with rfl | rfl | ⟨path', hpath', rfl⟩
  · rfl
  · rw [hroot, hview] at hid
    cases hid
  · exact absurd hid.symm (hapart path' hpath').1
  · rw [hroot, hview] at hid
    cases hid
  · rfl
  · rw [hview] at hid
    exact absurd hid.symm (hapart path' hpath').2
  · exact absurd hid (hapart path hpath).1
  · rw [hview] at hid
    exact absurd hid (hapart path hpath).2
  · rw [hlengths path hpath path' hpath' hid]

theorem eq_of_slashStart {path : Text} (hstart : (path ++ ['/']) <+: ['a', '/', 'b']) :
    path = ['a'] := by
  match path with
  | [] => simp at hstart
  | [c] => simpa using hstart
  | c :: d :: rest => cases rest <;> simp at hstart

theorem not_slashStart {path row : Text} (hslash : '/' ∉ row) :
    ¬ (path ++ ['/']) <+: row := fun hstart => hslash (hstart.subset (by simp))

theorem shelf_clashless : lengthKeys.Clashless (oneView shelfRows) := by
  refine clashless_oneView [[], ['a'], ['a', '/', 'b'], ['c', 'd']] ?_ (by decide) (by decide)
  intro path hpath
  simp only [HasDir, shelfRows, List.mem_cons, List.not_mem_nil, or_false, exists_eq_or_imp,
    exists_eq_left] at hpath
  rcases hpath with (rfl | hstart | hstart) | (rfl | rfl)
  · simp
  · simp [eq_of_slashStart hstart]
  · exact absurd hstart (not_slashStart (by decide))
  · simp
  · simp

theorem overlap_clashless : lengthKeys.Clashless (oneView overlapRows) := by
  refine clashless_oneView [[], ['a'], ['a', '/', 'b']] ?_ (by decide) (by decide)
  intro path hpath
  simp only [HasDir, overlapRows, List.mem_cons, List.not_mem_nil, or_false, exists_eq_or_imp,
    exists_eq_left] at hpath
  rcases hpath with (rfl | hstart | hstart) | (rfl | rfl)
  · simp
  · exact absurd hstart (not_slashStart (by decide))
  · simp [eq_of_slashStart hstart]
  · simp
  · simp

/-- Pages may be asked for as long as every view's snapshot decodes. -/
theorem along_advances [DecidableEq ρ] [DecidableEq ω] {state : Walks ρ ω}
    (hsound : state.Sound keys tree) (hclashless : keys.Clashless tree) (hdecoded : tree.Decoded)
    (hviews : ∀ name ∈ tree.views, ∃ idx, tree.viewIndex state.world.app name = .ok idx) (who : ω)
    (steps : Nat) :
    Runs.Along (Walks.next keys tree) (Move.Allowed tree) state
      (List.replicate steps (.advance who 1)) := by
  induction steps generalizing state with
  | zero => trivial
  | succ steps ih =>
    have hallowed : (Move.advance who 1 : Move ρ ω).Allowed tree state := by
      refine ⟨by decide, fun walk name max' hwalk hstage _ => hviews name ?_⟩
      have hresolved := (hsound.walks who walk hwalk).stage
      rw [Walk.StageSound, hstage] at hresolved
      exact hsound.faithful.sound.holds _ _ hresolved.1
    refine ⟨hallowed, ih (hsound.next hclashless hdecoded hallowed).1 ?_⟩
    have happ : (state.next keys tree (.advance who 1)).world.app = state.world.app := by
      rw [Walks.next]
      split
      · rfl
      · split <;> rfl
    rwa [happ]

theorem along_onePage {rows : List (Text × RowMeta)}
    (hclashless : lengthKeys.Clashless (oneView rows)) (hdecoded : (oneView rows).Decoded)
    (hview : (oneRun rows ((onePage 0).take 3)).world.server.ids.node 5 = some (.view ['v']))
    (steps : Nat) :
    Runs.Along (Walks.next lengthKeys (oneView rows)) (Move.Allowed (oneView rows))
      { world := { app := oneTag } } (onePage steps) := by
  have hopening : Runs.Along (Walks.next lengthKeys (oneView rows)) (Move.Allowed (oneView rows))
      { world := { app := oneTag } } (onePage 0) :=
    ⟨trivial, trivial, trivial, ⟨.view ['v'], hview, trivial⟩, trivial⟩
  have hsound := ((Walks.sound_fresh oneTag_readable).run hclashless hdecoded hopening).1
  rw [onePage, Runs.along_append]
  refine ⟨hopening, along_advances hsound hclashless hdecoded ?_ () steps⟩
  intro name hname
  rw [List.mem_singleton.mp hname]
  exact ⟨⟨0, rows, 0⟩, rfl⟩

/-- One entry at a time, an enumeration returns the directory and the file of the shelf, and the
row in the directory is reached as well. -/
theorem walks_exact_shelf : ∃ walk, (oneRun shelfRows (onePage 9)).walks () = some walk ∧
    walk.stage = .ended ∧ walk.Exact lengthKeys (oneView shelfRows) (oneRun shelfRows (onePage 9)) ∧
    ∃ later id, Walks.Reaches lengthKeys (oneView shelfRows) 0 (oneRun shelfRows (onePage 9)) 5
      later ['a', '/', 'b'] id false := by
  have hfree : PrefixFree shelfRows := by
    intro row hrow other hother hstart
    simp only [shelfRows, List.mem_cons, List.not_mem_nil, or_false] at hrow hother
    rcases hrow with rfl | rfl <;> rcases hother with rfl | rfl <;>
      exact absurd hstart (by decide)
  have hview : (oneRun shelfRows ((onePage 0).take 3)).world.server.ids.node 5 =
      some (.view ['v']) := by decide +kernel
  have hview' : (oneRun shelfRows (onePage 9)).world.server.ids.node 5 = some (.view ['v']) := by
    decide +kernel
  have hrun : ((oneRun shelfRows (onePage 9)).walks ()).map (fun walk =>
      (walk.stage.isEnded, walk.snapshot)) = some (true, some 0) := by decide +kernel
  obtain ⟨walk, hwalk, hlast⟩ := Option.map_eq_some_iff.mp hrun
  obtain ⟨hended, hsnapshot⟩ := Prod.mk.injEq .. ▸ hlast
  obtain ⟨hexact, hreaches⟩ := walks_exact lengthKeys (oneView shelfRows) shelf_clashless
    shelf_decoded oneTag oneTag_readable (onePage 9)
    (along_onePage shelf_clashless shelf_decoded hview 9) _ rfl
  refine ⟨walk, hwalk, WalkStage.eq_ended hended, (hexact () walk hwalk).1 ?_, ?_⟩
  · intro snapshot path rows hother hread
    obtain rfl := Option.some.inj (hsnapshot.symm.trans hother)
    have hshelf : (oneView shelfRows).manifest 0 = some shelfRows := rfl
    rw [Option.some.inj (hread.manifest.symm.trans hshelf)]
    exact hfree.apart path
  · exact (hreaches 5 ['v'] 0 shelfRows hview' rfl).2 hfree rfl () _ (rowMeta 9)
      List.mem_cons_self

/-- Over the rows `a` and `a/b` an enumeration ends without the file `a`. -/
theorem overlap_not_exact : lengthKeys.Clashless (oneView overlapRows) ∧
    (oneView overlapRows).Decoded ∧ oneTag.Readable ∧
    Runs.Along (Walks.next lengthKeys (oneView overlapRows)) (Move.Allowed (oneView overlapRows))
      { world := { app := oneTag } } (onePage 9) ∧
    ∃ walk, (oneRun overlapRows (onePage 9)).walks () = some walk ∧ walk.stage = .ended ∧
      walk.returned.map DirEntry.seen = [(['a'], 11, true, 4096)] ∧
      ¬ walk.Exact lengthKeys (oneView overlapRows) (oneRun overlapRows (onePage 9)) := by
  have hview : (oneRun overlapRows ((onePage 0).take 3)).world.server.ids.node 5 =
      some (.view ['v']) := by decide +kernel
  have hrun : ((oneRun overlapRows (onePage 9)).walks ()).map (fun walk =>
      (walk.stage.isEnded, walk.returned.map DirEntry.seen)) =
        some (true, [(['a'], 11, true, 4096)]) := by decide +kernel
  have hnode : (oneRun overlapRows (onePage 9)).world.server.ids.node 11 =
      some (.path 0 ['a']) := by decide +kernel
  obtain ⟨walk, hwalk, hlast⟩ := Option.map_eq_some_iff.mp hrun
  obtain ⟨hended, hreturned⟩ := Prod.mk.injEq .. ▸ hlast
  refine ⟨overlap_clashless, overlap_decoded, oneTag_readable,
    along_onePage overlap_clashless overlap_decoded hview 9, walk, hwalk,
    WalkStage.eq_ended hended, hreturned, fun hexact => ?_⟩
  obtain ⟨entry, rest, hentries, hseen, -⟩ := List.map_eq_cons_iff.mp hreturned
  simp only [DirEntry.seen, Prod.mk.injEq] at hseen
  obtain ⟨node, attr, hbound, hattr, -, hkind, -⟩ :=
    hexact.attrs entry (by rw [hentries]; exact List.mem_cons_self)
  rw [hseen.2.1, hnode] at hbound
  obtain rfl := Option.some.inj hbound
  -- The attributes under the id of the directory are those of the file.
  have hfile : Server.getattr (oneView overlapRows) (oneRun overlapRows (onePage 9)).world.app
      entry.fileId (.path 0 ['a']) = .ok (fileAttr entry.fileId 7 0) := rfl
  rw [hfile] at hattr
  rw [← Except.ok.inj hattr, hseen.2.2.1] at hkind
  cases hkind

end Nfs

end Datboi
