import Mathlib.Data.List.TakeWhile
import Datboi.Lib.Fields
import Datboi.Server.Nfs

/-!
# Handles, ids and the nodes they are for

A handle decodes to the plain id of its node and a note with the node's key, and distinct
nodes have distinct notes. The table of ids is a bijection however it grows. Everything that
lookups, listings and key maps come to is a node of the tree.
-/

namespace Datboi

open Catalog (Text)

namespace Nfs

/-- The nodes that a tree holds: its views, and for each row of a snapshot the file and the
directories on the way to it. -/
def Tree.Holds (tree : Tree) : Node → Prop
  | .root => True
  | .view name => name ∈ tree.views
  | .path snapshot path =>
    ∃ rows, tree.manifest snapshot = some rows ∧
      (path = [] ∨ ∃ row ∈ rows, row.1 = path ∨ (path ++ ['/']) <+: row.1)

/-- Distinct nodes have distinct keys. -/
def Keys.Distinct (keys : Keys) (tree : Tree) : Prop :=
  ∀ a b, tree.Holds a → tree.Holds b → ∀ key,
    keys.keyOf a 0 = some key → keys.keyOf b 0 = some key → a = b

/-! ## Handles -/

def Cold.key : Cold → NodeKey
  | .view key => key
  | .path _ key => key

namespace Keys

variable (keys : Keys)

/-- The fileid of a node that met no clash. -/
def plainId (node : Node) : FileId := ((keys.keyOf node 0).map idOfKey).getD rootId

/-- What is noted of a node's handle. -/
def note : Node → Option Cold
  | .root => none
  | .view name => some (.view (keys.viewKey name 0))
  | .path snapshot path => some (.path snapshot (keys.pathKey snapshot path 0))

end Keys

@[simp] theorem NodeKey.length_toBytes (key : NodeKey) : (NodeKey.toBytes key).length = 16 :=
  Wire.length_toLe 16 key.toNat

@[simp] theorem NodeKey.ofBytes_toBytes (key : NodeKey) :
    NodeKey.ofBytes (NodeKey.toBytes key) = key := by
  have hlt : key.toNat < 256 ^ 16 := by
    have := key.isLt
    omega
  rw [NodeKey.ofBytes, NodeKey.toBytes, Wire.ofLe_toLe hlt, BitVec.ofNat_toNat,
    BitVec.setWidth_eq]

variable {keys : Keys} {tree : Tree}

/-- Decoding is the inverse of encoding, as far as an id and a note go. -/
theorem decodeFh_handle (node : Node) :
    decodeFh (keys.handle node) = some (keys.plainId node, keys.note node) := by
  cases node with
  | root => rfl
  | view name =>
    simp [decodeFh, Keys.handle, Keys.plainId, Keys.note, Keys.keyOf, fhRoot, fhView]
  | path snapshot path =>
    have htake : (snapshot.toBytes ++ NodeKey.toBytes (keys.pathKey snapshot path 0)).take 32 =
        snapshot.toBytes := List.take_left' (Blake3.length_toBytes snapshot)
    have hdrop : (snapshot.toBytes ++ NodeKey.toBytes (keys.pathKey snapshot path 0)).drop 32 =
        NodeKey.toBytes (keys.pathKey snapshot path 0) :=
      List.drop_left' (Blake3.length_toBytes snapshot)
    simp [decodeFh, Keys.handle, Keys.plainId, Keys.note, Keys.keyOf, fhRoot, fhView, fhPath,
      htake, hdrop, Blake3.ofBytes_toBytes]

theorem of_decodeFh {node : Node} {id : FileId} {noted : Option Cold}
    (hdecode : decodeFh (keys.handle node) = some (id, noted)) :
    id = keys.plainId node ∧ noted = keys.note node := by
  rw [decodeFh_handle] at hdecode
  cases hdecode
  exact ⟨rfl, rfl⟩

theorem eq_root_of_note {node : Node} (hnote : none = keys.note node) : node = .root := by
  cases node with
  | root => rfl
  | view name => cases hnote
  | path snapshot path => cases hnote

theorem idToFh_eq_handle {table : IdTable} {id : FileId} {node : Node}
    (hbound : table.node id = some node) : idToFh keys table id = keys.handle node := by
  rw [idToFh, hbound]

theorem keyOf_of_note {node : Node} {cold : Cold} (hnote : keys.note node = some cold) :
    keys.keyOf node 0 = some cold.key := by
  cases node with
  | root => cases hnote
  | view name =>
    cases hnote
    rfl
  | path snapshot path =>
    cases hnote
    rfl

/-- A note names its node. -/
theorem Keys.Distinct.eq_of_note (hdistinct : keys.Distinct tree) {a b : Node}
    (ha : tree.Holds a) (hb : tree.Holds b) {cold : Cold} (hnote : keys.note a = some cold)
    (hnote' : keys.note b = some cold) : a = b :=
  hdistinct a b ha hb cold.key (keyOf_of_note hnote) (keyOf_of_note hnote')

/-! ## The table -/

namespace IdTable

variable {table table' : IdTable} {node : Node} {id : FileId}

/-- The two maps are inverse to each other. -/
def Bijective (table : IdTable) : Prop :=
  ∀ id node, table.byId.lookup id = some node ↔ table.byNode.lookup node = some id

/-- A later table binds what the earlier one binds, and besides that only these nodes. -/
structure Grows (nodes : Node → Prop) (table table' : IdTable) : Prop where
  old : ∀ id node, table.node id = some node → table'.node id = some node
  new : ∀ id node, table'.node id = some node → table.node id = some node ∨ nodes node

theorem Grows.refl (nodes : Node → Prop) (table : IdTable) : Grows nodes table table :=
  ⟨fun _ _ hbound => hbound, fun _ _ hbound => .inl hbound⟩

theorem Grows.trans {nodes : Node → Prop} {table'' : IdTable} (hfirst : Grows nodes table table')
    (hsecond : Grows nodes table' table'') : Grows nodes table table'' where
  old id node hbound := hsecond.old id node (hfirst.old id node hbound)
  new id node hbound := by
    rcases hsecond.new id node hbound with hmiddle | hnode
    · exact hfirst.new id node hmiddle
    · exact .inr hnode

theorem lookup_singleton {α β : Type} [DecidableEq α] {a b : α} {v w : β} :
    (AList.singleton a v : Dict α β).lookup b = some w ↔ b = a ∧ w = v := by
  rw [← AList.insert_empty]
  by_cases hkey : b = a
  · rw [hkey, AList.lookup_insert, Option.some.injEq]
    exact ⟨fun heq => ⟨rfl, heq.symm⟩, fun heq => heq.2.symm⟩
  · rw [AList.lookup_insert_ne hkey, AList.lookup_empty]
    exact ⟨fun hnone => (by cases hnone), fun heq => absurd heq.1 hkey⟩

theorem bijective_new : new.Bijective := by
  intro id node
  rw [new, lookup_singleton, lookup_singleton, and_comm]

theorem node_new {id : FileId} {node : Node} (hbound : new.node id = some node) :
    id = rootId ∧ node = .root := lookup_singleton.mp hbound

theorem Bijective.bind (hbijective : table.Bijective) (hid : table.byId.lookup id = none)
    (hnode : table.byNode.lookup node = none) : (table.bind id node).Bijective := by
  intro id' node'
  simp only [IdTable.bind]
  by_cases hsame : id' = id
  · subst hsame
    rw [AList.lookup_insert]
    by_cases hsame' : node' = node
    · subst hsame'
      simp [AList.lookup_insert]
    · rw [AList.lookup_insert_ne hsame', ← hbijective, hid]
      simp [Ne.symm hsame']
  · rw [AList.lookup_insert_ne hsame, hbijective]
    by_cases hsame' : node' = node
    · subst hsame'
      simp [AList.lookup_insert, hnode, Ne.symm hsame]
    · rw [AList.lookup_insert_ne hsame']

theorem grows_bind (hid : table.byId.lookup id = none) :
    Grows (· = node) table (table.bind id node) where
  old id' node' hbound := by
    have hne : id' ≠ id := by
      rintro rfl
      rw [IdTable.node, hid] at hbound
      cases hbound
    simpa [IdTable.node, IdTable.bind, AList.lookup_insert_ne hne] using hbound
  new id' node' hbound := by
    by_cases hsame : id' = id
    · subst hsame
      right
      simpa [IdTable.node, IdTable.bind, AList.lookup_insert, eq_comm] using hbound
    · left
      simpa [IdTable.node, IdTable.bind, AList.lookup_insert_ne hsame] using hbound

theorem clashes_of_probeFrom {fuel probe : Nat}
    (hprobe : probeFrom keys table node fuel probe = some id) : table.clashes id node = false := by
  induction fuel generalizing probe with
  | zero => cases hprobe
  | succ fuel ih =>
    rw [probeFrom] at hprobe
    split at hprobe
    · cases hprobe
    · split at hprobe
      · exact ih hprobe
      · rename_i hfree
        cases hprobe
        simpa using hfree

/-- Minting an id binds the node and nothing else. -/
theorem idFor_spec (hbijective : table.Bijective) (hroot : table.node rootId = some .root)
    (hrun : table.idFor keys node = some (id, table')) :
    table'.Bijective ∧ table'.node id = some node ∧ Grows (· = node) table table' := by
  unfold idFor at hrun
  split at hrun
  · rename_i hbound
    cases hrun
    exact ⟨hbijective, (hbijective _ _).mpr hbound, Grows.refl _ _⟩
  · rename_i hnode
    split at hrun
    · -- Only the root has no key, and the root is bound.
      rename_i hkey
      cases node with
      | root =>
        rw [(hbijective _ _).mp hroot] at hnode
        cases hnode
      | view name => cases hkey
      | path snapshot path => cases hkey
    · obtain ⟨free, hprobe, heq⟩ := Option.map_eq_some_iff.mp hrun
      cases heq
      have hid : table.byId.lookup id = none := by
        cases hheld : table.byId.lookup id with
        | none => rfl
        | some held =>
          have hclash := clashes_of_probeFrom hprobe
          simp only [clashes, hheld, bne_eq_false_iff_eq] at hclash
          subst hclash
          rw [(hbijective _ _).mp hheld] at hnode
          cases hnode
      exact ⟨hbijective.bind hid hnode, AList.lookup_insert _, grows_bind hid⟩

end IdTable

/-! ## The nodes of a tree -/

variable {path : Text}

theorem slash_prefix_of_mem_dirsOf {dir : Text} (hdir : dir ∈ dirsOf path) :
    (dir ++ ['/']) <+: path := by
  obtain ⟨cut, hcut, hslash⟩ := List.mem_filterMap.mp hdir
  split at hslash
  · rename_i hat
    cases hslash
    obtain ⟨hlt, hget⟩ := List.getElem?_eq_some_iff.mp hat
    rw [← hget, List.take_append_getElem hlt]
    exact List.take_prefix _ _
  · cases hslash

/-- The rows that start with a path and a slash. -/
theorem mem_of_isDir {idx : ViewIndex} (hdir : idx.isDir path = true) :
    path = [] ∨ ∃ row ∈ idx.rows, (path ++ ['/']) <+: row.1 := by
  simp only [ViewIndex.isDir, Bool.or_eq_true, List.isEmpty_iff, Option.any_eq_true] at hdir
  rcases hdir with hroot | ⟨row, hhead, hstart⟩
  · exact .inl hroot
  · refine .inr ⟨row, ?_, by simpa using hstart⟩
    exact (List.dropWhile_sublist _).subset (List.mem_of_mem_head? (Option.mem_def.mpr hhead))

theorem ViewIndex.mem_of_file {idx : ViewIndex} (hfile : (idx.file path).isSome) :
    ∃ row ∈ idx.rows, row.1 = path := by
  obtain ⟨found, hsome⟩ := Option.isSome_iff_exists.mp hfile
  obtain ⟨row, hfound, -⟩ := Option.map_eq_some_iff.mp hsome
  exact ⟨row, List.mem_of_find?_eq_some hfound, by simpa using List.find?_some hfound⟩

namespace Tree

variable {app : App} {snapshot : Blake3} {idx : ViewIndex}

theorem snapshotIndex_spec (hindex : tree.snapshotIndex app snapshot = .ok idx) :
    idx.snapshot = snapshot ∧ tree.manifest snapshot = some idx.rows := by
  unfold snapshotIndex at hindex
  split at hindex
  · rename_i rows hrows
    split at hindex
    · cases hindex
    · cases hindex
      exact ⟨rfl, hrows⟩
  · cases hindex

theorem viewIndex_spec {name : Text} (hindex : tree.viewIndex app name = .ok idx) :
    tree.manifest idx.snapshot = some idx.rows := by
  unfold viewIndex at hindex
  split at hindex
  · cases hindex
  split at hindex
  · split at hindex
    · obtain ⟨hsnapshot, hrows⟩ := snapshotIndex_spec hindex
      rwa [hsnapshot]
    · cases hindex
  · cases hindex

theorem mem_views_of_viewTags {views : List (Text × Blake3)}
    (htags : tree.viewTags app = .ok views) {name : Text} (hname : name ∈ views.map Prod.fst) :
    name ∈ tree.views := by
  unfold viewTags at htags
  split at htags
  · cases htags
  · cases htags
    obtain ⟨view, hview, rfl⟩ := List.mem_map.mp hname
    obtain ⟨tagged, htagged, hsome⟩ := List.mem_filterMap.mp hview
    obtain ⟨hash, -, rfl⟩ := Option.map_eq_some_iff.mp hsome
    exact htagged

theorem holds_of_file_or_dir (hrows : tree.manifest idx.snapshot = some idx.rows) {path : Text}
    (hthere : (idx.file path).isSome || idx.isDir path) : tree.Holds (.path idx.snapshot path) := by
  refine ⟨idx.rows, hrows, ?_⟩
  rcases Bool.or_eq_true _ _ ▸ hthere with hfile | hdir
  · obtain ⟨row, hrow, heq⟩ := ViewIndex.mem_of_file hfile
    exact .inr ⟨row, hrow, .inl heq⟩
  · rcases mem_of_isDir hdir with hroot | ⟨row, hrow, hstart⟩
    · exact .inl hroot
    · exact .inr ⟨row, hrow, .inr hstart⟩

/-- The way up stays inside the tree. -/
theorem Holds.parent {path parent rest : Text} (hholds : tree.Holds (.path snapshot path))
    (hsplit : path.rsplitOnce '/' = some (parent, rest)) :
    tree.Holds (.path snapshot parent) := by
  obtain ⟨rows, hrows, hpath⟩ := hholds
  obtain ⟨heq, -⟩ := Catalog.Text.rsplitOnce_eq_some.mp hsplit
  have hstart : (parent ++ ['/']) <+: path := ⟨rest, by rw [heq]; simp⟩
  refine ⟨rows, hrows, .inr ?_⟩
  rcases hpath with rfl | ⟨row, hrow, rfl | hbelow⟩
  · simp at heq
  · exact ⟨row, hrow, .inr hstart⟩
  · exact ⟨row, hrow, .inr (hstart.trans ((List.prefix_append _ _).trans hbelow))⟩

end Tree

theorem isPrefix_takeWhile_slash {rest : Text} (hslash : '/' ∈ rest) :
    (rest.takeWhile (· != '/') ++ ['/']) <+: rest := by
  induction rest with
  | nil => cases hslash
  | cons c rest ih =>
    by_cases hc : c = '/'
    · subst hc
      simp
    · have hrest : '/' ∈ rest := (List.mem_cons.mp hslash).resolve_left (Ne.symm hc)
      simpa [hc] using ih hrest

/-- What a listing collects lies below its rows. -/
theorem mem_foldl_add (n : Nat) (below : List (Text × RowMeta)) (out : ViewIndex.Listing) :
    (∀ dir ∈ (below.foldl (fun out row => out.add (row.1.drop n) row.2) out).dirs,
      dir ∈ out.dirs ∨ ∃ row ∈ below, (dir ++ ['/']) <+: row.1.drop n) ∧
    ∀ file ∈ (below.foldl (fun out row => out.add (row.1.drop n) row.2) out).files,
      file ∈ out.files ∨ ∃ row ∈ below, row.1.drop n = file.1 := by
  induction below generalizing out with
  | nil => exact ⟨fun _ hdir => .inl hdir, fun _ hfile => .inl hfile⟩
  | cons row rest ih =>
    rw [List.foldl_cons]
    obtain ⟨hdirs, hfiles⟩ := ih (out.add (row.1.drop n) row.2)
    constructor
    · intro dir hdir
      rcases hdirs dir hdir with hadded | ⟨other, hother, hstart⟩
      · unfold ViewIndex.Listing.add at hadded
        split at hadded
        · rename_i hslash
          simp only at hadded
          split at hadded
          · exact .inl hadded
          · rcases List.mem_append.mp hadded with hold | hnew
            · exact .inl hold
            · rw [List.mem_singleton.mp hnew]
              exact .inr ⟨row, List.mem_cons_self, isPrefix_takeWhile_slash hslash⟩
        · exact .inl hadded
      · exact .inr ⟨other, List.mem_cons_of_mem _ hother, hstart⟩
    · intro file hfile
      rcases hfiles file hfile with hadded | ⟨other, hother, heq⟩
      · unfold ViewIndex.Listing.add at hadded
        split at hadded
        · simp only at hadded
          split at hadded <;> exact .inl hadded
        · rcases List.mem_append.mp hadded with hold | hnew
          · exact .inl hold
          · rw [List.mem_singleton.mp hnew]
            exact .inr ⟨row, List.mem_cons_self, rfl⟩
      · exact .inr ⟨other, List.mem_cons_of_mem _ hother, heq⟩

theorem join_eq (path name : Text) : join path name = ViewIndex.startOf path ++ name := by
  unfold join ViewIndex.startOf
  split
  · rfl
  · simp

theorem mem_below {idx : ViewIndex} {row : Text × RowMeta} (hrow : row ∈ idx.below path) :
    row ∈ idx.rows ∧
      row.1 = ViewIndex.startOf path ++ row.1.drop (ViewIndex.startOf path).length := by
  have hstart : ViewIndex.startOf path <+: row.1 := by simpa using List.mem_takeWhile_imp hrow
  refine ⟨(List.dropWhile_sublist _).subset ((List.takeWhile_sublist _).subset hrow), ?_⟩
  exact (List.prefix_iff_eq_append.mp hstart).symm

theorem holds_of_mem_listingNodes {idx : ViewIndex} {path : Text}
    (hrows : tree.manifest idx.snapshot = some idx.rows) {child : Child}
    (hchild : child ∈ listingNodes idx path) : tree.Holds child.node := by
  obtain ⟨hdirs, hfiles⟩ :=
    mem_foldl_add (ViewIndex.startOf path).length (idx.below path) {}
  simp only [listingNodes, Rows.mem_sortBy, List.mem_append, List.mem_map] at hchild
  rcases hchild with ⟨dir, hdir, rfl⟩ | ⟨file, hfile, rfl⟩
  · refine ⟨idx.rows, hrows, .inr ?_⟩
    obtain hnone | ⟨row, hbelow, hstart⟩ := hdirs dir hdir
    · cases hnone
    · obtain ⟨hrow, heq⟩ := mem_below hbelow
      refine ⟨row, hrow, .inr ?_⟩
      rw [heq, join_eq, List.append_assoc]
      exact (List.prefix_append_right_inj _).mpr hstart
  · refine ⟨idx.rows, hrows, .inr ?_⟩
    obtain hnone | ⟨row, hbelow, hrest⟩ := hfiles file hfile
    · cases hnone
    · obtain ⟨hrow, heq⟩ := mem_below hbelow
      refine ⟨row, hrow, .inl ?_⟩
      rw [heq, join_eq, hrest]

theorem holds_of_mem_rootChildren {app : App} {children : List Child}
    (hrun : rootChildren tree app = .ok children) {child : Child} (hchild : child ∈ children) :
    tree.Holds child.node := by
  unfold rootChildren at hrun
  cases htags : tree.viewTags app with
  | error stat =>
    rw [htags] at hrun
    cases hrun
  | ok views =>
  rw [htags] at hrun
  replace hrun : (Rows.sortBy Prod.fst views).mapM (rootChild tree app) = .ok children := hrun
  have hviews : ∀ view ∈ Rows.sortBy Prod.fst views, view.1 ∈ tree.views := fun view hview =>
    Tree.mem_views_of_viewTags htags (List.mem_map_of_mem (Rows.mem_sortBy.mp hview))
  generalize Rows.sortBy Prod.fst views = sorted at hrun hviews
  induction sorted generalizing children with
  | nil =>
    cases hrun
    cases hchild
  | cons view rest ih =>
    obtain ⟨first, others, hfirst, hothers, rfl⟩ := Fields.mapM_cons_eq_ok.mp hrun
    rcases List.mem_cons.mp hchild with rfl | hother
    · unfold rootChild at hfirst
      cases hindex : tree.snapshotIndex app view.2 with
      | error stat =>
        rw [hindex] at hfirst
        cases hfirst
      | ok idx =>
        rw [hindex] at hfirst
        cases hfirst
        exact hviews view List.mem_cons_self
    · exact ih hother hothers fun view hview => hviews view (List.mem_cons_of_mem _ hview)

/-- Every key leads to the path it was derived from. -/
def Keyed (keys : Keys) (tree : Tree) (snapshot : Blake3) (found : Dict NodeKey Text) : Prop :=
  ∀ key path, found.lookup key = some path →
    tree.Holds (.path snapshot path) ∧ keys.pathKey snapshot path 0 = key

theorem Keyed.insert {snapshot : Blake3} {found : Dict NodeKey Text}
    (hkeyed : Keyed keys tree snapshot found) (hholds : tree.Holds (.path snapshot path)) :
    Keyed keys tree snapshot (found.insert (keys.pathKey snapshot path 0) path) := by
  intro key other hfound
  by_cases hkey : key = keys.pathKey snapshot path 0
  · subst hkey
    rw [AList.lookup_insert] at hfound
    cases hfound
    exact ⟨hholds, rfl⟩
  · rw [AList.lookup_insert_ne hkey] at hfound
    exact hkeyed key other hfound

theorem Keyed.keyRows {snapshot : Blake3} {rows : List (Text × RowMeta)}
    (hrows : tree.manifest snapshot = some rows) {paths : List Text}
    (hpaths : paths ⊆ rows.map Prod.fst) {found : Dict NodeKey Text} {prev : Text}
    (hkeyed : Keyed keys tree snapshot found) :
    Keyed keys tree snapshot (Nfs.keyRows keys snapshot found prev paths) := by
  induction paths generalizing found prev with
  | nil => exact hkeyed
  | cons path rest ih =>
    obtain ⟨hpath, hrest⟩ := List.cons_subset.mp hpaths
    obtain ⟨row, hrow, rfl⟩ := List.mem_map.mp hpath
    refine ih hrest (Keyed.insert ?_ ⟨rows, hrows, .inr ⟨row, hrow, .inl rfl⟩⟩)
    have hdirs : ∀ dir ∈ (dirsOf row.1).filter fun dir => !covered prev dir,
        tree.Holds (.path snapshot dir) := by
      intro dir hdir
      have hstart := slash_prefix_of_mem_dirsOf (List.mem_of_mem_filter hdir)
      exact ⟨rows, hrows, .inr ⟨row, hrow, .inr hstart⟩⟩
    generalize (dirsOf row.1).filter (fun dir => !covered prev dir) = dirs at hdirs
    induction dirs generalizing found with
    | nil => exact hkeyed
    | cons dir dirs ih =>
      rw [List.foldl_cons]
      exact ih (hkeyed.insert (hdirs dir List.mem_cons_self)) fun other hother =>
        hdirs other (List.mem_cons_of_mem dir hother)

end Nfs

end Datboi
