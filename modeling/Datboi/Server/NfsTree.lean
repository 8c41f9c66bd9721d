import Datboi.Catalog.Fitting
import Datboi.Core.ViewSnap
import Datboi.Lib.PrefixRange
import Datboi.Server.NfsNodes

/-!
# The directories of a snapshot

The rows of a manifest that decodes are sorted, and no component of their paths is empty, `.`
or `..`. A name in a directory is a file if a row has its path, and a directory if a row lies
below it; nothing keeps it from being both. The listing of a directory has each file and each
directory in it once, and the index finds them by their paths.
-/

namespace Datboi

open Catalog (Text)

namespace Nfs

/-- The rows of a decoded manifest, keyed by path. -/
def manifestRows (snap : ViewSnapshot) : List (Text × RowMeta) :=
  snap.rows.map fun row => (row.path.toList, ⟨row.hash, row.size.toNat⟩)

/-- Each manifest is what some object decodes to. -/
def Tree.Decoded (tree : Tree) : Prop :=
  ∀ snapshot rows, tree.manifest snapshot = some rows →
    ∃ bytes snap, ViewSnapshot.decode bytes = .ok snap ∧ rows = manifestRows snap

/-- What decoding checks of the rows. -/
structure Manifest (rows : List (Text × RowMeta)) : Prop where
  sorted : PrefixRange.Sorted rows
  canonical : ∀ row ∈ rows, ∀ component ∈ Text.components row.1,
    component ≠ [] ∧ component ≠ ['.'] ∧ component ≠ ['.', '.']

/-- A row with the path of a name in a directory. -/
def IsFile (rows : List (Text × RowMeta)) (path name : Text) (row : RowMeta) : Prop :=
  '/' ∉ name ∧ (join path name, row) ∈ rows

/-- A row below a name in a directory. -/
def IsSubdir (rows : List (Text × RowMeta)) (path name : Text) : Prop :=
  '/' ∉ name ∧ ∃ row ∈ rows, (join path name ++ ['/']) <+: row.1

/-- No row's path is a directory on the way to another row. -/
def PrefixFree (rows : List (Text × RowMeta)) : Prop :=
  ∀ row ∈ rows, ∀ other ∈ rows, ¬ (row.1 ++ ['/']) <+: other.1

/-- No name in the directory is a file and a directory. -/
def Apart (rows : List (Text × RowMeta)) (path : Text) : Prop :=
  ∀ name row, IsSubdir rows path name → ¬ IsFile rows path name row

theorem PrefixFree.apart {rows : List (Text × RowMeta)} (hfree : PrefixFree rows) (path : Text) :
    Apart rows path := by
  rintro name row ⟨-, below, hbelow, hstart⟩ ⟨-, hrow⟩
  exact hfree _ hrow below hbelow hstart

/-! ## Decoded manifests -/

theorem Manifest.of_decode {bytes : Bytes} {snap : ViewSnapshot}
    (hdecode : ViewSnapshot.decode bytes = .ok snap) : Manifest (manifestRows snap) := by
  obtain ⟨hwindows, hrows⟩ : Rows.windowsAny (fun a b => b.path ≤ a.path) snap.rows = false ∧
      (snap.rows.any fun row => ¬ ViewSnap.pathIsCanonical row.path ∨ 2 < row.seek) = false := by
    unfold ViewSnapshot.decode at hdecode
    split at hdecode
    · cases hdecode
    split at hdecode
    · cases hdecode
    split at hdecode
    · cases hdecode
    obtain ⟨map, -, hdecode⟩ := Decoding.bind_eq_ok.mp hdecode
    split at hdecode
    · obtain ⟨payload, -, hdecode⟩ := Decoding.bind_eq_ok.mp hdecode
      split at hdecode
      · cases hdecode
      rename_i hwindows
      split at hdecode
      · cases hdecode
      rename_i hrows
      cases hdecode
      exact ⟨Bool.not_eq_true _ ▸ hwindows, Bool.not_eq_true _ ▸ hrows⟩
    · cases hdecode
  constructor
  · rw [PrefixRange.Sorted, manifestRows, List.pairwise_map]
    exact (Rows.windowsAny_le_eq_false.mp hwindows).imp fun hlt => String.lt_iff_toList_lt.mp hlt
  · intro row hrow component hcomponent
    obtain ⟨source, hsource, rfl⟩ := List.mem_map.mp hrow
    have hcheck := List.any_eq_false.mp hrows source hsource
    simp only [not_or, decide_eq_true_eq, not_not, ViewSnap.pathIsCanonical, Bool.and_eq_true,
      List.all_eq_true] at hcheck
    simpa [and_assoc] using hcheck.1.2 component hcomponent

theorem Tree.Decoded.manifest {tree : Tree} (hdecoded : tree.Decoded) {snapshot : Blake3}
    {rows : List (Text × RowMeta)} (hrows : tree.manifest snapshot = some rows) :
    Manifest rows := by
  obtain ⟨bytes, snap, hdecode, rfl⟩ := hdecoded snapshot rows hrows
  exact Manifest.of_decode hdecode

/-! ## Names in a directory -/

theorem join_append_slash (path name : Text) :
    join path name ++ ['/'] = ViewIndex.startOf path ++ (name ++ ['/']) := by
  rw [join_eq, List.append_assoc]

theorem join_inj {path name other : Text} : join path name = join path other ↔ name = other := by
  rw [join_eq, join_eq, List.append_cancel_left_eq]

/-- A name in a directory is a component of the paths through it. -/
theorem mem_components_of_isPrefix {path name text : Text} (hname : '/' ∉ name)
    (hstart : join path name = text ∨ (join path name ++ ['/']) <+: text) :
    name ∈ Text.components text := by
  have hlast : name ∈ Text.components (join path name) := by
    unfold join
    split
    · rw [Text.components_of_notMem hname]
      exact List.mem_singleton_self name
    · rw [Text.components_slash, Text.components_of_notMem hname]
      exact List.mem_append_right _ (List.mem_singleton_self name)
  rcases hstart with rfl | ⟨rest, rfl⟩
  · exact hlast
  · rw [List.append_assoc, List.singleton_append, Text.components_slash]
    exact List.mem_append_left _ hlast

/-- The name of a child. -/
def IsChildName (rows : List (Text × RowMeta)) (path name : Text) : Prop :=
  IsSubdir rows path name ∨ ∃ row, IsFile rows path name row

theorem Manifest.name_ne {rows : List (Text × RowMeta)} (hmanifest : Manifest rows)
    {path name : Text} (hchild : IsChildName rows path name) :
    name ≠ [] ∧ name ≠ ['.'] ∧ name ≠ ['.', '.'] := by
  rcases hchild with ⟨hname, row, hrow, hstart⟩ | ⟨row, hname, hrow⟩
  · exact hmanifest.canonical row hrow name (mem_components_of_isPrefix hname (.inr hstart))
  · exact hmanifest.canonical _ hrow name (mem_components_of_isPrefix hname (.inl rfl))

theorem join_ne_nil {path name : Text} (hname : name ≠ []) : join path name ≠ [] := by
  unfold join
  split
  · exact hname
  · simp

/-- Going down a directory adds its name and a slash. -/
theorem startOf_join {path name : Text} (hname : name ≠ []) :
    ViewIndex.startOf (join path name) = join path name ++ ['/'] := by
  unfold ViewIndex.startOf
  rw [if_neg]
  simpa using join_ne_nil hname

/-! ## The index -/

namespace ViewIndex

variable {idx : ViewIndex} {path name : Text}

theorem file_eq_some {row : RowMeta} (hsorted : PrefixRange.Sorted idx.rows)
    (hrow : (path, row) ∈ idx.rows) : idx.file path = some row := by
  rw [file, PrefixRange.find?_eq_some hsorted hrow]
  rfl

theorem isDir_iff (hsorted : PrefixRange.Sorted idx.rows) :
    idx.isDir path = true ↔ path = [] ∨ ∃ row ∈ idx.rows, (path ++ ['/']) <+: row.1 := by
  rw [isDir, Bool.or_eq_true, PrefixRange.head?_any_eq_true hsorted, List.isEmpty_iff]

theorem below_eq (hsorted : PrefixRange.Sorted idx.rows) :
    idx.below path = idx.rows.filter fun row => (startOf path).isPrefixOf row.1 := by
  rw [below, PrefixRange.scan_eq_filter hsorted]

/-! ### Collecting children -/

/-- The first component of a text with a slash in it. -/
theorem head_eq_of_isPrefix {dir rest : Text} (hdir : '/' ∉ dir)
    (hstart : (dir ++ ['/']) <+: rest) : '/' ∈ rest ∧ rest.takeWhile (· != '/') = dir := by
  obtain ⟨tail, rfl⟩ := hstart
  refine ⟨by simp, ?_⟩
  rw [List.append_assoc, List.takeWhile_append_of_pos, List.singleton_append,
    List.takeWhile_cons_of_neg (by simp), List.append_nil]
  intro c hc
  simpa using ne_of_mem_of_not_mem hc hdir

theorem slash_notMem_head (rest : Text) : '/' ∉ rest.takeWhile (· != '/') := by
  intro hslash
  simpa using List.mem_takeWhile_imp hslash

/-- Rows between two of one subdirectory are in it too. -/
theorem head_eq_of_lt_of_lt {x y z : Text} (hx : '/' ∈ x) (hz : '/' ∈ z)
    (hsame : x.takeWhile (· != '/') = z.takeWhile (· != '/')) (hxy : x < y) (hyz : y < z) :
    '/' ∈ y ∧ y.takeWhile (· != '/') = z.takeWhile (· != '/') := by
  have hz' := isPrefix_takeWhile_slash hz
  have hx' := isPrefix_takeWhile_slash hx
  rw [hsame] at hx'
  exact head_eq_of_isPrefix (slash_notMem_head z)
    (PrefixRange.isPrefix_of_lt_of_lt hx' hxy hyz hz')

/-- What the rows below a directory add up to. -/
def collect (out : Listing) (entries : List (Text × RowMeta)) : Listing :=
  entries.foldl (fun out entry => out.add entry.1 entry.2) out

theorem files_collect (out : Listing) (entries : List (Text × RowMeta)) :
    (collect out entries).files = out.files ++ entries.filter fun entry => '/' ∉ entry.1 := by
  induction entries generalizing out with
  | nil => simp [collect]
  | cons entry entries ih =>
    rw [collect, List.foldl_cons, ← collect, ih]
    unfold Listing.add
    split
    · rename_i hslash
      rw [List.filter_cons_of_neg (by simpa using hslash)]
      dsimp only
      split <;> rfl
    · rename_i hslash
      rw [List.filter_cons_of_pos (by simpa using hslash), List.append_assoc,
        List.singleton_append]

variable {row : RowMeta} {out : Listing}

theorem mem_dirs_add {rest dir : Text} :
    dir ∈ (out.add rest row).dirs ↔
      dir ∈ out.dirs ∨ ('/' ∈ rest ∧ dir = rest.takeWhile (· != '/')) := by
  unfold Listing.add
  split
  · rename_i hslash
    dsimp only
    split
    · rename_i hlast
      constructor
      · exact .inl
      · rintro (hdir | ⟨-, rfl⟩)
        · exact hdir
        · exact List.mem_of_getLast? hlast
    · simp [hslash]
  · rename_i hslash
    simp [hslash]

theorem mem_dirs_collect {entries : List (Text × RowMeta)} {dir : Text} :
    dir ∈ (collect out entries).dirs ↔ dir ∈ out.dirs ∨
      ∃ entry ∈ entries, '/' ∈ entry.1 ∧ dir = entry.1.takeWhile (· != '/') := by
  induction entries generalizing out with
  | nil => simp [collect]
  | cons entry entries ih =>
    rw [collect, List.foldl_cons, ← collect, ih, mem_dirs_add, or_assoc]
    simp

/-- A subdirectory is compared with the one before only; that is enough, since its rows are
next to each other. -/
theorem nodup_dirs_collect {entries : List (Text × RowMeta)}
    (hsorted : PrefixRange.Sorted entries) (hnodup : out.dirs.Nodup)
    (hearlier : ∀ dir ∈ out.dirs.dropLast, ∀ entry ∈ entries, '/' ∈ entry.1 →
      entry.1.takeWhile (· != '/') ≠ dir)
    (hlast : ∀ dir, out.dirs.getLast? = some dir → ∃ x, '/' ∈ x ∧ x.takeWhile (· != '/') = dir ∧
      ∀ entry ∈ entries, x < entry.1) : (collect out entries).dirs.Nodup := by
  induction entries generalizing out with
  | nil => exact hnodup
  | cons entry entries ih =>
    rw [collect, List.foldl_cons, ← collect]
    have hearlier' : ∀ dir ∈ out.dirs.dropLast, ∀ other ∈ entries, '/' ∈ other.1 →
        other.1.takeWhile (· != '/') ≠ dir := fun dir hdir other hother =>
      hearlier dir hdir other (List.mem_cons_of_mem _ hother)
    have hlast' : ∀ dir, out.dirs.getLast? = some dir → ∃ x, '/' ∈ x ∧
        x.takeWhile (· != '/') = dir ∧ ∀ other ∈ entries, x < other.1 := by
      intro dir hdir
      obtain ⟨x, hx, hhead, hlt⟩ := hlast dir hdir
      exact ⟨x, hx, hhead, fun other hother => hlt other (List.mem_cons_of_mem _ hother)⟩
    unfold Listing.add
    split
    · rename_i hslash
      dsimp only
      split
      · exact ih hsorted.tail hnodup hearlier' hlast'
      · rename_i hnew
        -- A name from before the last cannot come back, and it is not the last one.
        have hsplit : ∀ dir ∈ out.dirs, dir ∈ out.dirs.dropLast ∨
            out.dirs.getLast? = some dir := by
          intro dir hdir
          have hne := List.ne_nil_of_mem hdir
          rw [List.getLast?_eq_some_getLast hne, Option.some.injEq]
          rw [← List.dropLast_append_getLast hne, List.mem_append, List.mem_singleton] at hdir
          exact hdir.imp_right Eq.symm
        refine ih hsorted.tail ?_ ?_ ?_
        · refine List.nodup_append.mpr ⟨hnodup, List.nodup_singleton _, ?_⟩
          rintro dir hdir other hother rfl
          rw [List.mem_singleton] at hother
          rcases hsplit dir hdir with hold | hget
          · exact hearlier dir hold entry List.mem_cons_self hslash hother.symm
          · exact hnew (hother ▸ hget)
        · intro dir hdir other hother hother' heq
          rw [List.dropLast_concat] at hdir
          rcases hsplit dir hdir with hold | hget
          · exact hearlier' dir hold other hother hother' heq
          · obtain ⟨x, hx, hhead, hlt⟩ := hlast dir hget
            obtain ⟨-, hbetween⟩ := head_eq_of_lt_of_lt hx hother' (hhead.trans heq.symm)
              (hlt entry List.mem_cons_self) (hsorted.lt hother)
            rw [hbetween, heq] at hnew
            exact hnew hget
        · intro dir hdir
          rw [List.getLast?_concat, Option.some.injEq] at hdir
          exact ⟨entry.1, hslash, hdir, fun other hother => hsorted.lt hother⟩
    · exact ih hsorted.tail hnodup hearlier' hlast'

theorem length_add_le (out : Listing) (rest : Text) (row : RowMeta) :
    (out.add rest row).dirs.length + (out.add rest row).files.length ≤
      out.dirs.length + out.files.length + 1 := by
  unfold Listing.add
  split
  · dsimp only
    split
    · omega
    · dsimp only
      rw [List.length_append, List.length_singleton]
      omega
  · dsimp only
    rw [List.length_append, List.length_singleton]
    omega

theorem length_collect_le (out : Listing) (entries : List (Text × RowMeta)) :
    (collect out entries).dirs.length + (collect out entries).files.length ≤
      out.dirs.length + out.files.length + entries.length := by
  induction entries generalizing out with
  | nil => simp [collect]
  | cons entry entries ih =>
    have hfirst := length_add_le out entry.1 entry.2
    have hrest := ih (out.add entry.1 entry.2)
    rw [collect, List.foldl_cons, ← collect, List.length_cons]
    omega

/-! ### The listing of a directory -/

/-- The rows below a directory, without what they all start with. -/
def entriesBelow (idx : ViewIndex) (path : Text) : List (Text × RowMeta) :=
  (idx.below path).map fun row => (row.1.drop (startOf path).length, row.2)

theorem list_eq (idx : ViewIndex) (path : Text) :
    idx.list path = collect {} (idx.entriesBelow path) := by
  rw [list, collect, entriesBelow, List.foldl_map]

section

variable (hsorted : PrefixRange.Sorted idx.rows)

include hsorted

theorem mem_entriesBelow {rest : Text} :
    (rest, row) ∈ idx.entriesBelow path ↔ (startOf path ++ rest, row) ∈ idx.rows := by
  rw [entriesBelow, below_eq hsorted, List.mem_map]
  constructor
  · rintro ⟨full, hfull, heq⟩
    cases heq
    obtain ⟨hmem, hstart⟩ := List.mem_filter.mp hfull
    have hstart' := List.isPrefixOf_iff_prefix.mp hstart
    rwa [List.prefix_iff_eq_append.mp hstart']
  · intro hmem
    refine ⟨_, List.mem_filter.mpr ⟨hmem, ?_⟩, by simp⟩
    exact List.isPrefixOf_iff_prefix.mpr (List.prefix_append _ _)

theorem sorted_entriesBelow : PrefixRange.Sorted (idx.entriesBelow path) := by
  rw [PrefixRange.Sorted, entriesBelow, List.pairwise_map, below_eq hsorted]
  refine List.Pairwise.imp_of_mem ?_ (hsorted.filter _)
  intro a b ha hb hlt
  have ha' := List.isPrefixOf_iff_prefix.mp (List.mem_filter.mp ha).2
  have hb' := List.isPrefixOf_iff_prefix.mp (List.mem_filter.mp hb).2
  rw [← List.prefix_iff_eq_append.mp ha', ← List.prefix_iff_eq_append.mp hb',
    PrefixRange.append_lt_append_iff] at hlt
  exact hlt

theorem mem_files : (name, row) ∈ (idx.list path).files ↔ IsFile idx.rows path name row := by
  rw [list_eq, files_collect, List.nil_append, List.mem_filter, mem_entriesBelow hsorted,
    IsFile, join_eq, and_comm]
  simp

theorem mem_dirs : name ∈ (idx.list path).dirs ↔ IsSubdir idx.rows path name := by
  rw [list_eq, mem_dirs_collect, IsSubdir, join_append_slash]
  constructor
  · rintro (hnone | ⟨⟨rest, row⟩, hentry, hslash, rfl⟩)
    · cases hnone
    · refine ⟨slash_notMem_head rest, _, (mem_entriesBelow hsorted).mp hentry, ?_⟩
      exact (List.prefix_append_right_inj _).mpr (isPrefix_takeWhile_slash hslash)
  · rintro ⟨hname, row, hrow, tail, htail⟩
    rw [List.append_assoc] at htail
    obtain ⟨hslash, hhead⟩ := @head_eq_of_isPrefix _ (name ++ ['/'] ++ tail) hname
      (List.prefix_append _ _)
    refine .inr ⟨(name ++ ['/'] ++ tail, row.2), (mem_entriesBelow hsorted).mpr ?_, hslash,
      hhead.symm⟩
    rw [htail]
    exact hrow

end

theorem nodup_dirs (hsorted : PrefixRange.Sorted idx.rows) : (idx.list path).dirs.Nodup := by
  rw [list_eq]
  exact nodup_dirs_collect (sorted_entriesBelow hsorted) List.nodup_nil nofun nofun

theorem nodup_files (hsorted : PrefixRange.Sorted idx.rows) :
    ((idx.list path).files.map Prod.fst).Nodup := by
  rw [list_eq, files_collect, List.nil_append, List.Nodup, List.pairwise_map]
  exact ((sorted_entriesBelow hsorted).filter _).imp fun hlt => hlt.ne

theorem length_list_le (hsorted : PrefixRange.Sorted idx.rows) :
    (idx.list path).dirs.length + (idx.list path).files.length ≤ idx.rows.length := by
  rw [list_eq]
  refine (length_collect_le {} _).trans ?_
  rw [entriesBelow, List.length_map, below_eq hsorted]
  simpa using List.length_filter_le _ _

end ViewIndex

/-! ## What a listing shows -/

variable {keys : Keys} {snapshot : Blake3} {rows : List (Text × RowMeta)} {path name : Text}

/-- Name, fileid, kind and size of a child. -/
abbrev Seen := Text × FileId × Bool × Nat

def Child.seen (keys : Keys) (child : Child) : Seen :=
  (child.name, keys.plainId child.node, child.isDir, child.size)

/-- The children of a directory as they are shown, in the order of their names. -/
def childrenSeen (keys : Keys) (snapshot : Blake3) (rows : List (Text × RowMeta)) (path : Text) :
    List Seen :=
  let listing := ViewIndex.list ⟨snapshot, rows, 0⟩ path
  Rows.sortBy Prod.fst
    (listing.dirs.map (fun dir => (dir, keys.plainId (.path snapshot (join path dir)), true, 4096))
      ++ listing.files.map fun file =>
        (file.1, keys.plainId (.path snapshot (join path file.1)), false, file.2.size))

/-- The time of a snapshot does not show. -/
theorem seen_listingNodes (createdAt : Nat) :
    (listingNodes ⟨snapshot, rows, createdAt⟩ path).map (Child.seen keys) =
      childrenSeen keys snapshot rows path := by
  rw [listingNodes, childrenSeen]
  dsimp only
  rw [@Rows.map_sortBy Child Seen Text _ Child.name _ (Child.seen keys) Prod.fst fun _ => rfl,
    List.map_append, List.map_map, List.map_map]
  rfl

theorem mem_childrenSeen (hsorted : PrefixRange.Sorted rows) {seen : Seen} :
    seen ∈ childrenSeen keys snapshot rows path ↔
      seen.2.1 = keys.plainId (.path snapshot (join path seen.1)) ∧
        ((seen.2.2 = (true, 4096) ∧ IsSubdir rows path seen.1) ∨
          ∃ row, seen.2.2 = (false, row.size) ∧ IsFile rows path seen.1 row) := by
  obtain ⟨name, id, isDir, size⟩ := seen
  have hdirs : ∀ name, name ∈ (ViewIndex.list ⟨snapshot, rows, 0⟩ path).dirs ↔
      IsSubdir rows path name := fun name => ViewIndex.mem_dirs hsorted
  have hfiles : ∀ name row, (name, row) ∈ (ViewIndex.list ⟨snapshot, rows, 0⟩ path).files ↔
      IsFile rows path name row := fun name row => ViewIndex.mem_files hsorted
  simp only [childrenSeen, Rows.mem_sortBy, List.mem_append, List.mem_map, Prod.mk.injEq]
  constructor
  · rintro (⟨dir, hdir, rfl, rfl, rfl, rfl⟩ | ⟨⟨file, row⟩, hfile, rfl, rfl, rfl, rfl⟩)
    · exact ⟨rfl, .inl ⟨⟨rfl, rfl⟩, (hdirs dir).mp hdir⟩⟩
    · exact ⟨rfl, .inr ⟨row, ⟨rfl, rfl⟩, (hfiles file row).mp hfile⟩⟩
  · rintro ⟨rfl, ⟨⟨rfl, rfl⟩, hdir⟩ | ⟨row, ⟨rfl, rfl⟩, hfile⟩⟩
    · exact .inl ⟨name, (hdirs name).mpr hdir, rfl, rfl, rfl, rfl⟩
    · exact .inr ⟨(name, row), (hfiles name row).mpr hfile, rfl, rfl, rfl, rfl⟩

/-- Without a name for both a file and a directory, the names of a listing are distinct. -/
theorem nodup_names (hsorted : PrefixRange.Sorted rows) (hapart : Apart rows path) :
    ((childrenSeen keys snapshot rows path).map Prod.fst).Nodup := by
  have hdirs := @ViewIndex.nodup_dirs ⟨snapshot, rows, 0⟩ path hsorted
  have hfiles := @ViewIndex.nodup_files ⟨snapshot, rows, 0⟩ path hsorted
  rw [childrenSeen, ((Rows.perm_sortBy _ _).map _).nodup_iff, List.map_append, List.map_map,
    List.map_map, List.nodup_append]
  refine ⟨?_, ?_, ?_⟩
  · simpa [Function.comp_def] using hdirs
  · simpa [Function.comp_def] using hfiles
  · intro name hdir other hfile hsame
    subst hsame
    obtain ⟨dir, hdir, hname⟩ := List.mem_map.mp hdir
    obtain ⟨⟨file, row⟩, hfile, hname'⟩ := List.mem_map.mp hfile
    replace hname : dir = name := hname
    replace hname' : file = name := hname'
    rw [hname] at hdir
    rw [hname'] at hfile
    exact hapart name row ((ViewIndex.mem_dirs hsorted).mp hdir)
      ((ViewIndex.mem_files hsorted).mp hfile)

theorem length_childrenSeen_le (hsorted : PrefixRange.Sorted rows) :
    (childrenSeen keys snapshot rows path).length ≤ rows.length := by
  rw [childrenSeen, Rows.length_sortBy, List.length_append, List.length_map, List.length_map]
  exact @ViewIndex.length_list_le ⟨snapshot, rows, 0⟩ path hsorted

end Nfs

end Datboi
