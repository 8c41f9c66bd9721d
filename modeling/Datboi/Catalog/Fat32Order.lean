import Datboi.Catalog.Fat32Tree
import Mathlib.Data.List.Induction

/-!
# The order of the directories of an image

Directories are listed as they are created. Files come sorted by path, but a character below
the separator sorts a longer directory before the files of a shorter one: the list is in the
order of the paths exactly if no directory continues another's path with such a character.
-/

namespace Datboi.Catalog

namespace Fat32

/-! ## The order of texts -/

section Texts

variable {a b d p r s : Text}

theorem lt_append_cons (a : Text) (c : Char) (rest : Text) : a < a ++ c :: rest := by
  have hnil : ([] : Text) < c :: rest := List.nil_lt_cons c rest
  have happend := @List.append_left_lt _ _ a _ _ hnil
  rwa [List.append_nil] at happend

/-- A lesser text is a beginning of the greater one, or they differ first in a character. -/
theorem lt_cases (hlt : a < b) : (∃ c rest, b = a ++ c :: rest) ∨
    ∃ common x y r s, a = common ++ x :: r ∧ b = common ++ y :: s ∧ x < y := by
  induction a generalizing b with
  | nil =>
    cases b with
    | nil => exact absurd hlt (lt_irrefl _)
    | cons c rest => exact Or.inl ⟨c, rest, rfl⟩
  | cons x r ih =>
    cases b with
    | nil => exact absurd hlt (List.not_lt_nil _)
    | cons y s =>
      rcases List.cons_lt_cons_iff.mp hlt with hxy | ⟨rfl, hrest⟩
      · exact Or.inr ⟨[], x, y, r, s, rfl, rfl, hxy⟩
      · rcases ih hrest with ⟨c, rest, rfl⟩ | ⟨common, x', y', r', s', rfl, rfl, hless⟩
        · exact Or.inl ⟨c, rest, rfl⟩
        · exact Or.inr ⟨x :: common, x', y', r', s', rfl, rfl, hless⟩

theorem lt_of_differ {common : Text} {x y : Char} (hlt : x < y) :
    common ++ x :: r < common ++ y :: s :=
  List.append_left_lt (List.cons_lt_cons_iff.mpr (Or.inl hlt))

/-- Files of two directories in order put the directories in order, unless one is above the
other or continues it below the separator. -/
theorem lt_of_files (hfiles : d ++ '/' :: r < p ++ '/' :: s) (hne : d ≠ p)
    (habove : ∀ rest, d ≠ p ++ '/' :: rest) :
    d < p ∨ ∃ c rest, c < '/' ∧ d = p ++ c :: rest := by
  rcases lt_trichotomy d p with hlt | heq | hgt
  · exact Or.inl hlt
  · exact absurd heq hne
  · rcases lt_cases hgt with ⟨c, rest, rfl⟩ | ⟨common, x, y, r', s', rfl, rfl, hxy⟩
    · rcases lt_trichotomy c '/' with hc | rfl | hc
      · exact Or.inr ⟨c, rest, hc, rfl⟩
      · exact absurd rfl (habove rest)
      · -- The directory's files would come after those of the one it continues.
        rw [List.append_assoc, List.cons_append] at hfiles
        exact absurd hfiles (lt_asymm (lt_of_differ hc))
    · rw [List.append_assoc, List.append_assoc, List.cons_append, List.cons_append] at hfiles
      exact absurd hfiles (lt_asymm (lt_of_differ hxy))

theorem le_joinPath (here name : Text) : here ≤ joinPath here name := by
  unfold joinPath
  split
  · rename_i hnil
    rw [hnil]
    exact not_lt.mp (List.not_lt_nil _)
  · exact (lt_append_cons _ _ _).le

theorem lt_joinPath {here name : Text} (hname : name ≠ []) : here < joinPath here name := by
  unfold joinPath
  split
  · rename_i hnil
    obtain ⟨c, rest, rfl⟩ := List.exists_cons_of_ne_nil hname
    rw [hnil]
    exact List.nil_lt_cons _ _
  · exact lt_append_cons _ _ _

end Texts

/-! ## Directories as they are created -/

section Made

variable {fold : CaseFold} {nodes nodes' : List Node} {here dir : Text}

theorem isDir_append_eq_false {more : List Node} {path : Text}
    (hmissing : isDir (nodes ++ more) path = false) : isDir nodes path = false := by
  rw [Bool.eq_false_iff] at hmissing ⊢
  intro hthere
  refine hmissing (isDir_eq_true.mpr ?_)
  rcases isDir_eq_true.mp hthere with hnil | ⟨node, hnode, hkind⟩
  · exact Or.inl hnil
  · exact Or.inr ⟨node, List.mem_append_left _ hnode, hkind⟩

/-- Each missing ancestor is created after the ones above it. -/
theorem createDirs_made {comps : List Text}
    (hrun : createDirs fold nodes here comps = .ok (nodes', dir)) :
    ∃ made, nodes' = nodes ++ made ∧
      (∀ node ∈ made, node.kind = .dir ∧ here < node.path ∧ isDir nodes node.path = false) ∧
      (made.map Node.path).Pairwise (· < ·) := by
  induction comps generalizing nodes here with
  | nil =>
    cases hrun
    exact ⟨[], (List.append_nil _).symm, List.forall_mem_nil _, List.Pairwise.nil⟩
  | cons comp rest ih =>
    rw [createDirs] at hrun
    split at hrun
    · obtain ⟨made, hmade, hnew, hsorted⟩ := ih hrun
      refine ⟨made, hmade, fun node hnode => ?_, hsorted⟩
      obtain ⟨hkind, hlt, hmissing⟩ := hnew node hnode
      exact ⟨hkind, (le_joinPath here comp).trans_lt hlt, hmissing⟩
    · rename_i hmissing
      split at hrun
      · cases hrun
      · rename_i hlegal
        have hcomp : comp ≠ [] := (isName_of_legal (by simpa using hlegal)).1
        split at hrun
        · cases hrun
        · split at hrun
          · cases hrun
          · obtain ⟨made, hmade, hnew, hsorted⟩ := ih hrun
            refine ⟨⟨here, comp, .dir⟩ :: made, ?_, ?_, ?_⟩
            · rw [hmade, List.append_assoc, List.singleton_append]
            · intro node hnode
              rcases List.mem_cons.mp hnode with rfl | hnode
              · exact ⟨rfl, lt_joinPath hcomp, Bool.eq_false_iff.mpr hmissing⟩
              · obtain ⟨hkind, hlt, hlater⟩ := hnew node hnode
                exact ⟨hkind, (le_joinPath here comp).trans_lt hlt,
                  isDir_append_eq_false hlater⟩
            · rw [List.map_cons, List.pairwise_cons]
              refine ⟨fun path hpath => ?_, hsorted⟩
              obtain ⟨node, hnode, rfl⟩ := List.mem_map.mp hpath
              exact (hnew node hnode).2.1

theorem dirPaths_append (nodes made : List Node) : (dirPaths (nodes ++ made)).tail =
    (dirPaths nodes).tail ++ (dirPaths made).tail := by
  simp [dirPaths]

theorem dirPaths_of_dirs {made : List Node} (hmade : ∀ node ∈ made, node.kind = .dir) :
    (dirPaths made).tail = made.map Node.path := by
  have hall : (made.filter fun node => node.kind = .dir) = made :=
    List.filter_eq_self.mpr fun node hnode => decide_eq_true (hmade node hnode)
  rw [dirPaths, List.tail_cons, hall]

theorem ensureDir_made {path : Text} (hrun : ensureDir fold nodes path = .ok (nodes', dir)) :
    ∃ made, (dirPaths nodes').tail = (dirPaths nodes).tail ++ made ∧
      (∀ path ∈ made, isDir nodes path = false) ∧ made.Pairwise (· < ·) := by
  unfold ensureDir at hrun
  split at hrun
  · cases hrun
    exact ⟨[], (List.append_nil _).symm, List.forall_mem_nil _, List.Pairwise.nil⟩
  · obtain ⟨made, rfl, hnew, hsorted⟩ := createDirs_made hrun
    refine ⟨made.map Node.path, ?_, fun path hpath => ?_, hsorted⟩
    · rw [dirPaths_append, dirPaths_of_dirs fun node hnode => (hnew node hnode).1]
    · obtain ⟨node, hnode, rfl⟩ := List.mem_map.mp hpath
      exact (hnew node hnode).2.2

/-- What a file adds to the directories is new, and in order. -/
theorem addFile_made {index : Nat} {file : FileEntry}
    (hrun : addFile fold nodes index file = .ok nodes') :
    ∃ made, (dirPaths nodes').tail = (dirPaths nodes).tail ++ made ∧
      (∀ path ∈ made, isDir nodes path = false) ∧ made.Pairwise (· < ·) := by
  unfold addFile at hrun
  simp only at hrun
  split at hrun
  · cases hrun
  · split at hrun
    · cases hrun
    · split at hrun
      · cases hrun
      · split at hrun
        · cases hrun
        · rename_i mid parent hensure
          split at hrun
          · cases hrun
          · cases hrun
            obtain ⟨made, hmade, hnew, hsorted⟩ := ensureDir_made hensure
            refine ⟨made, ?_, hnew, hsorted⟩
            rw [dirPaths_append, hmade]
            simp [dirPaths]

theorem addFiles_made {index : Nat} {files : List FileEntry}
    (hrun : addFiles fold nodes index files = .ok nodes') :
    ∃ made, (dirPaths nodes').tail = (dirPaths nodes).tail ++ made := by
  induction files generalizing nodes index with
  | nil =>
    cases hrun
    exact ⟨[], (List.append_nil _).symm⟩
  | cons file rest ih =>
    obtain ⟨mid, hadd, hrest⟩ := Moves.except_bind_eq_ok.mp hrun
    obtain ⟨made, hmade, -⟩ := addFile_made hadd
    obtain ⟨more, hmore⟩ := ih hrest
    exact ⟨made ++ more, by rw [hmore, hmade, List.append_assoc]⟩

theorem addFiles_append {index : Nat} {files rest : List FileEntry}
    (hrun : addFiles fold nodes index (files ++ rest) = .ok nodes') :
    ∃ mid, addFiles fold nodes index files = .ok mid ∧
      addFiles fold mid (index + files.length) rest = .ok nodes' := by
  induction files generalizing nodes index with
  | nil => exact ⟨nodes, rfl, hrun⟩
  | cons file files ih =>
    obtain ⟨next, hadd, hrest⟩ := Moves.except_bind_eq_ok.mp hrun
    obtain ⟨mid, hfiles, hmid⟩ := ih hrest
    refine ⟨mid, Moves.except_bind_eq_ok.mpr ⟨next, hadd, hfiles⟩, ?_⟩
    rw [List.length_cons, Nat.add_comm files.length, ← Nat.add_assoc]
    exact hmid

end Made

/-! ## Directories of the files -/

/-- A directory that some file is in, at any depth. -/
def DirOf (files : List FileEntry) (dir : Text) : Prop :=
  ∃ file ∈ files, ∃ rest, file.path = dir ++ '/' :: rest

/-- Some directory's path continues another's with a character below the separator. -/
def Dips (files : List FileEntry) : Prop :=
  ∃ dir other, DirOf files dir ∧ DirOf files other ∧
    ∃ c rest, c < '/' ∧ other = dir ++ c :: rest

/-- The components of the paths name something. -/
def NamesAll (files : List FileEntry) : Prop :=
  ∀ file ∈ files, ∀ comp ∈ file.path.components, IsName comp

section Listed

variable {fold : CaseFold} {nodes nodes' : List Node} {files : List FileEntry}

theorem join_append {dirs rest : List Text} (hdirs : dirs ≠ []) (hrest : rest ≠ []) :
    Text.join (dirs ++ rest) = Text.join dirs ++ '/' :: Text.join rest := by
  induction rest using List.reverseRecOn with
  | nil => exact absurd rfl hrest
  | append_singleton rest name ih =>
    by_cases hnil : rest = []
    · rw [hnil, List.nil_append, join_concat hdirs]
      simp [Text.join]
    · rw [← List.append_assoc, join_concat (by simp [hdirs]), ih hnil, join_concat hnil]
      simp

/-- The directories created are those that the files are in. -/
theorem Stands.mem_dirPaths (hnodes : Stands fold nodes files) (hnames : NamesAll files)
    {dir : Text} : dir ∈ (dirPaths nodes).tail ↔ DirOf files dir := by
  constructor
  · intro hdir
    obtain ⟨node, hnode, rfl⟩ := List.mem_map.mp hdir
    obtain ⟨hnode, hkind⟩ := List.mem_filter.mp hnode
    obtain ⟨file, hfile, dirs, rest, hcomps, hparent, hrest⟩ := hnodes.sourced node hnode
    refine ⟨file, hfile, Text.join rest, ?_⟩
    have habove : ∀ comp ∈ dirs, IsName comp := fun comp hcomp =>
      hnames file hfile comp (by rw [hcomps]; exact List.mem_append_left _ hcomp)
    rw [Node.path, hparent, joinPath_join habove,
      ← join_append (by simp) (hrest.mp (of_decide_eq_true hkind)), List.append_assoc,
      List.singleton_append, ← hcomps, Text.join_components]
  · rintro ⟨file, hfile, rest, hpath⟩
    obtain ⟨dirs, name, hcomps, -⟩ := Text.components_leaf dir
    have hsplit : file.path.components = dirs ++ name :: Text.components rest := by
      rw [hpath, Text.components_slash, hcomps, List.append_assoc, List.singleton_append]
    have habove : ∀ comp ∈ dirs, IsName comp := fun comp hcomp =>
      hnames file hfile comp (by rw [hsplit]; exact List.mem_append_left _ hcomp)
    obtain ⟨node, hnode, hparent, hname, hkind⟩ := hnodes.covered file hfile dirs name _ hsplit
    refine List.mem_map.mpr ⟨node, List.mem_filter.mpr
      ⟨hnode, decide_eq_true (hkind.mpr (Text.components_ne_nil rest))⟩, ?_⟩
    rw [Node.path, hparent, hname, joinPath_join habove, ← hcomps, Text.join_components]

theorem Stands.isDir_iff (hnodes : Stands fold nodes files) (hnames : NamesAll files)
    {dir : Text} : isDir nodes dir = true ↔ dir = [] ∨ DirOf files dir := by
  rw [isDir_eq_true, ← hnodes.mem_dirPaths hnames]
  simp [dirPaths, and_assoc]

/-- A file behind all others adds its directories behind theirs. -/
theorem Stands.addFile_sorted {index : Nat} {file : FileEntry} (hnodes : Stands fold nodes files)
    (hnames : NamesAll (files ++ [file])) (hlast : ∀ other ∈ files, other.path < file.path)
    (hdips : ¬ Dips (files ++ [file])) (hsorted : (dirPaths nodes).tail.Pairwise (· < ·))
    (hrun : Fat32.addFile fold nodes index file = .ok nodes') :
    (dirPaths nodes').tail.Pairwise (· < ·) := by
  have hold : NamesAll files := fun other hother => hnames other (List.mem_append_left _ hother)
  have hnodes' := hnodes.addFile hnames hrun
  obtain ⟨made, hmade, hnew, hmadeSorted⟩ := addFile_made hrun
  rw [hmade, List.pairwise_append]
  refine ⟨hsorted, hmadeSorted, fun dir hdir path hpath => ?_⟩
  have hdirOf := (hnodes.mem_dirPaths hold).mp hdir
  have hpathOf : DirOf (files ++ [file]) path :=
    (hnodes'.mem_dirPaths hnames).mp (by rw [hmade]; exact List.mem_append_right _ hpath)
  have hmissing : ¬ DirOf files path := by
    intro hthere
    have hfalse := hnew path hpath
    rw [(hnodes.isDir_iff hold).mpr (Or.inr hthere)] at hfalse
    cases hfalse
  obtain ⟨other, hother, rest, hotherPath⟩ := hdirOf
  -- The new directory is one of the file that is added.
  obtain ⟨rest', hfilePath⟩ : ∃ rest', file.path = path ++ '/' :: rest' := by
    obtain ⟨owner, howner, rest', heq⟩ := hpathOf
    rcases List.mem_append.mp howner with howner | howner
    · exact absurd ⟨owner, howner, rest', heq⟩ hmissing
    · rw [List.mem_singleton.mp howner] at heq
      exact ⟨rest', heq⟩
  have hlt := hlast other hother
  rw [hotherPath, hfilePath] at hlt
  have hdirOf' : DirOf (files ++ [file]) dir :=
    ⟨other, List.mem_append_left _ hother, rest, hotherPath⟩
  have hne : dir ≠ path := fun heq => hmissing ⟨other, hother, rest, by rw [hotherPath, heq]⟩
  have habove : ∀ below, dir ≠ path ++ '/' :: below := by
    intro below heq
    refine hmissing ⟨other, hother, below ++ '/' :: rest, ?_⟩
    rw [hotherPath, heq, List.append_assoc, List.cons_append]
  rcases lt_of_files hlt hne habove with hless | ⟨c, below, hc, heq⟩
  · exact hless
  · exact absurd ⟨path, dir, hpathOf, hdirOf', c, below, hc, heq⟩ hdips

theorem Dips.mono {more : List FileEntry} (hdips : Dips files) (hsub : files ⊆ more) :
    Dips more := by
  obtain ⟨dir, other, ⟨f, hf, hdir⟩, ⟨g, hg, hother⟩, hbelow⟩ := hdips
  exact ⟨dir, other, ⟨f, hsub hf, hdir⟩, ⟨g, hsub hg, hother⟩, hbelow⟩

section

variable {rest : List FileEntry} (hnodes : Stands fold nodes files)
  (hnames : NamesAll (files ++ rest))

include hnodes hnames

theorem Stands.addFiles_sorted {index : Nat}
    (hascending : Rows.Ascending FileEntry.path (files ++ rest)) (hdips : ¬ Dips (files ++ rest))
    (hsorted : (dirPaths nodes).tail.Pairwise (· < ·))
    (hrun : Fat32.addFiles fold nodes index rest = .ok nodes') :
    (dirPaths nodes').tail.Pairwise (· < ·) := by
  induction rest generalizing nodes files index with
  | nil =>
    cases hrun
    exact hsorted
  | cons file rest ih =>
    obtain ⟨mid, hadd, hrest⟩ := Moves.except_bind_eq_ok.mp hrun
    rw [List.append_cons] at hnames hascending hdips
    have hhere : NamesAll (files ++ [file]) := fun other hother =>
      hnames other (List.mem_append_left _ hother)
    have hlast : ∀ other ∈ files, other.path < file.path := fun other hother =>
      (List.pairwise_append.mp (List.pairwise_append.mp hascending).1).2.2 other hother file
        (List.mem_singleton_self _)
    refine ih (hnodes.addFile hhere hadd) hnames hascending hdips ?_ hrest
    exact hnodes.addFile_sorted hhere hlast
      (fun h => hdips (h.mono (List.subset_append_left _ _))) hsorted hadd

theorem Stands.addFiles_of_names {index : Nat}
    (hrun : Fat32.addFiles fold nodes index rest = .ok nodes') :
    Stands fold nodes' (files ++ rest) := by
  induction rest generalizing nodes files index with
  | nil =>
    cases hrun
    rwa [List.append_nil]
  | cons file rest ih =>
    obtain ⟨mid, hadd, hrest⟩ := Moves.except_bind_eq_ok.mp hrun
    rw [List.append_cons] at hnames ⊢
    exact ih (hnodes.addFile (fun other hother => hnames other (List.mem_append_left _ hother))
      hadd) hnames hrest

end

theorem stands_nil (fold : CaseFold) : Stands fold [] [] :=
  ⟨⟨List.nodup_nil, List.forall_mem_nil _, List.forall_mem_nil _⟩, List.forall_mem_nil _,
    List.forall_mem_nil _⟩

/-- A directory that dips is created before the one that it continues. -/
theorem not_dips_of_sorted (hnames : NamesAll files)
    (hascending : Rows.Ascending FileEntry.path files)
    (hrun : addFiles fold [] 0 files = .ok nodes)
    (hsorted : (dirPaths nodes).tail.Pairwise (· < ·)) : ¬ Dips files := by
  rintro ⟨dir, other, hdir, ⟨file, hfile, rest, hpath⟩, c, more, hc, rfl⟩
  obtain ⟨before, after, rfl⟩ := List.append_of_mem hfile
  rw [List.append_cons] at hnames hascending hrun hdir
  obtain ⟨mid, hmid, hrest⟩ := addFiles_append hrun
  have hhere : NamesAll (before ++ [file]) := fun f hf => hnames f (List.mem_append_left _ hf)
  have hmidStands := (stands_nil fold).addFiles_of_names (by simpa using hhere) hmid
  rw [List.nil_append] at hmidStands
  have hlater : ¬ DirOf (before ++ [file]) dir := by
    rintro ⟨f, hf, tail, hfpath⟩
    have hle : f.path ≤ file.path := by
      rcases List.mem_append.mp hf with hf | hf
      · exact ((List.pairwise_append.mp (List.pairwise_append.mp hascending).1).2.2 f hf file
          (List.mem_singleton_self _)).le
      · rw [List.mem_singleton.mp hf]
    rw [hfpath, hpath, List.append_assoc, List.cons_append] at hle
    exact absurd (lt_of_differ hc) (not_lt.mpr hle)
  have hfirst : dir ++ c :: more ∈ (dirPaths mid).tail :=
    (hmidStands.mem_dirPaths hhere).mpr ⟨file, by simp, rest, hpath⟩
  obtain ⟨made, hmade⟩ := addFiles_made hrest
  have hstands := (stands_nil fold).addFiles_of_names (by simpa using hnames) hrun
  have hthere := (hstands.mem_dirPaths (by simpa using hnames)).mpr (by simpa using hdir)
  rw [hmade] at hthere hsorted
  rcases List.mem_append.mp hthere with hmem | hmem
  · exact hlater ((hmidStands.mem_dirPaths hhere).mp hmem)
  · have hlt := (List.pairwise_append.mp hsorted).2.2 _ hfirst _ hmem
    exact absurd hlt (lt_asymm (lt_append_cons dir c more))

theorem ascending_of_checkSorted (hrun : checkSorted files = .ok ()) :
    Rows.Ascending FileEntry.path files := by
  induction files with
  | nil => exact List.Pairwise.nil
  | cons first rest ih =>
    cases rest with
    | nil => exact List.pairwise_singleton _ _
    | cons second rest =>
      rw [checkSorted] at hrun
      split at hrun
      · rename_i hlt
        have hrest := ih hrun
        refine List.pairwise_cons.mpr ⟨fun other hother => ?_, hrest⟩
        rcases List.mem_cons.mp hother with rfl | hother
        · exact hlt
        · exact lt_trans hlt (hrest.lt_of_mem hother)
      · cases hrun

end Listed

/-- The directories behind the root are in the order of their paths exactly if none dips. -/
theorem dirPaths_sorted_iff {fold : CaseFold} {files : List FileEntry} {nodes : List Node}
    (hnames : NamesAll files) (hbuild : buildTree fold files = .ok nodes) :
    (dirPaths nodes).tail.Pairwise (· < ·) ↔ ¬ Dips files := by
  obtain ⟨_, hcheck, hrun⟩ := Moves.except_bind_eq_ok.mp hbuild
  have hascending := ascending_of_checkSorted hcheck
  refine ⟨not_dips_of_sorted hnames hascending hrun, fun hdips => ?_⟩
  exact (stands_nil fold).addFiles_sorted (by simpa using hnames) (by simpa using hascending)
    (by simpa using hdips) List.Pairwise.nil hrun

/-- Two directories, one below the other. -/
def nestedFiles : List FileEntry := [⟨"a/b/x".toList, 1⟩, ⟨"a/y".toList, 1⟩]

def nestedNodes : List Node :=
  [⟨[], ['a'], .dir⟩, ⟨['a'], ['b'], .dir⟩, ⟨"a/b".toList, ['x'], .file 0⟩,
    ⟨['a'], ['y'], .file 1⟩]

theorem dirPaths_sorted_iff_nested :
    (dirPaths nestedNodes).tail.Pairwise (· < ·) ↔ ¬ Dips nestedFiles :=
  @dirPaths_sorted_iff asciiFold nestedFiles nestedNodes (by unfold NamesAll IsName; decide)
    (by decide +kernel)

/-- A hyphen sorts before the separator. -/
def hyphenFiles : List FileEntry := [⟨"a-b/x".toList, 1⟩, ⟨"a/y".toList, 1⟩]

theorem hyphen_unsorts : ∃ nodes, buildTree asciiFold hyphenFiles = .ok nodes ∧
    (dirPaths nodes).tail = ["a-b".toList, "a".toList] ∧
    ¬ (dirPaths nodes).tail.Pairwise (· < ·) := by
  refine ⟨[⟨[], "a-b".toList, .dir⟩, ⟨"a-b".toList, ['x'], .file 0⟩, ⟨[], ['a'], .dir⟩,
    ⟨['a'], ['y'], .file 1⟩], by decide +kernel, by decide +kernel, by decide +kernel⟩

end Fat32

end Datboi.Catalog
