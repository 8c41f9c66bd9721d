import Datboi.Catalog.Fat32Names
import Datboi.Lib.Rows
import Mathlib.Data.Char
import Mathlib.Data.List.Lex
import Mathlib.Data.List.TakeWhile

/-!
# Which files make a tree

For files whose path components are not empty and have no banned character, the tree is
built exactly when no component ends in a dot or a space, each fits 255 UTF-16 units, the
names of one directory differ up to case, and no file's path is a directory of another.
-/

namespace Datboi.Catalog

namespace Fat32

/-! ## Paths of components -/

/-- A component that names something: not empty, without a slash. -/
def IsName (comp : Text) : Prop := comp ≠ [] ∧ '/' ∉ comp

section Join

variable {dirs dirs' : List Text} {name name' : Text}

theorem join_eq_nil (hdirs : ∀ comp ∈ dirs, IsName comp) (hjoin : Text.join dirs = []) :
    dirs = [] := by
  cases dirs with
  | nil => rfl
  | cons comp rest =>
    have hcomp := (hdirs comp List.mem_cons_self).1
    cases rest with
    | nil => simp [Text.join, hcomp] at hjoin
    | cons second rest => simp [Text.join, List.intercalate_cons_cons, hcomp] at hjoin

theorem join_inj (hdirs : ∀ comp ∈ dirs, IsName comp) (hdirs' : ∀ comp ∈ dirs', IsName comp)
    (heq : Text.join dirs = Text.join dirs') : dirs = dirs' := by
  by_cases hnil : dirs = []
  · rw [hnil] at heq ⊢
    exact (join_eq_nil hdirs' heq.symm).symm
  · have hnil' : dirs' ≠ [] := by
      intro hnil'
      rw [hnil'] at heq
      exact hnil (join_eq_nil hdirs heq)
    rw [← Text.components_join (fun comp hcomp => (hdirs comp hcomp).2) hnil, heq,
      Text.components_join (fun comp hcomp => (hdirs' comp hcomp).2) hnil']

theorem join_concat (hdirs : dirs ≠ []) (name : Text) :
    Text.join (dirs ++ [name]) = Text.join dirs ++ '/' :: name := by
  induction dirs with
  | nil => exact absurd rfl hdirs
  | cons first rest ih =>
    cases rest with
    | nil => simp [Text.join, List.intercalate_cons_cons]
    | cons second rest =>
      have hrest := ih (by simp)
      simp only [Text.join, List.cons_append, List.intercalate_cons_cons] at hrest ⊢
      rw [hrest]
      simp

theorem joinPath_join (hdirs : ∀ comp ∈ dirs, IsName comp) (name : Text) :
    joinPath (Text.join dirs) name = Text.join (dirs ++ [name]) := by
  unfold joinPath
  split
  · rename_i hnil
    rw [join_eq_nil hdirs hnil]
    simp [Text.join]
  · rename_i hne
    rw [join_concat]
    rintro rfl
    exact hne rfl

theorem joinPath_inj {parent parent' : Text} (hname : '/' ∉ name) (hname' : '/' ∉ name')
    (heq : joinPath parent name = joinPath parent' name') : parent = parent' ∧ name = name' := by
  unfold joinPath at heq
  split at heq
  · rename_i hnil
    split at heq
    · rename_i hnil'
      exact ⟨hnil.trans hnil'.symm, heq⟩
    · rw [heq] at hname
      exact absurd (by simp) hname
  · split at heq
    · rw [← heq] at hname'
      exact absurd (by simp) hname'
    · have hsplit := Text.rsplitOnce_eq_some.mpr ⟨heq, hname'⟩
      rw [Text.rsplitOnce_eq_some.mpr ⟨rfl, hname⟩] at hsplit
      exact Prod.mk.inj (Option.some.inj hsplit)

/-- A path's directory and its name. -/
theorem splitPath_of_components {path : Text} (hcomponents : path.components = dirs ++ [name])
    (hdirs : ∀ comp ∈ dirs, IsName comp) : splitPath path = (Text.join dirs, name) := by
  have hmem : name ∈ path.components := by
    rw [hcomponents]
    simp
  have hslash : '/' ∉ name := Text.slash_notMem hmem
  have hpath : path = joinPath (Text.join dirs) name := by
    rw [joinPath_join hdirs, ← hcomponents, Text.join_components]
  rw [hpath, joinPath]
  unfold splitPath
  split
  · rename_i hnil
    rw [Text.rsplitOnce_eq_none.mpr hslash, hnil]
    rfl
  · rw [Text.rsplitOnce_eq_some.mpr ⟨rfl, hslash⟩]
    rfl

end Join

/-! ## What a file adds -/

/-- The node stands for a step of a file's path. -/
def Node.On (node : Node) (comps : List Text) : Prop :=
  ∃ dirs rest, comps = dirs ++ node.name :: rest ∧ node.parent = Text.join dirs ∧
    (node.kind = .dir ↔ rest ≠ [])

/-- The nodes are the steps of the files' paths. -/
structure Stands (fold : CaseFold) (nodes : List Node) (files : List FileEntry) : Prop where
  named : WellNamed fold nodes
  sourced : ∀ node ∈ nodes, ∃ file ∈ files, node.On file.path.components
  covered : ∀ file ∈ files, ∀ dirs name rest, file.path.components = dirs ++ name :: rest →
    ∃ node ∈ nodes, node.parent = Text.join dirs ∧ node.name = name ∧
      (node.kind = .dir ↔ rest ≠ [])

theorem isName_of_legal {name : Text} (hlegal : componentIsFatLegal name) : IsName name := by
  simp only [componentIsFatLegal, Bool.and_eq_true, Bool.not_eq_true', List.any_eq_false,
    Bool.or_eq_true, not_or] at hlegal
  refine ⟨fun hnil => ?_, fun hmem => (hlegal.2 '/' hmem).1 (by decide)⟩
  rw [hnil] at hlegal
  exact absurd hlegal.1.1.1.1.1 (by decide)

section Create

variable {fold : CaseFold} {nodes nodes' : List Node} {here dir : Text}
variable {done rest : List Text}

theorem isDir_eq_true {path : Text} : isDir nodes path = true ↔
    path = [] ∨ ∃ node ∈ nodes, node.kind = .dir ∧ node.path = path := by
  simp [isDir]

theorem mem_foldedNames {parent folded : Text} : (parent, folded) ∈ foldedNames fold nodes ↔
    ∃ node ∈ nodes, node.parent = parent ∧ fold.toUppercase node.name = folded := by
  simp [foldedNames]

/-- A directory that was reached is there with each of its ancestors behind the start. -/
theorem createDirs_ok (hlegal : ∀ node ∈ nodes, componentIsFatLegal node.name)
    (hcomps : ∀ comp ∈ done ++ rest, IsName comp)
    (hrun : createDirs fold nodes (Text.join done) rest = .ok (nodes', dir)) :
    dir = Text.join (done ++ rest) ∧ nodes ⊆ nodes' ∧
      (∀ node ∈ nodes', node ∈ nodes ∨ ∃ dirs tail, done ++ rest = dirs ++ node.name :: tail ∧
        node.parent = Text.join dirs ∧ node.kind = .dir) ∧
      ∀ dirs name tail, rest = dirs ++ name :: tail → ∃ node ∈ nodes',
        node.parent = Text.join (done ++ dirs) ∧ node.name = name ∧ node.kind = .dir := by
  induction rest generalizing nodes done with
  | nil =>
    cases hrun
    refine ⟨by rw [List.append_nil], List.Subset.refl _, fun node hnode => Or.inl hnode, ?_⟩
    intro dirs name tail hsplit
    simp at hsplit
  | cons comp rest ih =>
    have hdone : ∀ comp ∈ done, IsName comp := fun c hc => hcomps c (by simp [hc])
    have hcomp : IsName comp := hcomps comp (by simp)
    rw [createDirs, joinPath_join hdone] at hrun
    rw [List.append_cons] at hcomps
    split at hrun
    · rename_i hexists
      obtain ⟨hdir, hsub, hsource, hthere⟩ := ih hlegal hcomps hrun
      rw [← List.append_cons] at hdir hsource
      refine ⟨hdir, hsub, hsource, ?_⟩
      intro dirs name tail hsplit
      cases dirs with
      | nil =>
        obtain ⟨rfl, _⟩ := List.cons_eq_cons.mp hsplit
        rcases isDir_eq_true.mp hexists with hnil | ⟨node, hnode, hkind, hpath⟩
        · have hempty := join_eq_nil (fun c hc => hcomps c (by simp at hc ⊢; tauto)) hnil
          simp at hempty
        · rw [Node.path, ← joinPath_join hdone] at hpath
          obtain ⟨hparent, hname⟩ :=
            joinPath_inj (isName_of_legal (hlegal node hnode)).2 hcomp.2 hpath
          exact ⟨node, hsub hnode, by rw [List.append_nil]; exact hparent, hname, hkind⟩
      | cons first dirs =>
        obtain ⟨rfl, hrest⟩ := List.cons_eq_cons.mp hsplit
        obtain ⟨node, hnode, hparent, hfields⟩ := hthere dirs name tail hrest
        exact ⟨node, hnode, by rw [hparent, ← List.append_cons], hfields⟩
    · split at hrun
      · cases hrun
      · rename_i hcompLegal
        split at hrun
        · cases hrun
        · split at hrun
          · cases hrun
          · have hlegal' : ∀ node ∈ nodes ++ [⟨Text.join done, comp, .dir⟩],
                componentIsFatLegal node.name := by
              intro node hnode
              rcases List.mem_append.mp hnode with hnode | hnode
              · exact hlegal node hnode
              · rw [List.mem_singleton.mp hnode]
                simpa using hcompLegal
            obtain ⟨hdir, hsub, hsource, hthere⟩ := ih hlegal' hcomps hrun
            rw [← List.append_cons] at hdir hsource
            refine ⟨hdir, fun node hnode => hsub (List.mem_append_left _ hnode), ?_, ?_⟩
            · intro node hnode
              rcases hsource node hnode with hold | hnew
              · rcases List.mem_append.mp hold with hold | hold
                · exact Or.inl hold
                · rw [List.mem_singleton.mp hold]
                  exact Or.inr ⟨done, rest, rfl, rfl, rfl⟩
              · exact Or.inr hnew
            · intro dirs name tail hsplit
              cases dirs with
              | nil =>
                obtain ⟨rfl, _⟩ := List.cons_eq_cons.mp hsplit
                refine ⟨⟨Text.join done, comp, .dir⟩, hsub (by simp), ?_, rfl, rfl⟩
                rw [List.append_nil]
              | cons first dirs =>
                obtain ⟨rfl, hrest⟩ := List.cons_eq_cons.mp hsplit
                obtain ⟨node, hnode, hparent, hfields⟩ := hthere dirs name tail hrest
                exact ⟨node, hnode, by rw [hparent, ← List.append_cons], hfields⟩

/-- Creating directories succeeds where each is legal and finds only itself under its name. -/
theorem createDirs_succeeds (hcomps : ∀ comp ∈ done ++ rest, IsName comp)
    (hgood : ∀ dirs comp tail, rest = dirs ++ comp :: tail → componentIsFatLegal comp ∧
      (encodeUtf16 comp).length ≤ 255 ∧ ∀ node ∈ nodes,
        node.parent = Text.join (done ++ dirs) →
          fold.toUppercase node.name = fold.toUppercase comp → node.kind = .dir ∧ node.name = comp) :
    ∃ result, createDirs fold nodes (Text.join done) rest = .ok result := by
  induction rest generalizing nodes done with
  | nil => exact ⟨_, rfl⟩
  | cons comp rest ih =>
    have hdone : ∀ comp ∈ done, IsName comp := fun c hc => hcomps c (by simp [hc])
    obtain ⟨hlegal, hlength, honly⟩ := hgood [] comp rest rfl
    rw [List.append_nil] at honly
    rw [createDirs, joinPath_join hdone]
    rw [List.append_cons] at hcomps
    have hlater : ∀ dirs comp' tail, rest = dirs ++ comp' :: tail → componentIsFatLegal comp' ∧
        (encodeUtf16 comp').length ≤ 255 ∧ ∀ node ∈ nodes,
          node.parent = Text.join (done ++ [comp] ++ dirs) →
            fold.toUppercase node.name = fold.toUppercase comp' →
              node.kind = .dir ∧ node.name = comp' := by
      intro dirs comp' tail hsplit
      have hthere := hgood (comp :: dirs) comp' tail (by rw [hsplit]; rfl)
      rw [List.append_cons] at hthere
      exact hthere
    split
    · exact ih hcomps hlater
    · rename_i hmissing
      rw [if_neg (by simpa using hlegal), if_neg (by omega), if_neg]
      · refine ih hcomps ?_
        intro dirs comp' tail hsplit
        obtain ⟨hlegal', hlength', honly'⟩ := hlater dirs comp' tail hsplit
        refine ⟨hlegal', hlength', ?_⟩
        intro node hnode hparent
        rcases List.mem_append.mp hnode with hnode | hnode
        · exact honly' node hnode hparent
        · -- The new directory is not below itself.
          rw [List.mem_singleton.mp hnode] at hparent
          have hbelow : ∀ c ∈ done ++ [comp] ++ dirs, IsName c := by
            intro c hc
            apply hcomps
            rw [hsplit]
            rw [List.mem_append] at hc ⊢
            rcases hc with hc | hc
            · exact Or.inl hc
            · exact Or.inr (List.mem_append_left _ hc)
          have hsame := congrArg List.length (join_inj hdone hbelow hparent)
          simp at hsame
      · intro hmem
        obtain ⟨node, hnode, hparent, hfolded⟩ := mem_foldedNames.mp hmem
        obtain ⟨hkind, hname⟩ := honly node hnode hparent hfolded
        refine hmissing (isDir_eq_true.mpr (Or.inr ⟨node, hnode, hkind, ?_⟩))
        rw [Node.path, hparent, hname, joinPath_join hdone]

end Create

/-! ## Adding a file -/

section Add

variable {fold : CaseFold} {nodes nodes' : List Node} {files : List FileEntry} {file : FileEntry}
variable {dirs : List Text} {name : Text} {index : Nat}

/-- Both ways to a directory leave it with all its ancestors. -/
theorem ensureDir_ok {parent : Text} (hnodes : Stands fold nodes files)
    (hdirs : ∀ comp ∈ dirs, IsName comp)
    (hfiles : ∀ file ∈ files, ∀ comp ∈ file.path.components, IsName comp)
    (hrun : ensureDir fold nodes (Text.join dirs) = .ok (nodes', parent)) :
    parent = Text.join dirs ∧ nodes ⊆ nodes' ∧
      (∀ node ∈ nodes', node ∈ nodes ∨ ∃ before tail, dirs = before ++ node.name :: tail ∧
        node.parent = Text.join before ∧ node.kind = .dir) ∧
      ∀ before comp tail, dirs = before ++ comp :: tail → ∃ node ∈ nodes',
        node.parent = Text.join before ∧ node.name = comp ∧ node.kind = .dir := by
  unfold ensureDir at hrun
  split at hrun
  · rename_i hexists
    cases hrun
    refine ⟨rfl, List.Subset.refl _, fun node hnode => Or.inl hnode, ?_⟩
    intro before comp tail hsplit
    rcases isDir_eq_true.mp hexists with hnil | ⟨node, hnode, hkind, hpath⟩
    · rw [join_eq_nil hdirs hnil] at hsplit
      simp at hsplit
    · -- The directory is on some file's path, and that path covers its ancestors.
      obtain ⟨source, hsource, above, rest, hcomps, hparent, hrest⟩ := hnodes.sourced node hnode
      have hnames : ∀ c ∈ above ++ [node.name], IsName c := by
        intro c hc
        apply hfiles source hsource
        rw [hcomps]
        simp at hc ⊢
        tauto
      rw [Node.path, hparent, joinPath_join fun c hc => hnames c (by simp [hc])] at hpath
      have hsame := join_inj hnames hdirs hpath
      rw [hsplit] at hsame
      have hwhole : source.path.components = before ++ comp :: (tail ++ rest) := by
        rw [hcomps, List.append_cons, hsame]
        simp
      obtain ⟨found, hfound, hfoundParent, hfoundName, hfoundKind⟩ :=
        hnodes.covered source hsource before comp (tail ++ rest) hwhole
      refine ⟨found, hfound, hfoundParent, hfoundName, hfoundKind.mpr ?_⟩
      have := hrest.mp hkind
      simp [this]
  · rename_i hmissing
    have hne : dirs ≠ [] := by
      rintro rfl
      exact hmissing (isDir_eq_true.mpr (Or.inl rfl))
    rw [Text.components_join (fun c hc => (hdirs c hc).2) hne] at hrun
    change createDirs fold nodes (Text.join []) dirs = _ at hrun
    simpa using createDirs_ok hnodes.named.legal (by simpa using hdirs) hrun

/-- An added file keeps the nodes in step with the paths. -/
theorem Stands.addFile (hnodes : Stands fold nodes files)
    (hfiles : ∀ other ∈ files ++ [file], ∀ comp ∈ other.path.components, IsName comp)
    (hrun : Fat32.addFile fold nodes index file = .ok nodes') :
    Stands fold nodes' (files ++ [file]) := by
  have hnamed := hnodes.named.addFile hrun
  obtain ⟨dirs, name, hcomps, _⟩ := Text.components_leaf file.path
  have hdirs : ∀ comp ∈ dirs, IsName comp := fun comp hcomp =>
    hfiles file (by simp) comp (by rw [hcomps]; simp [hcomp])
  unfold Fat32.addFile at hrun
  rw [splitPath_of_components hcomps hdirs] at hrun
  simp only at hrun
  split at hrun
  · cases hrun
  · split at hrun
    · cases hrun
    · split at hrun
      · cases hrun
      · split at hrun
        · cases hrun
        · rename_i mid parent hensure
          obtain ⟨hparent, hsub, hsource, hthere⟩ := ensureDir_ok hnodes hdirs
            (fun other hother => hfiles other (List.mem_append_left _ hother)) hensure
          split at hrun
          · cases hrun
          · cases hrun
            refine ⟨hnamed, ?_, ?_⟩
            · intro node hnode
              rcases List.mem_append.mp hnode with hnode | hnode
              · rcases hsource node hnode with hold | ⟨before, tail, hsplit, hbefore, hkind⟩
                · obtain ⟨source, hmem, hon⟩ := hnodes.sourced node hold
                  exact ⟨source, List.mem_append_left _ hmem, hon⟩
                · refine ⟨file, by simp, before, tail ++ [name], ?_, hbefore, ?_⟩
                  · rw [hcomps, hsplit]
                    simp
                  · simp [hkind]
              · rw [List.mem_singleton.mp hnode]
                exact ⟨file, by simp, dirs, [], hcomps, hparent, by simp⟩
            · intro other hother before comp rest hsplit
              rcases List.mem_append.mp hother with hother | hother
              · obtain ⟨node, hnode, hfields⟩ := hnodes.covered other hother before comp rest hsplit
                exact ⟨node, List.mem_append_left _ (hsub hnode), hfields⟩
              · rw [List.mem_singleton.mp hother, hcomps] at hsplit
                rcases List.eq_nil_or_concat rest with hnil | ⟨tail, last, hlast⟩
                · rw [hnil] at hsplit ⊢
                  obtain ⟨hbefore, hname⟩ := List.append_inj' hsplit rfl
                  refine ⟨⟨parent, name, .file index⟩, by simp, ?_, ?_, by simp⟩
                  · rw [hparent, hbefore]
                  · exact List.singleton_inj.mp hname
                · rw [hlast, List.concat_eq_append, ← List.cons_append, ← List.append_assoc] at hsplit
                  obtain ⟨hbefore, _⟩ := List.append_inj' hsplit rfl
                  obtain ⟨node, hnode, hnodeParent, hname, hkind⟩ := hthere before comp tail hbefore
                  exact ⟨node, List.mem_append_left _ hnode, hnodeParent, hname, by simp [hkind, hlast]⟩

end Add

/-! ## Files that make a tree -/

/-- A character a FAT name may have. -/
def IsFatChar (c : Char) : Prop := c ∉ bannedChars ∧ 0x20 ≤ c.toNat

/-- What may still go wrong with clean paths does not. -/
structure Mintable (fold : CaseFold) (files : List FileEntry) : Prop where
  trailing : ∀ file ∈ files, ∀ comp ∈ file.path.components,
    comp.getLast? ≠ some '.' ∧ comp.getLast? ≠ some ' '
  length : ∀ file ∈ files, ∀ comp ∈ file.path.components, (encodeUtf16 comp).length ≤ 255
  cases : ∀ file ∈ files, ∀ other ∈ files, ∀ dirs x y rest rest',
    file.path.components = dirs ++ x :: rest → other.path.components = dirs ++ y :: rest' →
      fold.toUppercase x = fold.toUppercase y → x = y
  shadows : ∀ file ∈ files, ∀ other ∈ files, ∀ rest, rest ≠ [] →
    other.path.components ≠ file.path.components ++ rest

/-- Each component names something and has no banned character. -/
def IsClean (file : FileEntry) : Prop :=
  ∀ comp ∈ file.path.components, IsName comp ∧ ∀ c ∈ comp, IsFatChar c

theorem legal_iff {comp : Text} (hname : IsName comp) (hchars : ∀ c ∈ comp, IsFatChar c) :
    componentIsFatLegal comp ↔ comp.getLast? ≠ some '.' ∧ comp.getLast? ≠ some ' ' := by
  have hany : (comp.any fun ch => bannedChars.contains ch || decide (ch.toNat < 0x20)) = false := by
    rw [List.any_eq_false]
    intro c hc
    have hspec := hchars c hc
    simp only [Bool.or_eq_true, List.contains_iff_mem, decide_eq_true_eq, not_or]
    exact ⟨hspec.1, by have := hspec.2; omega⟩
  simp only [componentIsFatLegal, hany, Bool.and_eq_true, bne_iff_ne, Bool.not_eq_true']
  constructor
  · rintro ⟨⟨⟨_, hdot⟩, hspace⟩, _⟩
    exact ⟨hdot, hspace⟩
  · rintro ⟨hdot, hspace⟩
    refine ⟨⟨⟨⟨⟨by simpa using hname.1, ?_⟩, ?_⟩, hdot⟩, hspace⟩, trivial⟩
    · rintro rfl
      exact hdot rfl
    · rintro rfl
      exact hdot rfl

section Mint

variable {fold : CaseFold} {nodes : List Node} {files : List FileEntry} {file : FileEntry}

theorem Mintable.mono {files' : List FileEntry} (hmint : Mintable fold files')
    (hsub : files ⊆ files') : Mintable fold files where
  trailing := fun file hfile => hmint.trailing file (hsub hfile)
  length := fun file hfile => hmint.length file (hsub hfile)
  cases := fun file hfile other hother => hmint.cases file (hsub hfile) other (hsub hother)
  shadows := fun file hfile other hother => hmint.shadows file (hsub hfile) other (hsub hother)

section

variable (hnodes : Stands fold nodes files)

include hnodes

theorem Stands.eq_of_folded {node other : Node} (hnode : node ∈ nodes) (hother : other ∈ nodes)
    (hparent : node.parent = other.parent)
    (hfolded : fold.toUppercase node.name = fold.toUppercase other.name) : node = other :=
  List.inj_on_of_nodup_map hnodes.named.folded hnode hother (by rw [hparent, hfolded])

theorem Stands.mintable (hclean : ∀ file ∈ files, IsClean file) :
    Mintable fold files where
  trailing := by
    intro file hfile comp hcomp
    obtain ⟨dirs, rest, hsplit⟩ := List.append_of_mem hcomp
    obtain ⟨node, hnode, _, rfl, _⟩ := hnodes.covered file hfile dirs comp rest hsplit
    obtain ⟨hname, hchars⟩ := hclean file hfile _ hcomp
    exact (legal_iff hname hchars).mp (hnodes.named.legal node hnode)
  length := by
    intro file hfile comp hcomp
    obtain ⟨dirs, rest, hsplit⟩ := List.append_of_mem hcomp
    obtain ⟨node, hnode, _, rfl, _⟩ := hnodes.covered file hfile dirs comp rest hsplit
    exact hnodes.named.length node hnode
  cases := by
    intro file hfile other hother dirs x y rest rest' hsplit hsplit' hfolded
    obtain ⟨node, hnode, hparent, rfl, _⟩ := hnodes.covered file hfile dirs x rest hsplit
    obtain ⟨node', hnode', hparent', rfl, _⟩ := hnodes.covered other hother dirs y rest' hsplit'
    rw [hnodes.eq_of_folded hnode hnode' (hparent.trans hparent'.symm) hfolded]
  shadows := by
    intro file hfile other hother rest hrest heq
    obtain ⟨dirs, name, hcomps, _⟩ := Text.components_leaf file.path
    rw [hcomps, List.append_assoc, List.singleton_append] at heq
    obtain ⟨node, hnode, hparent, hname, hkind⟩ := hnodes.covered file hfile dirs name [] hcomps
    obtain ⟨node', hnode', hparent', hname', hkind'⟩ :=
      hnodes.covered other hother dirs name rest heq
    have hsame := hnodes.eq_of_folded hnode hnode' (hparent.trans hparent'.symm)
      (by rw [hname, hname'])
    have hdir := hkind'.mpr hrest
    rw [← hsame] at hdir
    exact hkind.mp hdir rfl

/-- A file on clean paths is added where nothing can go wrong. -/
theorem Stands.addFile_succeeds (hclean : ∀ other ∈ files ++ [file], IsClean other)
    (hmint : Mintable fold (files ++ [file])) (hsize : file.size ≤ maxFileSize)
    (hfresh : ∀ other ∈ files, other.path ≠ file.path) (index : Nat) :
    ∃ nodes', Fat32.addFile fold nodes index file = .ok nodes' := by
  have hself : file ∈ files ++ [file] := by simp
  have hnames : ∀ other ∈ files, ∀ comp ∈ other.path.components, IsName comp :=
    fun other hother comp hcomp => (hclean other (List.mem_append_left _ hother) comp hcomp).1
  obtain ⟨dirs, name, hcomps, _⟩ := Text.components_leaf file.path
  have hlegal : ∀ comp ∈ file.path.components, componentIsFatLegal comp := fun comp hcomp =>
    (legal_iff (hclean file hself comp hcomp).1 (hclean file hself comp hcomp).2).mpr
      (hmint.trailing file hself comp hcomp)
  have hdirs : ∀ comp ∈ dirs, IsName comp := fun comp hcomp =>
    (hclean file hself comp (by rw [hcomps]; simp [hcomp])).1
  have hname : name ∈ file.path.components := by
    rw [hcomps]
    simp
  -- A node in the same place and of the same name up to case is a step of the same path.
  have hsame : ∀ node ∈ nodes, ∀ before comp tail, file.path.components = before ++ comp :: tail →
      node.parent = Text.join before → fold.toUppercase node.name = fold.toUppercase comp →
        node.name = comp ∧ ∃ other ∈ files, ∃ rest, other.path.components = before ++ comp :: rest ∧
          (node.kind = .dir ↔ rest ≠ []) := by
    intro node hnode before comp tail hsplit hparent hfolded
    obtain ⟨other, hother, above, rest, hon, habove, hkind⟩ := hnodes.sourced node hnode
    have hbefore : above = before := by
      apply join_inj
      · intro c hc
        exact hnames other hother c (by rw [hon]; simp [hc])
      · intro c hc
        exact (hclean file hself c (by rw [hsplit]; simp [hc])).1
      · rw [← habove, hparent]
    subst hbefore
    have heq := hmint.cases other (List.mem_append_left _ hother) file hself _ _ _ _ _ hon hsplit
      hfolded
    exact ⟨heq, other, hother, rest, heq ▸ hon, hkind⟩
  obtain ⟨⟨mid, parent⟩, hensure⟩ : ∃ result, ensureDir fold nodes (Text.join dirs) = .ok result := by
    unfold ensureDir
    split
    · exact ⟨_, rfl⟩
    · rename_i hmissing
      have hne : dirs ≠ [] := by
        rintro rfl
        exact hmissing (isDir_eq_true.mpr (Or.inl rfl))
      rw [Text.components_join (fun c hc => (hdirs c hc).2) hne]
      change ∃ result, createDirs fold nodes (Text.join []) dirs = .ok result
      refine createDirs_succeeds (by simpa using hdirs) ?_
      intro before comp tail hsplit
      have hwhole : file.path.components = before ++ comp :: (tail ++ [name]) := by
        rw [hcomps, hsplit]
        simp
      have hcomp : comp ∈ file.path.components := by
        rw [hwhole]
        simp
      refine ⟨hlegal comp hcomp, hmint.length file hself comp hcomp, ?_⟩
      intro node hnode hparent hfolded
      rw [List.nil_append] at hparent
      obtain ⟨heq, other, hother, rest, hother', hkind⟩ :=
        hsame node hnode before comp _ hwhole hparent hfolded
      refine ⟨hkind.mpr ?_, heq⟩
      rintro rfl
      refine hmint.shadows other (List.mem_append_left _ hother) file hself (tail ++ [name])
        (by simp) ?_
      rw [hwhole, hother']
      simp
  obtain ⟨hparent, _, hsource, _⟩ := ensureDir_ok hnodes hdirs hnames hensure
  unfold Fat32.addFile
  rw [splitPath_of_components hcomps hdirs]
  simp only [hensure]
  rw [if_neg (by omega), if_neg (by simpa using hlegal name hname),
    if_neg (by have := hmint.length file hself name hname; omega), if_neg]
  · exact ⟨_, rfl⟩
  · intro hmem
    obtain ⟨node, hnode, hnodeParent, hfolded⟩ := mem_foldedNames.mp hmem
    rw [hparent] at hnodeParent
    rcases hsource node hnode with hold | ⟨before, tail, hsplit, hbefore, _⟩
    · obtain ⟨_, other, hother, rest, hcomps', _⟩ :=
        hsame node hold dirs name [] hcomps hnodeParent hfolded
      by_cases hrest : rest = []
      · rw [hrest, ← hcomps] at hcomps'
        exact hfresh other hother (Text.components_inj hcomps')
      · refine hmint.shadows file hself other (List.mem_append_left _ hother) rest hrest ?_
        rw [hcomps', hcomps]
        simp
    · have hshorter : ∀ c ∈ before, IsName c := fun c hc => hdirs c (by rw [hsplit]; simp [hc])
      have heq := join_inj hshorter hdirs (hbefore.symm.trans hnodeParent)
      have hlength := congrArg List.length (heq.trans hsplit)
      simp at hlength

theorem Stands.addFiles {nodes' : List Node} {index : Nat} {rest : List FileEntry}
    (hclean : ∀ file ∈ files ++ rest, IsClean file)
    (hrun : Fat32.addFiles fold nodes index rest = .ok nodes') :
    Stands fold nodes' (files ++ rest) := by
  induction rest generalizing nodes files index with
  | nil =>
    cases hrun
    rwa [List.append_nil]
  | cons file rest ih =>
    obtain ⟨mid, hadd, hrest⟩ := Moves.except_bind_eq_ok.mp hrun
    rw [List.append_cons] at hclean ⊢
    refine ih (hnodes.addFile ?_ hadd) hclean hrest
    intro other hother comp hcomp
    exact (hclean other (List.mem_append_left _ hother) comp hcomp).1

theorem Stands.addFiles_succeeds {rest : List FileEntry}
    (hclean : ∀ file ∈ files ++ rest, IsClean file) (hmint : Mintable fold (files ++ rest))
    (hsizes : ∀ file ∈ rest, file.size ≤ maxFileSize)
    (hpaths : ((files ++ rest).map FileEntry.path).Nodup) (index : Nat) :
    ∃ nodes', Fat32.addFiles fold nodes index rest = .ok nodes' := by
  induction rest generalizing nodes files index with
  | nil => exact ⟨nodes, rfl⟩
  | cons file rest ih =>
    rw [List.append_cons] at hclean hmint hpaths
    have hcleanHere : ∀ other ∈ files ++ [file], IsClean other :=
      fun other hother => hclean other (List.mem_append_left _ hother)
    have hfresh : ∀ other ∈ files, other.path ≠ file.path := by
      intro other hother heq
      rw [List.map_append, List.nodup_append, List.map_append, List.nodup_append] at hpaths
      exact hpaths.1.2.2 _ (List.mem_map_of_mem hother) _ (by simp) heq
    obtain ⟨mid, hadd⟩ := hnodes.addFile_succeeds hcleanHere
      (hmint.mono (List.subset_append_left _ _)) (hsizes file List.mem_cons_self) hfresh index
    have hmid : Stands fold mid (files ++ [file]) := hnodes.addFile
      (fun other hother comp hcomp => (hcleanHere other hother comp hcomp).1) hadd
    obtain ⟨nodes', hrest⟩ := ih hmid hclean hmint
      (fun other hother => hsizes other (List.mem_cons_of_mem _ hother)) hpaths (index + 1)
    refine ⟨nodes', ?_⟩
    rw [Fat32.addFiles, hadd]
    exact hrest

end

/-- Clean files of distinct paths, none too large, make a tree exactly when nothing that can
still go wrong does. -/
theorem addFiles_ok_iff (hclean : ∀ file ∈ files, IsClean file)
    (hsizes : ∀ file ∈ files, file.size ≤ maxFileSize)
    (hpaths : (files.map FileEntry.path).Nodup) :
    (∃ nodes, addFiles fold [] 0 files = .ok nodes) ↔ Mintable fold files := by
  have hempty : Stands fold [] [] :=
    ⟨⟨List.nodup_nil, List.forall_mem_nil _, List.forall_mem_nil _⟩, List.forall_mem_nil _,
      List.forall_mem_nil _⟩
  constructor
  · rintro ⟨nodes, hrun⟩
    exact (hempty.addFiles (by simpa using hclean) hrun).mintable (by simpa using hclean)
  · intro hmint
    exact hempty.addFiles_succeeds (by simpa using hclean) (by simpa using hmint) hsizes
      (by simpa using hpaths) 0

end Mint

/-! ## Refusals -/

/-- The errors that blame a path: not the limits on sizes and counts. -/
def Error.isNaming : Error → Bool
  | .badPath _ | .nameTooLong _ | .pathConflict _ | .unsorted _ => true
  | .badClusterSize _ | .fileTooLarge _ _ | .dirTooLarge _ | .tooManyClusters _
  | .imageTooLarge _ | .tailsExhausted => false

/-- The layout refuses the files over their paths. -/
def Refused (fold : CaseFold) (files : List FileEntry) (params : Params) : Prop :=
  ∃ e, layout fold files params = .error e ∧ e.isNaming = true

/-- The files in front of the first that is too large. -/
def fitting (files : List FileEntry) : List FileEntry :=
  files.takeWhile fun file => file.size ≤ maxFileSize

section Refusals

variable {fold : CaseFold} {files : List FileEntry} {params : Params} {e : Error}

theorem createDirs_naming {nodes : List Node} {here : Text} {comps : List Text}
    (hrun : createDirs fold nodes here comps = .error e) : e.isNaming = true := by
  induction comps generalizing nodes here with
  | nil => cases hrun
  | cons comp rest ih =>
    rw [createDirs] at hrun
    split at hrun
    · exact ih hrun
    · split at hrun
      · cases hrun
        rfl
      · split at hrun
        · cases hrun
          rfl
        · split at hrun
          · cases hrun
            rfl
          · exact ih hrun

theorem addFile_naming {nodes : List Node} {index : Nat} {file : FileEntry}
    (hsize : file.size ≤ maxFileSize) (hrun : addFile fold nodes index file = .error e) :
    e.isNaming = true := by
  unfold addFile at hrun
  simp only at hrun
  rw [if_neg (by omega)] at hrun
  split at hrun
  · cases hrun
    rfl
  · split at hrun
    · cases hrun
      rfl
    · split at hrun
      · rename_i hensure
        cases hrun
        unfold ensureDir at hensure
        split at hensure
        · cases hensure
        · exact createDirs_naming hensure
      · split at hrun
        · cases hrun
          rfl
        · cases hrun

/-- Files are refused over a path exactly when those in front of the first large one do not
make a tree. -/
theorem addFiles_naming_iff {nodes : List Node} {index : Nat} :
    (∃ e, addFiles fold nodes index files = .error e ∧ e.isNaming = true) ↔
      ¬ ∃ nodes', addFiles fold nodes index (fitting files) = .ok nodes' := by
  induction files generalizing nodes index with
  | nil => simp [addFiles, fitting]
  | cons file rest ih =>
    unfold fitting
    rw [addFiles, List.takeWhile_cons]
    by_cases hsize : file.size ≤ maxFileSize
    · rw [if_pos (by simpa using hsize), addFiles]
      cases hadd : addFile fold nodes index file with
      | error e =>
        have hnaming := addFile_naming hsize hadd
        constructor
        · rintro _ ⟨nodes', hok⟩
          cases hok
        · intro _
          exact ⟨e, rfl, hnaming⟩
      | ok mid => exact ih
    · rw [if_neg (by simpa using hsize)]
      constructor
      · rintro ⟨e, hrun, hnaming⟩
        have hlarge : addFile fold nodes index file =
            .error (.fileTooLarge file.path file.size) := by
          unfold addFile
          simp only
          rw [if_pos (by omega)]
        rw [hlarge] at hrun
        cases hrun
        cases hnaming
      · intro hnone
        exact absurd ⟨nodes, rfl⟩ hnone

theorem checkSorted_eq_ok (hsorted : Rows.Ascending FileEntry.path files) :
    checkSorted files = .ok () := by
  induction files with
  | nil => rfl
  | cons first rest ih =>
    cases rest with
    | nil => rfl
    | cons second rest =>
      rw [checkSorted, if_pos (hsorted.lt_of_mem List.mem_cons_self)]
      exact ih hsorted.tail

theorem nameDirs_naming {nodes : List Node} {paths : List Text}
    (hrun : nameDirs params nodes paths = .error e) : e.isNaming = false := by
  induction paths with
  | nil => cases hrun
  | cons path rest ih =>
    rcases Moves.except_bind_eq_error.mp hrun with hdir | ⟨dir, _, hrun⟩
    · unfold nameDir at hdir
      split at hdir
      · cases hdir
        rfl
      · simp only at hdir
        split at hdir
        · cases hdir
          rfl
        · cases hdir
    · rcases Moves.except_bind_eq_error.mp hrun with hrest | ⟨later, _, hrun⟩
      · exact ih hrest
      · cases hrun

theorem allocDirs_naming {clusterSize cur : Nat} {dirs : List Dir}
    (hrun : allocDirs clusterSize cur dirs = .error e) : e.isNaming = false := by
  induction dirs generalizing cur with
  | nil => cases hrun
  | cons dir rest ih =>
    rw [allocDirs] at hrun
    split at hrun
    · cases hrun
      rfl
    · rcases Moves.except_bind_eq_error.mp hrun with hrest | ⟨later, _, hrun⟩
      · exact ih hrest
      · cases hrun

theorem allocFiles_naming {clusterSize cur : Nat}
    (hrun : allocFiles clusterSize cur files = .error e) : e.isNaming = false := by
  induction files generalizing cur with
  | nil => cases hrun
  | cons file rest ih =>
    rw [allocFiles] at hrun
    split at hrun
    · cases hrun
      rfl
    · rcases Moves.except_bind_eq_error.mp hrun with hrest | ⟨later, _, hrun⟩
      · exact ih hrest
      · cases hrun

theorem geometry_naming {nodes : List Node} {dirs : List Dir} {fileClusters : List (Nat × Nat)}
    {cur stop : Nat} (hrun : geometry params nodes dirs fileClusters cur stop = .error e) :
    e.isNaming = false := by
  simp only [geometry] at hrun
  split at hrun
  · cases hrun
    rfl
  · split at hrun
    · cases hrun
      rfl
    · cases hrun

/-- Past the tree, the layout refuses over sizes and counts only. -/
theorem refused_iff_buildTree (hvalid : params.isValid = true) : Refused fold files params ↔
    ∃ e, buildTree fold files = .error e ∧ e.isNaming = true := by
  unfold Refused layout
  rw [hvalid, Bool.not_true, if_neg (by decide)]
  constructor
  · rintro ⟨e, hrun, hnaming⟩
    rcases Moves.except_bind_eq_error.mp hrun with hbuild | ⟨nodes, _, hrun⟩
    · exact ⟨e, hbuild, hnaming⟩
    · have hlimit : e.isNaming = false := by
        rcases Moves.except_bind_eq_error.mp hrun with hnamed | ⟨named, _, hrun⟩
        · exact nameDirs_naming hnamed
        · rcases Moves.except_bind_eq_error.mp hrun with hdirs | ⟨⟨dirs, cur⟩, _, hrun⟩
          · exact allocDirs_naming hdirs
          · rcases Moves.except_bind_eq_error.mp hrun with hfiles | ⟨⟨runs, stop⟩, _, hrun⟩
            · exact allocFiles_naming hfiles
            · exact geometry_naming hrun
      rw [hlimit] at hnaming
      cases hnaming
  · rintro ⟨e, hbuild, hnaming⟩
    exact ⟨e, Moves.except_bind_eq_error.mpr (Or.inl hbuild), hnaming⟩

/-- For clean files in order, the layout's refusals over paths are those of the tree. -/
theorem refused_iff (hsorted : Rows.Ascending FileEntry.path files)
    (hclean : ∀ file ∈ files, IsClean file) :
    Refused fold files params ↔ params.isValid = true ∧ ¬ Mintable fold (fitting files) := by
  by_cases hvalid : params.isValid = true
  · have hbuild : buildTree fold files = addFiles fold [] 0 files := by
      rw [buildTree, checkSorted_eq_ok hsorted]
      rfl
    have hsub : fitting files ⊆ files := List.takeWhile_subset _
    have hsizes : ∀ file ∈ fitting files, file.size ≤ maxFileSize := fun file hfile => by
      simpa using List.mem_takeWhile_imp hfile
    have hpaths : ((fitting files).map FileEntry.path).Nodup :=
      hsorted.nodup.sublist ((List.takeWhile_sublist _).map _)
    rw [refused_iff_buildTree hvalid, hbuild, addFiles_naming_iff,
      addFiles_ok_iff (fun file hfile => hclean file (hsub hfile)) hsizes hpaths]
    simp [hvalid]
  · constructor
    · rintro ⟨e, hrun, hnaming⟩
      unfold layout at hrun
      rw [if_pos (by simpa using hvalid)] at hrun
      cases hrun
      cases hnaming
    · rintro ⟨htrue, _⟩
      exact absurd htrue hvalid

end Refusals

end Fat32

end Datboi.Catalog
