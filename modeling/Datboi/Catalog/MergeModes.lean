import Datboi.Catalog.HeldRows
import Datboi.Lib.Worklist

/-!
# Merge modes

The three layouts of a machine list. A standalone set holds a machine's claims and those of the
devices it refers to, directly or not; the other two layouts leave out what a parent is said to
hold. Sets are directories: what is in a set is what the rows of that name hold. Hash maps are
read in any order, and so are tables.
-/

namespace Datboi.Catalog

open CatalogState (HeldClaim)

/-! ## The layouts -/

/-- One machine refers to the other as a device. -/
def Refers (entries : List Entry) (first node : Entry) : Prop :=
  Worklist.Refers (entryByName entries) (fun entry => entry.deviceRefs.getD []) first node

/-- What a standalone set holds: the machine's claims and those of its devices. -/
def InStandalone (entries : List Entry) (entry : Entry) (held : HeldClaim) : Prop :=
  held.entry = entry ∨ Relation.TransGen (Refers entries) entry held.entry

/-- The parent of an entry, by its id. -/
def parentOf (entries : List Entry) (entryId : Nat) : Option Nat :=
  (entries.find? fun entry => entry.entryId = entryId).bind Entry.cloneofId

/-- The top of a cloneof chain, and how far up it is. -/
inductive TopAt (entries : List Entry) : Nat → Nat → Nat → Prop
  | here {entryId : Nat} (hparent : parentOf entries entryId = none) :
      TopAt entries 0 entryId entryId
  | above {hops entryId parent top : Nat} (hparent : parentOf entries entryId = some parent)
      (htop : TopAt entries hops parent top) : TopAt entries (hops + 1) entryId top

/-- The name of the entry with an id, or another one. -/
def nameOr (entries : List Entry) (entryId : Nat) (name : Text) : Text :=
  ((entries.find? fun entry => entry.entryId = entryId).map Entry.name).getD name

/-- The merged set that an entry's claims belong to: its own for devices and bioses, that of the
top of its chain for the others. -/
def MergedInto (entries : List Entry) (entry : Entry) (name : Text) : Prop :=
  if entry.isDevice ∨ entry.isBios then name = entry.name
  else ∃ hops top, TopAt entries hops entry.entryId top ∧ name = nameOr entries top entry.name

/-- Some row says that the set has the file with the content. -/
def RowsHave (rows : List Picked) (name file : Text) (hash : Blake3) : Prop :=
  ∃ row ∈ rows, row.entry = name ∧ row.claim = file ∧ row.hash = hash

/-- What the standalone set of a machine should hold. -/
def StandaloneHolds (entries : List Entry) (held : List HeldClaim) (entry : Entry) (file : Text)
    (hash : Blake3) : Prop :=
  ∃ claim ∈ held, InStandalone entries entry claim ∧ HeldClaim.fileName claim = file ∧
    claim.hash = hash

/-- The three layouts of a machine list carry its claims. -/
structure MergeModesAgree (entries : List Entry) (held : List HeldClaim)
    (nonMerged split merged : MameRender) : Prop where
  standalone : ∀ entry ∈ entries, entry.isDevice = false → ∀ file hash,
    RowsHave nonMerged.rows entry.name file hash ↔ StandaloneHolds entries held entry file hash
  once : (nonMerged.rows.map fun row => (row.entry, row.claim, row.hash)).Nodup
  splitSets : ∀ name file hash, RowsHave split.rows name file hash ↔
    ∃ claim ∈ held, claim.claim.mergeName = none ∧ claim.entry.name = name ∧
      HeldClaim.fileName claim = file ∧ claim.hash = hash
  mergedSets : ∀ name file hash, RowsHave merged.rows name file hash ↔
    ∃ claim ∈ held, claim.claim.mergeName = none ∧ MergedInto entries claim.entry name ∧
      HeldClaim.fileName claim = file ∧ claim.hash = hash
  preserved : ∀ row ∈ nonMerged.rows,
    (∃ other ∈ split.rows, other.hash = row.hash) ∧ ∃ other ∈ merged.rows, other.hash = row.hash

/-- When they do: attributes parse and cloneof chains are short, machines of one name hold the
same, and what a claim leaves to its parent is held somewhere without a merge name. -/
structure CarriesContent (entries : List Entry) (held : List HeldClaim) : Prop where
  attrs : ∀ entry ∈ entries, entry.deviceRefs ≠ none
  chains : ∀ entry ∈ entries, entry.isDevice = false → entry.isBios = false →
    ∃ hops ≤ 32, ∃ top, TopAt entries hops entry.entryId top
  names : ∀ entry ∈ entries, ∀ other ∈ entries, entry.isDevice = false →
    other.isDevice = false → entry.name = other.name → ∀ file hash,
      StandaloneHolds entries held entry file hash → StandaloneHolds entries held other file hash
  parents : ∀ claim ∈ held, claim.claim.mergeName ≠ none →
    (∃ entry ∈ entries, entry.isDevice = false ∧ InStandalone entries entry claim) →
      ∃ other ∈ held, other.claim.mergeName = none ∧ other.hash = claim.hash

/-! ## Rendering in any order -/

/-- The held claims of one entry. -/
def heldOf (heldRows : List HeldClaim) (entryId : Nat) : List HeldClaim :=
  heldRows.filter fun held => held.entry.entryId = entryId

/-- `render_sets` over rows that are read in some order, and over a map of entries that is
walked in some order. -/
def renderSetsFrom (entries ordered : List Entry) (heldRows : List HeldClaim) (mode : MameMode) :
    Except CatalogError MameRender := do
  if entries.any fun entry => entry.deviceRefs.isNone then throw (.corrupt "entry attrs")
  let render ← renderEntries entries (heldOf heldRows) mode ordered
  return { render with
    rows := keepFirst (fun row => (row.entry, row.claim, row.hash)) [] render.rows }

/-! ### The device closure -/

section Closure

variable {entries : List Entry} {held : Nat → List HeldClaim}

/-- The loop is a worklist search whose trace gives the claims and the dangling references. -/
theorem closureLoop_eq (fuel : Nat) (visited : List Nat) (queue : List Text) :
    closureLoop entries held fuel visited queue =
      let trace := Worklist.expand (entryByName entries) Entry.entryId
        (fun entry => (entry.deviceRefs.getD []).reverse) fuel visited queue
      (trace.flatMap fun node => node.elim [] fun entry => held entry.entryId,
        trace.countP fun node => node.isNone) := by
  induction fuel generalizing visited queue with
  | zero => rfl
  | succ fuel ih =>
    cases queue with
    | nil => rfl
    | cons name queue =>
      rw [closureLoop, Worklist.expand]
      cases entryByName entries name with
      | none =>
        simp only
        rw [ih]
        simp
      | some entry =>
        simp only
        by_cases hvisited : entry.entryId ∈ visited
        · rw [if_pos hvisited, if_pos hvisited]
          exact ih visited queue
        · rw [if_neg hvisited, if_neg hvisited, ih]
          simp

theorem entryByName_mem {name : Text} {entry : Entry}
    (hfound : entryByName entries name = some entry) : entry ∈ entries :=
  List.mem_reverse.mp (List.mem_of_find?_eq_some hfound)

/-- The references of all entries are fuel enough. -/
theorem fuel_suffices (start : Entry) :
    (start.deviceRefs.getD []).reverse.length +
        Worklist.pending Entry.entryId (fun entry => (entry.deviceRefs.getD []).reverse) []
          entries <
      (start.deviceRefs.getD []).length +
        (entries.map fun entry => (entry.deviceRefs.getD []).length).sum + 1 := by
  rw [Worklist.pending_nil, List.length_reverse]
  simp only [List.length_reverse]
  exact Nat.lt_succ_self _

/-- More fuel changes neither the claims nor the count. -/
theorem closureClaims_fuel (start : Entry) (more : Nat) :
    closureLoop entries held
        ((start.deviceRefs.getD []).length +
          (entries.map fun entry => (entry.deviceRefs.getD []).length).sum + 1 + more)
        [] (start.deviceRefs.getD []).reverse =
      closureClaims entries held start := by
  rw [closureClaims, closureLoop_eq, closureLoop_eq,
    Worklist.expand_fuel (fun _ _ => entryByName_mem) (fuel_suffices start) more]

theorem refers_reverse : Worklist.Refers (entryByName entries)
    (fun entry => (entry.deviceRefs.getD []).reverse) = Refers entries := by
  funext first node
  simp only [Worklist.Refers, Refers, List.mem_reverse]

theorem refers_mem {first node : Entry} (hchain : Relation.TransGen (Refers entries) first node) :
    node ∈ entries := by
  cases hchain with
  | single hrefers =>
    obtain ⟨_, _, hfound⟩ := hrefers
    exact entryByName_mem hfound
  | tail _ hrefers =>
    obtain ⟨_, _, hfound⟩ := hrefers
    exact entryByName_mem hfound

theorem mem_closureClaims (hids : (entries.map Entry.entryId).Nodup) {start : Entry}
    {claim : HeldClaim} :
    claim ∈ (closureClaims entries held start).1 ↔
      ∃ entry, Relation.TransGen (Refers entries) start entry ∧ claim ∈ held entry.entryId := by
  have hkey : ∀ m n a b, entryByName entries m = some a → entryByName entries n = some b →
      a.entryId = b.entryId → a = b := fun m n a b ha hb hid =>
    List.inj_on_of_nodup_map hids (entryByName_mem ha) (entryByName_mem hb) hid
  have hreach : ∀ entry, some entry ∈ Worklist.expand (entryByName entries) Entry.entryId
      (fun entry => (entry.deviceRefs.getD []).reverse) _ [] (start.deviceRefs.getD []).reverse ↔
        Relation.TransGen (Refers entries) start entry := fun entry => by
    rw [Worklist.mem_expand (fun _ _ => entryByName_mem) hkey (fuel_suffices start),
      ← refers_reverse]
    exact Worklist.reach_nil_iff
  rw [closureClaims, closureLoop_eq, List.mem_flatMap]
  constructor
  · rintro ⟨node, hnode, hclaim⟩
    cases node with
    | none => exact absurd hclaim List.not_mem_nil
    | some entry => exact ⟨entry, (hreach entry).mp hnode, hclaim⟩
  · rintro ⟨entry, hchain, hclaim⟩
    exact ⟨some entry, (hreach entry).mpr hchain, hclaim⟩

end Closure

/-! ### Cloneof chains -/

section Chains

variable {entries : List Entry}

variable {entryId limit : Nat}

theorem TopAt.unique {hops more top other : Nat} (htop : TopAt entries hops entryId top)
    (hother : TopAt entries more entryId other) : top = other := by
  induction htop generalizing more with
  | here hparent =>
    cases hother with
    | here => rfl
    | above habove =>
      rw [hparent] at habove
      cases habove
  | above hparent _ ih =>
    cases hother with
    | here hnone =>
      rw [hparent] at hnone
      cases hnone
    | above habove hother =>
      rw [hparent, Option.some.injEq] at habove
      subst habove
      exact ih hother

theorem topOf_of_none (hparent : parentOf entries entryId = none) :
    topOf entries limit entryId = some entryId := by
  unfold parentOf at hparent
  cases limit with
  | zero => rw [topOf, hparent]
  | succ limit => rw [topOf, hparent]

theorem topOf_zero_of_some {parent : Nat} (hparent : parentOf entries entryId = some parent) :
    topOf entries 0 entryId = none := by
  unfold parentOf at hparent
  rw [topOf, hparent]

theorem topOf_succ_of_some {parent : Nat} (hparent : parentOf entries entryId = some parent) :
    topOf entries (limit + 1) entryId = topOf entries limit parent := by
  unfold parentOf at hparent
  rw [topOf, hparent]

theorem topOf_eq_some {top : Nat} :
    topOf entries limit entryId = some top ↔ ∃ hops ≤ limit, TopAt entries hops entryId top := by
  induction limit generalizing entryId with
  | zero =>
    cases hparent : parentOf entries entryId with
    | none =>
      rw [topOf_of_none hparent, Option.some.injEq]
      constructor
      · rintro rfl
        exact ⟨0, Nat.le_refl _, .here hparent⟩
      · rintro ⟨hops, -, htop⟩
        exact (TopAt.here hparent).unique htop
    | some parent =>
      rw [topOf_zero_of_some hparent]
      refine ⟨fun htop => (by cases htop), ?_⟩
      rintro ⟨hops, hle, htop⟩
      cases htop with
      | here hnone =>
        rw [hparent] at hnone
        cases hnone
      | above _ _ => exact absurd hle (Nat.not_succ_le_zero _)
  | succ limit ih =>
    cases hparent : parentOf entries entryId with
    | none =>
      rw [topOf_of_none hparent, Option.some.injEq]
      constructor
      · rintro rfl
        exact ⟨0, Nat.zero_le _, .here hparent⟩
      · rintro ⟨hops, -, htop⟩
        exact (TopAt.here hparent).unique htop
    | some parent =>
      rw [topOf_succ_of_some hparent, ih]
      constructor
      · rintro ⟨hops, hle, htop⟩
        exact ⟨hops + 1, Nat.succ_le_succ hle, .above hparent htop⟩
      · rintro ⟨hops, hle, htop⟩
        cases htop with
        | here hnone =>
          rw [hparent] at hnone
          cases hnone
        | above habove htop =>
          rw [hparent, Option.some.injEq] at habove
          subst habove
          exact ⟨_, Nat.le_of_succ_le_succ hle, htop⟩

end Chains

/-! ### The sets of one walk -/

theorem rowsHave_keepFirst {rows : List Picked} {name file : Text} {hash : Blake3} :
    RowsHave (keepFirst (fun row => (row.entry, row.claim, row.hash)) [] rows) name file hash ↔
      RowsHave rows name file hash := by
  constructor
  · rintro ⟨row, hrow, hfields⟩
    exact ⟨row, keepFirst_subset _ _ _ hrow, hfields⟩
  · rintro ⟨row, hrow, rfl, rfl, rfl⟩
    obtain ⟨kept, hkept, heq⟩ := exists_mem_keepFirst
      (fun row : Picked => (row.entry, row.claim, row.hash)) hrow List.not_mem_nil
    rw [Prod.mk.injEq, Prod.mk.injEq] at heq
    exact ⟨kept, hkept, heq⟩

theorem rowsHave_emit {anchor : Nat} {setName name file : Text} {claims : List HeldClaim}
    {hash : Blake3} : RowsHave (emit anchor setName claims) name file hash ↔
      setName = name ∧ ∃ claim ∈ claims, HeldClaim.fileName claim = file ∧ claim.hash = hash := by
  constructor
  · rintro ⟨row, hrow, hname, hfile, hhash⟩
    obtain ⟨claim, hclaim, rfl⟩ := List.mem_map.mp hrow
    exact ⟨hname, claim, keepFirst_subset _ _ _ hclaim, hfile, hhash⟩
  · rintro ⟨rfl, claim, hclaim, rfl, rfl⟩
    obtain ⟨kept, hkept, heq⟩ := exists_mem_keepFirst
      (fun held => (HeldClaim.fileName held, held.hash)) hclaim List.not_mem_nil
    rw [Prod.mk.injEq] at heq
    exact ⟨_, List.mem_map_of_mem hkept, rfl, heq⟩

section Walk

variable {entries ordered : List Entry} {held : Nat → List HeldClaim} {mode : MameMode}

/-- A walk succeeds if every entry does, with the rows of all of them. -/
theorem renderEntries_spec {render : Entry → MameRender}
    (hentry : ∀ entry ∈ ordered, renderEntry entries held mode entry = .ok (render entry)) :
    ∃ whole, renderEntries entries held mode ordered = .ok whole ∧
      ∀ row, row ∈ whole.rows ↔ ∃ entry ∈ ordered, row ∈ (render entry).rows := by
  induction ordered with
  | nil =>
    refine ⟨{}, rfl, fun row => ⟨fun hrow => absurd hrow List.not_mem_nil, ?_⟩⟩
    rintro ⟨entry, hmem, -⟩
    exact absurd hmem List.not_mem_nil
  | cons entry rest ih =>
    obtain ⟨others, hothers, hrows⟩ := ih fun other hother =>
      hentry other (List.mem_cons_of_mem _ hother)
    rw [renderEntries, hentry entry List.mem_cons_self, hothers]
    refine ⟨_, rfl, fun row => ?_⟩
    rw [List.mem_append, hrows]
    constructor
    · rintro (hfirst | ⟨other, hother, hrow⟩)
      · exact ⟨entry, List.mem_cons_self, hfirst⟩
      · exact ⟨other, List.mem_cons_of_mem _ hother, hrow⟩
    · rintro ⟨other, hother, hrow⟩
      rcases List.mem_cons.mp hother with rfl | hother
      · exact Or.inl hrow
      · exact Or.inr ⟨other, hother, hrow⟩

/-- A walk that succeeds has succeeded at every entry. -/
theorem renderEntry_of_walk {whole : MameRender}
    (hwalk : renderEntries entries held mode ordered = .ok whole) :
    ∀ entry ∈ ordered, ∃ render, renderEntry entries held mode entry = .ok render := by
  induction ordered generalizing whole with
  | nil => exact fun entry hentry => absurd hentry List.not_mem_nil
  | cons first rest ih =>
    rw [renderEntries] at hwalk
    cases hfirst : renderEntry entries held mode first with
    | error e =>
      rw [hfirst] at hwalk
      cases hwalk
    | ok render =>
      cases hothers : renderEntries entries held mode rest with
      | error e =>
        rw [hfirst, hothers] at hwalk
        cases hwalk
      | ok others =>
        intro entry hentry
        rcases List.mem_cons.mp hentry with rfl | hentry
        · exact ⟨render, hfirst⟩
        · exact ih hothers entry hentry

end Walk

/-! ## The three layouts -/

/-- Rows as the tables can give them: ids are unique, every held claim belongs to an entry, and
the walk meets every entry. -/
structure Reading (entries ordered : List Entry) (heldRows : List HeldClaim) : Prop where
  ids : (entries.map Entry.entryId).Nodup
  held : ∀ claim ∈ heldRows, claim.entry ∈ entries
  ordered : ∀ entry, entry ∈ ordered ↔ entry ∈ entries

section Layouts

variable {entries ordered : List Entry} {heldRows : List HeldClaim} {mode : MameMode}

theorem Reading.mem_heldOf (hreading : Reading entries ordered heldRows) {entry : Entry}
    (hentry : entry ∈ entries) {claim : HeldClaim} :
    claim ∈ heldOf heldRows entry.entryId ↔ claim ∈ heldRows ∧ claim.entry = entry := by
  rw [heldOf, List.mem_filter, decide_eq_true_eq]
  refine and_congr_right fun hclaim => ⟨fun hid => ?_, fun heq => congrArg Entry.entryId heq⟩
  exact List.inj_on_of_nodup_map hreading.ids (hreading.held claim hclaim) hentry hid

variable (mode) in
theorem renderSetsFrom_spec (hreading : Reading entries ordered heldRows)
    (render : Entry → MameRender) (hattrs : ∀ entry ∈ entries, entry.deviceRefs ≠ none)
    (hentry : ∀ entry ∈ entries,
      renderEntry entries (heldOf heldRows) mode entry = .ok (render entry)) :
    ∃ whole, renderSetsFrom entries ordered heldRows mode = .ok whole ∧
      (whole.rows.map fun row => (row.entry, row.claim, row.hash)).Nodup ∧
      ∀ name file hash, RowsHave whole.rows name file hash ↔
        ∃ entry ∈ entries, RowsHave (render entry).rows name file hash := by
  obtain ⟨whole, hwhole, hrows⟩ := renderEntries_spec fun entry hmem =>
    hentry entry ((hreading.ordered entry).mp hmem)
  have hparse : ¬ (entries.any fun entry => entry.deviceRefs.isNone) = true := by
    intro hany
    obtain ⟨entry, hmem, hnone⟩ := List.any_eq_true.mp hany
    exact hattrs entry hmem (Option.isNone_iff_eq_none.mp hnone)
  rw [renderSetsFrom, if_neg hparse, hwhole]
  refine ⟨_, rfl, (keepFirst_nodup _ _ _).1, fun name file hash => ?_⟩
  rw [rowsHave_keepFirst]
  constructor
  · rintro ⟨row, hrow, hfields⟩
    obtain ⟨entry, hmem, hrow⟩ := (hrows row).mp hrow
    exact ⟨entry, (hreading.ordered entry).mp hmem, row, hrow, hfields⟩
  · rintro ⟨entry, hmem, row, hrow, hfields⟩
    exact ⟨row, (hrows row).mpr ⟨entry, (hreading.ordered entry).mpr hmem, hrow⟩, hfields⟩

section

variable (hreading : Reading entries ordered heldRows)

include hreading

/-- What a result tells of the entries. -/
theorem of_renderSetsFrom {whole : MameRender}
    (hrun : renderSetsFrom entries ordered heldRows mode = .ok whole) :
    (∀ entry ∈ entries, entry.deviceRefs ≠ none) ∧ ∀ entry ∈ entries,
      ∃ render, renderEntry entries (heldOf heldRows) mode entry = .ok render := by
  rw [renderSetsFrom] at hrun
  by_cases hany : (entries.any fun entry => entry.deviceRefs.isNone) = true
  · rw [if_pos hany] at hrun
    cases hrun
  · rw [if_neg hany] at hrun
    cases hwalk : renderEntries entries (heldOf heldRows) mode ordered with
    | error e =>
      rw [hwalk] at hrun
      cases hrun
    | ok rows =>
      refine ⟨fun entry hmem hnone => hany ?_, fun entry hmem => ?_⟩
      · exact List.any_eq_true.mpr ⟨entry, hmem, Option.isNone_iff_eq_none.mpr hnone⟩
      · exact renderEntry_of_walk hwalk entry ((hreading.ordered entry).mpr hmem)

/-- Standalone sets. -/
theorem nonMerged_spec (hattrs : ∀ entry ∈ entries, entry.deviceRefs ≠ none) :
    ∃ whole, renderSetsFrom entries ordered heldRows .nonMerged = .ok whole ∧
      (whole.rows.map fun row => (row.entry, row.claim, row.hash)).Nodup ∧
      ∀ name file hash, RowsHave whole.rows name file hash ↔ ∃ entry ∈ entries,
        entry.isDevice = false ∧ entry.name = name ∧
          StandaloneHolds entries heldRows entry file hash := by
  obtain ⟨whole, hwhole, hnodup, hrows⟩ := renderSetsFrom_spec .nonMerged hreading
    (fun entry => if entry.isDevice then {} else
      ⟨emit entry.entryId entry.name (heldOf heldRows entry.entryId ++
          (closureClaims entries (heldOf heldRows) entry).1),
        (closureClaims entries (heldOf heldRows) entry).2⟩)
    hattrs fun entry _ => by
      rw [renderEntry]
      split
      · rfl
      · rfl
  refine ⟨whole, hwhole, hnodup, fun name file hash => (hrows name file hash).trans ?_⟩
  refine exists_congr fun entry => and_congr_right fun hentry => ?_
  cases hdevice : entry.isDevice with
  | true =>
    rw [if_pos rfl]
    refine ⟨?_, fun h => (by cases h.1)⟩
    rintro ⟨row, hrow, -⟩
    cases hrow
  | false =>
    rw [if_neg Bool.false_ne_true, rowsHave_emit, and_iff_right (rfl : false = false)]
    refine and_congr_right fun _ => exists_congr fun claim => ?_
    rw [List.mem_append, hreading.mem_heldOf hentry, mem_closureClaims hreading.ids]
    constructor
    · rintro ⟨⟨hclaim, howner⟩ | ⟨device, hchain, hclaim⟩, hfields⟩
      · exact ⟨hclaim, Or.inl howner, hfields⟩
      · obtain ⟨hmem, howner⟩ := (hreading.mem_heldOf (refers_mem hchain)).mp hclaim
        rw [← howner] at hchain
        exact ⟨hmem, Or.inr hchain, hfields⟩
    · rintro ⟨hclaim, howner | hchain, hfields⟩
      · exact ⟨Or.inl ⟨hclaim, howner⟩, hfields⟩
      · refine ⟨Or.inr ⟨claim.entry, hchain, ?_⟩, hfields⟩
        exact (hreading.mem_heldOf (hreading.held claim hclaim)).mpr ⟨hclaim, rfl⟩

/-- The claims of an entry that have no merge name. -/
theorem rowsHave_unmerged {entry : Entry} (hentry : entry ∈ entries) {anchor : Nat}
    {setName name file : Text} {hash : Blake3} :
    RowsHave (emit anchor setName ((heldOf heldRows entry.entryId).filter fun claim =>
      claim.claim.mergeName.isNone)) name file hash ↔
      setName = name ∧ ∃ claim ∈ heldRows, claim.entry = entry ∧ claim.claim.mergeName = none ∧
        HeldClaim.fileName claim = file ∧ claim.hash = hash := by
  rw [rowsHave_emit]
  refine and_congr_right fun _ => exists_congr fun claim => ?_
  rw [List.mem_filter, hreading.mem_heldOf hentry, Option.isNone_iff_eq_none, and_assoc, and_assoc]

/-- Split sets. -/
theorem split_spec (hattrs : ∀ entry ∈ entries, entry.deviceRefs ≠ none) :
    ∃ whole, renderSetsFrom entries ordered heldRows .split = .ok whole ∧
      ∀ name file hash, RowsHave whole.rows name file hash ↔
        ∃ claim ∈ heldRows, claim.claim.mergeName = none ∧ claim.entry.name = name ∧
          HeldClaim.fileName claim = file ∧ claim.hash = hash := by
  obtain ⟨whole, hwhole, -, hrows⟩ := renderSetsFrom_spec .split hreading
    (fun entry => ⟨emit entry.entryId entry.name
      ((heldOf heldRows entry.entryId).filter fun claim => claim.claim.mergeName.isNone), 0⟩)
    hattrs fun entry _ => rfl
  refine ⟨whole, hwhole, fun name file hash => (hrows name file hash).trans ?_⟩
  constructor
  · rintro ⟨entry, hentry, hrow⟩
    obtain ⟨hname, claim, hclaim, rfl, hmerge, hfields⟩ :=
      (rowsHave_unmerged hreading hentry).mp hrow
    exact ⟨claim, hclaim, hmerge, hname, hfields⟩
  · rintro ⟨claim, hclaim, hmerge, hname, hfields⟩
    refine ⟨claim.entry, hreading.held claim hclaim, ?_⟩
    exact (rowsHave_unmerged hreading (hreading.held claim hclaim)).mpr
      ⟨hname, claim, hclaim, rfl, hmerge, hfields⟩

end

/-- Where an entry's claims go in merged mode. -/
def mergedName (entries : List Entry) (entry : Entry) : Text :=
  if entry.isDevice ∨ entry.isBios then entry.name
  else nameOr entries ((topOf entries 32 entry.entryId).getD 0) entry.name

/-- Merged sets, as long as the chains are short. -/
theorem merged_spec (hreading : Reading entries ordered heldRows)
    (hattrs : ∀ entry ∈ entries, entry.deviceRefs ≠ none)
    (hchains : ∀ entry ∈ entries, entry.isDevice = false → entry.isBios = false →
      ∃ hops ≤ 32, ∃ top, TopAt entries hops entry.entryId top) :
    ∃ whole, renderSetsFrom entries ordered heldRows .merged = .ok whole ∧
      ∀ name file hash, RowsHave whole.rows name file hash ↔
        ∃ claim ∈ heldRows, claim.claim.mergeName = none ∧
          MergedInto entries claim.entry name ∧ HeldClaim.fileName claim = file ∧
            claim.hash = hash := by
  have hinto : ∀ entry ∈ entries, ∀ name,
      mergedName entries entry = name ↔ MergedInto entries entry name := by
    intro entry hentry name
    rw [mergedName, MergedInto]
    split
    · exact eq_comm
    · rename_i hplain
      rw [not_or, Bool.not_eq_true, Bool.not_eq_true] at hplain
      obtain ⟨hops, hle, top, htop⟩ := hchains entry hentry hplain.1 hplain.2
      rw [topOf_eq_some.mpr ⟨hops, hle, htop⟩, Option.getD_some]
      constructor
      · rintro rfl
        exact ⟨hops, top, htop, rfl⟩
      · rintro ⟨more, other, hother, rfl⟩
        rw [htop.unique hother]
  obtain ⟨whole, hwhole, -, hrows⟩ := renderSetsFrom_spec .merged hreading
    (fun entry => ⟨emit (if entry.isDevice ∨ entry.isBios then entry.entryId
        else (topOf entries 32 entry.entryId).getD 0) (mergedName entries entry)
      ((heldOf heldRows entry.entryId).filter fun claim => claim.claim.mergeName.isNone), 0⟩)
    hattrs fun entry hentry => by
      rw [renderEntry, mergedName]
      split
      · rfl
      · rename_i hplain
        rw [not_or, Bool.not_eq_true, Bool.not_eq_true] at hplain
        obtain ⟨hops, hle, top, htop⟩ := hchains entry hentry hplain.1 hplain.2
        rw [topOf_eq_some.mpr ⟨hops, hle, htop⟩]
        rfl
  refine ⟨whole, hwhole, fun name file hash => (hrows name file hash).trans ?_⟩
  constructor
  · rintro ⟨entry, hentry, hrow⟩
    obtain ⟨hname, claim, hclaim, rfl, hmerge, hfields⟩ :=
      (rowsHave_unmerged hreading hentry).mp hrow
    exact ⟨claim, hclaim, hmerge, (hinto _ hentry name).mp hname, hfields⟩
  · rintro ⟨claim, hclaim, hmerge, hname, hfields⟩
    have hentry := hreading.held claim hclaim
    refine ⟨claim.entry, hentry, ?_⟩
    exact (rowsHave_unmerged hreading hentry).mpr
      ⟨(hinto _ hentry name).mpr hname, claim, hclaim, rfl, hmerge, hfields⟩

/-- All three layouts are there and carry the claims. -/
def Laid (entries ordered : List Entry) (heldRows : List HeldClaim) : Prop :=
  ∃ nonMerged split merged,
    renderSetsFrom entries ordered heldRows .nonMerged = .ok nonMerged ∧
    renderSetsFrom entries ordered heldRows .split = .ok split ∧
    renderSetsFrom entries ordered heldRows .merged = .ok merged ∧
    MergeModesAgree entries heldRows nonMerged split merged

theorem Reading.carriesContent (hreading : Reading entries ordered heldRows)
    (hlaid : Laid entries ordered heldRows) : CarriesContent entries heldRows := by
  obtain ⟨nonMerged, split, merged, -, -, hmerged, hagree⟩ := hlaid
  obtain ⟨hattrs, hwalk⟩ := of_renderSetsFrom hreading hmerged
  refine ⟨hattrs, fun entry hentry hdevice hbios => ?_, ?_, ?_⟩
  · obtain ⟨render, hrender⟩ := hwalk entry hentry
    have hplain : ¬ (entry.isDevice = true ∨ entry.isBios = true) := by
      rw [hdevice, hbios]
      decide
    rw [renderEntry, if_neg hplain] at hrender
    cases htop : topOf entries 32 entry.entryId with
    | none =>
      rw [htop] at hrender
      cases hrender
    | some top =>
      obtain ⟨hops, hle, htop⟩ := topOf_eq_some.mp htop
      exact ⟨hops, hle, top, htop⟩
  · intro entry hentry other hother hdevice hother' hname file hash hholds
    refine (hagree.standalone other hother hother' file hash).mp ?_
    rw [← hname]
    exact (hagree.standalone entry hentry hdevice file hash).mpr hholds
  · rintro claim hclaim - ⟨entry, hentry, hdevice, hset⟩
    have hhas := (hagree.standalone entry hentry hdevice _ _).mpr
      ⟨claim, hclaim, hset, rfl, rfl⟩
    obtain ⟨row, hrow, -, -, hhash⟩ := hhas
    obtain ⟨other, hother, hsame⟩ := (hagree.preserved row hrow).1
    obtain ⟨found, hfound, hmerge, -, -, hcontent⟩ :=
      (hagree.splitSets other.entry other.claim other.hash).mp ⟨other, hother, rfl, rfl, rfl⟩
    exact ⟨found, hfound, hmerge, hcontent.trans (hsame.trans hhash)⟩

theorem Reading.laid (hreading : Reading entries ordered heldRows)
    (hcarries : CarriesContent entries heldRows) : Laid entries ordered heldRows := by
  obtain ⟨nonMerged, hnonMerged, honce, hstandalone⟩ := nonMerged_spec hreading hcarries.attrs
  obtain ⟨split, hsplit, hsplitSets⟩ := split_spec hreading hcarries.attrs
  obtain ⟨merged, hmerged, hmergedSets⟩ := merged_spec hreading hcarries.attrs hcarries.chains
  refine ⟨nonMerged, split, merged, hnonMerged, hsplit, hmerged, ?_, honce, hsplitSets,
    hmergedSets, fun row hrow => ?_⟩
  · intro entry hentry hdevice file hash
    rw [hstandalone]
    constructor
    · rintro ⟨other, hother, hother', hname, hholds⟩
      exact hcarries.names other hother entry hentry hother' hdevice hname file hash hholds
    · exact fun hholds => ⟨entry, hentry, hdevice, rfl, hholds⟩
  · obtain ⟨entry, hentry, hdevice, -, claim, hclaim, hset, -, hhash⟩ :=
      (hstandalone row.entry row.claim row.hash).mp ⟨row, hrow, rfl, rfl, rfl⟩
    -- some claim without a merge name has the content
    obtain ⟨found, hfound, hmerge, hcontent⟩ : ∃ found ∈ heldRows,
        found.claim.mergeName = none ∧ found.hash = claim.hash := by
      by_cases hown : claim.claim.mergeName = none
      · exact ⟨claim, hclaim, hown, rfl⟩
      · exact hcarries.parents claim hclaim hown ⟨entry, hentry, hdevice, hset⟩
    rw [← hhash, ← hcontent]
    constructor
    · obtain ⟨other, hother, -, -, hsame⟩ := (hsplitSets _ _ found.hash).mpr
        ⟨found, hfound, hmerge, rfl, rfl, rfl⟩
      exact ⟨other, hother, hsame⟩
    · have hinto : ∃ name, MergedInto entries found.entry name := by
        unfold MergedInto
        split
        · exact ⟨_, rfl⟩
        · rename_i hplain
          rw [not_or, Bool.not_eq_true, Bool.not_eq_true] at hplain
          obtain ⟨hops, -, top, htop⟩ :=
            hcarries.chains found.entry (hreading.held found hfound) hplain.1 hplain.2
          exact ⟨_, hops, top, htop, rfl⟩
      obtain ⟨name, hname⟩ := hinto
      obtain ⟨other, hother, -, -, hsame⟩ := (hmergedSets name _ found.hash).mpr
        ⟨found, hfound, hmerge, hname, rfl, rfl⟩
      exact ⟨other, hother, hsame⟩

end Layouts

theorem entry_of_heldClaims {state : CatalogState} {revision : Nat} {held : HeldClaim}
    (hmem : held ∈ state.heldClaims revision) :
    held.entry ∈ state.entries.filter fun entry => entry.revisionId = revision := by
  rw [CatalogState.heldClaims, List.mem_insertionSort] at hmem
  obtain ⟨claim, hclaim, hheld⟩ := List.mem_filterMap.mp hmem
  obtain ⟨entry, hentry, hheld⟩ := Option.bind_eq_some_iff.mp hheld
  obtain ⟨_, hguard, hheld⟩ := Option.bind_eq_some_iff.mp hheld
  obtain ⟨_, _, hheld⟩ := Option.bind_eq_some_iff.mp hheld
  obtain ⟨_, _, hheld⟩ := Option.bind_eq_some_iff.mp hheld
  cases hheld
  refine List.mem_filter.mpr ⟨List.mem_of_find?_eq_some hentry, ?_⟩
  by_cases hjoined : entry.revisionId = revision ∧ claim.status ≠ 2 ∧ !claim.isOptional
  · exact decide_eq_true hjoined.1
  · rw [guard, if_neg hjoined] at hguard
    cases hguard

/-- In whatever order tables and maps are read, the device closure comes to an end, and the
three layouts are there and carry the held claims exactly under the condition. -/
theorem merge_modes_agree_iff (state : CatalogState) (revision : Nat)
    {entries ordered : List Entry} {heldRows : List HeldClaim}
    (hentries : entries.Perm (state.entries.filter fun entry => entry.revisionId = revision))
    (hordered : ordered.Perm entries) (hheld : heldRows.Perm (state.heldClaims revision)) :
    (∀ start more, closureLoop entries (heldOf heldRows)
        ((start.deviceRefs.getD []).length +
          (entries.map fun entry => (entry.deviceRefs.getD []).length).sum + 1 + more)
        [] (start.deviceRefs.getD []).reverse =
      closureClaims entries (heldOf heldRows) start) ∧
    (Laid entries ordered heldRows ↔ CarriesContent entries heldRows) := by
  have hreading : Reading entries ordered heldRows := by
    refine ⟨?_, fun claim hclaim => ?_, fun entry => hordered.mem_iff⟩
    · refine (hentries.map Entry.entryId).nodup_iff.mpr ?_
      exact state.entryKey.sublist (List.filter_sublist.map _)
    · exact hentries.mem_iff.mpr (entry_of_heldClaims (hheld.mem_iff.mp hclaim))
  exact ⟨closureClaims_fuel, hreading.carriesContent, hreading.laid⟩

/-- A parent without roms and a clone with one, which may name a rom of the parent. -/
def cloneCatalog (mergeName : Option Text) : CatalogState where
  index := (Db.empty.upsertBlob 1 (some 10) .data .resident).1
  entries := [{ entryId := 1, revisionId := 1, name := "parent".toList },
    { entryId := 2, revisionId := 1, name := "clone".toList, cloneofId := some 1 }]
  claims := [
    { claimId := 1, entryId := 2, name := "rom".toList, mergeName := mergeName,
      identityId := some 1 }]
  identityBlobs := [⟨1, 1, 2⟩]
  entryKey := by decide
  claimKey := List.nodup_singleton _
  identityBlobKey := by decide

/-- The clone's own rom is in the clone's set, or in its parent's. -/
theorem merge_modes_agree_iff_clone :
    Laid ((cloneCatalog none).entries.filter fun entry => entry.revisionId = 1)
        ((cloneCatalog none).entries.filter fun entry => entry.revisionId = 1)
        ((cloneCatalog none).heldClaims 1) ↔
      CarriesContent ((cloneCatalog none).entries.filter fun entry => entry.revisionId = 1)
        ((cloneCatalog none).heldClaims 1) :=
  (merge_modes_agree_iff (cloneCatalog none) 1 (List.Perm.refl _) (List.Perm.refl _)
    (List.Perm.refl _)).2

/-- A rom that the parent does not list is in the standalone set only. -/
theorem merge_modes_lose_rom :
    ¬ Laid ((cloneCatalog (some "rom".toList)).entries.filter fun entry => entry.revisionId = 1)
        ((cloneCatalog (some "rom".toList)).entries.filter fun entry => entry.revisionId = 1)
        ((cloneCatalog (some "rom".toList)).heldClaims 1) := by
  intro hlaid
  have hreading : Reading
      ((cloneCatalog (some "rom".toList)).entries.filter fun entry => entry.revisionId = 1)
      ((cloneCatalog (some "rom".toList)).entries.filter fun entry => entry.revisionId = 1)
      ((cloneCatalog (some "rom".toList)).heldClaims 1) :=
    ⟨by decide, fun claim hclaim => entry_of_heldClaims hclaim, fun _ => Iff.rfl⟩
  have hmerged : ∀ claim ∈ (cloneCatalog (some "rom".toList)).heldClaims 1,
      claim.claim.mergeName ≠ none ∧ claim.entry.isDevice = false := by decide +kernel
  obtain ⟨claim, hclaim⟩ : ∃ claim, claim ∈ (cloneCatalog (some "rom".toList)).heldClaims 1 :=
    List.exists_mem_of_ne_nil _ (by decide +kernel)
  obtain ⟨other, hother, hown, -⟩ := (hreading.carriesContent hlaid).parents claim hclaim
    (hmerged claim hclaim).1
    ⟨claim.entry, hreading.held claim hclaim, (hmerged claim hclaim).2, Or.inl rfl⟩
  exact (hmerged other hother).1 hown

end Datboi.Catalog
