import Datboi.Catalog.Diff
import Mathlib.Data.Multiset.MapFold

/-!
# When the comparison is a matching

A pass marks entries only after it has found all its pairs, so two new entries with one stable
key, or left with one name, are paired with the same old entry. The comparison is a matching,
and finds nothing where nothing changed, exactly for revisions without such a pair.
-/

namespace Datboi.Catalog

/-! ## Fingerprints -/

namespace ClaimContent

theorem digestKey_injective : Function.Injective digestKey := by
  intro a b heq
  have hmap : Function.Injective (List.map UInt8.toNat) :=
    List.map_injective_iff.mpr fun _ _ hbyte => UInt8.toNat_inj.mp hbyte
  exact Option.map_injective hmap heq

theorem sortKey_injective : Function.Injective sortKey := by
  intro a b heq
  obtain ⟨hkind, heq⟩ := Prod.ext_iff.mp (toLex_inj.mp heq)
  obtain ⟨hsize, heq⟩ := Prod.ext_iff.mp (toLex_inj.mp heq)
  obtain ⟨hcrc, heq⟩ := Prod.ext_iff.mp (toLex_inj.mp heq)
  obtain ⟨hmd5, heq⟩ := Prod.ext_iff.mp (toLex_inj.mp heq)
  obtain ⟨hsha1, hsha256⟩ := Prod.ext_iff.mp (toLex_inj.mp heq)
  cases a
  cases b
  simp only [mk.injEq]
  exact ⟨hkind, hsize, digestKey_injective hcrc, digestKey_injective hmd5,
    digestKey_injective hsha1, digestKey_injective hsha256⟩

instance : Std.Total fun a b : ClaimContent => a.sortKey ≤ b.sortKey :=
  ⟨fun a b => le_total a.sortKey b.sortKey⟩

instance : IsTrans ClaimContent fun a b => a.sortKey ≤ b.sortKey :=
  ⟨fun _ _ _ hab hbc => le_trans hab hbc⟩

instance : Std.Antisymm fun a b : ClaimContent => a.sortKey ≤ b.sortKey :=
  ⟨fun _ _ hab hba => sortKey_injective (le_antisymm hab hba)⟩

end ClaimContent

variable {hash : Bytes → Blake3}

/-- Sorting forgets the order the claims came in. -/
theorem DatEntry.fingerprint_perm {entry other : DatEntry}
    (hclaims : entry.claims.Perm other.claims) :
    entry.fingerprint hash = other.fingerprint hash := by
  have hsorted : (entry.claims.insertionSort fun a b => a.sortKey ≤ b.sortKey) =
      other.claims.insertionSort fun a b => a.sortKey ≤ b.sortKey := by
    apply List.Perm.eq_of_pairwise' (List.pairwise_insertionSort _ _)
      (List.pairwise_insertionSort _ _)
    exact (List.perm_insertionSort _ _).trans
      (hclaims.trans (List.perm_insertionSort _ _).symm)
  unfold fingerprint
  rw [hsorted]

/-- Two lists of entries that say the same, in whatever order. -/
def SameEntries (old new : List DatEntry) : Prop :=
  (old.map fun entry => (entry.name, entry.stableKey, (entry.claims : Multiset ClaimContent))).Perm
    (new.map fun entry => (entry.name, entry.stableKey, (entry.claims : Multiset ClaimContent)))

/-- Entries that say the same are loaded the same. -/
theorem SameEntries.loadEntries {old new : List DatEntry} (hsame : SameEntries old new) :
    (loadEntries hash old).Perm (loadEntries hash new) := by
  -- Loading is a function of what the entries say, whichever list of claims stands for it.
  let load : Text × Option Text × Multiset ClaimContent → DiffEntry := fun said =>
    ⟨said.1, said.2.1, Quotient.liftOn said.2.2
      (fun claims => DatEntry.fingerprint hash ⟨said.1, said.2.1, claims⟩)
      (fun _ _ hclaims => DatEntry.fingerprint_perm hclaims), false⟩
  have hload : ∀ entries : List DatEntry, Catalog.loadEntries hash entries =
      (entries.map fun entry => (entry.name, entry.stableKey,
        (entry.claims : Multiset ClaimContent))).map load := by
    intro entries
    rw [List.map_map]
    rfl
  rw [hload, hload]
  exact hsame.map load

namespace Diff

open Pairing (pairUp lastIndex Clash mem_pairUp lastIndex_eq_some pairUp_snd_nodup
  pairUp_fst_nodup_iff)

/-! ## Passes -/

/-- An entry with its mark set or not. -/
def marked (entry : DiffEntry) (isMatched : Prop) [Decidable isMatched] : DiffEntry :=
  { entry with matched := decide isMatched }

theorem getElem?_mark (entries : List DiffEntry) (positions : List Nat) (i : Nat) :
    (mark entries positions)[i]? = entries[i]?.map fun entry =>
      if i ∈ positions then { entry with matched := true } else entry := by
  unfold mark
  rw [List.getElem?_mapIdx]

/-- The entries are the given ones, marked where the pairs say so. -/
structure Marks (old new : List DiffEntry) (matching : Matching) : Prop where
  oldMarks : ∀ i : Nat, matching.old[i]? =
    old[i]?.map fun entry => marked entry (i ∈ matching.pairs.map Prod.fst)
  newMarks : ∀ j : Nat, matching.new[j]? =
    new[j]?.map fun entry => marked entry (j ∈ matching.pairs.map Prod.snd)
  range : ∀ pair ∈ matching.pairs, pair.1 < old.length ∧ pair.2 < new.length

/-- The pairs a pass finds: entries without a mark, each new one once. -/
structure FindsFree (old new : List DiffEntry) (found : List (Nat × Nat)) : Prop where
  oldFree : ∀ pair ∈ found, ∃ entry, old[pair.1]? = some entry ∧ entry.matched = false
  newFree : ∀ pair ∈ found, ∃ entry, new[pair.2]? = some entry ∧ entry.matched = false
  once : (found.map Prod.snd).Nodup

variable {old new : List DiffEntry} {matching : Matching}
  {find : List DiffEntry → List DiffEntry → List (Nat × Nat)}

theorem Marks.start (hold : ∀ entry ∈ old, entry.matched = false)
    (hnew : ∀ entry ∈ new, entry.matched = false) : Marks old new ⟨[], old, new⟩ := by
  have hfresh : ∀ entries : List DiffEntry, (∀ entry ∈ entries, entry.matched = false) →
      ∀ i : Nat, entries[i]? = entries[i]?.map fun entry =>
        marked entry (i ∈ ([] : List (Nat × Nat)).map Prod.fst) := by
    intro entries hentries i
    cases hentry : entries[i]? with
    | none => rfl
    | some entry =>
      have hmatched := hentries entry (List.mem_of_getElem? hentry)
      cases entry
      simp_all [marked]
  exact ⟨hfresh old hold, hfresh new hnew, List.forall_mem_nil _⟩

variable {i j : Nat} {entry : DiffEntry} {name : Text} {marks : List Nat} {side : List DiffEntry}

theorem getElem?_pass {entries base : List DiffEntry} {before found : List Nat}
    (hmarks : entries[i]? = base[i]?.map fun entry => marked entry (i ∈ before)) :
    (mark entries found)[i]? = base[i]?.map fun entry => marked entry (i ∈ before ++ found) := by
  rw [getElem?_mark, hmarks, Option.map_map]
  cases base[i]? with
  | none => rfl
  | some entry =>
    simp only [Option.map_some, Function.comp_apply, marked, List.mem_append]
    by_cases hfound : i ∈ found <;> simp [hfound]

theorem Marks.lt_of_getElem? {entries base : List DiffEntry} {p : Prop} [Decidable p]
    (hmarks : entries[i]? = base[i]?.map fun entry => marked entry p)
    (hentry : entries[i]? = some entry) : i < base.length := by
  rw [hmarks, Option.map_eq_some_iff] at hentry
  obtain ⟨_, hbase, _⟩ := hentry
  exact (List.getElem?_eq_some_iff.mp hbase).1

section

variable (hmarks : Marks old new matching)

include hmarks

theorem Marks.pass (hfinds : FindsFree matching.old matching.new (find matching.old matching.new)) :
    Marks old new (matching.pass find) where
  oldMarks := by
    intro i
    change (mark matching.old _)[i]? = old[i]?.map fun entry =>
      marked entry (i ∈ (matching.pairs ++ _).map Prod.fst)
    simp only [List.map_append]
    exact getElem?_pass (hmarks.oldMarks i)
  newMarks := by
    intro j
    change (mark matching.new _)[j]? = new[j]?.map fun entry =>
      marked entry (j ∈ (matching.pairs ++ _).map Prod.snd)
    simp only [List.map_append]
    exact getElem?_pass (hmarks.newMarks j)
  range := by
    intro pair hpair
    rcases List.mem_append.mp hpair with hbefore | hfound
    · exact hmarks.range pair hbefore
    · obtain ⟨_, hold, _⟩ := hfinds.oldFree pair hfound
      obtain ⟨_, hnew, _⟩ := hfinds.newFree pair hfound
      exact ⟨Marks.lt_of_getElem? (hmarks.oldMarks pair.1) hold,
        Marks.lt_of_getElem? (hmarks.newMarks pair.2) hnew⟩

/-- What has no mark is in no pair. -/
theorem Marks.old_free (hentry : matching.old[i]? = some entry) :
    entry.matched = false ↔ i ∉ matching.pairs.map Prod.fst := by
  rw [hmarks.oldMarks, Option.map_eq_some_iff] at hentry
  obtain ⟨base, _, rfl⟩ := hentry
  exact decide_eq_false_iff_not

theorem Marks.new_free (hentry : matching.new[j]? = some entry) :
    entry.matched = false ↔ j ∉ matching.pairs.map Prod.snd := by
  rw [hmarks.newMarks, Option.map_eq_some_iff] at hentry
  obtain ⟨base, _, rfl⟩ := hentry
  exact decide_eq_false_iff_not

/-- New entries stay in one pair each. -/
theorem snd_nodup_pass
    (hfinds : FindsFree matching.old matching.new (find matching.old matching.new))
    (honce : (matching.pairs.map Prod.snd).Nodup) :
    ((matching.pass find).pairs.map Prod.snd).Nodup := by
  change ((matching.pairs ++ find matching.old matching.new).map Prod.snd).Nodup
  rw [List.map_append]
  refine honce.append hfinds.once ?_
  intro j hbefore hfound
  obtain ⟨pair, hpair, rfl⟩ := List.mem_map.mp hfound
  obtain ⟨entry, hentry, hfree⟩ := hfinds.newFree pair hpair
  exact (hmarks.new_free hentry).mp hfree hbefore

/-- Old entries stay in one pair each if the pass finds each of them once. -/
theorem fst_nodup_pass
    (hfinds : FindsFree matching.old matching.new (find matching.old matching.new)) :
    ((matching.pass find).pairs.map Prod.fst).Nodup ↔
      (matching.pairs.map Prod.fst).Nodup ∧
        ((find matching.old matching.new).map Prod.fst).Nodup := by
  change ((matching.pairs ++ find matching.old matching.new).map Prod.fst).Nodup ↔ _
  rw [List.map_append, List.nodup_append']
  refine and_congr_right fun _ => and_iff_left_iff_imp.mpr fun _ => ?_
  intro i hbefore hfound
  obtain ⟨pair, hpair, rfl⟩ := List.mem_map.mp hfound
  obtain ⟨entry, hentry, hfree⟩ := hfinds.oldFree pair hpair
  exact (hmarks.old_free hentry).mp hfree hbefore

end

/-! ## The three passes -/

theorem keyAt_eq_some {κ : Type} {key : DiffEntry → Option κ} {entries : List DiffEntry} {k : κ} :
    keyAt key entries i = some k ↔
      ∃ entry, entries[i]? = some entry ∧ key entry = some k := by
  rw [keyAt, Option.bind_eq_some_iff]

section

variable {κ : Type} [DecidableEq κ] {oldKey newKey : DiffEntry → Option κ}

theorem findsFree_pairBy
    (hold : ∀ entry k, oldKey entry = some k → entry.matched = false)
    (hnew : ∀ entry k, newKey entry = some k → entry.matched = false) :
    FindsFree old new (pairBy oldKey newKey old new) where
  oldFree := by
    intro pair hpair
    obtain ⟨_, k, _, hlast⟩ := mem_pairUp.mp hpair
    obtain ⟨entry, hentry, hkey⟩ := keyAt_eq_some.mp (lastIndex_eq_some.mp hlast).2.1
    exact ⟨entry, hentry, hold entry k hkey⟩
  newFree := by
    intro pair hpair
    obtain ⟨_, k, hkey, _⟩ := mem_pairUp.mp hpair
    obtain ⟨entry, hentry, hkey⟩ := keyAt_eq_some.mp hkey
    exact ⟨entry, hentry, hnew entry k hkey⟩
  once := pairUp_snd_nodup _ _ _ _

end

theorem freeName_eq_some :
    freeName entry = some name ↔ entry.matched = false ∧ entry.name = name := by
  unfold freeName
  split <;> simp_all

theorem uniqueFingerprint_matched {entries : List DiffEntry} {k : Blake3}
    (hkey : uniqueFingerprint entries entry = some k) : entry.matched = false := by
  unfold uniqueFingerprint at hkey
  split at hkey
  · rename_i hunique
    exact hunique.1
  · cases hkey

theorem findsFree_names (old new : List DiffEntry) : FindsFree old new (namePairs old new) :=
  findsFree_pairBy (fun _ _ hkey => (freeName_eq_some.mp hkey).1)
    fun _ _ hkey => (freeName_eq_some.mp hkey).1

theorem findsFree_fingerprints (old new : List DiffEntry) :
    FindsFree old new (fingerprintPairs old new) :=
  findsFree_pairBy (fun _ _ => uniqueFingerprint_matched) fun _ _ => uniqueFingerprint_matched

section

variable (hold : ∀ entry ∈ old, entry.matched = false)

include hold

theorem matchedAt_eq_false (i : Nat) : matchedAt old i = false := by
  unfold matchedAt
  cases hentry : old[i]? with
  | none => rfl
  | some entry => exact hold entry (List.mem_of_getElem? hentry)

/-- Nothing is marked when the first pass starts. -/
theorem keyPairs_eq :
    keyPairs old new = pairBy DiffEntry.stableKey DiffEntry.stableKey old new := by
  unfold keyPairs
  rw [List.filter_eq_self]
  intro pair _
  rw [matchedAt_eq_false hold]
  rfl

theorem findsFree_keys (hnew : ∀ entry ∈ new, entry.matched = false) :
    FindsFree old new (keyPairs old new) where
  oldFree := by
    intro pair hpair
    rw [keyPairs_eq hold] at hpair
    obtain ⟨_, k, _, hlast⟩ := mem_pairUp.mp hpair
    obtain ⟨entry, hentry, _⟩ := keyAt_eq_some.mp (lastIndex_eq_some.mp hlast).2.1
    exact ⟨entry, hentry, hold entry (List.mem_of_getElem? hentry)⟩
  newFree := by
    intro pair hpair
    rw [keyPairs_eq hold] at hpair
    obtain ⟨_, k, hkey, _⟩ := mem_pairUp.mp hpair
    obtain ⟨entry, hentry, _⟩ := keyAt_eq_some.mp hkey
    exact ⟨entry, hentry, hnew entry (List.mem_of_getElem? hentry)⟩
  once := by
    rw [keyPairs_eq hold]
    exact pairUp_snd_nodup _ _ _ _

end

/-- What one element of a list satisfies, it satisfies at one position. -/
theorem position_unique {α : Type} {p : α → Bool} {list : List α} (hone : list.countP p = 1)
    {a b : α} (ha : list[i]? = some a) (hb : list[j]? = some b) (hpa : p a = true)
    (hpb : p b = true) : i = j := by
  induction list generalizing i j with
  | nil => simp at ha
  | cons head rest ih =>
    have hnone : p head = true → ∀ (k : Nat) (c : α), rest[k]? = some c → ¬ p c = true := by
      intro hhead k c hc
      rw [List.countP_cons_of_pos hhead] at hone
      have hzero : rest.countP p = 0 := by omega
      exact List.countP_eq_zero.mp hzero c (List.mem_of_getElem? hc)
    cases i with
    | zero =>
      cases j with
      | zero => rfl
      | succ j =>
        rw [List.getElem?_cons_zero, Option.some.injEq] at ha
        exact absurd hpb (hnone (ha ▸ hpa) j b hb)
    | succ i =>
      cases j with
      | zero =>
        rw [List.getElem?_cons_zero, Option.some.injEq] at hb
        exact absurd hpa (hnone (hb ▸ hpb) i a ha)
      | succ j =>
        by_cases hhead : p head = true
        · exact absurd hpa (hnone hhead i a ha)
        · rw [List.countP_cons_of_neg hhead] at hone
          rw [ih hone ha hb]

/-- A fingerprint that one entry has among those without a match is asked for once. -/
theorem fingerprintPairs_fst_nodup (old new : List DiffEntry) :
    ((fingerprintPairs old new).map Prod.fst).Nodup := by
  apply pairUp_fst_nodup_iff.mpr
  rintro ⟨j, _, j', _, hne, k, hkey, hkey', _⟩
  obtain ⟨entry, hentry, hkey⟩ := keyAt_eq_some.mp hkey
  obtain ⟨entry', hentry', hkey'⟩ := keyAt_eq_some.mp hkey'
  unfold uniqueFingerprint at hkey hkey'
  split at hkey
  · rename_i hunique
    split at hkey'
    · rename_i hunique'
      have hsame : entry'.fingerprint = entry.fingerprint :=
        Option.some.inj (hkey'.trans hkey.symm)
      exact hne (position_unique hunique.2 hentry hentry' (by simpa using hunique.1)
        (by simpa [hsame] using hunique'.1))
    · cases hkey'
  · cases hkey

/-! ## What pairs twice -/

/-- The stable key at a position. -/
def keyOf (entries : List DatEntry) (i : Nat) : Option Text := entries[i]?.bind DatEntry.stableKey

def nameOf (entries : List DatEntry) (i : Nat) : Option Text := entries[i]?.map DatEntry.name

/-- A new entry whose stable key an old entry has. -/
def NewByKey (old new : List DatEntry) (j : Nat) : Prop :=
  ∃ k, keyOf new j = some k ∧ ∃ i, keyOf old i = some k

/-- The last old entry with a stable key that a new entry has. -/
def OldByKey (old new : List DatEntry) (i : Nat) : Prop :=
  ∃ k, keyOf old i = some k ∧ (∀ later, i < later → keyOf old later ≠ some k) ∧
    ∃ j, keyOf new j = some k

/-- No two new entries ask for one old entry: neither by a stable key that it has, nor, among
those that no stable key matches, by its name. -/
structure AskedOnce (old new : List DatEntry) : Prop where
  keys : ∀ i j j' k, keyOf old i = some k → keyOf new j = some k → keyOf new j' = some k → j = j'
  names : ∀ i j j' name, ¬ OldByKey old new i → ¬ NewByKey old new j → ¬ NewByKey old new j' →
    nameOf old i = some name → nameOf new j = some name → nameOf new j' = some name → j = j'

variable {entries : List DatEntry} {oldEntries newEntries : List DatEntry}

theorem length_loadEntries (entries : List DatEntry) :
    (loadEntries hash entries).length = entries.length := List.length_map _

theorem loadEntries_free : ∀ entry ∈ loadEntries hash entries, entry.matched = false := by
  intro entry hentry
  obtain ⟨source, _, rfl⟩ := List.mem_map.mp hentry
  rfl

theorem keyAt_loadEntries (i : Nat) :
    keyAt DiffEntry.stableKey (loadEntries hash entries) i = keyOf entries i := by
  unfold keyAt keyOf loadEntries
  rw [List.getElem?_map]
  cases entries[i]? <;> rfl

theorem lt_of_keyOf {k : Text} (hkey : keyOf entries i = some k) : i < entries.length := by
  obtain ⟨entry, hentry, _⟩ := Option.bind_eq_some_iff.mp hkey
  exact (List.getElem?_eq_some_iff.mp hentry).1

/-- The state after the first pass. -/
def byKey (hash : Bytes → Blake3) (old new : List DatEntry) : Matching :=
  (Matching.mk [] (loadEntries hash old) (loadEntries hash new)).pass keyPairs

theorem byKey_marks (hash : Bytes → Blake3) (old new : List DatEntry) :
    Marks (loadEntries hash old) (loadEntries hash new) (byKey hash old new) :=
  (Marks.start loadEntries_free loadEntries_free).pass
    (findsFree_keys loadEntries_free loadEntries_free)

theorem mem_byKey {pair : Nat × Nat} : pair ∈ (byKey hash oldEntries newEntries).pairs ↔
    ∃ k, keyOf newEntries pair.2 = some k ∧ keyOf oldEntries pair.1 = some k ∧
      ∀ later, pair.1 < later → keyOf oldEntries later ≠ some k := by
  change pair ∈ [] ++ keyPairs _ _ ↔ _
  rw [List.nil_append, keyPairs_eq loadEntries_free, pairBy, mem_pairUp, length_loadEntries,
    length_loadEntries]
  simp only [keyAt_loadEntries, lastIndex_eq_some]
  constructor
  · rintro ⟨_, k, hnew, _, hold, hlater⟩
    refine ⟨k, hnew, hold, fun later hlt hkey => ?_⟩
    exact hlater later hlt (lt_of_keyOf hkey) hkey
  · rintro ⟨k, hnew, hold, hlater⟩
    exact ⟨lt_of_keyOf hnew, k, hnew, lt_of_keyOf hold, hold, fun later hlt _ => hlater later hlt⟩

theorem exists_last_keyOf {k : Text} (hkey : keyOf entries i = some k) :
    ∃ last, keyOf entries last = some k ∧ ∀ later, last < later → keyOf entries later ≠ some k := by
  obtain ⟨last, hlast⟩ := Pairing.exists_lastIndex (lt_of_keyOf hkey) hkey
  obtain ⟨_, hlastKey, hlater⟩ := lastIndex_eq_some.mp hlast
  exact ⟨last, hlastKey, fun later hlt hlaterKey => hlater later hlt (lt_of_keyOf hlaterKey) hlaterKey⟩

theorem mem_byKey_new {j : Nat} :
    j ∈ (byKey hash oldEntries newEntries).pairs.map Prod.snd ↔ NewByKey oldEntries newEntries j := by
  rw [List.mem_map]
  constructor
  · rintro ⟨pair, hpair, rfl⟩
    obtain ⟨k, hnew, hold, _⟩ := mem_byKey.mp hpair
    exact ⟨k, hnew, pair.1, hold⟩
  · rintro ⟨k, hnew, i, hold⟩
    obtain ⟨last, hlast, hlater⟩ := exists_last_keyOf hold
    exact ⟨(last, j), mem_byKey.mpr ⟨k, hnew, hlast, hlater⟩, rfl⟩

theorem mem_byKey_old {i : Nat} :
    i ∈ (byKey hash oldEntries newEntries).pairs.map Prod.fst ↔ OldByKey oldEntries newEntries i := by
  rw [List.mem_map]
  constructor
  · rintro ⟨pair, hpair, rfl⟩
    obtain ⟨k, hnew, hold, hlater⟩ := mem_byKey.mp hpair
    exact ⟨k, hold, hlater, pair.2, hnew⟩
  · rintro ⟨k, hold, hlater, j, hnew⟩
    exact ⟨(i, j), mem_byKey.mpr ⟨k, hnew, hold, hlater⟩, rfl⟩

/-- The names that the second pass goes by. -/
theorem freeName_marks (hmarks : side[i]? = (loadEntries hash entries)[i]?.map fun entry =>
      marked entry (i ∈ marks)) :
    keyAt freeName side i = some name ↔ nameOf entries i = some name ∧ i ∉ marks := by
  rw [keyAt_eq_some, hmarks, nameOf, loadEntries, List.getElem?_map]
  cases entries[i]? with
  | none => simp
  | some entry =>
    simp only [Option.map_some, Option.some.injEq, exists_eq_left', freeName_eq_some, marked,
      decide_eq_false_iff_not]
    exact and_comm

theorem freeName_byKey_new :
    keyAt freeName (byKey hash oldEntries newEntries).new j = some name ↔
      nameOf newEntries j = some name ∧ ¬ NewByKey oldEntries newEntries j := by
  rw [freeName_marks ((byKey_marks hash oldEntries newEntries).newMarks j), mem_byKey_new]

theorem freeName_byKey_old :
    keyAt freeName (byKey hash oldEntries newEntries).old i = some name ↔
      nameOf oldEntries i = some name ∧ ¬ OldByKey oldEntries newEntries i := by
  rw [freeName_marks ((byKey_marks hash oldEntries newEntries).oldMarks i), mem_byKey_old]

/-- The matching of two revisions. -/
def matched (hash : Bytes → Blake3) (old new : List DatEntry) : Matching :=
  matchEntries (loadEntries hash old) (loadEntries hash new)

/-- The state after the second pass. -/
def byName (hash : Bytes → Blake3) (old new : List DatEntry) : Matching :=
  (byKey hash old new).pass namePairs

theorem byName_marks (hash : Bytes → Blake3) (old new : List DatEntry) :
    Marks (loadEntries hash old) (loadEntries hash new) (byName hash old new) :=
  (byKey_marks hash old new).pass (findsFree_names _ _)

theorem matched_eq (hash : Bytes → Blake3) (old new : List DatEntry) :
    matched hash old new = (byName hash old new).pass fingerprintPairs := rfl

theorem matched_marks (hash : Bytes → Blake3) (old new : List DatEntry) :
    Marks (loadEntries hash old) (loadEntries hash new) (matched hash old new) :=
  (byName_marks hash old new).pass (findsFree_fingerprints _ _)

theorem matched_snd_nodup (hash : Bytes → Blake3) (old new : List DatEntry) :
    ((matched hash old new).pairs.map Prod.snd).Nodup := by
  rw [matched_eq]
  apply snd_nodup_pass (byName_marks hash old new) (findsFree_fingerprints _ _)
  apply snd_nodup_pass (byKey_marks hash old new) (findsFree_names _ _)
  exact snd_nodup_pass (Marks.start loadEntries_free loadEntries_free)
    (findsFree_keys loadEntries_free loadEntries_free) List.nodup_nil

/-- Old entries are paired once exactly if no two new entries ask for one. -/
theorem matched_fst_nodup_iff (hash : Bytes → Blake3) (old new : List DatEntry) :
    ((matched hash old new).pairs.map Prod.fst).Nodup ↔ AskedOnce old new := by
  have hkeys : ((byKey hash old new).pairs.map Prod.fst).Nodup ↔
      ∀ i j j' k, keyOf old i = some k → keyOf new j = some k → keyOf new j' = some k →
        j = j' := by
    change (([] ++ keyPairs _ _).map Prod.fst).Nodup ↔ _
    rw [List.nil_append, keyPairs_eq loadEntries_free, pairBy, pairUp_fst_nodup_iff]
    simp only [Clash, keyAt_loadEntries]
    constructor
    · intro hclash i j j' k hi hj hj'
      by_contra hne
      apply hclash
      rw [length_loadEntries, length_loadEntries]
      exact ⟨j, lt_of_keyOf hj, j', lt_of_keyOf hj', hne, k, hj, hj', i, lt_of_keyOf hi, hi⟩
    · rintro honce ⟨j, _, j', _, hne, k, hj, hj', i, _, hi⟩
      exact hne (honce i j j' k hi hj hj')
  have hnames : ((namePairs (byKey hash old new).old (byKey hash old new).new).map
      Prod.fst).Nodup ↔ ∀ i j j' name, ¬ OldByKey old new i → ¬ NewByKey old new j →
        ¬ NewByKey old new j' → nameOf old i = some name → nameOf new j = some name →
          nameOf new j' = some name → j = j' := by
    have hlt : ∀ {side : List DiffEntry} {i : Nat} {name : Text},
        keyAt freeName side i = some name → i < side.length := by
      intro side i name hkey
      obtain ⟨entry, hentry, _⟩ := keyAt_eq_some.mp hkey
      exact (List.getElem?_eq_some_iff.mp hentry).1
    rw [namePairs, pairBy, pairUp_fst_nodup_iff]
    constructor
    · intro hclash i j j' name hi hj hj' hni hnj hnj'
      by_contra hne
      have hi : keyAt freeName (byKey hash old new).old i = some name :=
        freeName_byKey_old.mpr ⟨hni, hi⟩
      have hj : keyAt freeName (byKey hash old new).new j = some name :=
        freeName_byKey_new.mpr ⟨hnj, hj⟩
      have hj' : keyAt freeName (byKey hash old new).new j' = some name :=
        freeName_byKey_new.mpr ⟨hnj', hj'⟩
      exact hclash ⟨j, hlt hj, j', hlt hj', hne, name, hj, hj', i, hlt hi, hi⟩
    · rintro honce ⟨j, _, j', _, hne, name, hj, hj', i, _, hi⟩
      obtain ⟨hni, hi⟩ := freeName_byKey_old.mp hi
      obtain ⟨hnj, hj⟩ := freeName_byKey_new.mp hj
      obtain ⟨hnj', hj'⟩ := freeName_byKey_new.mp hj'
      exact hne (honce i j j' name hi hj hj' hni hnj hnj')
  rw [matched_eq, fst_nodup_pass (byName_marks hash old new) (findsFree_fingerprints _ _),
    and_iff_left (fingerprintPairs_fst_nodup _ _), byName,
    fst_nodup_pass (byKey_marks hash old new) (findsFree_names _ _), hkeys, hnames]
  exact ⟨fun honce => ⟨honce.1, honce.2⟩, fun honce => ⟨honce.keys, honce.names⟩⟩

/-! ## Nothing changed -/

theorem nodup_map_iff_positions {α β : Type} {f : α → β} {list : List α} :
    (list.map f).Nodup ↔ ∀ (i j : Nat) (a b : α), list[i]? = some a → list[j]? = some b →
      f a = f b → i = j := by
  rw [List.nodup_iff_getElem?_ne_getElem?]
  constructor
  · intro hnodup i j a b ha hb heq
    by_contra hne
    rcases Nat.lt_or_gt_of_ne hne with hlt | hlt
    · apply hnodup i j hlt
      · rw [List.length_map]
        exact (List.getElem?_eq_some_iff.mp hb).1
      · rw [List.getElem?_map, List.getElem?_map, ha, hb, Option.map_some, Option.map_some, heq]
    · apply hnodup j i hlt
      · rw [List.length_map]
        exact (List.getElem?_eq_some_iff.mp ha).1
      · rw [List.getElem?_map, List.getElem?_map, ha, hb, Option.map_some, Option.map_some, heq]
  · intro hinj i j hlt hj heq
    rw [List.length_map] at hj
    have hi : i < list.length := Nat.lt_trans hlt hj
    rw [List.getElem?_map, List.getElem?_map, List.getElem?_eq_getElem hi,
      List.getElem?_eq_getElem hj, Option.map_some, Option.map_some, Option.some.injEq] at heq
    exact Nat.ne_of_lt hlt (hinj i j _ _ (List.getElem?_eq_getElem hi)
      (List.getElem?_eq_getElem hj) heq)

/-- What an entry is found by: its stable key, or its name if it has none. -/
def anchor (entry : DiffEntry) : Option Text × Option Text :=
  (entry.stableKey, if entry.stableKey = none then some entry.name else none)

theorem anchor_eq_iff {other : DiffEntry} : anchor entry = anchor other ↔
    entry.stableKey = other.stableKey ∧ (entry.stableKey = none → entry.name = other.name) := by
  simp only [anchor, Prod.mk.injEq]
  refine and_congr_right fun hkey => ?_
  rw [hkey]
  split <;> simp_all

theorem getElem?_loadEntries (hentry : (loadEntries hash entries)[i]? = some entry) :
    keyOf entries i = entry.stableKey ∧ nameOf entries i = some entry.name := by
  rw [loadEntries, List.getElem?_map, Option.map_eq_some_iff] at hentry
  obtain ⟨source, hsource, rfl⟩ := hentry
  rw [keyOf, nameOf, hsource]
  exact ⟨rfl, rfl⟩

theorem exists_loadEntries {i : Nat} {name : Text} (hname : nameOf entries i = some name) :
    ∃ entry, (loadEntries hash entries)[i]? = some entry := by
  rw [nameOf, Option.map_eq_some_iff] at hname
  obtain ⟨source, hsource, _⟩ := hname
  rw [loadEntries, List.getElem?_map, hsource]
  exact ⟨_, rfl⟩

theorem nameOf_of_keyOf {k : Text} (hkey : keyOf entries i = some k) :
    ∃ name, nameOf entries i = some name := by
  rw [keyOf, Option.bind_eq_some_iff] at hkey
  obtain ⟨source, hsource, _⟩ := hkey
  rw [nameOf, hsource]
  exact ⟨_, rfl⟩

section

variable (hperm : (loadEntries hash oldEntries).Perm (loadEntries hash newEntries))

include hperm

variable {j i : Nat} {entry : DiffEntry}

theorem exists_old (hentry : (loadEntries hash newEntries)[j]? = some entry) :
    ∃ i : Nat, (loadEntries hash oldEntries)[i]? = some entry :=
  List.getElem?_of_mem (hperm.mem_iff.mpr (List.mem_of_getElem? hentry))

theorem exists_new (hentry : (loadEntries hash oldEntries)[i]? = some entry) :
    ∃ j : Nat, (loadEntries hash newEntries)[j]? = some entry :=
  List.getElem?_of_mem (hperm.mem_iff.mp (List.mem_of_getElem? hentry))

theorem newByKey_iff : NewByKey oldEntries newEntries j ↔
    ∃ k, keyOf newEntries j = some k := by
  constructor
  · rintro ⟨k, hkey, _⟩
    exact ⟨k, hkey⟩
  · rintro ⟨k, hkey⟩
    obtain ⟨name, hname⟩ := nameOf_of_keyOf hkey
    obtain ⟨entry, hentry⟩ := @exists_loadEntries hash _ _ _ hname
    obtain ⟨i, hi⟩ := exists_old hperm hentry
    refine ⟨k, hkey, i, ?_⟩
    rw [(getElem?_loadEntries hi).1, ← (getElem?_loadEntries hentry).1, hkey]

variable (honce : AskedOnce oldEntries newEntries)

include honce

theorem new_anchor_nodup : ((loadEntries hash newEntries).map anchor).Nodup := by
  rw [nodup_map_iff_positions]
  intro j j' entry entry' hentry hentry' hanchor
  obtain ⟨hkeys, hnames⟩ := anchor_eq_iff.mp hanchor
  obtain ⟨hkey, hname⟩ := getElem?_loadEntries hentry
  obtain ⟨hkey', hname'⟩ := getElem?_loadEntries hentry'
  obtain ⟨i, hi⟩ := exists_old hperm hentry
  obtain ⟨hikey, hiname⟩ := getElem?_loadEntries hi
  cases hstable : entry.stableKey with
  | some k =>
    exact honce.keys i j j' k (hikey.trans hstable) (hkey.trans hstable)
      (hkey'.trans (hkeys.symm.trans hstable))
  | none =>
    have hnew : ¬ NewByKey oldEntries newEntries j := by
      rintro ⟨k, hk, _⟩
      rw [hkey, hstable] at hk
      cases hk
    have hnew' : ¬ NewByKey oldEntries newEntries j' := by
      rintro ⟨k, hk, _⟩
      rw [hkey', ← hkeys, hstable] at hk
      cases hk
    have hold : ¬ OldByKey oldEntries newEntries i := by
      rintro ⟨k, hk, _⟩
      rw [hikey, hstable] at hk
      cases hk
    exact honce.names i j j' entry.name hold hnew hnew' hiname hname
      (hname'.trans (congrArg some (hnames hstable).symm))

theorem old_anchor_unique {i' : Nat} {entry' : DiffEntry}
    (hentry : (loadEntries hash oldEntries)[i]? = some entry)
    (hentry' : (loadEntries hash oldEntries)[i']? = some entry')
    (hanchor : anchor entry = anchor entry') : i = i' := by
  have hnodup : ((loadEntries hash oldEntries).map anchor).Nodup :=
    (hperm.map anchor).nodup_iff.mpr (new_anchor_nodup hperm honce)
  exact nodup_map_iff_positions.mp hnodup i i' entry entry' hentry hentry' hanchor

/-- Entries with one anchor are the same entry. -/
theorem eq_of_anchor {entry' : DiffEntry}
    (hentry : (loadEntries hash oldEntries)[i]? = some entry)
    (hentry' : (loadEntries hash newEntries)[j]? = some entry')
    (hanchor : anchor entry = anchor entry') : entry = entry' := by
  obtain ⟨i', hi'⟩ := exists_old hperm hentry'
  have hi := old_anchor_unique hperm honce hentry hi' hanchor
  rw [hi, hi'] at hentry
  exact (Option.some.inj hentry).symm

theorem oldByKey_iff : OldByKey oldEntries newEntries i ↔
    ∃ k, keyOf oldEntries i = some k := by
  constructor
  · rintro ⟨k, hkey, _⟩
    exact ⟨k, hkey⟩
  · rintro ⟨k, hkey⟩
    obtain ⟨name, hname⟩ := nameOf_of_keyOf hkey
    obtain ⟨entry, hentry⟩ := @exists_loadEntries hash _ _ _ hname
    have hstable : entry.stableKey = some k := (getElem?_loadEntries hentry).1.symm.trans hkey
    obtain ⟨j, hj⟩ := exists_new hperm hentry
    refine ⟨k, hkey, ?_, j, (getElem?_loadEntries hj).1.trans hstable⟩
    intro later hlt hlater
    obtain ⟨name', hname'⟩ := nameOf_of_keyOf hlater
    obtain ⟨entry', hentry'⟩ := @exists_loadEntries hash _ _ _ hname'
    have hstable' : entry'.stableKey = some k :=
      (getElem?_loadEntries hentry').1.symm.trans hlater
    have hanchor : anchor entry = anchor entry' :=
      anchor_eq_iff.mpr ⟨hstable.trans hstable'.symm, fun hnone => by simp [hnone] at hstable⟩
    exact Nat.ne_of_lt hlt (old_anchor_unique hperm honce hentry hentry' hanchor)

/-- Both passes pair an entry with itself. -/
theorem byName_same {pair : Nat × Nat} (hpair : pair ∈ (byName hash oldEntries newEntries).pairs) :
    ∃ entry, (loadEntries hash oldEntries)[pair.1]? = some entry ∧
      (loadEntries hash newEntries)[pair.2]? = some entry := by
  rcases List.mem_append.mp hpair with hkey | hname
  · obtain ⟨k, hnew, hold, _⟩ := mem_byKey.mp hkey
    obtain ⟨_, hname⟩ := nameOf_of_keyOf hnew
    obtain ⟨_, hname'⟩ := nameOf_of_keyOf hold
    obtain ⟨entry, hentry⟩ := @exists_loadEntries hash _ _ _ hname
    obtain ⟨entry', hentry'⟩ := @exists_loadEntries hash _ _ _ hname'
    have hstable : entry.stableKey = some k := (getElem?_loadEntries hentry).1.symm.trans hnew
    have hstable' : entry'.stableKey = some k := (getElem?_loadEntries hentry').1.symm.trans hold
    have hanchor : anchor entry' = anchor entry :=
      anchor_eq_iff.mpr ⟨hstable'.trans hstable.symm, fun hnone => by simp [hnone] at hstable'⟩
    rw [eq_of_anchor hperm honce hentry' hentry hanchor] at hentry'
    exact ⟨entry, hentry', hentry⟩
  · obtain ⟨_, name, hnew, hlast⟩ := mem_pairUp.mp hname
    obtain ⟨hnew, hfree⟩ := freeName_byKey_new.mp hnew
    obtain ⟨hold, hfree'⟩ := freeName_byKey_old.mp (lastIndex_eq_some.mp hlast).2.1
    obtain ⟨entry, hentry⟩ := @exists_loadEntries hash _ _ _ hnew
    obtain ⟨entry', hentry'⟩ := @exists_loadEntries hash _ _ _ hold
    have hbare : entry.stableKey = none := by
      rw [newByKey_iff hperm, not_exists] at hfree
      rw [← (getElem?_loadEntries hentry).1, Option.eq_none_iff_forall_ne_some]
      exact hfree
    have hbare' : entry'.stableKey = none := by
      rw [oldByKey_iff hperm honce, not_exists] at hfree'
      rw [← (getElem?_loadEntries hentry').1, Option.eq_none_iff_forall_ne_some]
      exact hfree'
    have hanchor : anchor entry' = anchor entry := by
      refine anchor_eq_iff.mpr ⟨hbare'.trans hbare.symm, fun _ => ?_⟩
      have hnames := (getElem?_loadEntries hentry').2.symm.trans hold
      have hnames' := (getElem?_loadEntries hentry).2.symm.trans hnew
      exact Option.some.inj (hnames.trans hnames'.symm)
    rw [eq_of_anchor hperm honce hentry' hentry hanchor] at hentry'
    exact ⟨entry, hentry', hentry⟩

/-- An entry without a stable key is found by its name. -/
theorem byName_bare (hold : (loadEntries hash oldEntries)[i]? = some entry)
    (hnew : (loadEntries hash newEntries)[j]? = some entry) (hbare : entry.stableKey = none) :
    (i, j) ∈ (byName hash oldEntries newEntries).pairs := by
  have hfree : ¬ OldByKey oldEntries newEntries i := by
    rw [oldByKey_iff hperm honce, not_exists, (getElem?_loadEntries hold).1, hbare]
    exact fun _ => nofun
  have hfree' : ¬ NewByKey oldEntries newEntries j := by
    rw [newByKey_iff hperm, not_exists, (getElem?_loadEntries hnew).1, hbare]
    exact fun _ => nofun
  have hkey : keyAt freeName (byKey hash oldEntries newEntries).old i = some entry.name :=
    freeName_byKey_old.mpr ⟨(getElem?_loadEntries hold).2, hfree⟩
  have hkey' : keyAt freeName (byKey hash oldEntries newEntries).new j = some entry.name :=
    freeName_byKey_new.mpr ⟨(getElem?_loadEntries hnew).2, hfree'⟩
  have hlt : ∀ {side : List DiffEntry} {i : Nat} {name : Text},
      keyAt freeName side i = some name → i < side.length := by
    intro side i name hkey
    obtain ⟨entry, hentry, _⟩ := keyAt_eq_some.mp hkey
    exact (List.getElem?_eq_some_iff.mp hentry).1
  apply List.mem_append_right
  refine mem_pairUp.mpr ⟨hlt hkey', entry.name, hkey', ?_⟩
  refine lastIndex_eq_some.mpr ⟨hlt hkey, hkey, fun later hlater _ hlaterKey => ?_⟩
  -- A later entry that this pass could take has no stable key either: it is the same one.
  obtain ⟨hlaterName, hlaterFree⟩ := freeName_byKey_old.mp hlaterKey
  obtain ⟨other, hother⟩ := @exists_loadEntries hash _ _ _ hlaterName
  have hotherBare : other.stableKey = none := by
    rw [oldByKey_iff hperm honce, not_exists] at hlaterFree
    rw [← (getElem?_loadEntries hother).1, Option.eq_none_iff_forall_ne_some]
    exact hlaterFree
  have hanchor : anchor entry = anchor other := by
    refine anchor_eq_iff.mpr ⟨hbare.trans hotherBare.symm, fun _ => ?_⟩
    exact Option.some.inj (hlaterName.symm.trans (getElem?_loadEntries hother).2)
  exact Nat.ne_of_lt hlater (old_anchor_unique hperm honce hold hother hanchor)

theorem byName_all_new (hj : j < newEntries.length) :
    j ∈ (byName hash oldEntries newEntries).pairs.map Prod.snd := by
  obtain ⟨entry, hentry⟩ := @exists_loadEntries hash newEntries j _
    (by rw [nameOf, List.getElem?_eq_getElem hj, Option.map_some])
  obtain ⟨i, hi⟩ := exists_old hperm hentry
  cases hstable : entry.stableKey with
  | some k =>
    have hkey : NewByKey oldEntries newEntries j :=
      (newByKey_iff hperm).mpr ⟨k, (getElem?_loadEntries hentry).1.trans hstable⟩
    obtain ⟨pair, hpair, hsnd⟩ := List.mem_map.mp ((@mem_byKey_new hash _ _ _).mpr hkey)
    exact List.mem_map.mpr ⟨pair, List.mem_append_left _ hpair, hsnd⟩
  | none => exact List.mem_map.mpr ⟨_, byName_bare hperm honce hi hentry hstable, rfl⟩

theorem byName_all_old (hi : i < oldEntries.length) :
    i ∈ (byName hash oldEntries newEntries).pairs.map Prod.fst := by
  obtain ⟨entry, hentry⟩ := @exists_loadEntries hash oldEntries i _
    (by rw [nameOf, List.getElem?_eq_getElem hi, Option.map_some])
  obtain ⟨j, hj⟩ := exists_new hperm hentry
  cases hstable : entry.stableKey with
  | some k =>
    have hkey : OldByKey oldEntries newEntries i :=
      (oldByKey_iff hperm honce).mpr ⟨k, (getElem?_loadEntries hentry).1.trans hstable⟩
    obtain ⟨pair, hpair, hfst⟩ := List.mem_map.mp ((@mem_byKey_old hash _ _ _).mpr hkey)
    exact List.mem_map.mpr ⟨pair, List.mem_append_left _ hpair, hfst⟩
  | none => exact List.mem_map.mpr ⟨_, byName_bare hperm honce hentry hj hstable, rfl⟩

/-- Two passes leave nothing for the third. -/
theorem matched_pairs_eq : (matched hash oldEntries newEntries).pairs =
    (byName hash oldEntries newEntries).pairs := by
  have hnil : fingerprintPairs (byName hash oldEntries newEntries).old
      (byName hash oldEntries newEntries).new = [] := by
    rw [List.eq_nil_iff_forall_not_mem]
    intro pair hpair
    obtain ⟨entry, hentry, hfree⟩ := (findsFree_fingerprints _ _).newFree pair hpair
    have hmarks := byName_marks hash oldEntries newEntries
    have hlt := Marks.lt_of_getElem? (hmarks.newMarks pair.2) hentry
    rw [length_loadEntries] at hlt
    exact (hmarks.new_free hentry).mp hfree (byName_all_new hperm honce hlt)
  change (byName hash oldEntries newEntries).pairs ++ fingerprintPairs
    (byName hash oldEntries newEntries).old (byName hash oldEntries newEntries).new = _
  rw [hnil, List.append_nil]

end

/-! ## The report -/

/-- The positions of the entries without a match. -/
def leftoverAt (entries : List DiffEntry) : List Nat :=
  (List.range entries.length).filter fun i => !matchedAt entries i

theorem mem_leftoverAt {entries : List DiffEntry} : i ∈ leftoverAt entries ↔
    ∃ entry, entries[i]? = some entry ∧ entry.matched = false := by
  rw [leftoverAt, List.mem_filter, List.mem_range, matchedAt]
  constructor
  · rintro ⟨hlt, hfree⟩
    rw [List.getElem?_eq_getElem hlt] at hfree ⊢
    exact ⟨_, rfl, by simpa using hfree⟩
  · rintro ⟨entry, hentry, hfree⟩
    rw [hentry]
    exact ⟨(List.getElem?_eq_some_iff.mp hentry).1, by simp [hfree]⟩

theorem leftover_eq (entries : List DiffEntry) :
    leftover entries = (leftoverAt entries).filterMap fun i => entries[i]?.map DiffEntry.name := by
  induction entries using List.reverseRecOn with
  | nil => rfl
  | append_singleton entries entry ih =>
    have hfront : (List.range entries.length).filter (fun i => !matchedAt (entries ++ [entry]) i) =
        leftoverAt entries := by
      apply List.filter_congr
      intro i hi
      rw [matchedAt, matchedAt, List.getElem?_append_left (List.mem_range.mp hi)]
    have hnames : ((leftoverAt entries).filterMap fun i =>
        (entries ++ [entry])[i]?.map DiffEntry.name) = leftover entries := by
      rw [ih]
      apply List.filterMap_congr
      intro i hi
      rw [List.getElem?_append_left (List.mem_range.mp (List.mem_of_mem_filter hi))]
    rw [leftoverAt, List.length_append, List.length_singleton, List.range_succ,
      List.filter_append, hfront, List.filterMap_append, hnames, leftover, List.filter_append,
      List.map_append, ← leftover]
    congr 1
    cases hmatched : entry.matched <;> simp [matchedAt, hmatched]

/-- The comparison of two revisions is a matching: each entry is in one pair or left over, the
report lists what is left over, and two revisions with the same entries do not differ. -/
structure IsMatching (hash : Bytes → Blake3) (old new : List DatEntry) : Prop where
  oldOnce : ((matched hash old new).pairs.map Prod.fst).Nodup
  newOnce : ((matched hash old new).pairs.map Prod.snd).Nodup
  range : ∀ pair ∈ (matched hash old new).pairs, pair.1 < old.length ∧ pair.2 < new.length
  oldOne : ∀ i < old.length, i ∈ (matched hash old new).pairs.map Prod.fst ↔
    i ∉ leftoverAt (matched hash old new).old
  newOne : ∀ j < new.length, j ∈ (matched hash old new).pairs.map Prod.snd ↔
    j ∉ leftoverAt (matched hash old new).new
  removed : ∀ provider system revisionOld revisionNew,
    (report hash provider system revisionOld revisionNew old new).removed.Perm
      ((leftoverAt (matched hash old new).old).filterMap (nameOf old))
  added : ∀ provider system revisionOld revisionNew,
    (report hash provider system revisionOld revisionNew old new).added.Perm
      ((leftoverAt (matched hash old new).new).filterMap (nameOf new))
  unchanged : SameEntries old new → ∀ provider system revisionOld revisionNew,
    (report hash provider system revisionOld revisionNew old new).isEmpty = true

section

variable
  (hmarks : ∀ i : Nat, side[i]? = (loadEntries hash entries)[i]?.map fun entry => marked entry (i ∈ marks))

include hmarks

theorem getElem?_matched_name (i : Nat) : side[i]?.map DiffEntry.name = nameOf entries i := by
  rw [hmarks, nameOf, loadEntries, List.getElem?_map]
  cases entries[i]? <;> rfl

theorem mem_iff_not_leftover (hi : i < entries.length) : i ∈ marks ↔ i ∉ leftoverAt side := by
  rw [mem_leftoverAt, hmarks, loadEntries, List.getElem?_map, List.getElem?_eq_getElem hi]
  simp [marked]

theorem leftover_perm :
    (sortNames (leftover side)).Perm ((leftoverAt side).filterMap (nameOf entries)) := by
  have hnames : (fun i => side[i]?.map DiffEntry.name) = nameOf entries := by
    funext i
    exact getElem?_matched_name hmarks i
  rw [leftover_eq, hnames]
  exact List.perm_insertionSort _ _

theorem leftover_eq_nil (hall : ∀ i < entries.length, i ∈ marks) : leftover side = [] := by
  have hnone : leftoverAt side = [] := by
    rw [List.eq_nil_iff_forall_not_mem]
    intro i hi
    obtain ⟨entry, hentry, _⟩ := mem_leftoverAt.mp hi
    have hlt := Marks.lt_of_getElem? (hmarks i) hentry
    rw [length_loadEntries] at hlt
    exact (mem_iff_not_leftover hmarks hlt).mp (hall i hlt) hi
  rw [leftover_eq, hnone]
  rfl

end

theorem report_unchanged (honce : AskedOnce oldEntries newEntries)
    (hsame : SameEntries oldEntries newEntries) (provider system : Text)
    (revisionOld revisionNew : Nat) :
    (report hash provider system revisionOld revisionNew oldEntries newEntries).isEmpty = true := by
  have hperm : (loadEntries hash oldEntries).Perm (loadEntries hash newEntries) :=
    hsame.loadEntries
  have hmarks := matched_marks hash oldEntries newEntries
  have hpairs := matched_pairs_eq hperm honce
  have hentries : ∀ pair ∈ (matched hash oldEntries newEntries).pairs, ∀ found,
      (matched hash oldEntries newEntries).entriesOf pair = some found →
        found.1.fingerprint = found.2.fingerprint ∧ found.1.name = found.2.name := by
    intro pair hpair found hfound
    rw [hpairs] at hpair
    obtain ⟨entry, hold, hnew⟩ := byName_same hperm honce hpair
    rw [Matching.entriesOf, hmarks.oldMarks, hmarks.newMarks, hold, hnew] at hfound
    cases hfound
    exact ⟨rfl, rfl⟩
  have hrehashed : (matched hash oldEntries newEntries).rehashed = [] := by
    rw [Matching.rehashed, List.filterMap_eq_nil_iff]
    intro pair hpair
    cases hfound : (matched hash oldEntries newEntries).entriesOf pair with
    | none => rfl
    | some found => simp [(hentries pair hpair found hfound).1]
  have hrenamed : (matched hash oldEntries newEntries).renamed = [] := by
    rw [Matching.renamed, List.filterMap_eq_nil_iff]
    intro pair hpair
    cases hfound : (matched hash oldEntries newEntries).entriesOf pair with
    | none => rfl
    | some found => simp [(hentries pair hpair found hfound).2]
  have hadded : leftover (matched hash oldEntries newEntries).new = [] := by
    apply leftover_eq_nil hmarks.newMarks
    rw [hpairs]
    exact fun j hj => byName_all_new hperm honce hj
  have hremoved : leftover (matched hash oldEntries newEntries).old = [] := by
    apply leftover_eq_nil hmarks.oldMarks
    rw [hpairs]
    exact fun i hi => byName_all_old hperm honce hi
  unfold matched at hrehashed hrenamed hadded hremoved
  simp [DatDiff.isEmpty, report, hrehashed, hrenamed, hadded, hremoved, sortNames]

/-- The comparison is a matching exactly for revisions where no two new entries ask for one
old entry. -/
theorem diff_is_matching_iff (hash : Bytes → Blake3) (old new : List DatEntry) :
    IsMatching hash old new ↔ AskedOnce old new := by
  constructor
  · intro hmatching
    exact (matched_fst_nodup_iff hash old new).mp hmatching.oldOnce
  · intro honce
    have hmarks := matched_marks hash old new
    exact {
      oldOnce := (matched_fst_nodup_iff hash old new).mpr honce
      newOnce := matched_snd_nodup hash old new
      range := by
        intro pair hpair
        have hrange := hmarks.range pair hpair
        rwa [length_loadEntries, length_loadEntries] at hrange
      oldOne := fun i hi => mem_iff_not_leftover hmarks.oldMarks hi
      newOne := fun j hj => mem_iff_not_leftover hmarks.newMarks hj
      removed := fun _ _ _ _ => leftover_perm hmarks.oldMarks
      added := fun _ _ _ _ => leftover_perm hmarks.newMarks
      unchanged := fun hsame provider system revisionOld revisionNew =>
        report_unchanged honce hsame provider system revisionOld revisionNew }

/-- Two dumps under one name, as real dats list them. -/
def twoBetas : List DatEntry :=
  [⟨"Lion King, The (Beta)".toList, none, [{ kind := 0, size := some 131072 }]⟩,
    ⟨"Lion King, The (Beta)".toList, none, [{ kind := 0, size := some 262144 }]⟩]

/-- Against itself, a dat with two dumps under one name pairs both with the second. -/
theorem unchanged_dat_not_matched :
    ¬ ∃ hash : Bytes → Blake3, IsMatching hash twoBetas twoBetas := by
  rintro ⟨hash, hmatching⟩
  have honce := (matched_fst_nodup_iff hash twoBetas twoBetas).mp hmatching.oldOnce
  have hbare : ∀ i k, keyOf twoBetas i ≠ some k := by
    intro i k hkey
    obtain ⟨entry, hentry, hstable⟩ := Option.bind_eq_some_iff.mp hkey
    rcases List.mem_cons.mp (List.mem_of_getElem? hentry) with rfl | hmem
    · cases hstable
    · rw [List.mem_singleton.mp hmem] at hstable
      cases hstable
  have hfalse : 0 = 1 := honce.names 0 0 1 "Lion King, The (Beta)".toList
    (fun ⟨k, hkey, _⟩ => hbare 0 k hkey) (fun ⟨k, hkey, _⟩ => hbare 0 k hkey)
    (fun ⟨k, hkey, _⟩ => hbare 1 k hkey) rfl rfl rfl
  cases hfalse

end Diff

end Datboi.Catalog
