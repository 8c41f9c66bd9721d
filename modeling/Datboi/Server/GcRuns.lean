import Datboi.Server.Gc

/-!
# Orphan collection among other writers

An apply holds its process's index lock, but sweeps and analyses write over
connections of their own, between any two of its statements. The machine below takes
an apply one statement at a time, with sweeps and arbitrary other writes in between.
An apply reads the tag roots once, at its start, and asks for each candidate once,
before the first byte goes; the results say what that leaves open.
-/

namespace Datboi.Gc

/-! ## One apply, a statement at a time -/

/-- What an apply does next. `rows` and `memberRows` stand between the removal of a
candidate's bytes and that of its rows. -/
inductive Phase where
  | listing
  | loose (wanted : List OrphanCandidate) (aside : PackedOrphans)
  | unlink (candidate : OrphanCandidate) (wanted : List OrphanCandidate) (aside : PackedOrphans)
  | rows (candidate : OrphanCandidate) (wanted : List OrphanCandidate) (aside : PackedOrphans)
  | packed (aside : PackedOrphans)
  | members (orphans : List OrphanCandidate) (aside : PackedOrphans)
  | memberRows (candidate : OrphanCandidate) (orphans : List OrphanCandidate)
      (aside : PackedOrphans)
  deriving DecidableEq

def PackedOrphans.all (aside : PackedOrphans) : List OrphanCandidate := aside.flatMap Prod.snd

namespace Phase

/-- Candidates that passed the delete-time check and still have their rows. -/
def checked : Phase → List OrphanCandidate
  | listing => []
  | loose _ aside => aside.all
  | unlink candidate _ aside => candidate :: aside.all
  | rows candidate _ aside => candidate :: aside.all
  | packed aside => aside.all
  | members orphans aside => orphans ++ aside.all
  | memberRows candidate orphans aside => candidate :: (orphans ++ aside.all)

/-- Candidates the apply has not come to. -/
def wanted : Phase → List OrphanCandidate
  | loose wanted _ => wanted
  | unlink _ wanted _ => wanted
  | rows _ wanted _ => wanted
  | _ => []

def pending (phase : Phase) : List OrphanCandidate := phase.checked ++ phase.wanted

end Phase

/-- An apply under way. `requested` is the request's list of hex addresses; `roots`
are the tag roots as they were at its start. -/
structure Apply where
  keeps : List Blake3
  requested : Option (List String)
  grace : Int
  roots : List Nat
  now : Int := 0
  response : GcApplyResponse := {}
  phase : Phase := .listing

namespace Apply

/-- The candidates a request names. -/
def retained (requested : Option (List String)) (candidates : List OrphanCandidate) :
    List OrphanCandidate :=
  match requested with
  | none => candidates
  | some hashes => candidates.filter fun candidate => hashes.contains candidate.hash.toHex

/-- Ask again for one candidate, then skip it, set it aside with its pack or go on to
its bytes. -/
def check (apply : Apply) (site : Site) (candidate : OrphanCandidate)
    (rest : List OrphanCandidate) (aside : PackedOrphans) : Apply :=
  if candidate.hash ∈ apply.keeps ∨
      site.db.orphanStillDeletable candidate.blobId apply.roots apply.now apply.grace = false then
    { apply with response := apply.response.skip, phase := .loose rest aside }
  else
    match site.store.packOf candidate.hash with
    | some pack => { apply with phase := .loose rest (aside.push pack candidate) }
    | none => { apply with phase := .unlink candidate rest aside }

/-- Remove a candidate's rows; an index error ends the apply. -/
def deleteRows (apply : Apply) (site : Site) (candidate : OrphanCandidate) (next : Phase) :
    Option Apply × Site :=
  match site.db.deleteOrphanRows candidate.blobId with
  | .error _ => (none, site)
  | .ok db => (some { apply with response := apply.response.delete candidate, phase := next },
      { site with db := db })

def removeBytes (site : Site) (candidate : OrphanCandidate) : Site :=
  { site with store := site.store.removeBlob .data candidate.hash }

/-- The next statement of an apply. `now` is the clock it may read and `pick` the pack
it takes next: the packs are kept in a hash map. -/
def proceed (host : Host) (apply : Apply) (site : Site) (now : Int) (pick : Nat) :
    Option Apply × Site :=
  match apply.phase with
  | .listing =>
    let wanted := retained apply.requested (site.db.listOrphanCandidates now apply.grace)
    (some { apply with now := now, phase := .loose wanted [] }, site)
  | .loose [] aside => (some { apply with phase := .packed aside }, site)
  | .loose (candidate :: rest) aside => (some (apply.check site candidate rest aside), site)
  | .unlink candidate wanted aside =>
    (some { apply with phase := .rows candidate wanted aside }, removeBytes site candidate)
  | .rows candidate wanted aside => apply.deleteRows site candidate (.loose wanted aside)
  | .packed aside =>
    match aside[pick % aside.length]? with
    | none => (none, site)
    | some (pack, orphans) =>
      match site.store.repack host pack (orphans.map OrphanCandidate.hash) with
      | .error _ => (none, site)
      | .ok store =>
        let aside := aside.eraseIdx (pick % aside.length)
        (some { apply with phase := .members orphans aside }, { site with store := store })
  | .members [] aside => (some { apply with phase := .packed aside }, site)
  | .members (candidate :: rest) aside =>
    (some { apply with phase := .memberRows candidate rest aside },
      removeBytes site candidate)
  | .memberRows candidate rest aside => apply.deleteRows site candidate (.members rest aside)

end Apply

/-! ## Runs -/

/-- A write over another connection. Only the sweep and an apply write marks, and
only an apply deletes blob rows. -/
structure Writer where
  write : Site → Site
  marks_eq : ∀ site, (write site).db.orphanCandidates = site.db.orphanCandidates
  keeps_row : ∀ site, ∀ row ∈ site.db.blobs, ∃ row' ∈ (write site).db.blobs,
    row'.blobId = row.blobId ∧ row'.hash = row.hash

structure World where
  site : Site
  apply : Option Apply := none

inductive Step where
  | begin (keeps : List Blake3) (requested : Option (List String)) (grace : Int)
  | proceed (now : Int) (pick : Nat)
  | abort
  | sweep (roots : List Nat) (now : Int)
  | write (writer : Writer)

variable (exec : Executor)

namespace World

/-- A second apply finds the guard busy, and one whose tag roots cannot be read does
not start. -/
def begin (world : World) (keeps : List Blake3) (requested : Option (List String))
    (grace : Int) : World :=
  match world.apply, exec.orphanExtraRoots world.site with
  | none, .ok roots => { world with apply := some { keeps, requested, grace, roots } }
  | _, _ => world

def step (world : World) : Step → World
  | .begin keeps requested grace => world.begin exec keeps requested grace
  | .proceed now pick =>
    match world.apply with
    | none => world
    | some apply =>
      let (apply, site) := apply.proceed exec.host world.site now pick
      { site, apply }
  | .abort => { world with apply := none }
  | .sweep roots now =>
    { world with site := { world.site with db := (world.site.db.sweepOrphanMarks roots now).1 } }
  | .write writer => { world with site := writer.write world.site }

def run (world : World) (steps : List Step) : World := steps.foldl (step exec) world

end World

/-! ## What a deletion has to meet -/

/-- The candidate is marked, its mark has aged, and with the tag roots as they are now
the sweep would mark it. -/
structure Deletable (site : Site) (now grace : Int) (candidate : OrphanCandidate) : Prop where
  orphan : ∃ roots, exec.orphanExtraRoots site = .ok roots ∧
    candidate.blobId ∈ site.db.orphanIds roots
  aged : ∃ markedAt, (candidate.blobId, markedAt) ∈ site.db.orphanCandidates ∧
    markedAt ≤ saturatingSubI64 now grace
  named : ∃ row, site.db.blobById candidate.blobId = some row ∧ row.hash = candidate.hash

/-- A blob loses its row or its last bytes. -/
def Deleted (site site' : Site) (hash : Blake3) : Prop :=
  (site.db.getBlobId hash ≠ none ∧ site'.db.getBlobId hash = none) ∨
    (site.store.has .data hash = true ∧ site'.store.has .data hash = false)

/-- What the writes between an apply's statements must leave alone: no marked blob
gets a tag root the apply has not read, and a candidate it has asked for stays one. -/
structure Spares (apply : Apply) (site site' : Site) : Prop where
  rooted : ∃ roots, exec.orphanExtraRoots site' = .ok roots ∧
    ∀ mark ∈ site'.db.orphanCandidates, mark.1 ∈ roots → mark.1 ∈ apply.roots
  asked : ∀ candidate ∈ apply.phase.checked,
    site.db.orphanStillDeletable candidate.blobId apply.roots apply.now apply.grace = true →
      site'.db.orphanStillDeletable candidate.blobId apply.roots apply.now apply.grace = true

/-- Sweeps and other writes spare what a running apply has in hand. -/
def Step.Meets (world : World) : Step → Prop
  | .sweep roots now => ∀ apply, world.apply = some apply →
      Spares exec apply world.site (world.step exec (.sweep roots now)).site
  | .write writer => ∀ apply, world.apply = some apply →
      Spares exec apply world.site (world.step exec (.write writer)).site
  | _ => True

def Along : World → List Step → Prop
  | _, [] => True
  | world, step :: rest => step.Meets exec world ∧ Along (world.step exec step) rest

/-! ## Tag roots -/

section Roots

variable {exec} {site site' : Site}

theorem orphanExtraRoots_eq (hdb : site'.db = site.db)
    (hmetadata : ∀ hash, site'.store.loose .metadata hash = site.store.loose .metadata hash) :
    exec.orphanExtraRoots site' = exec.orphanExtraRoots site := by
  have htag : exec.rootedByTag site' = exec.rootedByTag site := by
    funext tag
    simp only [Executor.rootedByTag, Executor.loadSnapshot, Store.get_metadata, hmetadata, hdb]
  simp only [Executor.orphanExtraRoots, htag, hdb]

theorem mapM_rooted {f g : String × Blake3 → Except ExecError (List Nat)}
    (hstep : ∀ tag roots, f tag = .ok roots → ∃ roots', g tag = .ok roots' ∧ roots' ⊆ roots)
    {tags : List (String × Blake3)} {found : List (List Nat)} (hrun : tags.mapM f = .ok found) :
    ∃ found', tags.mapM g = .ok found' ∧ found'.flatten ⊆ found.flatten := by
  induction tags generalizing found with
  | nil => exact ⟨[], rfl, List.nil_subset _⟩
  | cons tag rest ih =>
    rw [List.mapM_cons] at hrun
    cases htag : f tag with
    | error e =>
      rw [htag] at hrun
      cases hrun
    | ok roots =>
      rw [htag] at hrun
      cases hrest : rest.mapM f with
      | error e =>
        rw [hrest] at hrun
        cases hrun
      | ok others =>
        rw [hrest] at hrun
        cases hrun
        obtain ⟨roots', hroots', hsub⟩ := hstep tag roots htag
        obtain ⟨others', hothers', hsubs⟩ := ih hrest
        refine ⟨roots' :: others', ?_, ?_⟩
        · rw [List.mapM_cons, hroots', hothers']
          rfl
        · rw [List.flatten_cons, List.flatten_cons]
          exact List.append_subset.mpr ⟨List.subset_append_of_subset_left _ hsub,
            List.subset_append_of_subset_right _ hsubs⟩

/-- With one orphan's rows gone the tags root no blob they did not root before. -/
theorem orphanExtraRoots_removed {blobId : Nat} (hremoved : site.db.OrphanRemoved blobId site'.db)
    (hstore : site'.store = site.store) {roots : List Nat}
    (hroots : exec.orphanExtraRoots site = .ok roots) :
    ∃ roots', exec.orphanExtraRoots site' = .ok roots' ∧ roots' ⊆ roots := by
  unfold Executor.orphanExtraRoots at hroots ⊢
  cases hfound : site.db.tags.mapM (exec.rootedByTag site) with
  | error e =>
    rw [hfound] at hroots
    cases hroots
  | ok found =>
    rw [hfound] at hroots
    cases hroots
    have hone : ∀ hash, (site'.db.getBlobId hash).toList ⊆ (site.db.getBlobId hash).toList := by
      intro hash id hid
      rw [Option.mem_toList] at hid ⊢
      exact hremoved.getBlobId hid
    obtain ⟨found', hfound', hsub⟩ : ∃ found', site.db.tags.mapM (exec.rootedByTag site') =
        .ok found' ∧ found'.flatten ⊆ found.flatten := by
      refine mapM_rooted ?_ hfound
      intro tag roots htag
      unfold Executor.rootedByTag at htag ⊢
      rw [hstore]
      split at htag
      · rename_i hview
        rw [if_pos hview]
        split at htag
        · cases htag
        · cases htag
          refine ⟨_, rfl, List.append_subset.mpr
            ⟨List.subset_append_of_subset_left _ (hone _), ?_⟩⟩
          intro id hid
          obtain ⟨row, hrow, hblob⟩ := List.mem_filterMap.mp hid
          exact List.mem_append_right _
            (List.mem_filterMap.mpr ⟨row, hrow, hremoved.getBlobId hblob⟩)
      · rename_i hview
        cases htag
        rw [if_neg hview]
        exact ⟨_, rfl, hone _⟩
    refine ⟨found'.flatten, ?_, hsub⟩
    rw [hremoved.tags, hfound']
    rfl

end Roots

/-! ## What each statement leaves alone -/

section Frames

variable {host : Host} {store store' : Store} {pack : Blake3} {drop : List Blake3}

/-- A rewritten pack loses none of the other members. -/
theorem repack_keeps (hrun : store.repack host pack drop = .ok store') :
    store'.loose = store.loose ∧ ∀ hash ∉ drop, store.has .data hash = true →
      store'.has .data hash = true := by
  unfold Store.repack at hrun
  split at hrun
  · cases hrun
  · rename_i members _
    simp only at hrun
    split at hrun
    · cases hrun
      exact ⟨rfl, fun _ _ hhas => hhas⟩
    · split at hrun
      · rename_i hsurvivors
        cases hrun
        refine ⟨rfl, fun hash hkept hhas => ?_⟩
        have hforeign : hash ∉ members.map Prod.fst := by
          intro hmember
          obtain ⟨member, hmem, rfl⟩ := List.mem_map.mp hmember
          exact List.filter_eq_nil_iff.mp hsurvivors member hmem (by simpa using hkept)
        rw [Store.has_data] at hhas ⊢
        rw [Store.isPacked_unlinkPack, Store.isPacked_unmapMembers, decide_eq_true hforeign]
        exact hhas
      · cases hput : store.putPack host ((members.filter fun member => member.1 ∉ drop).map
            fun member => (member.1, member.2.length, ⟨member.2, none⟩)) with
        | error e =>
          rw [hput] at hrun
          cases hrun
        | ok written =>
          obtain ⟨newPack, sealed⟩ := written
          obtain ⟨_, hloose, hpacked⟩ := Store.putPack_eq_ok hput
          rw [hput] at hrun
          cases hrun
          have hkeeps : ∀ hash ∉ drop, store.has .data hash = true →
              (sealed.unmapMembers ((members.filter fun member => member.1 ∈ drop).map
                Prod.fst)).has .data hash = true := by
            intro hash hkept hhas
            have hforeign : hash ∉ (members.filter fun member => member.1 ∈ drop).map Prod.fst := by
              intro hmember
              obtain ⟨member, hmem, rfl⟩ := List.mem_map.mp hmember
              exact hkept (by simpa using (List.mem_filter.mp hmem).2)
            rw [Store.has_data] at hhas ⊢
            rw [Store.isPacked_unmapMembers, decide_eq_true hforeign, hpacked,
              Store.hasLoose_unmapMembers, Store.hasLoose, hloose]
            rcases Bool.or_eq_true _ _ ▸ hhas with hfile | hmapped
            · exact Bool.or_eq_true _ _ ▸ Or.inl hfile
            · rw [hmapped]
              simp
          split
          · exact ⟨hloose, hkeeps⟩
          · exact ⟨hloose, hkeeps⟩

theorem has_removeBlob_ne {hash other : Blake3} (hne : other ≠ hash) :
    (store.removeBlob .data hash).has .data other = store.has .data other := by
  rw [Store.has_removeBlob_data, Store.has_data, decide_eq_true hne, Bool.true_and]

theorem loose_metadata_removeBlob {hash other : Blake3} :
    (store.removeBlob .data hash).loose .metadata other = store.loose .metadata other := by
  simp [Store.removeBlob, Store.evictLiteral, Store.setObao]

theorem perm_all_push (aside : PackedOrphans) (pack : Blake3) (candidate : OrphanCandidate) :
    (aside.push pack candidate).all.Perm (candidate :: aside.all) := by
  induction aside with
  | nil => exact List.Perm.refl _
  | cons entry rest ih =>
    obtain ⟨other, orphans⟩ := entry
    rw [PackedOrphans.push]
    split
    · change ((orphans ++ [candidate]) ++ rest.flatMap Prod.snd).Perm
        (candidate :: (orphans ++ rest.flatMap Prod.snd))
      rw [List.append_assoc]
      exact List.perm_middle
    · change (orphans ++ PackedOrphans.all (PackedOrphans.push rest pack candidate)).Perm
        (candidate :: (orphans ++ PackedOrphans.all rest))
      exact (ih.append_left orphans).trans List.perm_middle

theorem perm_all_eraseIdx {aside : PackedOrphans} {i : Nat} {orphans : List OrphanCandidate}
    (hpick : aside[i]? = some (pack, orphans)) :
    (orphans ++ PackedOrphans.all (aside.eraseIdx i)).Perm aside.all := by
  obtain ⟨hlt, hget⟩ := List.getElem?_eq_some_iff.mp hpick
  have hperm := List.getElem_cons_eraseIdx_perm hlt
  rw [hget] at hperm
  exact hperm.flatMap_right Prod.snd

end Frames

/-! ## The invariant of a running apply -/

/-- No marked blob has a tag root the apply has not read, every pending candidate is
the blob it was listed as, each only once, and what passed the check still does. -/
structure Collecting (site : Site) (apply : Apply) : Prop where
  rooted : ∃ roots, exec.orphanExtraRoots site = .ok roots ∧
    ∀ mark ∈ site.db.orphanCandidates, mark.1 ∈ roots → mark.1 ∈ apply.roots
  named : ∀ candidate ∈ apply.phase.pending,
    ∃ row, site.db.blobById candidate.blobId = some row ∧ row.hash = candidate.hash
  distinct : (apply.phase.pending.map OrphanCandidate.blobId).Nodup
  asked : ∀ candidate ∈ apply.phase.checked,
    site.db.orphanStillDeletable candidate.blobId apply.roots apply.now apply.grace = true

section Collecting

variable {exec} {site site' : Site} {apply apply' : Apply}

theorem saturatingSubI64_mono {now time grace : Int} (hle : now ≤ time) :
    saturatingSubI64 now grace ≤ saturatingSubI64 time grace := by
  unfold saturatingSubI64
  omega

variable {candidate : OrphanCandidate}

/-- What passed the check may be deleted now, and at any later time. -/
theorem Collecting.deletable (hcollecting : Collecting exec site apply)
    (hchecked : candidate ∈ apply.phase.checked) {time : Int} (htime : apply.now ≤ time) :
    Deletable exec site time apply.grace candidate := by
  obtain ⟨roots, hroots, hread⟩ := hcollecting.rooted
  have hasked := hcollecting.asked candidate hchecked
  rw [Db.orphanStillDeletable_iff, Db.mem_orphanIds] at hasked
  obtain ⟨⟨row, hrow, hunrooted, hunread⟩, markedAt, hmark, haged⟩ := hasked
  refine ⟨⟨roots, hroots, Db.mem_orphanIds.mpr ⟨row, hrow, hunrooted, ?_⟩⟩,
    ⟨markedAt, hmark, haged.trans (saturatingSubI64_mono htime)⟩,
    hcollecting.named candidate (List.mem_append_left _ hchecked)⟩
  intro hnow
  exact hunread (hread _ hmark hnow)

/-- The same apply on the same index, with fewer candidates in hand. -/
structure Narrows (apply apply' : Apply) : Prop where
  roots : apply'.roots = apply.roots
  now : apply'.now = apply.now
  grace : apply'.grace = apply.grace
  pending : apply'.phase.pending.Subperm apply.phase.pending

theorem Collecting.narrow (hcollecting : Collecting exec site apply)
    (hnarrows : Narrows apply apply') (hdb : site'.db = site.db)
    (hmetadata : ∀ hash, site'.store.loose .metadata hash = site.store.loose .metadata hash)
    (hchecked : ∀ candidate ∈ apply'.phase.checked, candidate ∈ apply.phase.checked ∨
      site.db.orphanStillDeletable candidate.blobId apply.roots apply.now apply.grace = true) :
    Collecting exec site' apply' where
  rooted := by
    rw [orphanExtraRoots_eq hdb hmetadata, hdb, hnarrows.roots]
    exact hcollecting.rooted
  named := by
    intro candidate hmem
    rw [hdb]
    exact hcollecting.named candidate (hnarrows.pending.subset hmem)
  distinct := by
    obtain ⟨kept, hperm, hsub⟩ := hnarrows.pending
    rw [← (hperm.map OrphanCandidate.blobId).nodup_iff]
    exact hcollecting.distinct.sublist (hsub.map _)
  asked := by
    intro candidate hmem
    rw [hdb, hnarrows.roots, hnarrows.now, hnarrows.grace]
    rcases hchecked candidate hmem with hbefore | hasked
    · exact hcollecting.asked candidate hbefore
    · exact hasked

/-- One orphan's rows are gone and the apply goes on with the others. -/
theorem Collecting.removed (hcollecting : Collecting exec site apply)
    (hremoved : site.db.OrphanRemoved candidate.blobId site'.db)
    (hstore : site'.store = site.store) (hroots : apply'.roots = apply.roots)
    (hnow : apply'.now = apply.now) (hgrace : apply'.grace = apply.grace)
    (hchecked : apply.phase.checked = candidate :: apply'.phase.checked)
    (hwanted : apply.phase.wanted = apply'.phase.wanted) : Collecting exec site' apply' := by
  have hpending : apply.phase.pending = candidate :: apply'.phase.pending := by
    rw [Phase.pending, hchecked, hwanted, Phase.pending, List.cons_append]
  have hdistinct := hcollecting.distinct
  rw [hpending, List.map_cons, List.nodup_cons] at hdistinct
  have hne : ∀ other ∈ apply'.phase.pending, other.blobId ≠ candidate.blobId := by
    intro other hother heq
    exact hdistinct.1 (heq ▸ List.mem_map_of_mem hother)
  constructor
  · obtain ⟨roots, hbefore, hread⟩ := hcollecting.rooted
    obtain ⟨roots', hafter, hsub⟩ := orphanExtraRoots_removed hremoved hstore hbefore
    refine ⟨roots', hafter, fun mark hmark hroot => ?_⟩
    rw [hremoved.marks] at hmark
    rw [hroots]
    exact hread mark (List.mem_filter.mp hmark).1 (hsub hroot)
  · intro other hother
    rw [hremoved.blobById (hne other hother)]
    apply hcollecting.named
    rw [hpending]
    exact List.mem_cons_of_mem _ hother
  · exact hdistinct.2
  · intro other hother
    rw [hroots, hnow, hgrace]
    apply hremoved.orphanStillDeletable (hne other (List.mem_append_left _ hother))
    apply hcollecting.asked
    rw [hchecked]
    exact List.mem_cons_of_mem _ hother

/-- What one statement of an apply guarantees. -/
structure Progress (exec : Executor) (site : Site) (apply : Apply)
    (next : Option Apply × Site) : Prop where
  collecting : ∀ apply', next.1 = some apply' → Collecting exec next.2 apply'
  index : next.2.db = site.db ∨ ∃ blobId, site.db.OrphanRemoved blobId next.2.db
  deleted : ∀ hash, Deleted site next.2 hash →
    ∃ candidate ∈ apply.phase.checked, candidate.hash = hash

theorem not_deleted_self (site : Site) (hash : Blake3) : ¬ Deleted site site hash := by
  rintro (⟨hsome, hnone⟩ | ⟨hhas, hlost⟩)
  · exact hsome hnone
  · rw [hhas] at hlost
    cases hlost

theorem progress_stop : Progress exec site apply (none, site) where
  collecting := nofun
  index := Or.inl rfl
  deleted hash hdeleted := absurd hdeleted (not_deleted_self site hash)

section

variable (hcollecting : Collecting exec site apply)

include hcollecting

/-- A statement that leaves the store alone too. -/
theorem Collecting.progress_turn (hnarrows : Narrows apply apply')
    (hchecked : ∀ candidate ∈ apply'.phase.checked, candidate ∈ apply.phase.checked ∨
      site.db.orphanStillDeletable candidate.blobId apply.roots apply.now apply.grace = true) :
    Progress exec site apply (some apply', site) where
  collecting := by
    intro _ heq
    cases heq
    exact hcollecting.narrow hnarrows rfl (fun _ => rfl) hchecked
  index := Or.inl rfl
  deleted hash hdeleted := absurd hdeleted (not_deleted_self site hash)

/-- A statement that takes bytes away from checked candidates. -/
theorem Collecting.progress_bytes (hnarrows : Narrows apply apply') {store : Store}
    (hmetadata : ∀ hash, store.loose .metadata hash = site.store.loose .metadata hash)
    (hchecked : ∀ candidate ∈ apply'.phase.checked, candidate ∈ apply.phase.checked)
    (hkeeps : ∀ hash, (∀ candidate ∈ apply.phase.checked, candidate.hash ≠ hash) →
      site.store.has .data hash = true → store.has .data hash = true) :
    Progress exec site apply (some apply', { site with store := store }) where
  collecting := by
    intro _ heq
    cases heq
    exact hcollecting.narrow hnarrows rfl hmetadata fun candidate hmem =>
      Or.inl (hchecked candidate hmem)
  index := Or.inl rfl
  deleted := by
    rintro hash (⟨hsome, hnone⟩ | ⟨hhas, hlost⟩)
    · exact absurd hnone hsome
    · by_contra hother
      push Not at hother
      have hkept : store.has .data hash = true := hkeeps hash hother hhas
      change store.has .data hash = false at hlost
      rw [hkept] at hlost
      cases hlost

theorem Collecting.progress_rows {next : Phase}
    (hchecked : apply.phase.checked = candidate :: next.checked)
    (hwanted : apply.phase.wanted = next.wanted) :
    Progress exec site apply (apply.deleteRows site candidate next) := by
  unfold Apply.deleteRows
  cases hrun : site.db.deleteOrphanRows candidate.blobId with
  | error e => exact progress_stop
  | ok db =>
    have hremoved := Db.deleteOrphanRows_eq_ok hrun
    have hmem : candidate ∈ apply.phase.checked := by
      rw [hchecked]
      exact List.mem_cons_self
    refine ⟨?_, Or.inr ⟨_, hremoved⟩, ?_⟩
    · intro _ heq
      cases heq
      refine hcollecting.removed ?_ rfl rfl rfl rfl hchecked hwanted
      exact hremoved
    · rintro hash (⟨hsome, hnone⟩ | ⟨hhas, hlost⟩)
      · refine ⟨candidate, hmem, ?_⟩
        obtain ⟨blobId, hblob⟩ := Option.ne_none_iff_exists'.mp hsome
        obtain ⟨row, hrow, _⟩ := Option.map_eq_some_iff.mp hblob
        obtain ⟨hrowMem, hhash⟩ := Table.byKey_eq_some.mp hrow
        -- The lost row is the candidate's own: any other row would still be there.
        have hown : row.blobId = candidate.blobId := by
          by_contra hne
          have hkept : row ∈ db.blobs := by
            rw [hremoved.blobs]
            exact Table.mem_delete.mpr ⟨hrowMem, hne⟩
          have hfound : db.getBlobId hash = some row.blobId := by
            rw [Db.getBlobId, Db.blobByHash, Table.byKey_eq_some.mpr ⟨hkept, hhash⟩]
            rfl
          change db.getBlobId hash = none at hnone
          rw [hfound] at hnone
          cases hnone
        obtain ⟨own, hownRow, hownHash⟩ :=
          hcollecting.named candidate (List.mem_append_left _ hmem)
        obtain ⟨hownMem, hownId⟩ := Table.byId_eq_some.mp hownRow
        have heq : own = row := Table.eq_of_id hownMem hrowMem (hownId.trans hown.symm)
        rw [← hownHash, heq]
        exact hhash
      · change site.store.has .data hash = false at hlost
        rw [hhas] at hlost
        cases hlost

theorem Collecting.progress_listing (hnodup : (site.db.orphanCandidates.map Prod.fst).Nodup)
    (now : Int) :
    Progress exec site apply (some { apply with
      now := now
      phase := .loose (Apply.retained apply.requested
        (site.db.listOrphanCandidates now apply.grace)) [] }, site) where
  index := Or.inl rfl
  deleted hash hdeleted := absurd hdeleted (not_deleted_self site hash)
  collecting := by
    intro _ heq
    cases heq
    have hsub : (Apply.retained apply.requested (site.db.listOrphanCandidates now apply.grace)).Sublist
        (site.db.listOrphanCandidates now apply.grace) := by
      unfold Apply.retained
      split
      · exact List.Sublist.refl _
      · exact List.filter_sublist
    refine ⟨hcollecting.rooted, ?_, ?_, nofun⟩
    · intro candidate hmem
      exact Db.mem_listOrphanCandidates (hsub.subset hmem)
    · exact (Db.nodup_listOrphanCandidates hnodup).sublist (hsub.map _)

theorem Collecting.progress_check {rest : List OrphanCandidate} {aside : PackedOrphans}
    (hphase : apply.phase = .loose (candidate :: rest) aside) :
    Progress exec site apply (some (apply.check site candidate rest aside), site) := by
  have hpending : apply.phase.pending = aside.all ++ candidate :: rest := by
    rw [hphase]
    rfl
  have hchecked : apply.phase.checked = aside.all := by
    rw [hphase]
    rfl
  unfold Apply.check
  split
  · refine hcollecting.progress_turn ⟨rfl, rfl, rfl, ?_⟩ ?_
    · rw [hpending]
      exact ((List.sublist_cons_self _ _).append_left _).subperm
    · intro other hother
      rw [hchecked]
      exact Or.inl hother
  · rename_i hpassed
    rw [not_or, Bool.not_eq_false] at hpassed
    split
    · rename_i pack _
      have hperm := perm_all_push aside pack candidate
      refine hcollecting.progress_turn ⟨rfl, rfl, rfl, ?_⟩ ?_
      · rw [hpending]
        exact ((hperm.append_right rest).trans List.perm_middle.symm).subperm
      · intro other hother
        rw [hchecked]
        rcases List.mem_cons.mp (hperm.mem_iff.mp hother) with heq | hbefore
        · rw [heq]
          exact Or.inr hpassed.2
        · exact Or.inl hbefore
    · refine hcollecting.progress_turn ⟨rfl, rfl, rfl, ?_⟩ ?_
      · rw [hpending]
        exact List.perm_middle.symm.subperm
      · intro other hother
        rw [hchecked]
        rcases List.mem_cons.mp hother with heq | hbefore
        · rw [heq]
          exact Or.inr hpassed.2
        · exact Or.inl hbefore

theorem Collecting.progress_unlink {next : Phase} (hcandidate : candidate ∈ apply.phase.checked)
    (hchecked : next.checked = apply.phase.checked) (hwanted : next.wanted = apply.phase.wanted) :
    Progress exec site apply
      (some { apply with phase := next }, Apply.removeBytes site candidate) := by
  refine hcollecting.progress_bytes ?_ ?_ ?_ ?_
  · refine ⟨rfl, rfl, rfl, ?_⟩
    rw [Phase.pending, hchecked, hwanted]
    exact List.Subperm.refl _
  · intro hash
    exact loose_metadata_removeBlob
  · intro other hother
    rwa [← hchecked]
  · intro hash hother hhas
    rwa [has_removeBlob_ne (hother candidate hcandidate).symm]

theorem Collecting.progress_packed {aside : PackedOrphans} (hphase : apply.phase = .packed aside)
    {i : Nat} {pack : Blake3} {orphans : List OrphanCandidate}
    (hpick : aside[i]? = some (pack, orphans)) {store : Store}
    (hrun : site.store.repack exec.host pack (orphans.map OrphanCandidate.hash) = .ok store) :
    Progress exec site apply
      (some { apply with phase := .members orphans (aside.eraseIdx i) },
        { site with store := store }) := by
  have hperm := perm_all_eraseIdx hpick
  have hpending : apply.phase.pending = aside.all ++ [] := by
    rw [hphase]
    rfl
  have hchecked : apply.phase.checked = aside.all := by
    rw [hphase]
    rfl
  obtain ⟨hloose, hkeeps⟩ := repack_keeps hrun
  refine hcollecting.progress_bytes ?_ ?_ ?_ ?_
  · refine ⟨rfl, rfl, rfl, ?_⟩
    rw [hpending]
    exact (hperm.append_right []).subperm
  · intro hash
    rw [hloose]
  · intro other hother
    rw [hchecked]
    exact hperm.mem_iff.mp hother
  · intro hash hother hhas
    refine hkeeps hash ?_ hhas
    intro hdropped
    obtain ⟨orphan, horphan, rfl⟩ := List.mem_map.mp hdropped
    refine hother orphan ?_ rfl
    rw [hchecked]
    exact hperm.mem_iff.mp (List.mem_append_left _ horphan)

/-- Every statement of an apply keeps the invariant and takes bytes and rows only from
candidates that passed the check. -/
theorem Collecting.progress (hnodup : (site.db.orphanCandidates.map Prod.fst).Nodup) (now : Int)
    (pick : Nat) : Progress exec site apply (apply.proceed exec.host site now pick) := by
  unfold Apply.proceed
  split
  · exact hcollecting.progress_listing hnodup now
  · rename_i hphase
    refine hcollecting.progress_turn ⟨rfl, rfl, rfl, ?_⟩ ?_
    · rw [hphase]
      exact List.Subperm.refl _
    · intro candidate hmem
      rw [hphase]
      exact Or.inl hmem
  · rename_i hphase
    exact hcollecting.progress_check hphase
  · rename_i hphase
    refine hcollecting.progress_unlink ?_ ?_ ?_
    · rw [hphase]
      exact List.mem_cons_self
    · rw [hphase]
      rfl
    · rw [hphase]
      rfl
  · rename_i hphase
    refine hcollecting.progress_rows ?_ ?_
    · rw [hphase]
      rfl
    · rw [hphase]
      rfl
  · rename_i hphase
    split
    · exact progress_stop
    · rename_i hpick
      split
      · exact progress_stop
      · rename_i hrun
        exact hcollecting.progress_packed hphase hpick hrun
  · rename_i hphase
    refine hcollecting.progress_turn ⟨rfl, rfl, rfl, ?_⟩ ?_
    · rw [hphase]
      exact List.Subperm.refl _
    · intro candidate hmem
      rw [hphase]
      exact Or.inl hmem
  · rename_i hphase
    refine hcollecting.progress_unlink ?_ ?_ ?_
    · rw [hphase]
      exact List.mem_cons_self
    · rw [hphase]
      rfl
    · rw [hphase]
      rfl
  · rename_i hphase
    refine hcollecting.progress_rows ?_ ?_
    · rw [hphase]
      rfl
    · rw [hphase]
      rfl

end

end Collecting

/-! ## Runs -/

/-- One mark for each blob, and the invariant of the apply if one is under way. -/
structure World.Sound (world : World) : Prop where
  marks : (world.site.db.orphanCandidates.map Prod.fst).Nodup
  collecting : ∀ apply, world.apply = some apply → Collecting exec world.site apply

/-- The step does not delete the blob, and a sweep finds it to be an orphan. -/
def Step.Keeps (world : World) (blobId : Nat) : Step → Prop
  | .sweep roots _ => blobId ∈ world.site.db.orphanIds roots
  | step => (world.step exec step).site.db.blobById blobId ≠ none

section Runs

variable {exec} {world : World} {step : Step} {steps : List Step}

theorem step_begin_site (keeps : List Blake3) (requested : Option (List String)) (grace : Int) :
    (world.step exec (.begin keeps requested grace)).site = world.site := by
  simp only [World.step, World.begin]
  split
  · rfl
  · rfl

theorem World.Sound.begin (hsound : world.Sound exec) (keeps : List Blake3)
    (requested : Option (List String)) (grace : Int) :
    (world.step exec (.begin keeps requested grace)).Sound exec := by
  refine ⟨by rw [step_begin_site]; exact hsound.marks, ?_⟩
  rw [step_begin_site]
  simp only [World.step, World.begin]
  split
  · rename_i hroots
    intro apply heq
    cases heq
    exact ⟨⟨_, hroots, fun _ _ hroot => hroot⟩, nofun, List.nodup_nil, nofun⟩
  · exact hsound.collecting

theorem World.Sound.proceed (hsound : world.Sound exec) (now : Int) (pick : Nat) :
    (world.step exec (.proceed now pick)).Sound exec := by
  simp only [World.step]
  split
  · exact hsound
  · rename_i apply happly
    have hprogress := (hsound.collecting apply happly).progress hsound.marks now pick
    refine ⟨?_, hprogress.collecting⟩
    rcases hprogress.index with hsame | ⟨blobId, hremoved⟩
    · simp only [hsame]
      exact hsound.marks
    · simp only [hremoved.marks]
      exact hsound.marks.sublist (List.filter_sublist.map _)

/-- A write that spares what the apply has in hand keeps its invariant. -/
theorem Collecting.spared {site site' : Site} {apply : Apply}
    (hcollecting : Collecting exec site apply) (hspares : Spares exec apply site site')
    (hrows : ∀ row ∈ site.db.blobs, ∃ row' ∈ site'.db.blobs,
      row'.blobId = row.blobId ∧ row'.hash = row.hash) : Collecting exec site' apply where
  rooted := hspares.rooted
  named := by
    intro candidate hmem
    obtain ⟨row, hrow, hhash⟩ := hcollecting.named candidate hmem
    obtain ⟨hrowMem, hid⟩ := Table.byId_eq_some.mp hrow
    obtain ⟨row', hmem', hid', hhash'⟩ := hrows row hrowMem
    exact ⟨row', Table.byId_eq_some.mpr ⟨hmem', hid'.trans hid⟩, hhash'.trans hhash⟩
  distinct := hcollecting.distinct
  asked candidate hmem := hspares.asked candidate hmem (hcollecting.asked candidate hmem)

theorem World.Sound.after (hsound : world.Sound exec) (hmeets : step.Meets exec world) :
    (world.step exec step).Sound exec := by
  cases step with
  | begin keeps requested grace => exact hsound.begin keeps requested grace
  | proceed now pick => exact hsound.proceed now pick
  | abort => exact ⟨hsound.marks, nofun⟩
  | sweep roots now =>
    refine ⟨Db.nodup_sweepOrphanMarks hsound.marks, fun apply happly => ?_⟩
    exact (hsound.collecting apply happly).spared (hmeets apply happly)
      fun row hrow => ⟨row, hrow, rfl, rfl⟩
  | write writer =>
    refine ⟨?_, fun apply happly => ?_⟩
    · simp only [World.step, writer.marks_eq]
      exact hsound.marks
    · exact (hsound.collecting apply happly).spared (hmeets apply happly)
        (writer.keeps_row world.site)

theorem sound_run (hsound : world.Sound exec) (halong : Along exec world steps) :
    (world.run exec steps).Sound exec := by
  induction steps generalizing world with
  | nil => exact hsound
  | cons step rest ih => exact ih (hsound.after halong.1) halong.2

theorem Along.initial {done rest : List Step} (halong : Along exec world (done ++ rest)) :
    Along exec world done := by
  induction done generalizing world with
  | nil => exact trivial
  | cons step done ih => exact ⟨halong.1, ih halong.2⟩

/-- A blob that the step does not delete, and that a sweep still finds to be an
orphan, keeps its mark. -/
theorem mark_step (hsound : world.Sound exec) {blobId : Nat} {markedAt : Int}
    (hkeeps : step.Keeps exec world blobId)
    (hmark : (blobId, markedAt) ∈ world.site.db.orphanCandidates) :
    (blobId, markedAt) ∈ (world.step exec step).site.db.orphanCandidates := by
  cases step with
  | begin keeps requested grace => rwa [step_begin_site]
  | proceed now pick =>
    cases happly : world.apply with
    | none =>
      simp only [World.step, happly]
      exact hmark
    | some apply =>
      have hprogress := (hsound.collecting apply happly).progress hsound.marks now pick
      simp only [Step.Keeps, World.step, happly] at hkeeps ⊢
      rcases hprogress.index with hsame | ⟨removed, hremoved⟩
      · rwa [hsame]
      · rw [hremoved.marks, List.mem_filter]
        refine ⟨hmark, decide_eq_true ?_⟩
        -- The removed row is not the blob's own: that one is still there.
        rintro rfl
        apply hkeeps
        rw [Db.blobById, hremoved.blobs, Table.byId_eq_none]
        exact fun row hrow => (Table.mem_delete.mp hrow).2
  | abort => exact hmark
  | sweep roots now => exact Db.mem_sweepOrphanMarks.mpr ⟨hkeeps, Or.inl hmark⟩
  | write writer =>
    simp only [World.step, writer.marks_eq]
    exact hmark

theorem mark_run (hsound : world.Sound exec) (halong : Along exec world steps) {blobId : Nat}
    {markedAt : Int} (hmark : (blobId, markedAt) ∈ world.site.db.orphanCandidates)
    (hkeeps : ∀ done step rest, steps = done ++ step :: rest →
      step.Keeps exec (world.run exec done) blobId) :
    (blobId, markedAt) ∈ (world.run exec steps).site.db.orphanCandidates := by
  induction steps generalizing world with
  | nil => exact hmark
  | cons step rest ih =>
    refine ih (hsound.after halong.1) halong.2
      (mark_step hsound (hkeeps [] step rest rfl) hmark) ?_
    intro done next more hsplit
    exact hkeeps (step :: done) next more (by rw [hsplit]; rfl)

/-- Where no other writer reaches into a running apply, whatever loses its row or its
last bytes is a candidate at that very moment: marked, its mark aged, and an orphan by
the sweep's own predicate under the current tag roots. And a blob that stays an orphan
has the mark of its first sweep. -/
theorem orphan_collection_safe (hidle : world.apply = none)
    (hmarks : (world.site.db.orphanCandidates.map Prod.fst).Nodup)
    (halong : Along exec world steps) :
    (∀ done now pick rest, steps = done ++ .proceed now pick :: rest →
      ∀ apply, (world.run exec done).apply = some apply →
        ∀ hash, Deleted (world.run exec done).site
            ((world.run exec done).step exec (.proceed now pick)).site hash →
          ∃ candidate : OrphanCandidate, candidate.hash = hash ∧ ∀ time, apply.now ≤ time →
            Deletable exec (world.run exec done).site time apply.grace candidate) ∧
    (∀ blobId markedAt, (blobId, markedAt) ∈ world.site.db.orphanCandidates →
      (∀ done step rest, steps = done ++ step :: rest →
        step.Keeps exec (world.run exec done) blobId) →
      ∀ markedAt', (blobId, markedAt') ∈ (world.run exec steps).site.db.orphanCandidates ↔
        markedAt' = markedAt) := by
  have hsound : world.Sound exec := by
    refine ⟨hmarks, fun apply happly => ?_⟩
    rw [hidle] at happly
    cases happly
  constructor
  · intro done now pick rest hsplit apply happly hash hdeleted
    subst hsplit
    have hbefore := sound_run hsound halong.initial
    have hcollecting := hbefore.collecting apply happly
    have hprogress := hcollecting.progress hbefore.marks now pick
    simp only [World.step, happly] at hdeleted
    obtain ⟨candidate, hchecked, hhash⟩ := hprogress.deleted hash hdeleted
    exact ⟨candidate, hhash, fun time htime => hcollecting.deletable hchecked htime⟩
  · intro blobId markedAt hmark hkeeps markedAt'
    have hlast := mark_run hsound halong hmark hkeeps
    constructor
    · intro hmark'
      exact Db.mark_unique (sound_run hsound halong).marks hmark' hlast
    · rintro rfl
      exact hlast

end Runs

/-- One loose blob that nothing references, marked at time 0. -/
def orphanWorld : World where
  site := {
    db := ((Db.empty.upsertBlob 7 (some 1) .data .resident).1.sweepOrphanMarks [] 0).1
    store := Store.empty.setLoose .data 7 (some [7])
    caches := .empty }

def sampleExec : Executor where
  host := Host.sample

/-- Up to the check that lets the blob go. -/
def checkOrphan : List Step := [.begin [] none 60, .proceed 100 0, .proceed 100 0]

theorem insertRecipe_eq_ok {db : Db} {recipeBlobId : Nat} {seekClass : SeekClass}
    {source : RecipeSource} {inputs : List RecipeInput} {outputs : List RecipeOutput}
    {written : Db × Nat}
    (hrun : db.insertRecipe recipeBlobId seekClass source inputs outputs = .ok written) :
    written.1.blobs = db.blobs ∧ written.1.orphanCandidates = db.orphanCandidates := by
  unfold Db.insertRecipe at hrun
  split at hrun
  · cases hrun
  · cases hrun
    exact ⟨rfl, rfl⟩

/-- An analysis over its own connection records a recipe whose output is blob 1. -/
def recordRecipe (site : Site) : Site :=
  match site.db.insertRecipe 2 .affine .localIngest [] [⟨1, 1, none⟩] with
  | .ok (db, _) => { site with db := db }
  | .error _ => site

def recipeWriter : Writer where
  write := recordRecipe
  marks_eq site := by
    unfold recordRecipe
    split
    · rename_i hrun
      exact (insertRecipe_eq_ok hrun).2
    · rfl
  keeps_row site row hrow := by
    unfold recordRecipe
    split
    · rename_i hrun
      exact ⟨row, (insertRecipe_eq_ok hrun).1 ▸ hrow, rfl, rfl⟩
    · exact ⟨row, hrow, rfl, rfl⟩

def referencedWorld : World := orphanWorld.run sampleExec (checkOrphan ++ [.write recipeWriter])

/-- Between the check and the unlink a recipe comes to name the blob, and the apply
destroys its bytes all the same. -/
theorem apply_destroys_referenced :
    Deleted referencedWorld.site (referencedWorld.step sampleExec (.proceed 101 0)).site 7 ∧
      ∀ candidate, ¬ Deletable sampleExec referencedWorld.site 101 60 candidate := by
  refine ⟨Or.inr ⟨by decide +kernel, by decide +kernel⟩, ?_⟩
  intro candidate hdeletable
  obtain ⟨roots, _, horphan⟩ := hdeletable.orphan
  obtain ⟨row, hrow, hunrooted, _⟩ := Db.mem_orphanIds.mp horphan
  have hnone : referencedWorld.site.db.blobs.rows.all
      (fun row => !referencedWorld.site.db.isUnrooted row) = true := by decide +kernel
  have hrooted := List.all_eq_true.mp hnone row (Table.byId_eq_some.mp hrow).1
  rw [hunrooted] at hrooted
  cases hrooted

/-- An undisturbed apply, with a sweep in its midst that finds the same orphan. -/
theorem orphan_collection_safe_swept :
    Along sampleExec orphanWorld (checkOrphan ++ [.sweep [] 100, .proceed 101 0]) ∧
      ∃ candidate : OrphanCandidate, candidate.hash = 7 ∧
        Deletable sampleExec (orphanWorld.run sampleExec (checkOrphan ++ [.sweep [] 100])).site
          101 60 candidate := by
  have halong : Along sampleExec orphanWorld (checkOrphan ++ [.sweep [] 100, .proceed 101 0]) := by
    refine ⟨trivial, trivial, trivial, ?_, trivial, trivial⟩
    intro apply happly
    cases happly
    refine ⟨⟨[], rfl, nofun⟩, ?_⟩
    intro candidate hmem _
    rw [List.mem_singleton.mp hmem]
    decide +kernel
  refine ⟨halong, ?_⟩
  obtain ⟨candidate, hhash, hdeletable⟩ := (orphan_collection_safe rfl (by decide +kernel)
    halong).1 (checkOrphan ++ [.sweep [] 100]) 101 0 [] rfl _ rfl 7
      (Or.inr ⟨by decide +kernel, by decide +kernel⟩)
  exact ⟨candidate, hhash, hdeletable 101 (by decide +kernel)⟩

end Datboi.Gc
