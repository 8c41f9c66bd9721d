import Datboi.Exec.EvictSafe
import Datboi.Index.Sweep

/-!
# Planners under the eviction guard

The guard is one leased row. A planner claims it once for a whole phase, goes through its
victims and releases it; a lease that has run out is anyone's to take. One victim costs a
planner three statements, the check, the unlink and the residency flip, and other planners
may run between any two of them.
-/

namespace Datboi

/-- Random bytes that tell one would-be holder from another. -/
structure GuardHolder where
  bytes : BitVec 128
  deriving DecidableEq

/-- The one row of `gc_guard`. -/
structure GcGuard where
  holder : Option GuardHolder := none
  expiresAt : Int := 0
  deriving DecidableEq

namespace GcGuard

/-- Take the guard if it is free, has run out, or is held already. -/
def claim (guard : GcGuard) (holder : GuardHolder) (nowUnix ttlSecs : Int) : Option GcGuard :=
  if guard.holder = none ∨ guard.expiresAt ≤ nowUnix ∨ guard.holder = some holder then
    some ⟨some holder, saturatingAddI64 nowUnix ttlSecs⟩
  else none

/-- Release the guard if it is still held. -/
def release (guard : GcGuard) (holder : GuardHolder) : GcGuard :=
  if guard.holder = some holder then {} else guard

end GcGuard

def guardTtlSecs : Int := 15 * 60

/-! ## One victim in three statements -/

/-- A literal that has passed the check and is to go. -/
structure Victim where
  blobId : Nat
  hash : Blake3
  bytes : Nat
  deriving DecidableEq

namespace Executor

variable (exec : Executor)

/-- The checks of `evictWith`, up to the tree that must exist before the bytes may go. -/
def checkVictim (protectedIds : List Nat) (hash : Blake3) : ExecM (Blocked ⊕ Victim) := fun site =>
  match site.db.blobByHash hash with
  | none => .ok (.inl .notResident) site
  | some row =>
    if row.residency ≠ .resident ∨ site.store.has .data hash = false then
      .ok (.inl .notResident) site
    else if row.blobId ∈ protectedIds then .ok (.inl .pinnedByView) site
    else if site.store.isPacked hash ∧ site.store.hasLoose .data hash = false then
      .ok (.inl .packed) site
    else if site.db.isEvictable row.blobId = false then
      .ok (.inl (if (site.db.recipesForOutput row.blobId).any (·.verify ≠ .failed)
        then .needsReplay else .notGrounded)) site
    else
      match site.store.ensureObao exec.host .data hash with
      | .error e => .error (.store e) site
      | .ok (false, store) => .ok (.inl .notResident) { site with store := store }
      | .ok (true, store) =>
        .ok (.inr ⟨row.blobId, row.hash, (row.size.or (store.len .data hash)).getD 0⟩)
          { site with store := store }

/-- The point of no return. -/
def unlinkVictim (victim : Victim) (site : Site) : Site :=
  { site with store := site.store.evictLiteral .data victim.hash }

/-- The residency follows the bytes; a packed duplicate keeps its row. -/
def flipVictim (victim : Victim) (site : Site) : Site :=
  { site with
    db := site.db.setResidency victim.blobId
      (if site.store.has .data victim.hash then .resident else .evictedCovered) }

/-- With nothing in between, the three statements are one eviction. -/
theorem evictWith_eq_statements (protectedIds : List Nat) (hash : Blake3) (site : Site) :
    exec.evictWith protectedIds hash site =
      match exec.checkVictim protectedIds hash site with
      | .error e site => .error e site
      | .ok (.inl why) site => .ok (.blocked why) site
      | .ok (.inr victim) site =>
        .ok (.evicted victim.bytes) (flipVictim victim (unlinkVictim victim site)) := by
  unfold evictWith checkVictim
  cases hrow : site.db.blobByHash hash with
  | none => rfl
  | some row =>
    simp only
    split
    · rfl
    split
    · rfl
    split
    · rfl
    split
    · rfl
    cases hobao : site.store.ensureObao exec.host .data hash with
    | error e => rfl
    | ok found =>
      obtain ⟨built, store⟩ := found
      cases built <;> rfl

end Executor

/-! ## Planners -/

/-- What a planner goes through its victims for: `evict_covered` reads the pins once and
stops at its target, a swap asks for each container afresh and goes to the end. -/
inductive Work where
  | covered (protectedIds : List Nat) (target : Nat)
  | swap
  deriving DecidableEq

namespace Work

def met (work : Work) (progress : EvictProgress) : Bool :=
  match work with
  | covered _ target => progress.resident ≤ target
  | swap => false

def check (exec : Executor) (work : Work) (hash : Blake3) : ExecM (Blocked ⊕ Victim) :=
  match work with
  | covered protectedIds _ => exec.checkVictim protectedIds hash
  | swap => fun site =>
    match exec.pinnedProtectedSet site with
    | .error e => .error e site
    | .ok protectedIds => exec.checkVictim protectedIds hash site

end Work

/-- A planner's way through its victims. -/
structure Walk where
  work : Work
  victims : List Blake3
  progress : EvictProgress

/-- What a planner does next; `unlink` and `flip` stand behind a check that passed. -/
inductive Planner where
  | idle
  | claimed
  | walking (walk : Walk)
  | unlink (victim : Victim) (walk : Walk)
  | flip (victim : Victim) (walk : Walk)
  | done

namespace Planner

/-- The victim that has been checked and whose row still stands. -/
def inHand : Planner → Option Victim
  | unlink victim _ => some victim
  | flip victim _ => some victim
  | _ => none

/-- The plan of a phase that has just claimed the guard: the covered candidates until about
`reclaim` bytes are freed, or the containers of a swap. -/
def list (exec : Executor) (site : Site) : Nat ⊕ List Blake3 → Planner
  | .inl reclaim =>
    let resident := site.db.residentDataBytes
    if resident ≤ resident - reclaim then .done
    else
      match exec.pinnedProtectedSet site with
      | .error _ => .done
      | .ok protectedIds =>
        .walking ⟨.covered protectedIds (resident - reclaim),
          site.db.listEvictionCandidates.map BlobRow.hash, { resident := resident }⟩
  | .inr containers => .walking ⟨.swap, containers, { resident := site.db.residentDataBytes }⟩

/-- Check the next victim; an error ends the phase. -/
def next (exec : Executor) (walk : Walk) (site : Site) : Planner × Site :=
  match walk.victims with
  | [] => (.done, site)
  | hash :: rest =>
    if walk.work.met walk.progress then (.done, site)
    else
      match walk.work.check exec hash site with
      | .error _ site => (.done, site)
      | .ok (.inl why) site =>
        (.walking { walk with victims := rest, progress := walk.progress.block hash why }, site)
      | .ok (.inr victim) site => (.unlink victim { walk with victims := rest }, site)

end Planner

/-! ## Any number of planners -/

namespace Planners

variable {ι : Type} [DecidableEq ι]

/-- One site, one guard, and planners that share them. -/
structure World (ι : Type) where
  site : Site
  guard : GcGuard := {}
  planners : ι → Planner := fun _ => .idle

/-- One atomic statement of one planner. Only a claim reads the clock. -/
inductive Step (ι : Type) where
  | claim (who : ι) (now : Int)
  | list (who : ι) (plan : Nat ⊕ List Blake3)
  | next (who : ι)
  | unlink (who : ι)
  | flip (who : ι)
  | release (who : ι)

namespace World

def set (world : World ι) (who : ι) (planner : Planner) : World ι :=
  { world with planners := Function.update world.planners who planner }

variable (exec : Executor) (holder : ι → GuardHolder)

/-- A planner that finds the guard busy stays idle; a statement that is not its next one
does nothing. -/
def step (world : World ι) : Step ι → World ι
  | .claim who now =>
    match world.planners who, world.guard.claim (holder who) now guardTtlSecs with
    | .idle, some guard => { world.set who .claimed with guard := guard }
    | _, _ => world
  | .list who plan =>
    match world.planners who with
    | .claimed => world.set who (Planner.list exec world.site plan)
    | _ => world
  | .next who =>
    match world.planners who with
    | .walking walk =>
      let (planner, site) := Planner.next exec walk world.site
      { world.set who planner with site := site }
    | _ => world
  | .unlink who =>
    match world.planners who with
    | .unlink victim walk =>
      { world.set who (.flip victim walk) with
        site := Executor.unlinkVictim victim world.site }
    | _ => world
  | .flip who =>
    match world.planners who with
    | .flip victim walk =>
      let progress := walk.progress.record victim.hash (.evicted victim.bytes)
      { world.set who (.walking { walk with progress := progress }) with
        site := Executor.flipVictim victim world.site }
    | _ => world
  | .release who =>
    match world.planners who with
    | .done => { world.set who .idle with guard := world.guard.release (holder who) }
    | _ => world

def run (world : World ι) (steps : List (Step ι)) : World ι := steps.foldl (step exec holder) world

end World

end Planners

end Datboi
