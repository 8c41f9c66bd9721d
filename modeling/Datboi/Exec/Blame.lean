import Datboi.Exec.Delivered
import Datboi.Exec.OpenCorrect
import Datboi.Exec.PlanCorrect

/-!
# Where the fault of a failed route lies

A plan is at fault where a stored literal is not the blob it stands for, or where an
operation does not meet its claims on inputs that are the claimed ones. A plan without
a fault serves exactly the claimed bytes, whichever way it is opened.
-/

namespace Datboi

open Reader (Source)

/-- The bytes are the blob the plan is for. -/
def Plan.Matches (host : Host) (plan : Plan) (bytes : Bytes) : Prop :=
  plan.target = some (host.blake3 bytes) ∧ bytes.length = plan.len

/-- Every node is for one of its outputs. -/
def Plan.Indexed (plan : Plan) : Prop := ∀ node : Plan, node.Within plan → node.target.isSome

namespace Executor

variable (exec : Executor)

/-- On these inputs the operation delivers every claimed output. -/
def Meets (op : OpImpl) (claims : List (Blake3 × Nat)) (inputs : List Bytes) : Prop :=
  ∃ streams, exec.produce exec.verifyConsumer (fun _ => none) op claims
      (inputs.map Opened.ofBytes) = .ok (.ok (), streams) ∧
    List.Forall₂ exec.host.Delivers claims streams

/-- The operation breaks its claims on inputs that are the blobs its children are for. -/
def BreaksClaims (op : OpImpl) (claims : List (Blake3 × Nat)) (children : List Plan) : Prop :=
  ∃ inputs, List.Forall₂ (Plan.Matches exec.host) children inputs ∧ ¬ exec.Meets op claims inputs

/-- Some node of the plan is at fault. -/
inductive FaultIn (store : Store) : Plan → Prop
  | literal {hash : Blake3} {len : Nat}
      (hwrong : ∀ bytes, store.get .data hash = some bytes →
        ¬ (Plan.literal hash len).Matches exec.host bytes) : FaultIn store (.literal hash len)
  | here {node : OpImpl} {outputIx : Nat} {outputs : List (Blake3 × Nat)} {children : List Plan}
      {recipeId : Option Nat} (hbreaks : exec.BreaksClaims node outputs children) :
      FaultIn store (.op node outputIx outputs children recipeId)
  | inside {node : OpImpl} {outputIx : Nat} {outputs : List (Blake3 × Nat)} {children : List Plan}
      {recipeId : Option Nat} {child : Plan} (hchild : child ∈ children)
      (hfault : FaultIn store child) : FaultIn store (.op node outputIx outputs children recipeId)

variable {exec}

theorem Routed.indexed {db : Db} {store : Store} {resolve : Recipe → Except ExecError OpImpl}
    {levels : Nat} {path : List Blake3} {hash : Blake3} {plan : Plan}
    (hrouted : Routed exec db store resolve levels path hash plan) : plan.Indexed := by
  intro node hwithin
  induction hwithin generalizing levels path hash with
  | refl => simp [hrouted.target_eq]
  | child hchild _ ih =>
    obtain ⟨_, _, hbelow⟩ := hrouted.exists_child hchild
    exact ih hbelow

/-! ## Nodes that meet their claims -/

section Meets

variable {node : OpImpl} {claims : List (Blake3 × Nat)} {inputs : List Bytes}

/-- With a consumer that never goes away, no sink refuses. -/
theorem mapIdx_racingSink_idle {τ : Type} (consumer : Consumer τ)
    (outputs : List (Blake3 × Nat)) :
    outputs.mapIdx (racingSink consumer fun _ => none) = outputs.map fun _ => {} := by
  apply List.ext_getElem?
  intro ix
  rw [List.getElem?_mapIdx, List.getElem?_map]
  rfl

/-- What a node that meets its claims streams for one of its outputs. -/
theorem Meets.openNodeSequential (hmeets : exec.Meets node claims inputs) {outputIx : Nat}
    {claim : Blake3 × Nat} (hclaim : claims[outputIx]? = some claim) :
    ∃ bytes, exec.host.Delivers claim ⟨bytes, none⟩ ∧
      exec.openNodeSequential node outputIx claims (inputs.map Opened.ofBytes) =
        .ok ⟨bytes, none⟩ := by
  obtain ⟨streams, hproduce, hdelivers⟩ := hmeets
  obtain ⟨hlt, rfl⟩ := List.getElem?_eq_some_iff.mp hclaim
  have hlength := hdelivers.length_eq
  have hstream : exec.host.Delivers claims[outputIx] streams[outputIx] :=
    List.Forall₂.get hdelivers hlt (hlength ▸ hlt)
  have hclean : streams[outputIx] = ⟨streams[outputIx].items, none⟩ := by
    rw [← hstream.1]
  refine ⟨streams[outputIx].items, hclean ▸ hstream, ?_⟩
  rw [← hclean]
  have hbuiltin : exec.produceBuiltin node claims (inputs.map Opened.ofBytes) =
      .ok (.ok (), streams) → exec.openNodeSequential node outputIx claims
        (inputs.map Opened.ofBytes) = .ok streams[outputIx] := by
    intro hbuiltin
    obtain ⟨hsingle, reader, hopen, _, rfl⟩ := produceBuiltin_eq_ok hbuiltin
    have hzero : outputIx = 0 := by omega
    subst hzero
    exact hopen
  cases node with
  | assemble params => exact hbuiltin hproduce
  | deflate offset len => exact hbuiltin hproduce
  | extractor compiled memberIx =>
    simp only [produce] at hproduce
    split at hproduce
    · cases hproduce
    · rename_i hsingle
      obtain ⟨⟨result, written⟩, hrun, hdone⟩ := Moves.except_bind_eq_ok.mp hproduce
      cases hdone
      have hzero : outputIx = 0 := by omega
      subst hzero
      refine Moves.except_bind_eq_ok.mpr ⟨(.ok (), written), hrun, ?_⟩
      obtain ⟨bytes, rfl⟩ := List.length_eq_one_iff.mp (length_runExtractorNode hrun)
      rfl
  | transform component compiled op params seek randomAccessInputs =>
    obtain ⟨⟨result, written⟩, hrun, hdone⟩ := Moves.except_bind_eq_ok.mp hproduce
    cases hdone
    rw [mapIdx_racingSink_idle] at hrun
    refine Moves.except_bind_eq_ok.mpr ⟨(.ok (), written), hrun, ?_⟩
    rw [List.length_map] at hlength
    simp [guestStream, pipeStream, List.getD_eq_getElem?_getD,
      List.getElem?_eq_getElem (hlength ▸ hlt)]
    rfl

theorem spill_ok {len : Nat} {bytes : Bytes} (hlen : bytes.length = len) :
    spill len (.ok ⟨bytes, none⟩) = .ok (.ofList bytes) := by
  simp only [spill, bind, Except.bind, hlen, if_true]
  rfl

/-- Random access to a node serves what its stream does. -/
theorem openNodeRandom_of_sequential {children : List Opened} {outputIx len : Nat} {bytes : Bytes}
    (hholds : List.Forall₂ Opened.Holds children inputs)
    (hopen : exec.openNodeSequential node outputIx claims children = .ok ⟨bytes, none⟩)
    (hlen : bytes.length = len) :
    exec.openNodeRandom node outputIx claims children len .materialize = .ok (.ofList bytes) := by
  cases node with
  | assemble params =>
    simp only [Executor.openNodeSequential, Executor.openNodeRandom,
      mapM_random_of_holds hholds, bind, Except.bind] at hopen ⊢
    cases hassemble : assembleRandom params (inputs.map Source.ofList) with
    | error what =>
      rw [hassemble] at hopen
      cases hopen
    | ok src =>
      rw [hassemble] at hopen
      have hsrc := assembleRandom_ofList hassemble
      have hstream := Source.stream_ofList (ε := IoError) (assembled inputs params.segments)
        readChunk (by decide)
      rw [← hsrc, Except.ok.inj hopen] at hstream
      cases hstream
      rw [hsrc]
      rfl
  | deflate offset size =>
    simp only [Executor.openNodeRandom, hopen]
    exact spill_ok hlen
  | extractor compiled memberIx =>
    simp only [Executor.openNodeRandom, hopen]
    exact spill_ok hlen
  | transform component compiled op params seek randomAccessInputs =>
    rw [Executor.openNodeRandom, hopen, if_neg (by simp)]
    exact spill_ok hlen

end Meets

/-! ## Plans without a fault -/

mutual

theorem holds_of_not_faultIn {store : Store} : (plan : Plan) → plan.Indexed →
    ¬ exec.FaultIn store plan →
    ∃ bytes, plan.Matches exec.host bytes ∧ (exec.openPlan store plan).Holds bytes
  | .literal hash len, _, hsound => by
      cases hget : store.get .data hash with
      | none => exact absurd (.literal (by simp [hget])) hsound
      | some bytes =>
        have hmatches : (Plan.literal hash len).Matches exec.host bytes := by
          by_contra hwrong
          refine hsound (.literal fun other hother => ?_)
          rwa [← Option.some.inj (hget.symm.trans hother)]
        refine ⟨bytes, hmatches, hmatches.2.symm, ?_, ?_⟩ <;> simp [openPlan, openLiteral, hget]
  | .op node outputIx outputs children recipeId, hindexed, hsound => by
      obtain ⟨inputs, hmatches, hholds⟩ := holdsAll_of_not_faultIn children
        (fun child hchild node hwithin => hindexed node (.child hchild hwithin))
        fun child hchild hfault => hsound (.inside hchild hfault)
      have hmeets : exec.Meets node outputs inputs := by
        by_contra hbroken
        exact hsound (.here ⟨inputs, hmatches, hbroken⟩)
      obtain ⟨hash, htarget⟩ := Option.isSome_iff_exists.mp (hindexed _ (.refl _))
      obtain ⟨claim, hclaim, rfl⟩ := Option.map_eq_some_iff.mp htarget
      obtain ⟨bytes, ⟨_, hlen, hhash⟩, hopen⟩ := hmeets.openNodeSequential hclaim
      have hplanLen : (Plan.op node outputIx outputs children recipeId).len = claim.2 := by
        simp [Plan.len, hclaim]
      rw [← openNodeSequential_of_holds hholds] at hopen
      refine ⟨bytes, ⟨by rw [htarget, hhash], hlen.trans hplanLen.symm⟩, ?_⟩
      simp only [openPlan, hplanLen]
      exact ⟨hlen.symm, hopen, openNodeRandom_of_sequential hholds hopen hlen⟩

theorem holdsAll_of_not_faultIn {store : Store} : (plans : List Plan) →
    (∀ plan ∈ plans, plan.Indexed) → (∀ plan ∈ plans, ¬ exec.FaultIn store plan) →
    ∃ inputs, List.Forall₂ (Plan.Matches exec.host) plans inputs ∧
      List.Forall₂ Opened.Holds (exec.openPlans store plans) inputs
  | [], _, _ => ⟨[], .nil, .nil⟩
  | plan :: rest, hindexed, hsound => by
      obtain ⟨bytes, hmatch, hhold⟩ := holds_of_not_faultIn plan
        (hindexed plan List.mem_cons_self) (hsound plan List.mem_cons_self)
      obtain ⟨inputs, hmatches, hholds⟩ := holdsAll_of_not_faultIn rest
        (fun other hother => hindexed other (List.mem_cons_of_mem plan hother))
        fun other hother => hsound other (List.mem_cons_of_mem plan hother)
      exact ⟨bytes :: inputs, .cons hmatch hmatches, .cons hhold hholds⟩

end

/-! ## Executions without a fault -/

section Execution

variable {τ : Type} {consumer : Consumer τ} {race : PipeRace} {op : OpImpl}
variable {claims : List (Blake3 × Nat)} {children : List Opened} {inputs : List Bytes}

/-- Sinks that are never filled do not change a run. -/
theorem runGuest_limit (program : Except RuntimeError (Guest.Program UInt8))
    (inputs : List (Guest.Input IoError UInt8)) (sinks : List (Guest.Sink UInt8))
    (capacity : Nat → Option Nat) (hfree : ∀ sink ∈ sinks, sink.capacity = none)
    (hfits : ∀ (ix : Nat) (written : Bytes), (runGuest program inputs sinks).2[ix]? = some written →
      (capacity ix).all (written.length ≤ ·)) :
    runGuest program inputs (sinks.mapIdx fun ix sink => { sink with capacity := capacity ix }) =
      runGuest program inputs sinks := by
  have hwritten : ∀ sinks : List (Guest.Sink UInt8),
      (sinks.mapIdx fun ix sink => { sink with capacity := capacity ix }).map Guest.Sink.written =
        sinks.map Guest.Sink.written := by
    intro sinks
    apply List.ext_getElem?
    intro ix
    simp only [List.getElem?_map, List.getElem?_mapIdx]
    cases sinks[ix]? <;> rfl
  cases program with
  | error e => exact Prod.ext rfl (hwritten sinks)
  | ok program =>
    have hrun := program.run_limit maxRead capacity ⟨inputs, sinks⟩ hfree (by
      intro ix after hafter
      apply hfits
      simp only [runGuest, List.getElem?_map, hafter, Option.map_some])
    simp only [Guest.Ports.limit] at hrun
    simp only [runGuest, hrun, hwritten]
    rfl

/-- The capacity of each sink, for consumers that go away. -/
theorem mapIdx_racingSink (outputs : List (Blake3 × Nat)) :
    outputs.mapIdx (racingSink consumer race) =
      ((outputs.map fun _ => {}) : List (Guest.Sink UInt8)).mapIdx fun ix sink =>
        { sink with capacity := (outputs[ix]?).bind fun output =>
            (racingSink consumer race ix output).capacity } := by
  apply List.ext_getElem?
  intro ix
  simp only [List.getElem?_mapIdx, List.getElem?_map]
  cases outputs[ix]? <;> rfl

/-- Bytes that are exactly the claim fit any sink of a patient consumer. -/
theorem racingSink_fits (haccepts : consumer.Accepts exec.host) {ix : Nat}
    {claim : Blake3 × Nat} {written : Bytes} (hlen : written.length = claim.2) :
    (racingSink consumer race ix claim).capacity.all (written.length ≤ ·) := by
  unfold racingSink
  cases hrace : race ix with
  | none => rfl
  | some extra =>
    cases happetite : consumer.appetite claim.2 with
    | none => simp
    | some n =>
      have hpatient := haccepts.patient _ _ happetite
      simp only [Option.bind_some, Option.map_some, Option.all_some, decide_eq_true_eq]
      omega

theorem runTransformNode_limit {compiled : Bytes} {name : String} {params : Bytes}
    {randomAccessInputs : List Nat} {sinks : List (Guest.Sink UInt8)} {written : List Bytes}
    {result : Except RuntimeError Unit} (capacity : Nat → Option Nat)
    (hfree : ∀ sink ∈ sinks, sink.capacity = none)
    (hrun : exec.runTransformNode compiled name params randomAccessInputs claims children sinks =
      .ok (result, written))
    (hfits : ∀ (ix : Nat) (bytes : Bytes), written[ix]? = some bytes →
      (capacity ix).all (bytes.length ≤ ·)) :
    exec.runTransformNode compiled name params randomAccessInputs claims children
        (sinks.mapIdx fun ix sink => { sink with capacity := capacity ix }) =
      .ok (result, written) := by
  obtain ⟨opened, hopen, hguest⟩ := Moves.except_bind_eq_ok.mp hrun
  refine Moves.except_bind_eq_ok.mpr ⟨opened, hopen, ?_⟩
  rw [runGuest_limit _ _ _ _ hfree]
  · exact hguest
  · intro ix bytes hbytes
    apply hfits ix
    rw [← hbytes, Except.ok.inj hguest]

theorem runExtractorNode_limit {compiled : Bytes} {memberIx : Nat} {bytes : Bytes}
    {result : Except RuntimeError Unit} {capacity : Option Nat}
    (hrun : exec.runExtractorNode compiled memberIx claims children {} = .ok (result, [bytes]))
    (hfits : capacity.all (bytes.length ≤ ·)) :
    exec.runExtractorNode compiled memberIx claims children { capacity := capacity } =
      .ok (result, [bytes]) := by
  obtain ⟨opened, hopen, hguest⟩ := Moves.except_bind_eq_ok.mp hrun
  refine Moves.except_bind_eq_ok.mpr ⟨opened, hopen, ?_⟩
  have hlimit := runGuest_limit (exec.host.runExtractor compiled memberIx
    (fuelBudget (children.map Opened.len) claims)) [.randomAccess opened] [{}] (fun _ => capacity)
    (by simp) (by
      intro ix written hwritten
      rw [Except.ok.inj hguest] at hwritten
      obtain rfl := List.mem_singleton.mp (List.mem_of_getElem? hwritten)
      exact hfits)
  rw [Except.ok.inj hguest] at hlimit
  exact congrArg Except.ok hlimit

variable (race) in
/-- However its pipes race, an operation that meets its claims delivers them. -/
theorem produce_of_meets (haccepts : consumer.Accepts exec.host)
    (hholds : List.Forall₂ Opened.Holds children inputs) (hmeets : exec.Meets op claims inputs) :
    ∃ streams, exec.produce consumer race op claims children = .ok (.ok (), streams) ∧
      List.Forall₂ exec.host.Delivers claims streams := by
  obtain ⟨streams, hproduce, hdelivers⟩ := hmeets
  refine ⟨streams, ?_, hdelivers⟩
  cases op with
  | assemble params =>
    rw [← hproduce, produce, produce, produceBuiltin, produceBuiltin,
      openNodeSequential_of_holds hholds]
  | deflate offset len =>
    rw [← hproduce, produce, produce, produceBuiltin, produceBuiltin,
      openNodeSequential_of_holds hholds]
  | extractor compiled memberIx =>
    simp only [produce] at hproduce ⊢
    split
    · rename_i hsingle
      rw [if_pos hsingle] at hproduce
      cases hproduce
    · rename_i hsingle
      rw [if_neg hsingle] at hproduce
      rw [not_not] at hsingle
      obtain ⟨claim, rfl⟩ := List.length_eq_one_iff.mp hsingle
      obtain ⟨⟨result, written⟩, hrun, hdone⟩ := Moves.except_bind_eq_ok.mp hproduce
      cases hdone
      obtain ⟨bytes, rfl⟩ := List.length_eq_one_iff.mp (length_runExtractorNode hrun)
      have hlen : bytes.length = claim.2 := (List.forall₂_cons.mp hdelivers).1.2.1
      rw [← runExtractorNode_of_holds hholds] at hrun
      exact Moves.except_bind_eq_ok.mpr
        ⟨_, runExtractorNode_limit hrun (racingSink_fits haccepts hlen), rfl⟩
  | transform component compiled name params seek randomAccessInputs =>
    obtain ⟨⟨result, written⟩, hrun, hdone⟩ := Moves.except_bind_eq_ok.mp hproduce
    cases hdone
    rw [mapIdx_racingSink_idle, ← runTransformNode_of_holds hholds] at hrun
    refine Moves.except_bind_eq_ok.mpr ⟨(.ok (), written), ?_, rfl⟩
    rw [mapIdx_racingSink]
    refine runTransformNode_limit _ (by simp) hrun ?_
    intro ix bytes hbytes
    cases hclaim : claims[ix]? with
    | none => rfl
    | some claim =>
      have hstream : (written.map (pipeStream (.ok ())))[ix]? = some (pipeStream (.ok ()) bytes) := by
        rw [List.getElem?_map, hbytes, Option.map_some]
      obtain ⟨hlt, rfl⟩ := List.getElem?_eq_some_iff.mp hclaim
      obtain ⟨hltStream, hget⟩ := List.getElem?_eq_some_iff.mp hstream
      have hone := List.Forall₂.get hdelivers hlt hltStream
      rw [List.get_eq_getElem, List.get_eq_getElem, hget] at hone
      exact racingSink_fits haccepts hone.2.1

theorem consumeAll_of_delivers (haccepts : consumer.Accepts exec.host)
    {outputs : List ((Blake3 × Nat) × ByteStream)}
    (hdelivers : ∀ output ∈ outputs, exec.host.Delivers output.1 output.2) (store : Store) :
    ∃ results store', consumeAll consumer outputs store = ((results, none), store') := by
  induction outputs generalizing store with
  | nil => exact ⟨[], store, rfl⟩
  | cons output rest ih =>
    obtain ⟨⟨hash, size⟩, reader⟩ := output
    obtain ⟨outcome, next, hone⟩ :=
      haccepts.accepts hash size reader store (hdelivers _ List.mem_cons_self)
    obtain ⟨results, store', hrest⟩ :=
      ih (fun other hother => hdelivers other (List.mem_cons_of_mem _ hother)) next
    exact ⟨(hash, outcome) :: results, store', by simp [consumeAll, hone, hrest]⟩

variable (race) in
/-- An operation that meets its claims executes without an error. -/
theorem executeNode_of_meets (haccepts : consumer.Accepts exec.host)
    (hholds : List.Forall₂ Opened.Holds children inputs) (hmeets : exec.Meets op claims inputs)
    (site : Site) :
    ∃ results site', exec.executeNode consumer race op claims children site = .ok results site' := by
  obtain ⟨streams, hproduce, hdelivers⟩ := produce_of_meets race haccepts hholds hmeets
  obtain ⟨results, store', hconsume⟩ := consumeAll_of_delivers haccepts
    (fun output houtput => (List.forall₂_iff_zip.mp hdelivers).2 houtput) site.store
  exact ⟨results, { site with store := store' }, by simp [executeNode, hproduce, hconsume]⟩

end Execution

/-! ## Recipes without a fault -/

/-- The live recipes the index lists for a blob. -/
def Listed (db : Db) (hash : Blake3) (row : RecipeRow) : Prop :=
  ∃ blob, db.blobByHash hash = some blob ∧ row ∈ db.recipesForOutput blob.blobId ∧
    row.verify ≠ .failed

/-- Among the recipes for a blob, or for their inputs further down, one cannot be turned
into an operation: its object, its parameters or its component is refused, or it does
not claim the blob it is listed for. -/
inductive UnusableBelow (exec : Executor) (db : Db) (store : Store)
    (resolve : Recipe → Except ExecError OpImpl) : Blake3 → Prop
  | object {hash : Blake3} {row : RecipeRow} {e : ExecError} (hlisted : Listed db hash row)
      (hload : exec.loadRecipe db store row.recipeId = .error e)
      (hclaim : e.isClaimFailure = true) : UnusableBelow exec db store resolve hash
  | unclaimed {hash : Blake3} {row : RecipeRow} {recipe : Recipe} (hlisted : Listed db hash row)
      (hload : exec.loadRecipe db store row.recipeId = .ok recipe)
      (hunclaimed : ∀ output ∈ recipe.outputs, output.hash ≠ hash) :
      UnusableBelow exec db store resolve hash
  | operation {hash : Blake3} {row : RecipeRow} {recipe : Recipe} {e : ExecError}
      (hlisted : Listed db hash row) (hload : exec.loadRecipe db store row.recipeId = .ok recipe)
      (hresolve : resolve recipe = .error e) (hclaim : e.isClaimFailure = true) :
      UnusableBelow exec db store resolve hash
  | input {hash : Blake3} {row : RecipeRow} {recipe : Recipe} {input : InputRef}
      (hlisted : Listed db hash row) (hload : exec.loadRecipe db store row.recipeId = .ok recipe)
      (hinput : input ∈ recipe.inputs)
      (hunusable : UnusableBelow exec db store resolve input.hash) :
      UnusableBelow exec db store resolve hash

section Planning

variable {db : Db} {store : Store} {resolve : Recipe → Except ExecError OpImpl} {e : ExecError}

theorem planFirst_eq_error {attempt : Nat → Except ExecError Plan} {target : Blake3}
    {rows : List RecipeRow} {lastErr : Option ExecError}
    (hplan : planFirst attempt target rows lastErr = .error e) :
    e = lastErr.getD (.noRoute target) ∨
      ∃ row ∈ rows, row.verify ≠ .failed ∧ attempt row.recipeId = .error e := by
  induction rows generalizing lastErr with
  | nil =>
    cases hplan
    exact Or.inl rfl
  | cons row rest ih =>
    rw [planFirst] at hplan
    split at hplan
    · refine (ih hplan).imp_right ?_
      rintro ⟨found, hmem, hfound⟩
      exact ⟨found, List.mem_cons_of_mem row hmem, hfound⟩
    · rename_i hlive
      cases hattempt : attempt row.recipeId with
      | ok found =>
        rw [hattempt] at hplan
        cases hplan
      | error e' =>
        rw [hattempt] at hplan
        right
        rcases ih hplan with rfl | ⟨found, hmem, hfound⟩
        · exact ⟨row, List.mem_cons_self, hlive, hattempt⟩
        · exact ⟨found, List.mem_cons_of_mem row hmem, hfound⟩

theorem planInputs_eq_error {plan : Blake3 → Except ExecError Plan} {inputs : List InputRef}
    (hplan : planInputs plan inputs = .error e) :
    ∃ input ∈ inputs, plan input.hash = .error e := by
  induction inputs with
  | nil => cases hplan
  | cons input rest ih =>
    rcases Moves.except_bind_eq_error.mp hplan with hone | ⟨child, _, hrest⟩
    · exact ⟨input, List.mem_cons_self, hone⟩
    · rcases Moves.except_bind_eq_error.mp hrest with hmore | ⟨children, _, hdone⟩
      · obtain ⟨found, hmem, hfound⟩ := ih hmore
        exact ⟨found, List.mem_cons_of_mem input hmem, hfound⟩
      · cases hdone

/-- A search that fails on a claim has met a recipe that cannot be used. -/
theorem unusableBelow_of_planWith {levels : Nat} {hash : Blake3} {visiting : List Blake3}
    (hplan : exec.planWith resolve db store levels hash visiting = .error e)
    (hclaim : e.isClaimFailure = true) : UnusableBelow exec db store resolve hash := by
  induction levels generalizing hash visiting with
  | zero =>
    cases hplan
    cases hclaim
  | succ levels ih =>
    unfold planWith at hplan
    split at hplan
    · cases hplan
      cases hclaim
    split at hplan
    · cases hplan
    split at hplan
    · cases hplan
      cases hclaim
    rename_i blob hblob
    rcases planFirst_eq_error hplan with rfl | ⟨row, hrow, hlive, hattempt⟩
    · cases hclaim
    have hlisted : Listed db hash row := ⟨blob, hblob, hrow, hlive⟩
    unfold planRecipeWith at hattempt
    split at hattempt
    · rename_i hload
      cases hattempt
      exact .object hlisted hload hclaim
    rename_i recipe hload
    split at hattempt
    · rename_i hfind
      rw [List.findIdx?_eq_none_iff] at hfind
      exact .unclaimed hlisted hload fun output houtput => by simpa using hfind output houtput
    · rcases Moves.except_bind_eq_error.mp hattempt with hresolve | ⟨op, _, hinputs⟩
      · exact .operation hlisted hload hresolve hclaim
      · rcases Moves.except_bind_eq_error.mp hinputs with hinput | ⟨children, _, hdone⟩
        · obtain ⟨input, hmem, hbelow⟩ := planInputs_eq_error hinput
          exact .input hlisted hload hmem (ih hbelow)
        · cases hdone

end Planning

end Executor

end Datboi
