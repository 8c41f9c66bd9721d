import Datboi.Exec.Plan
import Mathlib.Order.Nat

/-!
# The planner finds every bounded derivation

Planning only warms the component caches, so it equals a pure search over what the
caches and the store answer together. The pure search is sound by construction of
its results, and complete because a blob's shallowest derivation never passes
through the blob itself: the on-path guard and the depth limit cannot hide it.
-/

namespace Datboi

namespace Executor

variable (exec : Executor) (db : Db) (store : Store)

/-! ## Forgetting the caches -/

/-- What loading a component answers, without the caching. -/
def lookupComponent (caches : Caches) (lane : Lane) (hash : Blake3) : Except ExecError Bytes :=
  match caches.compiled lane hash with
  | some bytes => .ok bytes
  | none =>
    match store.get .data hash with
    | none => .error (.noRoute hash)
    | some bytes =>
      match exec.load lane bytes with
      | .error e => .error (.runtime e)
      | .ok () => .ok bytes

/-- Caches that answer every lookup alike. -/
def Agrees (caches caches' : Caches) : Prop :=
  ∀ lane hash, exec.lookupComponent store caches lane hash =
    exec.lookupComponent store caches' lane hash

theorem agrees_refl (caches : Caches) : exec.Agrees store caches caches := fun _ _ => rfl

variable {exec store} in
theorem Agrees.trans {a b c : Caches} (hab : exec.Agrees store a b)
    (hbc : exec.Agrees store b c) : exec.Agrees store a c :=
  fun lane hash => (hab lane hash).trans (hbc lane hash)

instance : Trans (exec.Agrees store) (exec.Agrees store) (exec.Agrees store) where
  trans := Agrees.trans

/-- A component that loads from the store may be remembered. -/
theorem agrees_remember {caches : Caches} {lane : Lane} {hash : Blake3} {bytes : Bytes}
    (hlookup : exec.lookupComponent store caches lane hash = .ok bytes) :
    exec.Agrees store caches (caches.remember lane hash bytes) := by
  intro lane' hash'
  by_cases hsame : lane' = lane ∧ hash' = hash
  · obtain ⟨rfl, rfl⟩ := hsame
    rw [hlookup]
    simp [lookupComponent, Caches.remember]
  · simp [lookupComponent, Caches.remember, hsame]

theorem loadComponent_computes (caches : Caches) (lane : Lane) (hash : Blake3) :
    Memo.Computes (exec.Agrees store) (exec.loadComponent store lane hash)
      (exec.lookupComponent store caches lane hash) caches := by
  have hself := exec.agrees_refl store caches
  cases hcached : caches.compiled lane hash with
  | some bytes => exact ⟨caches, hself, by simp [loadComponent, lookupComponent, hcached]⟩
  | none =>
    cases hstored : store.get .data hash with
    | none => exact ⟨caches, hself, by simp [loadComponent, lookupComponent, hcached, hstored]⟩
    | some bytes =>
      cases hload : exec.load lane bytes with
      | error e =>
        exact ⟨caches, hself, by simp [loadComponent, lookupComponent, hcached, hstored, hload]⟩
      | ok _ =>
        refine ⟨caches.remember lane hash bytes, ?_,
          by simp [loadComponent, lookupComponent, hcached, hstored, hload]⟩
        apply exec.agrees_remember store
        simp [lookupComponent, hcached, hstored, hload]

/-- A resolver of operations that, from any state agreeing with `caches`, returns
what the pure resolver does. -/
def ResolvesAs (caches : Caches) (resolve : Recipe → EStateM ExecError Caches OpImpl)
    (resolve' : Recipe → Except ExecError OpImpl) : Prop :=
  ∀ recipe caches', exec.Agrees store caches caches' →
    Memo.Computes (exec.Agrees store) (resolve recipe) (resolve' recipe) caches'

theorem resolveOp_resolvesAs (caches : Caches) :
    exec.ResolvesAs store caches (exec.resolveOp store)
      (exec.resolveOpWith (exec.lookupComponent store caches)) := by
  intro recipe caches' hagrees
  have hself := exec.agrees_refl store caches'
  have hload : ∀ lane hash, Memo.Computes (exec.Agrees store) (exec.loadComponent store lane hash)
      (exec.lookupComponent store caches lane hash) caches' := by
    intro lane hash
    rw [hagrees lane hash]
    exact exec.loadComponent_computes store caches' lane hash
  unfold resolveOp resolveOpWith
  cases recipe.op with
  | builtin name major =>
    simp only
    split
    · split
      · exact Memo.computes_throw hself _
      · exact Memo.computes_pure hself _
    · split
      · exact Memo.computes_throw hself _
      · exact Memo.computes_pure hself _
    · exact Memo.computes_throw hself _
  | wasm hash world exportName =>
    cases world with
    | transform1 =>
      refine Memo.Computes.bind (hload .transform hash) ?_
      intro compiled caches'' _
      split
      · exact Memo.computes_throw (exec.agrees_refl store caches'') _
      · exact Memo.computes_pure (exec.agrees_refl store caches'') _
    | extractor1 =>
      simp only
      split
      · exact Memo.computes_throw hself _
      · split
        · exact Memo.computes_throw hself _
        · refine Memo.Computes.bind (hload .extractor hash) ?_
          intro compiled caches'' _
          exact Memo.computes_pure (exec.agrees_refl store caches'') _
    | other name => exact Memo.computes_throw hself _

section Forget

variable {exec db store} {caches : Caches}
variable {resolve : Recipe → EStateM ExecError Caches OpImpl}
variable {resolve' : Recipe → Except ExecError OpImpl}

theorem planInputs_computes {plan : Blake3 → EStateM ExecError Caches Plan}
    {plan' : Blake3 → Except ExecError Plan}
    (hplan : ∀ hash caches', exec.Agrees store caches caches' →
      Memo.Computes (exec.Agrees store) (plan hash) (plan' hash) caches')
    (inputs : List InputRef) (caches' : Caches) (hagrees : exec.Agrees store caches caches') :
    Memo.Computes (exec.Agrees store) (planInputs plan inputs) (planInputs plan' inputs)
      caches' := by
  induction inputs generalizing caches' with
  | nil => exact Memo.computes_pure (exec.agrees_refl store caches') _
  | cons input rest ih =>
    refine Memo.Computes.bind (hplan input.hash caches' hagrees) ?_
    intro child next hnext
    refine Memo.Computes.bind (ih next (hagrees.trans hnext)) ?_
    intro children last _
    exact Memo.computes_pure (exec.agrees_refl store last) _

theorem planFirst_computes {attempt : Nat → EStateM ExecError Caches Plan}
    {attempt' : Nat → Except ExecError Plan} {target : Blake3}
    (hattempt : ∀ recipeId caches', exec.Agrees store caches caches' →
      Memo.Computes (exec.Agrees store) (attempt recipeId) (attempt' recipeId) caches')
    (rows : List RecipeRow) (lastErr : Option ExecError) (caches' : Caches)
    (hagrees : exec.Agrees store caches caches') :
    Memo.Computes (exec.Agrees store) (planFirst attempt target rows lastErr)
      (planFirst attempt' target rows lastErr) caches' := by
  induction rows generalizing lastErr caches' with
  | nil => exact Memo.computes_throw (exec.agrees_refl store caches') _
  | cons row rest ih =>
    unfold planFirst
    split
    · exact ih lastErr caches' hagrees
    · refine Memo.Computes.tryCatch (hattempt row.recipeId caches' hagrees) ?_
      intro e next hnext
      exact ih (some e) next (hagrees.trans hnext)

theorem planRecipeWith_computes (hresolve : exec.ResolvesAs store caches resolve resolve')
    {plan : Blake3 → EStateM ExecError Caches Plan} {plan' : Blake3 → Except ExecError Plan}
    (hplan : ∀ hash caches', exec.Agrees store caches caches' →
      Memo.Computes (exec.Agrees store) (plan hash) (plan' hash) caches')
    (target : Blake3) (recipeId : Nat) (caches' : Caches)
    (hagrees : exec.Agrees store caches caches') :
    Memo.Computes (exec.Agrees store) (exec.planRecipeWith resolve db store plan target recipeId)
      (exec.planRecipeWith resolve' db store plan' target recipeId) caches' := by
  unfold planRecipeWith
  split
  · exact Memo.computes_throw (exec.agrees_refl store caches') _
  · split
    · exact Memo.computes_throw (exec.agrees_refl store caches') _
    · refine Memo.Computes.bind (hresolve _ caches' hagrees) ?_
      intro op next hnext
      refine Memo.Computes.bind
        (planInputs_computes hplan _ next (hagrees.trans hnext)) ?_
      intro children last _
      exact Memo.computes_pure (exec.agrees_refl store last) _

/-- Planning equals the pure search at every state that agrees with `caches`. -/
theorem planWith_computes (hresolve : exec.ResolvesAs store caches resolve resolve')
    (levels : Nat) (hash : Blake3) (visiting : List Blake3) (caches' : Caches)
    (hagrees : exec.Agrees store caches caches') :
    Memo.Computes (exec.Agrees store) (exec.planWith resolve db store levels hash visiting)
      (exec.planWith resolve' db store levels hash visiting) caches' := by
  have hself := exec.agrees_refl store caches'
  induction levels generalizing hash visiting caches' with
  | zero => exact Memo.computes_throw hself _
  | succ levels ih =>
    unfold planWith
    split
    · exact Memo.computes_throw hself _
    · split
      · exact Memo.computes_pure hself _
      · split
        · exact Memo.computes_throw hself _
        · apply planFirst_computes _ _ _ _ hagrees
          intro recipeId next hnext
          apply planRecipeWith_computes hresolve _ _ _ _ hnext
          intro input last hlast
          exact ih input _ last hlast (exec.agrees_refl store last)

end Forget

/-- The pure search, over what `caches` and the store answer. -/
def purePlan (caches : Caches) (hash : Blake3) (depth : Nat) (visiting : List Blake3) :
    Except ExecError Plan :=
  exec.planWith (exec.resolveOpWith (exec.lookupComponent store caches)) db store
    (exec.maxDepth + 1 - depth) hash visiting

theorem plan_computes (caches : Caches) (hash : Blake3) (depth : Nat) (visiting : List Blake3) :
    Memo.Computes (exec.Agrees store) (exec.plan db store hash depth visiting)
      (exec.purePlan db store caches hash depth visiting) caches :=
  planWith_computes (exec.resolveOp_resolvesAs store caches) _ _ _ _
    (exec.agrees_refl store caches)

/-! ## Soundness -/

/-- What the search returns for `hash` with the given levels left and the given
blobs above it on the path. -/
inductive Routed (resolve : Recipe → Except ExecError OpImpl) :
    Nat → List Blake3 → Blake3 → Plan → Prop
  | literal {levels : Nat} {path : List Blake3} {hash : Blake3} {len : Nat}
      (hpath : hash ∉ path) (hlen : store.len .data hash = some len) :
      Routed resolve (levels + 1) path hash (.literal hash len)
  | recipe {levels : Nat} {path : List Blake3} {hash : Blake3} {row : BlobRow}
      {recipeRow : RecipeRow} {recipe : Recipe} {op : OpImpl} {outputIx : Nat}
      {children : List Plan}
      (hpath : hash ∉ path) (habsent : store.len .data hash = none)
      (hblob : db.blobByHash hash = some row)
      (hmem : recipeRow ∈ db.recipesForOutput row.blobId) (hlive : recipeRow.verify ≠ .failed)
      (hload : exec.loadRecipe db store recipeRow.recipeId = .ok recipe)
      (hclaim : recipe.outputs.findIdx? (fun output => output.hash = hash) = some outputIx)
      (hop : resolve recipe = .ok op)
      (hlength : children.length = recipe.inputs.length)
      (hchildren : ∀ pair ∈ recipe.inputs.zip children,
        Routed resolve levels (hash :: path) pair.1.hash pair.2) :
      Routed resolve (levels + 1) path hash
        (.op (downgradeSeek db op) outputIx recipe.claims children (some recipeRow.recipeId))

section Sound

variable {exec db store} {resolve : Recipe → Except ExecError OpImpl}

theorem planFirst_eq_ok {attempt : Nat → Except ExecError Plan} {target : Blake3}
    {rows : List RecipeRow} {lastErr : Option ExecError} {plan : Plan}
    (hplan : planFirst attempt target rows lastErr = .ok plan) :
    ∃ row ∈ rows, row.verify ≠ .failed ∧ attempt row.recipeId = .ok plan := by
  induction rows generalizing lastErr with
  | nil => cases hplan
  | cons row rest ih =>
    rw [planFirst] at hplan
    split at hplan
    · obtain ⟨found, hmem, hfound⟩ := ih hplan
      exact ⟨found, List.mem_cons_of_mem _ hmem, hfound⟩
    · rename_i hlive
      cases hattempt : attempt row.recipeId with
      | ok found =>
        rw [hattempt] at hplan
        exact ⟨row, List.mem_cons_self .., hlive, hattempt.trans hplan⟩
      | error e =>
        rw [hattempt] at hplan
        obtain ⟨found, hmem, hfound⟩ := ih hplan
        exact ⟨found, List.mem_cons_of_mem _ hmem, hfound⟩

theorem planInputs_eq_ok {plan : Blake3 → Except ExecError Plan} {inputs : List InputRef}
    {children : List Plan} (hplan : planInputs plan inputs = .ok children) :
    children.length = inputs.length ∧
      ∀ pair ∈ inputs.zip children, plan pair.1.hash = .ok pair.2 := by
  induction inputs generalizing children with
  | nil =>
    cases hplan
    simp
  | cons input rest ih =>
    simp only [planInputs, bind, Except.bind] at hplan
    split at hplan
    · cases hplan
    · rename_i child hchild
      split at hplan
      · cases hplan
      · rename_i others hothers
        obtain ⟨hlength, hpairs⟩ := ih hothers
        cases hplan
        refine ⟨by simp [hlength], ?_⟩
        intro pair hpair
        rcases List.mem_cons.mp hpair with rfl | hrest
        · exact hchild
        · exact hpairs pair hrest

theorem planRecipeWith_eq_ok {plan : Blake3 → Except ExecError Plan} {target : Blake3}
    {recipeId : Nat} {result : Plan}
    (hplan : exec.planRecipeWith resolve db store plan target recipeId = .ok result) :
    ∃ recipe op outputIx children,
      exec.loadRecipe db store recipeId = .ok recipe ∧
      recipe.outputs.findIdx? (fun output => output.hash = target) = some outputIx ∧
      resolve recipe = .ok op ∧ planInputs plan recipe.inputs = .ok children ∧
      result = .op (downgradeSeek db op) outputIx recipe.claims children (some recipeId) := by
  unfold planRecipeWith at hplan
  split at hplan
  · cases hplan
  · rename_i recipe hload
    split at hplan
    · cases hplan
    · rename_i outputIx hclaim
      simp only [bind, Except.bind] at hplan
      split at hplan
      · cases hplan
      · rename_i op hop
        split at hplan
        · cases hplan
        · rename_i children hchildren
          exact ⟨recipe, op, outputIx, children, hload, hclaim, hop, hchildren,
            (Except.ok.inj hplan).symm⟩

theorem planWith_sound {levels : Nat} {hash : Blake3} {visiting : List Blake3} {plan : Plan}
    (hplan : exec.planWith resolve db store levels hash visiting = .ok plan) :
    Routed exec db store resolve levels visiting hash plan := by
  induction levels generalizing hash visiting plan with
  | zero => cases hplan
  | succ levels ih =>
    unfold planWith at hplan
    split at hplan
    · cases hplan
    · rename_i hpath
      split at hplan
      · rename_i len hlen
        cases hplan
        exact .literal hpath hlen
      · rename_i habsent
        split at hplan
        · cases hplan
        · rename_i row hblob
          obtain ⟨recipeRow, hmem, hlive, hattempt⟩ := planFirst_eq_ok hplan
          obtain ⟨recipe, op, outputIx, children, hload, hclaim, hop, hinputs, rfl⟩ :=
            planRecipeWith_eq_ok hattempt
          obtain ⟨hlength, hpairs⟩ := planInputs_eq_ok hinputs
          exact .recipe hpath habsent hblob hmem hlive hload hclaim hop hlength
            fun pair hpair => ih (hpairs pair hpair)

end Sound

/-! ## Completeness -/

/-- A derivation tree of height at most the given bound: literals at the leaves,
non-failed recipes that load, claim the blob and resolve at the inner nodes. -/
inductive DerivableWithin (resolve : Recipe → Except ExecError OpImpl) : Nat → Blake3 → Prop
  | literal {height : Nat} {hash : Blake3} (hstored : store.has .data hash) :
      DerivableWithin resolve height hash
  | recipe {height : Nat} {hash : Blake3} {row : BlobRow} {recipeRow : RecipeRow}
      {recipe : Recipe} {op : OpImpl}
      (hblob : db.blobByHash hash = some row)
      (hmem : recipeRow ∈ db.recipesForOutput row.blobId) (hlive : recipeRow.verify ≠ .failed)
      (hload : exec.loadRecipe db store recipeRow.recipeId = .ok recipe)
      (hclaim : ∃ output ∈ recipe.outputs, output.hash = hash)
      (hop : resolve recipe = .ok op)
      (hinputs : ∀ input ∈ recipe.inputs, DerivableWithin resolve height input.hash) :
      DerivableWithin resolve (height + 1) hash

section Complete

variable {exec db store} {resolve : Recipe → Except ExecError OpImpl}

theorem DerivableWithin.mono {height height' : Nat} {hash : Blake3} (hle : height ≤ height')
    (hderivable : DerivableWithin exec db store resolve height hash) :
    DerivableWithin exec db store resolve height' hash := by
  induction hderivable generalizing height' with
  | literal hstored => exact .literal hstored
  | recipe hblob hmem hlive hload hclaim hop _ ih =>
    obtain ⟨lower, rfl⟩ : ∃ lower, height' = lower + 1 := ⟨height' - 1, by omega⟩
    exact .recipe hblob hmem hlive hload hclaim hop fun input hinput =>
      ih input hinput (by omega)

theorem planFirst_isOk {attempt : Nat → Except ExecError Plan} {target : Blake3}
    {rows : List RecipeRow} {row : RecipeRow} (hmem : row ∈ rows) (hlive : row.verify ≠ .failed)
    (hattempt : ∃ plan, attempt row.recipeId = .ok plan) (lastErr : Option ExecError) :
    ∃ plan, planFirst attempt target rows lastErr = .ok plan := by
  induction rows generalizing lastErr with
  | nil => simp at hmem
  | cons head rest ih =>
    rw [planFirst]
    split
    · rename_i hfailed
      rcases List.mem_cons.mp hmem with rfl | hrest
      · exact absurd hfailed hlive
      · exact ih hrest lastErr
    · cases hhead : attempt head.recipeId with
      | ok plan => exact ⟨plan, rfl⟩
      | error e =>
        rcases List.mem_cons.mp hmem with rfl | hrest
        · obtain ⟨plan, hplan⟩ := hattempt
          rw [hhead] at hplan
          cases hplan
        · exact ih hrest (some e)

theorem planInputs_isOk {plan : Blake3 → Except ExecError Plan} {inputs : List InputRef}
    (hplan : ∀ input ∈ inputs, ∃ child, plan input.hash = .ok child) :
    ∃ children, planInputs plan inputs = .ok children := by
  induction inputs with
  | nil => exact ⟨[], rfl⟩
  | cons input rest ih =>
    obtain ⟨child, hchild⟩ := hplan input (List.mem_cons_self ..)
    obtain ⟨children, hchildren⟩ := ih fun i hi => hplan i (List.mem_cons_of_mem _ hi)
    exact ⟨child :: children, by simp [planInputs, bind, Except.bind, hchild, hchildren, pure,
      Except.pure]⟩

theorem planRecipeWith_isOk {plan : Blake3 → Except ExecError Plan} {target : Blake3}
    {recipeId : Nat} {recipe : Recipe} {op : OpImpl}
    (hload : exec.loadRecipe db store recipeId = .ok recipe)
    (hclaim : ∃ output ∈ recipe.outputs, output.hash = target)
    (hop : resolve recipe = .ok op)
    (hinputs : ∀ input ∈ recipe.inputs, ∃ child, plan input.hash = .ok child) :
    ∃ result, exec.planRecipeWith resolve db store plan target recipeId = .ok result := by
  obtain ⟨outputIx, houtputIx⟩ :
      ∃ ix, recipe.outputs.findIdx? (fun output => output.hash = target) = some ix := by
    rw [← Option.isSome_iff_exists, List.findIdx?_isSome, List.any_eq_true]
    obtain ⟨output, hmem, hhash⟩ := hclaim
    exact ⟨output, hmem, by simpa using hhash⟩
  obtain ⟨children, hchildren⟩ := planInputs_isOk hinputs
  simp [planRecipeWith, hload, houtputIx, bind, Except.bind, hop, hchildren, pure, Except.pure]

/-- The search succeeds below every blob with a derivation that fits the levels
left, provided no blob on the path has one as shallow. Descending through a
shallowest derivation keeps that: its blob has none of its inputs' height. -/
theorem planWith_complete {height levels : Nat} {hash : Blake3} {visiting : List Blake3}
    (hderivable : DerivableWithin exec db store resolve height hash) (hlevels : height < levels)
    (hpath : ∀ above ∈ visiting, ¬ DerivableWithin exec db store resolve height above) :
    ∃ plan, exec.planWith resolve db store levels hash visiting = .ok plan := by
  classical
  induction height using Nat.strong_induction_on generalizing levels hash visiting with
  | _ height ih =>
    obtain ⟨levels, rfl⟩ : ∃ lower, levels = lower + 1 := ⟨levels - 1, by omega⟩
    have hexists : ∃ n, DerivableWithin exec db store resolve n hash := ⟨height, hderivable⟩
    have hleast := Nat.find_spec hexists
    have hmin : Nat.find hexists ≤ height := Nat.find_min' hexists hderivable
    have hnew : hash ∉ visiting := fun hmem => hpath hash hmem hderivable
    rw [planWith, if_neg hnew]
    cases hlen : store.len .data hash with
    | some len => exact ⟨.literal hash len, rfl⟩
    | none =>
      generalize hk : Nat.find hexists = k at hleast
      cases hleast with
      | literal hstored =>
        rw [Store.has_eq_isSome_get] at hstored
        simp [Store.len, Option.map_eq_none_iff] at hlen
        simp [hlen] at hstored
      | @recipe lower _ row recipeRow recipe op hblob hmem hlive hload hclaim hop hinputs =>
        have hbelow : ¬ DerivableWithin exec db store resolve lower hash :=
          Nat.find_min hexists (by omega)
        rw [hblob]
        apply planFirst_isOk hmem hlive
        apply planRecipeWith_isOk hload hclaim hop
        intro input hinput
        apply ih lower (by omega) (hinputs input hinput) (by omega)
        intro above habove hshallow
        rcases List.mem_cons.mp habove with rfl | hold
        · exact hbelow hshallow
        · exact hpath above hold (hshallow.mono (by omega))

end Complete

end Executor

/-! ## The shape of a plan -/

namespace Plan

/-- The blob a plan produces. -/
def target : Plan → Option Blake3
  | .literal hash _ => some hash
  | .op _ outputIx outputs _ _ => (outputs[outputIx]?).map Prod.fst

/-- The nodes of a plan, the root among them. -/
inductive Within : Plan → Plan → Prop
  | refl (plan : Plan) : Within plan plan
  | child {node child : Plan} {op : OpImpl} {outputIx : Nat} {outputs : List (Blake3 × Nat)}
      {children : List Plan} {recipeId : Option Nat} (hchild : child ∈ children)
      (hwithin : Within node child) : Within node (.op op outputIx outputs children recipeId)

/-- The blobs along a path from the root down to some node. -/
inductive Path : Plan → List Blake3 → Prop
  | root {plan : Plan} {hash : Blake3} (htarget : plan.target = some hash) : Path plan [hash]
  | down {child : Plan} {op : OpImpl} {outputIx : Nat} {outputs : List (Blake3 × Nat)}
      {children : List Plan} {recipeId : Option Nat} {hash : Blake3} {path : List Blake3}
      (htarget : (Plan.op op outputIx outputs children recipeId).target = some hash)
      (hchild : child ∈ children) (hpath : Path child path) :
      Path (.op op outputIx outputs children recipeId) (hash :: path)

/-- An inner node executes a live recipe that claims its blob, with that recipe's
inputs, in order, as its children. -/
def NodeFollowsRecipe (exec : Executor) (db : Db) (store : Store) : Plan → Prop
  | .literal hash len => store.len .data hash = some len
  | .op _ outputIx outputs children recipeId =>
    ∃ row ∈ db.recipes, row.verify ≠ .failed ∧ recipeId = some row.recipeId ∧
      ∃ recipe, exec.loadRecipe db store row.recipeId = .ok recipe ∧
        outputIx < outputs.length ∧
        outputs = recipe.claims ∧
        children.map target = recipe.inputs.map fun input => some input.hash

end Plan

namespace Executor

section Shape

variable {exec : Executor} {db : Db} {store : Store} {resolve : Recipe → Except ExecError OpImpl}
variable {levels : Nat} {path : List Blake3} {hash : Blake3} {plan : Plan}

theorem Routed.target_eq (hrouted : Routed exec db store resolve levels path hash plan) :
    plan.target = some hash := by
  cases hrouted with
  | literal => rfl
  | recipe _ _ _ _ _ _ hclaim _ _ _ =>
    obtain ⟨hlt, hhash, _⟩ := List.findIdx?_eq_some_iff_getElem.mp hclaim
    simp only [Plan.target, Recipe.claims, List.getElem?_map, List.getElem?_eq_getElem hlt, Option.map_some]
    rw [Option.some.injEq]
    simpa using hhash

theorem Routed.followsRecipe (hrouted : Routed exec db store resolve levels path hash plan) :
    plan.NodeFollowsRecipe exec db store := by
  cases hrouted with
  | literal _ hlen => exact hlen
  | recipe _ _ _ hmem hlive hload hclaim _ hlength hchildren =>
    obtain ⟨hlt, _, _⟩ := List.findIdx?_eq_some_iff_getElem.mp hclaim
    refine ⟨_, Db.mem_recipes_of_mem_recipesForOutput hmem, hlive, rfl, _, hload,
      by simpa [Recipe.claims] using hlt, rfl, ?_⟩
    apply List.ext_getElem (by simp [hlength])
    intro ix hchild hinput
    rw [List.length_map] at hchild hinput
    have hpair := hchildren (_, _) (List.mem_iff_getElem.mpr
      ⟨ix, by rw [List.length_zip]; omega, List.getElem_zip⟩)
    simpa using hpair.target_eq

theorem Routed.exists_child {op : OpImpl} {outputIx : Nat} {outputs : List (Blake3 × Nat)}
    {children : List Plan} {recipeId : Option Nat} {child : Plan}
    (hrouted : Routed exec db store resolve levels path hash
      (.op op outputIx outputs children recipeId)) (hchild : child ∈ children) :
    ∃ lower input, Routed exec db store resolve lower (hash :: path) input child := by
  cases hrouted with
  | @recipe lower _ _ _ _ recipe _ _ _ _ _ _ _ _ _ _ _ hlength hchildren =>
    obtain ⟨ix, hix, rfl⟩ := List.getElem_of_mem hchild
    exact ⟨lower, _, hchildren (recipe.inputs[ix], children[ix]) (List.mem_iff_getElem.mpr
      ⟨ix, by rw [List.length_zip]; omega, List.getElem_zip⟩)⟩

theorem Routed.within_followsRecipe {node : Plan} (hwithin : node.Within plan)
    (hrouted : Routed exec db store resolve levels path hash plan) :
    node.NodeFollowsRecipe exec db store := by
  induction hwithin generalizing levels path hash with
  | refl => exact hrouted.followsRecipe
  | child hchild _ ih =>
    obtain ⟨_, _, hbelow⟩ := hrouted.exists_child hchild
    exact ih hbelow

theorem Routed.path_notMem (hrouted : Routed exec db store resolve levels path hash plan) :
    hash ∉ path := by
  cases hrouted with
  | literal hpath => exact hpath
  | recipe hpath => exact hpath

/-- Along any path the blobs are new to the path above the root and differ. -/
theorem Routed.path_nodup {down : List Blake3} (hdown : plan.Path down)
    (hrouted : Routed exec db store resolve levels path hash plan) :
    down.Nodup ∧ ∀ above ∈ path, above ∉ down := by
  induction hdown generalizing levels path hash with
  | root htarget =>
    rw [hrouted.target_eq, Option.some.injEq] at htarget
    subst htarget
    refine ⟨List.nodup_singleton _, ?_⟩
    rintro above habove hmem
    rw [List.mem_singleton.mp hmem] at habove
    exact hrouted.path_notMem habove
  | down htarget hchild _ ih =>
    rw [hrouted.target_eq, Option.some.injEq] at htarget
    subst htarget
    obtain ⟨_, _, hbelow⟩ := hrouted.exists_child hchild
    obtain ⟨hnodup, hfresh⟩ := ih hbelow
    refine ⟨List.nodup_cons.mpr ⟨hfresh _ (List.mem_cons_self ..), hnodup⟩, ?_⟩
    intro above habove hmem
    rcases List.mem_cons.mp hmem with rfl | hrest
    · exact hrouted.path_notMem habove
    · exact hfresh above (List.mem_cons_of_mem _ habove) hrest

end Shape

/-- Every plan the search returns is a route. -/
theorem plan_routed {exec : Executor} {db : Db} {store : Store} {caches caches' : Caches}
    {hash : Blake3} {depth : Nat} {visiting : List Blake3} {plan : Plan}
    (hplan : exec.plan db store hash depth visiting caches = .ok plan caches') :
    Routed exec db store (exec.resolveOpWith (exec.lookupComponent store caches))
      (exec.maxDepth + 1 - depth) visiting hash plan := by
  obtain ⟨caches₁, -, hrun⟩ := exec.plan_computes db store caches hash depth visiting
  apply planWith_sound
  rw [hplan] at hrun
  cases hresult : exec.purePlan db store caches hash depth visiting with
  | error e =>
    rw [hresult] at hrun
    cases hrun
  | ok found =>
    rw [hresult] at hrun
    cases hrun
    exact hresult

/-- Each level of the search calls itself only one level deeper, and beyond the
limit it returns at once: the recursion of the source, bounded on every graph. -/
theorem plan_eq (exec : Executor) (db : Db) (store : Store) (hash : Blake3) (depth : Nat)
    (visiting : List Blake3) :
    exec.plan db store hash depth visiting =
      if exec.maxDepth < depth then throw .depth
      else if hash ∈ visiting then throw (.cycle hash)
      else
        match store.len .data hash with
        | some len => pure (.literal hash len)
        | none =>
          match db.blobByHash hash with
          | none => throw (.noRoute hash)
          | some row =>
            planFirst
              (exec.planRecipeWith (exec.resolveOp store) db store
                (fun input => exec.plan db store input (depth + 1) (hash :: visiting)) hash)
              hash (db.recipesForOutput row.blobId) none := by
  by_cases hdeep : exec.maxDepth < depth
  · have hlevels : exec.maxDepth + 1 - depth = 0 := by omega
    rw [plan, hlevels, planWith, if_pos hdeep]
  · have hlevels : exec.maxDepth + 1 - depth = exec.maxDepth + 1 - (depth + 1) + 1 := by omega
    rw [plan, hlevels, planWith, if_neg hdeep]
    rfl

/-- The planner on every graph: its recursion stops at the depth limit, it succeeds
on every blob with a derivation within that limit, and each plan it returns follows
the recipes down to stored literals without repeating a blob on a path. -/
theorem plan_sound_and_complete (exec : Executor) (db : Db) (store : Store) (caches : Caches)
    (hash : Blake3) :
    (∀ depth visiting, exec.maxDepth < depth →
      (exec.plan db store hash depth visiting).run caches = .error .depth caches) ∧
    (DerivableWithin exec db store (exec.resolveOpWith (exec.lookupComponent store caches))
        exec.maxDepth hash →
      ∃ plan caches', (exec.plan db store hash 0 []).run caches = .ok plan caches') ∧
    ∀ plan caches', (exec.plan db store hash 0 []).run caches = .ok plan caches' →
      plan.target = some hash ∧
      (∀ node : Plan, node.Within plan → node.NodeFollowsRecipe exec db store) ∧
      ∀ path : List Blake3, plan.Path path → path.Nodup := by
  obtain ⟨caches₁, -, hrun⟩ := exec.plan_computes db store caches hash 0 []
  refine ⟨?_, ?_, ?_⟩
  · intro depth visiting hdeep
    rw [plan_eq, if_pos hdeep]
    rfl
  · intro hderivable
    obtain ⟨plan, hplan⟩ : ∃ plan, exec.purePlan db store caches hash 0 [] = .ok plan :=
      planWith_complete hderivable (by omega) (by simp)
    rw [hplan] at hrun
    exact ⟨plan, caches₁, hrun⟩
  · intro plan caches' hok
    have hrouted := plan_routed hok
    exact ⟨hrouted.target_eq, fun node hwithin => hrouted.within_followsRecipe hwithin,
      fun path hpath => (hrouted.path_nodup hpath).1⟩

end Executor

end Datboi
