import Datboi.Exec.Delivered
import Datboi.Exec.PlanCorrect
import Datboi.Index.Writes

/-!
# What a license rests on

A recipe that reaches `replayedLocal` may justify dropping bytes. The sessions below
interleave replays, licensing runs, rehabilitations and the jobs of a materializing
blessing pass, and keep a log of every operation that ran with the streams that its
outputs received. The top recipe of a run is licensed on delivered evidence; the
recipes inside the plan are licensed on their participation alone.
-/

namespace Datboi

open Moves (Moves final)

/-- One operation that ran: the recipe row, what that recipe claims, and the stream of
each output. An operation inside a plan may be cut short by its consumer; its streams
are what it would have written to the end. -/
structure Execution where
  recipeId : Nat
  claims : List (Blake3 × Nat)
  streams : List ByteStream
  isTop : Bool

/-- Every claimed output came out in full and hashes to its claim. -/
def Execution.Delivered (host : Host) (execution : Execution) : Prop :=
  List.Forall₂ host.Delivers execution.claims execution.streams

instance (host : Host) (execution : Execution) : Decidable (execution.Delivered host) :=
  inferInstanceAs (Decidable (List.Forall₂ _ _ _))

namespace Executor

variable (exec : Executor)

/-! ## The log -/

/-- The streams of a node's outputs; a node that does not start has none. -/
def nodeStreams {τ : Type} (consumer : Consumer τ) (race : PipeRace) (op : OpImpl)
    (claims : List (Blake3 × Nat)) (children : List Opened) : List ByteStream :=
  match exec.produce consumer race op claims children with
  | .error _ => []
  | .ok (_, streams) => streams

mutual

/-- The operations a plan runs. Nothing refuses the writes of a node inside a plan. -/
def planExecutions (store : Store) (isTop : Bool) : Plan → List Execution
  | .literal _ _ => []
  | .op node _ outputs children recipeId =>
    recipeId.toList.map (fun recipeId => ⟨recipeId, outputs, exec.nodeStreams exec.verifyConsumer
      (fun _ => none) node outputs (exec.openPlans store children), isTop⟩) ++
      planExecutionsAll store children

def planExecutionsAll (store : Store) : List Plan → List Execution
  | [] => []
  | plan :: rest => planExecutions store false plan ++ planExecutionsAll store rest

end

/-- The operations that executing a recipe runs. -/
def executions {τ : Type} (consumer : Consumer τ) (race : PipeRace) (recipeId : Nat)
    (recipe : Recipe) (site : Site) : List Execution :=
  match exec.prepare recipe site with
  | .error _ _ => []
  | .ok (op, children) site =>
    ⟨recipeId, recipe.claims, exec.nodeStreams consumer race op recipe.claims
      (exec.openPlans site.store children), true⟩ :: exec.planExecutionsAll site.store children

/-- The operations that a call for a live recipe row runs. -/
def liveExecutions {τ : Type} (consumer : Consumer τ) (race : PipeRace) (recipeId : Nat)
    (site : Site) : List Execution :=
  match exec.liveRecipe recipeId site with
  | .error _ _ => []
  | .ok (_, recipe) site => exec.executions consumer race recipeId recipe site

/-- The operations that a rehabilitation runs, poisoned or not. -/
def loadedExecutions {τ : Type} (consumer : Consumer τ) (race : PipeRace) (recipeId : Nat)
    (site : Site) : List Execution :=
  match exec.loadRecipe site.db site.store recipeId with
  | .error _ => []
  | .ok recipe => exec.executions consumer race recipeId recipe site

end Executor

/-! ## Sessions -/

/-- A site with the blessing jobs in flight, the answers not yet retired, and the log. -/
structure Session where
  site : Site
  jobs : List Executor.BlessJob := []
  answers : List (Executor.BlessJob × Except ExecError Bool) := []
  log : List Execution := []

inductive LicenseStep where
  | replay (around : Surroundings) (recipeId : Nat)
  | license (race : PipeRace) (recipeId : Nat)
  | rehabilitate (around : Surroundings) (recipeId : Nat)
  | blessTriage (includeAffine : Bool) (hash : Blake3) (len : Nat)
  | blessWork (ix : Nat)
  | blessRetire (now : Int) (ix : Nat)

namespace Executor

variable (exec : Executor)

/-- The coordinator looks at one candidate. -/
def triageStep (includeAffine : Bool) (hash : Blake3) (len : Nat) (session : Session) : Session :=
  match exec.blessTriage true includeAffine hash len session.site with
  | .ok (some job) site => { session with site := site, jobs := session.jobs ++ [job] }
  | .ok none site => { session with site := site }
  | .error _ site => { session with site := site }

/-- A worker takes a job. A blob that is already stored is not produced again. -/
def workStep (ix : Nat) (session : Session) : Session :=
  match session.jobs[ix]? with
  | none => session
  | some job =>
    let (answer, store) := exec.blessWork true job session.site.store
    { site := { session.site with store := store }
      jobs := session.jobs.eraseIdx ix
      answers := session.answers ++ [(job, answer)]
      log := session.log ++ if session.site.store.has .data job.hash then []
        else exec.planExecutions session.site.store true job.plan }

/-- The coordinator retires an answer. -/
def retireStep (now : Int) (ix : Nat) (session : Session) : Session :=
  match session.answers[ix]? with
  | none => session
  | some (job, answer) =>
    { session with
      site := blessRetire now true job answer session.site
      answers := session.answers.eraseIdx ix }

def licenseStep (session : Session) : LicenseStep → Session
  | .replay around recipeId => { session with
      site := final (exec.replay around recipeId session.site)
      log := session.log ++ exec.liveExecutions exec.storeConsumer around.race recipeId session.site }
  | .license race recipeId => { session with
      site := final (exec.license race recipeId session.site)
      log := session.log ++ exec.liveExecutions exec.verifyConsumer race recipeId session.site }
  | .rehabilitate around recipeId => { session with
      site := final (exec.rehabilitate around recipeId session.site)
      log := session.log ++ exec.loadedExecutions exec.storeConsumer around.race recipeId session.site }
  | .blessTriage includeAffine hash len => exec.triageStep includeAffine hash len session
  | .blessWork ix => exec.workStep ix session
  | .blessRetire now ix => retireStep now ix session

def licenseSteps (session : Session) (steps : List LicenseStep) : Session :=
  steps.foldl exec.licenseStep session

/-! ## Evidence -/

/-- Some execution of the recipe delivered all its claimed outputs to their consumers. -/
def Proven (session : Session) (recipeId : Nat) : Prop :=
  ∃ execution ∈ session.log, execution.recipeId = recipeId ∧ execution.isTop = true ∧
    execution.Delivered exec.host ∧
    ∃ recipe, exec.loadRecipe session.site.db session.site.store recipeId = .ok recipe ∧
      execution.claims = recipe.claims

/-- Every recipe that is licensed only in the later session has been proven by then. -/
def LicensesProven (session session' : Session) : Prop :=
  ∀ recipeId, session'.site.db.IsLicensed recipeId →
    session.site.db.IsLicensed recipeId ∨ exec.Proven session' recipeId

/-- The recipes that a call for a recipe row runs inside its plan. -/
def innerRecipes (recipeId : Nat) (site : Site) : List Nat :=
  match exec.loadRecipe site.db site.store recipeId with
  | .error _ => []
  | .ok recipe =>
    match exec.prepare recipe site with
    | .error _ _ => []
    | .ok (_, children) _ => recipeIdsAll children

/-- No recipe inside the plan is still `verified`, so participation licenses none. -/
def InnerSettled (site : Site) (recipeId : Nat) : Prop :=
  ∀ row ∈ site.db.recipes, row.recipeId ∈ exec.innerRecipes recipeId site →
    row.recipeId ≠ recipeId → row.verify ≠ .verified

instance (site : Site) (recipeId : Nat) : Decidable (exec.InnerSettled site recipeId) :=
  inferInstanceAs (Decidable (∀ row ∈ site.db.recipes, _))

def StepSettled (session : Session) : LicenseStep → Prop
  | .replay _ recipeId | .license _ recipeId | .rehabilitate _ recipeId =>
    exec.InnerSettled session.site recipeId
  | .blessTriage _ _ _ | .blessWork _ | .blessRetire _ _ => True

instance (session : Session) (step : LicenseStep) : Decidable (exec.StepSettled session step) :=
  match step with
  | .replay _ _ | .license _ _ | .rehabilitate _ _ => inferInstanceAs (Decidable (InnerSettled ..))
  | .blessTriage _ _ _ | .blessWork _ | .blessRetire _ _ => inferInstanceAs (Decidable True)

end Executor

end Datboi
