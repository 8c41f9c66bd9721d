import Mathlib.Algebra.GroupWithZero.Nat
import Mathlib.Data.List.Basic
import Mathlib.Logic.Relation
import Mathlib.Tactic.SplitIfs

/-!
# Worklists

Nodes refer to each other by names, and a name may stand for no node. A worklist takes a name
off its stack, expands the node it stands for unless that node has been expanded, and pushes the
names that the node refers to. With fuel for the names of all nodes it expands exactly the nodes
that can be reached. What it does is a trace, where `none` stands for a name without a node.
-/

namespace Worklist

variable {ν κ ι : Type*} [DecidableEq ι] (resolve : κ → Option ν) (key : ν → ι)
  (refs : ν → List κ)

/-- The nodes in the order in which they are expanded, between the names without a node. -/
def expand : Nat → List ι → List κ → List (Option ν)
  | 0, _, _ => []
  | _ + 1, _, [] => []
  | fuel + 1, visited, name :: queue =>
    match resolve name with
    | none => none :: expand fuel visited queue
    | some node =>
      if key node ∈ visited then expand fuel visited queue
      else some node :: expand fuel (key node :: visited) (refs node ++ queue)

/-- What a chain of references leads to, past nodes that are not visited. -/
inductive Reach (visited : List ι) (queue : List κ) : ν → Prop
  | start {name : κ} {node : ν} (hname : name ∈ queue) (hnode : resolve name = some node)
      (hfresh : key node ∉ visited) : Reach visited queue node
  | step {first node : ν} {name : κ} (hfirst : Reach visited queue first)
      (hname : name ∈ refs first) (hnode : resolve name = some node)
      (hfresh : key node ∉ visited) : Reach visited queue node

/-- One node refers to the other. -/
def Refers (first node : ν) : Prop := ∃ name ∈ refs first, resolve name = some node

/-- The names that the nodes which are not visited may still push. -/
def pending (visited : List ι) : List ν → Nat
  | [] => 0
  | node :: nodes => (if key node ∈ visited then 0 else (refs node).length) + pending visited nodes

variable {resolve key refs} {visited : List ι} {queue : List κ} {name : κ} {node x : ν}

omit [DecidableEq ι] in
theorem Reach.mono {other : List κ} (hsub : queue ⊆ other)
    (hreach : Reach resolve key refs visited queue x) :
    Reach resolve key refs visited other x := by
  induction hreach with
  | start hname hnode hfresh => exact .start (hsub hname) hnode hfresh
  | step _ hname hnode hfresh ih => exact .step ih hname hnode hfresh

omit [DecidableEq ι] in
/-- Nothing is reached from no name. -/
theorem not_reach_nil : ¬ Reach resolve key refs visited [] x := by
  intro hreach
  induction hreach with
  | start hname _ _ => exact List.not_mem_nil hname
  | step _ _ _ _ ih => exact ih

omit [DecidableEq ι] in
/-- A name that stands for nothing new leads nowhere. -/
theorem reach_cons_of_skipped (hskip : ∀ node, resolve name = some node → key node ∈ visited) :
    Reach resolve key refs visited (name :: queue) x ↔
      Reach resolve key refs visited queue x := by
  constructor
  · intro hreach
    induction hreach with
    | start hname hnode hfresh =>
      rcases List.mem_cons.mp hname with rfl | hname
      · exact absurd (hskip _ hnode) hfresh
      · exact .start hname hnode hfresh
    | step _ hname hnode hfresh ih => exact .step ih hname hnode hfresh
  · exact Reach.mono (List.subset_cons_self _ _)

/-- A new node, or what can be reached from its references or from the rest without it. -/
theorem reach_cons_of_new
    (hkey : ∀ m n a b, resolve m = some a → resolve n = some b → key a = key b → a = b)
    (hnode : resolve name = some node) (hfresh : key node ∉ visited) :
    Reach resolve key refs visited (name :: queue) x ↔
      x = node ∨ Reach resolve key refs (key node :: visited) (refs node ++ queue) x := by
  constructor
  · intro hreach
    induction hreach with
    | @start other found hname hfound hother =>
      by_cases hsame : key found = key node
      · exact Or.inl (hkey _ _ _ _ hfound hnode hsame)
      · rcases List.mem_cons.mp hname with rfl | hname
        · rw [hnode, Option.some.injEq] at hfound
          exact Or.inl hfound.symm
        · refine Or.inr (.start (List.mem_append_right _ hname) hfound fun hmem => ?_)
          exact (List.mem_cons.mp hmem).elim hsame hother
    | @step first found other _ hname hfound hother ih =>
      by_cases hsame : key found = key node
      · exact Or.inl (hkey _ _ _ _ hfound hnode hsame)
      · have hnew : key found ∉ key node :: visited := fun hmem =>
          (List.mem_cons.mp hmem).elim hsame hother
        rcases ih with rfl | ih
        · exact Or.inr (.start (List.mem_append_left _ hname) hfound hnew)
        · exact Or.inr (.step ih hname hfound hnew)
  · rintro (rfl | hreach)
    · exact .start List.mem_cons_self hnode hfresh
    · induction hreach with
      | start hname hfound hnew =>
        have hother := fun hmem => hnew (List.mem_cons_of_mem _ hmem)
        rcases List.mem_append.mp hname with hname | hname
        · exact .step (.start List.mem_cons_self hnode hfresh) hname hfound hother
        · exact .start (List.mem_cons_of_mem _ hname) hfound hother
      | step _ hname hfound hnew ih =>
        exact .step ih hname hfound fun hmem => hnew (List.mem_cons_of_mem _ hmem)

omit [DecidableEq ι] in
/-- Without visited nodes, reaching is following references. -/
theorem reach_nil_iff {first : ν} :
    Reach resolve key refs [] (refs first) x ↔
      Relation.TransGen (Refers resolve refs) first x := by
  constructor
  · intro hreach
    induction hreach with
    | start hname hnode _ => exact .single ⟨_, hname, hnode⟩
    | step _ hname hnode _ ih => exact ih.tail ⟨_, hname, hnode⟩
  · intro hchain
    induction hchain with
    | single hrefers =>
      obtain ⟨name, hname, hnode⟩ := hrefers
      exact .start hname hnode List.not_mem_nil
    | tail _ hrefers ih =>
      obtain ⟨name, hname, hnode⟩ := hrefers
      exact .step ih hname hnode List.not_mem_nil

variable (refs) in
theorem pending_nil (nodes : List ν) :
    pending key refs [] nodes = (nodes.map fun node => (refs node).length).sum := by
  induction nodes with
  | nil => rfl
  | cons node nodes ih =>
    rw [pending, ih, if_neg List.not_mem_nil, List.map_cons, List.sum_cons]

variable (refs) in
theorem pending_anti (nodes : List ν) :
    pending key refs (key node :: visited) nodes ≤ pending key refs visited nodes := by
  induction nodes with
  | nil => exact Nat.le_refl _
  | cons other nodes ih =>
    simp only [pending, List.mem_cons]
    split_ifs with hnow hthen hthen
    · omega
    · omega
    · exact absurd (Or.inr hthen) hnow
    · omega

variable (refs) in
/-- Visiting a node leaves its references out of what is pending. -/
theorem pending_cons {nodes : List ν} (hmem : node ∈ nodes) (hfresh : key node ∉ visited) :
    pending key refs (key node :: visited) nodes + (refs node).length ≤
      pending key refs visited nodes := by
  induction nodes with
  | nil => exact absurd hmem List.not_mem_nil
  | cons other nodes ih =>
    simp only [pending]
    rcases List.mem_cons.mp hmem with heq | hmem
    · subst heq
      have hrest : pending key refs (key node :: visited) nodes ≤
          pending key refs visited nodes :=
        pending_anti refs nodes
      rw [if_pos List.mem_cons_self, if_neg hfresh]
      omega
    · have hrest := ih hmem
      by_cases hnow : key other ∈ visited
      · rw [if_pos hnow, if_pos (List.mem_cons_of_mem _ hnow)]
        omega
      · rw [if_neg hnow]
        split_ifs
        · omega
        · omega

section

variable {nodes : List ν} (hnodes : ∀ name node, resolve name = some node → node ∈ nodes)

include hnodes

/-- With fuel for every name, the worklist expands what can be reached. -/
theorem mem_expand
    (hkey : ∀ m n a b, resolve m = some a → resolve n = some b → key a = key b → a = b)
    {fuel : Nat} (hfuel : queue.length + pending key refs visited nodes < fuel) :
    some x ∈ expand resolve key refs fuel visited queue ↔
      Reach resolve key refs visited queue x := by
  induction fuel generalizing visited queue with
  | zero => exact absurd hfuel (Nat.not_lt_zero _)
  | succ fuel ih =>
    cases queue with
    | nil =>
      refine ⟨fun hmem => absurd hmem List.not_mem_nil, fun hreach => ?_⟩
      exact absurd hreach not_reach_nil
    | cons name queue =>
      rw [List.length_cons] at hfuel
      rw [expand]
      cases hnode : resolve name with
      | none =>
        have hskip : ∀ node, resolve name = some node → key node ∈ visited := by
          intro node hsome
          rw [hnode] at hsome
          cases hsome
        rw [reach_cons_of_skipped hskip, List.mem_cons, or_iff_right (Option.some_ne_none x)]
        exact ih (by omega)
      | some node =>
        simp only
        by_cases hvisited : key node ∈ visited
        · have hskip : ∀ other, resolve name = some other → key other ∈ visited := by
            intro other hother
            rw [hnode] at hother
            cases hother
            exact hvisited
          rw [if_pos hvisited, reach_cons_of_skipped hskip]
          exact ih (by omega)
        · have hless := pending_cons refs (hnodes name node hnode) hvisited
          rw [if_neg hvisited, List.mem_cons, Option.some.injEq,
            reach_cons_of_new hkey hnode hvisited]
          refine or_congr_right (ih ?_)
          rw [List.length_append]
          omega

/-- More fuel changes nothing. -/
theorem expand_fuel {fuel : Nat} (hfuel : queue.length + pending key refs visited nodes < fuel)
    (more : Nat) :
    expand resolve key refs (fuel + more) visited queue =
      expand resolve key refs fuel visited queue := by
  induction fuel generalizing visited queue with
  | zero => exact absurd hfuel (Nat.not_lt_zero _)
  | succ fuel ih =>
    rw [Nat.succ_add]
    cases queue with
    | nil => rfl
    | cons name queue =>
      rw [List.length_cons] at hfuel
      rw [expand, expand]
      cases hnode : resolve name with
      | none => exact congrArg (none :: ·) (ih (by omega))
      | some node =>
        simp only
        by_cases hvisited : key node ∈ visited
        · rw [if_pos hvisited, if_pos hvisited]
          exact ih (by omega)
        · have hless := pending_cons refs (hnodes name node hnode) hvisited
          rw [if_neg hvisited, if_neg hvisited, ih ?_]
          rw [List.length_append]
          omega

end

end Worklist
