import Aflare.Go.Text
import Aflare.Lib.DepthFirst
import Aflare.Workflow.Types

/-!
# The dependency graph of a workflow

Steps are numbered from zero. A step lists the steps it waits for by name, or by a number that
counts from one. The graph is refused when a reference has no target, when a step waits for itself,
and when there is a cycle.
-/

namespace Workflow

open Go List

/-- The direct dependencies of each step, and the steps that depend on it. -/
structure DepGraph where
  nodeCount : ℕ
  deps : ℕ → Finset ℕ
  dependents : ℕ → Finset ℕ

/-- Why a step list has no dependency graph. Steps are given by their index, counted from zero. -/
inductive DepError
  | targetNotFound (step : ℕ) (name ref : Str)
  | dependsOnItself (step : ℕ) (name : Str)
  | cycle (steps : List ℕ)
  deriving DecidableEq

namespace DepGraph

def empty (n : ℕ) : DepGraph := ⟨n, fun _ => ∅, fun _ => ∅⟩

variable (g : DepGraph)

/-- Make step `i` wait for step `d`. -/
def addEdge (i d : ℕ) : DepGraph where
  nodeCount := g.nodeCount
  deps := Function.update g.deps i (insert d (g.deps i))
  dependents := Function.update g.dependents d (insert i (g.dependents d))

/-- The steps of a set in index order. -/
def sorted (s : Finset ℕ) : List ℕ := (List.range g.nodeCount).filter (· ∈ s)

/-- `detectCycle`. The order in which the dependencies of a step are searched only decides which
cycle is found. -/
def detectCycle : Option (List ℕ) :=
  match DepthFirst.search (fun i => g.sorted (g.deps i)) g.nodeCount (List.range g.nodeCount) with
  | .error cycle => some cycle
  | .ok _ => none

end DepGraph

/-- The index of each named step; of two steps with one name, the later one. -/
def nameToIdx (steps : List WorkflowStep) : GoMap Str ℕ :=
  GoMap.assignAll ∅ ((steps.zipIdx.filter fun s => s.1.name ≠ []).map fun s => (s.1.name, s.2))

/-- `resolveStepRef`: a step name, or else a step number counted from one. -/
def resolveStepRef (ref : Str) (names : GoMap Str ℕ) (count : ℕ) : Option ℕ :=
  match names[ref]? with
  | some i => some i
  | none =>
    match atoi ref with
    | some num => if 0 ≤ num - 1 ∧ num - 1 < count then some (num - 1).toNat else none
    | none => none

def addDependsOn (names : GoMap Str ℕ) (i : ℕ) (name : Str) :
    List Str → DepGraph → Except DepError DepGraph
  | [], g => .ok g
  | dep :: rest, g =>
    let dep := trimSpace dep
    if dep = [] then addDependsOn names i name rest g
    else
      match resolveStepRef dep names g.nodeCount with
      | none => .error (.targetNotFound i name dep)
      | some d =>
        if d = i then .error (.dependsOnItself i name)
        else addDependsOn names i name rest (g.addEdge i d)

def addSteps (names : GoMap Str ℕ) :
    List (WorkflowStep × ℕ) → DepGraph → Except DepError DepGraph
  | [], g => .ok g
  | (step, i) :: rest, g =>
    match addDependsOn names i step.name step.dependsOn g with
    | .error e => .error e
    | .ok g => addSteps names rest g

def buildDepGraph (steps : List WorkflowStep) : Except DepError DepGraph :=
  match addSteps (nameToIdx steps) steps.zipIdx (DepGraph.empty steps.length) with
  | .error e => .error e
  | .ok g =>
    match g.detectCycle with
    | some cycle => .error (.cycle cycle)
    | none => .ok g

/-! ## Accepted graphs -/

/-- The edge maps are inverse to each other and stay within the steps. -/
structure DepGraph.EdgesWithin (g : DepGraph) : Prop where
  mem_dependents : ∀ i d, i ∈ g.dependents d ↔ d ∈ g.deps i
  lt : ∀ i, ∀ d ∈ g.deps i, d < g.nodeCount ∧ i < g.nodeCount

/-- The edges are well placed and no chain of dependencies is endless. -/
structure DepGraph.WellFormed (g : DepGraph) : Prop extends g.EdgesWithin where
  acc : ∀ i, Acc (fun d i => d ∈ g.deps i) i

variable {g : DepGraph}

namespace DepGraph

@[simp] theorem mem_sorted {s : Finset ℕ} {i : ℕ} : i ∈ g.sorted s ↔ i < g.nodeCount ∧ i ∈ s := by
  simp [sorted]

theorem nodup_sorted (g : DepGraph) (s : Finset ℕ) : (g.sorted s).Nodup := nodup_range.filter _

end DepGraph

theorem nameToIdx_lt (steps : List WorkflowStep) :
    GoMap.Forall (fun _ i => i < steps.length) (nameToIdx steps) := by
  have hentries : ∀ e ∈ (steps.zipIdx.filter fun s => s.1.name ≠ []).map
      (fun s => (s.1.name, s.2)), e.2 < steps.length := by
    intro e he
    obtain ⟨s, hs, rfl⟩ := mem_map.mp he
    simpa using snd_lt_of_mem_zipIdx (mem_filter.mp hs).1
  exact GoMap.Forall.assignAll (P := fun _ i => i < steps.length) GoMap.Forall.empty hentries

variable {names : GoMap Str ℕ}

theorem resolveStepRef_lt {count : ℕ} (hnames : GoMap.Forall (fun _ i => i < count) names)
    {ref : Str} {d : ℕ} (h : resolveStepRef ref names count = some d) : d < count := by
  unfold resolveStepRef at h
  cases hname : names[ref]? with
  | some i =>
    simp only [hname] at h
    obtain rfl := Option.some.inj h
    exact hnames ref i hname
  | none =>
    simp only [hname] at h
    cases hnum : atoi ref with
    | none => simp [hnum] at h
    | some num =>
      simp only [hnum] at h
      split at h
      · obtain rfl := Option.some.inj h
        omega
      · cases h

/-- A search that lists the dependencies of each step and finds no cycle. -/
theorem DepGraph.EdgesWithin.acc_of_search (h : g.EdgesWithin) {order : ℕ → List ℕ}
    (horder : ∀ i d, d ∈ order i ↔ d ∈ g.deps i) {color : ℕ → DepthFirst.Color}
    (hsearch : DepthFirst.search order g.nodeCount (List.range g.nodeCount) = .ok color) (i : ℕ) :
    Acc (fun d i => d ∈ g.deps i) i := by
  by_cases hi : i < g.nodeCount
  · have hacc := DepthFirst.acc_of_search hsearch i (mem_range.mpr hi)
    simpa only [horder] using hacc
  · exact ⟨_, fun d hd => absurd (h.lt i d hd).2 hi⟩

end Workflow
