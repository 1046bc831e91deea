import Aflare.Workflow.Sequential

/-!
# Parallel steps

A `parallel` step evaluates the conditions and parameters of its branches in turn and then runs each
branch in a goroutine of its own. The results are collected from a channel, so they arrive in the
order in which the branches finish; a branch is taken to be deterministic, so that only this order
differs from one run to another.
-/

namespace Workflow

open Go List

/-! ## Branches -/

/-- What the node of a branch does, after its retries. -/
inductive BranchAnswer
  | returned (output : Str) (err : Option Str)
  | panicked (reason : Str)

structure ParallelPreEval where
  nodeName : Str
  evaluatedParams : StringMap
  paramsErr : Option Str
  condPass : Bool
  condErr : Option Str
  hasCond : Bool

/-- `parallelResult`, without the measured duration. -/
structure ParallelResult where
  stepIndex : ℕ
  nodeName : Str
  output : Str
  err : Option Str

/-- What a parallel step returns. -/
structure ParallelOutcome where
  results : List StepResult
  output : Str
  err : Option Str

/-- A parallel step, its place in the workflow and what it is run in. -/
structure Parallel where
  world : World
  branches : List Step
  maxFailures : ℤ
  stepIndex : ℕ
  input : Str
  engine : ExpressionEngine
  /-- What the node of a branch gives for its evaluated parameters. -/
  answer : ℕ → StringMap → BranchAnswer

/-- The results that have arrived so far. -/
structure Collected where
  stepResults : List StepResult
  outputs : List Str
  firstErr : Option Str

namespace Parallel

variable (p : Parallel)

/-- The condition and the parameters of a branch: the loop body of `preEvaluateParallelSteps`. The
parameters are evaluated only if the condition lets the branch run. -/
def preEvaluate (step : Step) : ParallelPreEval :=
  let hasCond : Bool := step.condition ≠ []
  let cond : Except Str Bool :=
    if hasCond then evaluateCondition p.world p.engine step.condition p.input else .ok false
  let pe (params : StringMap) (paramsErr condErr : Option Str)
      (condPass : Bool) : ParallelPreEval :=
    ⟨step.node, params, paramsErr, condPass, condErr, hasCond⟩
  match cond with
  | .error err => pe none none (some err) false
  | .ok condPass =>
    if !hasCond || condPass then
      match p.engine.evaluateParams p.world step.params p.input with
      | .error err => pe none (some err) none condPass
      | .ok params => pe params none none condPass
    else pe none none none condPass

/-- The goroutine of a branch: `runParallelSubStep` and the recovery from a panic. -/
def runParallelSubStep (j : ℕ) (pe : ParallelPreEval) : ParallelResult :=
  let idx := p.stepIndex * maxParallel + j
  match pe.hasCond, pe.condErr, pe.condPass with
  | true, some err, _ => ⟨idx, pe.nodeName, [], some (str "condition evaluation failed: " ++ err)⟩
  | true, none, false => ⟨idx, pe.nodeName, [], none⟩
  | _, _, _ =>
    match pe.paramsErr with
    | some err => ⟨idx, pe.nodeName, [], some err⟩
    | none =>
      if (p.world.node pe.nodeName).isNone then
        ⟨idx, pe.nodeName, [], some (str "node '" ++ pe.nodeName ++ str "' not found in registry")⟩
      else
        match p.answer j pe.evaluatedParams with
        | .returned output err => ⟨idx, pe.nodeName, output, err⟩
        | .panicked reason =>
          ⟨idx, pe.nodeName, [], some (str "parallel step panicked: " ++ reason)⟩

/-- The result of the branch at a position. -/
def branchResult (j : ℕ) : ParallelResult :=
  p.runParallelSubStep j (p.preEvaluate (p.branches.getD j ⟨[], none, []⟩))

/-! ## Collection -/

def stepResult (res : ParallelResult) : StepResult :=
  ⟨res.stepIndex, res.nodeName, p.input, res.output, res.err⟩

/-- The next result of the channel. -/
def collectOne (c : Collected) (res : ParallelResult) : Collected :=
  match res.err with
  | some err =>
    ⟨c.stepResults ++ [p.stepResult res], c.outputs, c.firstErr <|> some err⟩
  | none => ⟨c.stepResults ++ [p.stepResult res], c.outputs ++ [res.output], c.firstErr⟩

/-- `collectParallelResults`, for results in the order in which they arrive. -/
def collectParallelResults (arrived : List ParallelResult) : Collected :=
  arrived.foldl p.collectOne ⟨[], [], none⟩

def failureCount (results : List StepResult) : ℕ := (results.filter (·.error.isSome)).length

/-- The joined outputs; a separator only follows a text that is not empty. -/
def joinOutputs (outputs : List Str) : Str :=
  outputs.foldl (fun final out => (if final ≠ [] then final ++ partSeparator else final) ++ out) []

/-- More branches have failed than the step allows. -/
def exceeds (results : List StepResult) : Prop := max p.maxFailures 0 < failureCount results
  deriving Decidable

/-- The error of a step of which too many branches have failed. -/
def failureText (failures : ℕ) (firstErr : Str) : Str :=
  str "parallel step failed: " ++ itoa failures ++ str "/" ++ itoa p.branches.length ++
    str " sub-steps failed (max_failures: " ++ itoa (max p.maxFailures 0) ++ str "): " ++ firstErr

def finalizeParallelOutput (c : Collected) : ParallelOutcome :=
  match c.firstErr with
  | none => ⟨c.stepResults, joinOutputs c.outputs, none⟩
  | some firstErr =>
    if p.exceeds c.stepResults then
      ⟨c.stepResults, [], some (p.failureText (failureCount c.stepResults) firstErr)⟩
    else ⟨c.stepResults, joinOutputs c.outputs, none⟩

/-- The error of a step with too many branches. -/
def tooManyText : Str :=
  str "too many parallel steps (" ++ itoa p.branches.length ++ str ", max " ++ itoa maxParallel ++
    str ")"

/-- `executeParallelStep`, for the order in which the branches finish. -/
def executeParallelStep (order : List ℕ) : ParallelOutcome :=
  if p.branches.length > maxParallel then ⟨[], [], some p.tooManyText⟩
  else p.finalizeParallelOutput (p.collectParallelResults (order.map p.branchResult))

/-- An order in which the branches can finish. -/
def Finishes (order : List ℕ) : Prop := order.Perm (List.range p.branches.length)

/-! ## What is collected -/

theorem foldl_collectOne (arrived : List ParallelResult) (c : Collected) :
    arrived.foldl p.collectOne c =
      ⟨c.stepResults ++ arrived.map p.stepResult,
        c.outputs ++ (arrived.filter (·.err.isNone)).map (·.output),
        c.firstErr <|> arrived.findSome? (·.err)⟩ := by
  induction arrived generalizing c with
  | nil => simp
  | cons res rest ih =>
    rw [foldl_cons, ih]
    cases h : res.err with
    | none => simp [collectOne, h]
    | some err => cases hc : c.firstErr <;> simp [collectOne, h, hc]

theorem collectParallelResults_eq (arrived : List ParallelResult) :
    p.collectParallelResults arrived =
      ⟨arrived.map p.stepResult, (arrived.filter (·.err.isNone)).map (·.output),
        arrived.findSome? (·.err)⟩ := by
  rw [collectParallelResults, foldl_collectOne]
  simp

variable {p}

theorem results_executeParallelStep (hcount : p.branches.length ≤ maxParallel) (order : List ℕ) :
    (p.executeParallelStep order).results = order.map fun j => p.stepResult (p.branchResult j) := by
  rw [executeParallelStep, if_neg (not_lt.mpr hcount), collectParallelResults_eq,
    finalizeParallelOutput]
  dsimp only
  split
  · simp
  · split <;> simp

theorem stepIndex_branchResult (j : ℕ) :
    (p.branchResult j).stepIndex = p.stepIndex * maxParallel + j := by
  rw [branchResult, runParallelSubStep]
  repeat' split
  all_goals rfl

/-! ## Two orders -/

section TwoOrders

variable {order order' : List ℕ} (h : p.Finishes order) (h' : p.Finishes order')
include h h'

theorem Finishes.perm : order.Perm order' := h.trans h'.symm

end TwoOrders

theorem finishes_range : p.Finishes (List.range p.branches.length) := List.Perm.refl _

theorem finishes_reverse : p.Finishes (List.range p.branches.length).reverse := reverse_perm _

theorem head_results (hcount : p.branches.length ≤ maxParallel) (j : ℕ) (rest : List ℕ) :
    (p.executeParallelStep (j :: rest)).results.head?.map (·.stepIndex) =
      some (p.stepIndex * maxParallel + j) := by
  rw [results_executeParallelStep hcount, map_cons, head?_cons, Option.map_some]
  exact congrArg some (stepIndex_branchResult j)

end Parallel

/-- The outcome of a parallel step is the same for any two orders in which its branches finish
exactly when there is at most one branch, or the step is refused because there are too many. -/
theorem parallel_deterministic_iff (p : Parallel) :
    (∀ order order', p.Finishes order → p.Finishes order' →
      p.executeParallelStep order = p.executeParallelStep order') ↔
      p.branches.length ≤ 1 ∨ maxParallel < p.branches.length := by
  constructor
  · intro hsame
    by_contra hmany
    obtain ⟨htwo, hcount⟩ := not_or.mp hmany
    -- the branches in their order and in the reverse one
    obtain ⟨n, hn⟩ : ∃ n, p.branches.length = n + 2 := ⟨p.branches.length - 2, by omega⟩
    have heq := hsame _ _ Parallel.finishes_range Parallel.finishes_reverse
    have hfirst := Parallel.head_results (not_lt.mp hcount) 0 ((List.range (n + 1)).map (· + 1))
    have hlast := Parallel.head_results (not_lt.mp hcount) (n + 1) (List.range (n + 1)).reverse
    rw [← range_succ_eq_map, ← hn, heq, hn, range_succ, reverse_append] at hfirst
    simp only [reverse_cons, reverse_nil, nil_append, singleton_append] at hfirst
    have := Option.some.inj (hfirst.symm.trans hlast)
    omega
  · rintro (hone | hmany) order order' h h'
    · -- at most one branch can finish in one order only
      have hlen : order.length ≤ 1 := by simpa [h.length_eq] using hone
      have heq : order = order' := by
        match order, hlen, h.perm h' with
        | [], _, hperm => exact hperm.nil_eq
        | [j], _, hperm => exact singleton_perm.mp hperm
      rw [heq]
    · simp only [Parallel.executeParallelStep, if_pos hmany]

/-- Two branches that call a registered node, with the given answers. -/
def twoBranches (answer : ℕ → BranchAnswer) : Parallel where
  world := nodeWorld
  branches := [⟨str "fetch", none, []⟩, ⟨str "summarize", none, []⟩]
  maxFailures := 0
  stepIndex := 0
  input := []
  engine := newExpressionEngine
  answer j _ := answer j

/-- With two branches, the order of the results, the joined output, the output that the strategy
`first` selects and the error of a failed step all depend on which branch finishes first. -/
theorem not_parallel_deterministic :
    let p := twoBranches fun j => .returned (if j = 0 then str "a" else str "b") none
    let q := twoBranches fun j => .returned [] (some (if j = 0 then str "a" else str "b"))
    (p.Finishes [0, 1] ∧ p.Finishes [1, 0]) ∧
      (p.executeParallelStep [0, 1]).results.map (·.stepIndex) ≠
        (p.executeParallelStep [1, 0]).results.map (·.stepIndex) ∧
      applyOutputStrategy (p.executeParallelStep [0, 1]).output [] ≠
        applyOutputStrategy (p.executeParallelStep [1, 0]).output [] ∧
      applyOutputStrategy (p.executeParallelStep [0, 1]).output (str "first") ≠
        applyOutputStrategy (p.executeParallelStep [1, 0]).output (str "first") ∧
      (q.executeParallelStep [0, 1]).err ≠ (q.executeParallelStep [1, 0]).err := by
  refine ⟨⟨List.Perm.refl _, List.Perm.swap 0 1 []⟩, ?_⟩
  decide

end Workflow
