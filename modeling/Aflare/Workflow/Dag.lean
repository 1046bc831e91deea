import Aflare.Lib.Runs
import Aflare.Workflow.TopoBatches
import Aflare.Workflow.Recovery
import Aflare.Workflow.State

/-!
# The scheduler of dependency graphs

One goroutine owns the whole state: it dispatches ready steps to workers, receives their results in
the order in which they finish, and processes the results in the order of dispatch. A successful
result is written back and credited to the dependents as soon as it arrives; a failed one only when
it is processed, since its recovery decides whether the workflow goes on.

The scheduler is a state machine. The main goroutine moves by `Action.tick`; which worker finishes
next, what it returns, when a shutdown is signalled and whether a checkpoint can be written are
choices of the environment.
-/

namespace Workflow

open Go

/-- What a run of the scheduler is given. -/
structure DAGConfig where
  world : World
  wf : WorkflowDef
  graph : DepGraph
  initialInput : Str
  /-- The path of the checkpoint; empty for none. -/
  statePath : Str

instance : Inhabited WorkflowStep := ⟨{ node := [] }⟩

/-- The step with an index; the scheduler only uses indices of steps. -/
def WorkflowDef.step (wf : WorkflowDef) (i : ℕ) : WorkflowStep := wf.steps.getD i default

/-- `dagPreparedStep`: a step with its condition and parameters evaluated. -/
structure PreparedStep where
  idx : ℕ
  input : Str
  evaluatedParams : StringMap
  evalErr : Option Str
  skipped : Bool

def PreparedStep.hasWorker (ps : PreparedStep) : Bool := ps.evalErr.isNone && !ps.skipped

/-- `dagExecResult`: the outcome of a worker. -/
structure ExecResult where
  idx : ℕ
  output : Str
  err : Option Str

structure StepResult where
  stepIndex : ℕ
  nodeName : Str
  input : Str
  output : Str
  error : Option Str

/-- The place of the main goroutine in its loop. -/
inductive Phase
  | top
  | dispatch
  | await
  | process
  | done
  deriving DecidableEq

/-- `dagScheduler`, with the running workers, the shutdown flag and the checkpoints written. -/
structure Sched where
  phase : Phase
  engine : ExpressionEngine
  resolver : ℕ → Option Str
  pending : ℕ → ℤ
  readyQueue : List ℕ
  dispatchSeq : List ℕ
  results : ℕ → Option ExecResult
  prepared : ℕ → Option PreparedStep
  finalized : Finset ℕ
  resumed : Finset ℕ
  completedOK : Finset ℕ
  processPos : ℕ
  firstAbortErr : Option Str
  allResults : List StepResult
  lastOutput : Str
  /-- The steps whose worker has not delivered its result. -/
  inFlight : List ℕ
  shutdown : Bool
  /-- The checkpoints written so far; the file holds the last one. -/
  checkpoints : List WorkflowState

namespace Sched

/-- A step failed without recovery. -/
def aborted (s : Sched) : Bool := s.firstAbortErr.isSome

def processed (s : Sched) : List ℕ := s.dispatchSeq.take s.processPos

end Sched

/-! ## Preparing a step -/

/-- `resolveInput`: the outputs of the dependencies in index order, or the initial input. -/
def resolveInput (g : DepGraph) (idx : ℕ) (resolver : ℕ → Option Str) (initialInput : Str) : Str :=
  match g.sorted (g.deps idx) with
  | [] => initialInput
  | [d] => (resolver d).getD initialInput
  | deps =>
    match deps.filterMap resolver with
    | [] => initialInput
    | parts => joinWith partSeparator parts

/-- Whether the parameters of a step are left to the executor of its sub-steps. -/
def WorkflowStep.isCompound (step : WorkflowStep) : Bool :=
  step.ifConfig.isSome || step.loop.isSome || !step.parallel.isEmpty || step.map.isSome ||
    step.reduce.isSome || step.saga.isSome

/-- `prepareDAGStep` on a step with its default input. -/
def prepareStep (w : World) (step : WorkflowStep) (idx : ℕ) (defaultInput : Str)
    (e : ExpressionEngine) : PreparedStep :=
  match resolveStepInput w e step.input defaultInput with
  | .error err => ⟨idx, defaultInput, none, some err, false⟩
  | .ok input =>
    match evaluateCondition w e step.condition input with
    | .error err =>
      ⟨idx, input, none, some (str "condition evaluation failed: " ++ err), false⟩
    | .ok false => ⟨idx, input, none, none, true⟩
    | .ok true =>
      if step.isCompound then ⟨idx, input, none, none, false⟩
      else
        match e.evaluateParams w step.params input with
        | .error err => ⟨idx, input, none, some err, false⟩
        | .ok params => ⟨idx, input, params, none, false⟩

variable (c : DAGConfig)

def prepareDAGStep (idx : ℕ) (resolver : ℕ → Option Str) (e : ExpressionEngine) : PreparedStep :=
  prepareStep c.world (c.wf.step idx) idx (resolveInput c.graph idx resolver c.initialInput) e

/-! ## Ready steps -/

/-- One dependency of `d` is done: a step without further ones enters the queue. -/
def credit (s : (ℕ → ℤ) × List ℕ) (d : ℕ) : (ℕ → ℤ) × List ℕ :=
  let left := s.1 d - 1
  (Function.update s.1 d left, if left = 0 then s.2 ++ [d] else s.2)

namespace Sched

variable (c : DAGConfig) (s : Sched) (idx : ℕ)

def propagateDeps : Sched :=
  let ready := (c.graph.sorted (c.graph.dependents idx)).foldl credit (s.pending, s.readyQueue)
  { s with pending := ready.1, readyQueue := ready.2 }

/-- Write the output of a step back to the engine and the resolver. -/
def writeBack (output : Str) : Sched :=
  { s with
    engine := s.engine.setStepOutput idx (c.wf.step idx).name output
    resolver := Function.update s.resolver idx (some output) }

def finalize (output : Str) : Sched :=
  let s := s.writeBack c idx output
  propagateDeps c
    { s with finalized := insert idx s.finalized, completedOK := insert idx s.completedOK } idx

/-! ## The phases of the loop -/

/-- The first step of the queue is prepared and moved to the dispatched ones. -/
def enter (rest : List ℕ) (ps : PreparedStep) : Sched :=
  { s with
    readyQueue := rest
    prepared := Function.update s.prepared idx (some ps)
    dispatchSeq := s.dispatchSeq ++ [idx] }

/-- One round of `dispatchReady`, for the first step of the queue. -/
def dispatchOne (rest : List ℕ) : Sched :=
  let ps := prepareDAGStep c idx s.resolver s.engine
  let s := s.enter idx rest ps
  if ps.evalErr.isSome then s
  else if ps.skipped then s.finalize c idx []
  else { s with inFlight := s.inFlight ++ [idx] }

/-- The end of `dispatchReady`: the loop ends if every dispatched step is processed. -/
def afterDispatch : Sched :=
  { s with phase := if s.dispatchSeq.length ≤ s.processPos then .done else .await }

/-- `awaitNextResult` would not wait: the next step has no worker, or its result is there. -/
def nextAvailable : Bool :=
  match s.dispatchSeq[s.processPos]? with
  | none => true
  | some want =>
    match s.prepared want with
    | none => true
    | some ps => !ps.hasWorker || (s.results want).isSome

/-- A result that has arrived is kept until its step is processed. -/
def keep (res : ExecResult) : Sched :=
  { s with
    results := Function.update s.results res.idx (some res)
    inFlight := s.inFlight.erase res.idx
    phase := .top }

/-- `awaitNextResult` on a result that has arrived. -/
def receive (res : ExecResult) : Sched :=
  let s := s.keep res
  if res.err.isNone && !s.aborted then s.finalize c res.idx res.output else s

/-- The outcome that `processDAGStepResult` computes for a step. -/
structure Outcome where
  output : Str
  resultErr : Option Str
  abortErr : Option Str

/-- The switch of `processDAGStepResult`. -/
def outcome (ps : PreparedStep) : Outcome :=
  match ps.evalErr with
  | some err => ⟨[], some err, some err⟩
  | none =>
    if ps.skipped then ⟨[], none, none⟩
    else
      match s.results idx with
      | none => ⟨[], none, none⟩
      | some res =>
        match res.err with
        | none => ⟨res.output, none, none⟩
        | some err =>
          let r := applyErrorRecovery c.world (c.wf.step idx) res.output err s.engine ps.input
          ⟨r.output, r.traceErr, r.abortErr⟩

/-- `processDAGStepResult` and the cursor of `processNextResult`. -/
def recordResult (ps : PreparedStep) (o : Outcome) : Sched :=
  let s := s.writeBack c idx o.output
  { s with
    phase := .top
    allResults := s.allResults ++ [⟨idx, (c.wf.step idx).node, ps.input, o.output, o.resultErr⟩]
    lastOutput := if o.resultErr.isNone ∧ o.output ≠ [] then o.output else s.lastOutput
    processPos := s.processPos + 1
    results := Function.update s.results idx none }

/-- The workflow stops: what is not dispatched is dropped. -/
def abort (err : Option Str) : Sched := { s with firstAbortErr := err, readyQueue := [] }

/-- Credit the dependents of a processed step, unless that was done when its result arrived. -/
def propagateOnce : Sched :=
  if idx ∈ s.finalized then s else s.propagateDeps c idx

/-- The state that `saveCheckpointState` writes: the outputs of the steps that completed. -/
def checkpointState (now : Time) : WorkflowState where
  workflowName := c.wf.name
  stepIndex := -1
  data := s.lastOutput
  stepOutputs := some (GoMap.assignAll ∅ ((c.graph.sorted s.completedOK).filterMap fun idx : ℕ =>
    (s.engine.stepOutputs[idxKey idx]?).map fun out => ((idx : ℤ), out)))
  vars := some s.engine.vars
  savedAt := now
  dagMode := true
  stepNames := c.wf.steps.map fun step => step.name

/-- `saveCheckpointState`; `none` for a write that fails, which is only logged. -/
def saveCheckpointState (disk : Option Time) : Sched :=
  if c.statePath = [] then s
  else
    match disk with
    | none => s
    | some now => { s with checkpoints := s.checkpoints ++ [s.checkpointState c now] }

/-- Count a step that did not fail as completed, and write a checkpoint. -/
def complete (o : Outcome) (disk : Option Time) : Sched :=
  if o.resultErr.isNone then
    saveCheckpointState c { s with completedOK := insert idx s.completedOK } disk
  else s

/-- The end of `processNextResult`, after the outcome of the step `idx` is recorded. -/
def settle (o : Outcome) (disk : Option Time) : Sched :=
  if o.abortErr.isSome && !s.aborted then s.abort o.abortErr
  else if s.aborted then s
  else (s.propagateOnce c idx).complete c idx o disk

/-- `processNextResult` for the step `idx`. -/
def processStep (disk : Option Time) (idx : ℕ) (ps : PreparedStep) : Sched :=
  let o := s.outcome c idx ps
  (s.recordResult c idx ps o).settle c idx o disk

end Sched

/-! ## Runs -/

/-- What can happen next: the main goroutine goes on, with the fate of a checkpoint it may write; a
result arrives; a shutdown is signalled. -/
inductive Action
  | tick (disk : Option Time)
  | receive (res : ExecResult)
  | signalShutdown

namespace Sched

variable (c : DAGConfig) (s : Sched)

/-- The main goroutine goes on; `none` when it has ended or waits for a result. -/
def tick (disk : Option Time) : Option Sched :=
  match s.phase with
  | .top =>
    if s.processPos < s.dispatchSeq.length ∨ s.readyQueue ≠ [] then
      some { s with phase := .dispatch }
    else some { s with phase := .done }
  | .dispatch =>
    match s.readyQueue with
    | [] => some s.afterDispatch
    | idx :: rest =>
      if s.aborted || s.shutdown then some s.afterDispatch else some (s.dispatchOne c idx rest)
  | .await => if s.nextAvailable then some { s with phase := .process } else none
  | .process =>
    match s.dispatchSeq[s.processPos]? with
    | none => none
    | some idx =>
      match s.prepared idx with
      | none => none
      | some ps => some (s.processStep c disk idx ps)
  | .done => none

/-- The main goroutine waits for a result. -/
def Waiting : Prop := s.phase = .await ∧ s.nextAvailable = false
  deriving Decidable

/-- One action; `none` when it cannot happen. -/
def step : Action → Option Sched
  | .tick disk => s.tick c disk
  | .receive res =>
    if s.Waiting ∧ res.idx ∈ s.inFlight then some (s.receive c res) else none
  | .signalShutdown => if s.shutdown then none else some { s with shutdown := true }

/-- The result of `idx`, prepared as `ps`, is processed next. -/
structure Turn (s : Sched) (idx : ℕ) (ps : PreparedStep) : Prop where
  phase : s.phase = .process
  next : s.dispatchSeq[s.processPos]? = some idx
  prepared : s.prepared idx = some ps

/-- What an action can do to the state. -/
inductive Move : Sched → Action → Sched → Prop
  | signal {s : Sched} (hflag : s.shutdown = false) :
      Move s .signalShutdown { s with shutdown := true }
  | round {s : Sched} {disk : Option Time} (hphase : s.phase = .top) :
      Move s (.tick disk) { s with phase := .dispatch }
  | finish {s : Sched} {disk : Option Time} (hphase : s.phase = .top)
      (hpos : s.dispatchSeq.length ≤ s.processPos) (hqueue : s.readyQueue = []) :
      Move s (.tick disk) { s with phase := .done }
  | dispatch {s : Sched} {idx : ℕ} {rest : List ℕ} {disk : Option Time}
      (hphase : s.phase = .dispatch) (hqueue : s.readyQueue = idx :: rest)
      (hab : s.aborted = false) (hflag : s.shutdown = false) :
      Move s (.tick disk) (s.dispatchOne c idx rest)
  | dispatched {s : Sched} {disk : Option Time} (hphase : s.phase = .dispatch)
      (hstop : s.readyQueue = [] ∨ s.aborted = true ∨ s.shutdown = true) :
      Move s (.tick disk) s.afterDispatch
  | receive {s : Sched} {res : ExecResult} (hwait : s.Waiting) (hidx : res.idx ∈ s.inFlight) :
      Move s (.receive res) (s.receive c res)
  | arrived {s : Sched} {disk : Option Time} (hphase : s.phase = .await)
      (havail : s.nextAvailable = true) : Move s (.tick disk) { s with phase := .process }
  | process {s : Sched} {idx : ℕ} {ps : PreparedStep} {disk : Option Time}
      (hturn : s.Turn idx ps) : Move s (.tick disk) (s.processStep c disk idx ps)

/-- Every action that happens is one of the moves. -/
theorem move_of_step {s s' : Sched} {a : Action} (h : s.step c a = some s') : Move c s a s' := by
  have hturn : ∀ idx ps, s.phase = .process → s.dispatchSeq[s.processPos]? = some idx →
      s.prepared idx = some ps → s.Turn idx ps := fun _ _ => Turn.mk
  cases a <;> grind [step, tick, Move]

def run (actions : List Action) : Option Sched := Runs.run (step c) s actions

end Sched

/-! ## The initial state -/

/-- `newDAGScheduler`, with the engine and the resolver of a fresh run. -/
def newDAGScheduler : Sched where
  phase := .top
  engine := { newExpressionEngine with vars := c.wf.vars }
  resolver := fun _ => none
  pending := fun i => (c.graph.deps i).card
  readyQueue := (List.range c.graph.nodeCount).filter fun i => c.graph.deps i = ∅
  dispatchSeq := []
  results := fun _ => none
  prepared := fun _ => none
  finalized := ∅
  resumed := ∅
  completedOK := ∅
  processPos := 0
  firstAbortErr := none
  allResults := []
  lastOutput := []
  inFlight := []
  shutdown := false
  checkpoints := []

namespace Sched

variable (c : DAGConfig)

def applyResumed (s : Sched) (resumed : Finset ℕ) : Sched :=
  if resumed = ∅ then { s with resumed := resumed }
  else
    let pending := fun i => if i ∈ resumed then 0 else s.pending i
    let kept := s.readyQueue.filter (· ∉ resumed)
    let credited := ((c.graph.sorted resumed).flatMap fun idx =>
      (c.graph.sorted (c.graph.dependents idx)).filter (· ∉ resumed))
    let ready := credited.foldl credit (pending, kept)
    { s with
      resumed := resumed
      pending := ready.1
      readyQueue := ready.2.insertionSort (· ≤ ·) }

end Sched

def dagCheckpointCompatible (state : WorkflowState) (wf : WorkflowDef) : Bool :=
  state.stepNames = wf.steps.map fun step => step.name

/-- The entries of a checkpoint that belong to steps of the workflow, in the order of the range. -/
def restoredEntries (state : WorkflowState) : List (ℕ × Str) :=
  ((c.world.rangeOutputs (state.stepOutputs.getD ∅)).filter fun e =>
    0 ≤ e.1 ∧ e.1 < (c.wf.steps.length : ℤ)).map fun e => (e.1.toNat, e.2)

/-- The result that is reported for a restored step. -/
def restoredResult (state : WorkflowState) (idx : ℕ) : StepResult where
  stepIndex := idx
  nodeName := (c.wf.step idx).node
  input := []
  output := ((state.stepOutputs.getD ∅)[(idx : ℤ)]?).getD []
  error := none

/-- The resume of `executeWorkflowDAG` from an accepted checkpoint. -/
def resumeFrom (s : Sched) (state : WorkflowState) : Sched :=
  let entries := restoredEntries c state
  let resumed := (entries.map Prod.fst).toFinset
  let s := entries.foldl (fun s e => s.writeBack c e.1 e.2) s
  let s := { s with engine := s.engine.setVariables (state.vars.getD ∅) }
  let s := s.applyResumed c resumed
  { s with
    lastOutput := state.data
    allResults := s.allResults ++ (c.graph.sorted resumed).map (restoredResult c state) }

/-- The state in which `executeWorkflowDAG` starts its scheduler, given the checkpoint it loaded. A
checkpoint of a sequential run or of another step list is ignored. -/
def startDAG (loaded : Option WorkflowState) : Sched :=
  match loaded with
  | none => newDAGScheduler c
  | some state =>
    if c.statePath ≠ [] ∧ state.dagMode = true ∧ dagCheckpointCompatible state c.wf then
      resumeFrom c (newDAGScheduler c) state
    else newDAGScheduler c

/-! ## The end of a run -/

/-- The final output of `executeWorkflowDAG`: the output template over the last output, which stands
for it where there is no template or it does not evaluate. -/
def Sched.finalOutput (s : Sched) : Str :=
  if c.wf.output = [] then s.lastOutput
  else
    match s.engine.evaluate c.world c.wf.output s.lastOutput with
    | .ok evaluated => evaluated
    | .error _ => s.lastOutput

/-- What `executeWorkflowDAG` returns when its scheduler has ended. -/
def Sched.result (s : Sched) : Except Str Str :=
  match s.firstAbortErr with
  | some err => .error (str "DAG step " ++ itoa (s.processPos - 1) ++ str " failed: " ++ err)
  | none => .ok (s.finalOutput c)

end Workflow
