import Aflare.Workflow.Meaning

/-!
# The sequential executor

Steps are run in the order of the file. A step receives the data that the one before it left, or
what its `input:` override makes of it; its output becomes the data of the next one and is stored in
the engine. A step that its condition skips leaves the data alone.
-/

namespace Workflow

open Go

/-! ## Output strategies -/

/-- The part that is at least as good as all others, the first one among equals. -/
def bestPart (better : Str → Str → Bool) (best : Str) (parts : List Str) : Str :=
  parts.foldl (fun best p => if better p best then p else best) best

/-- A part as an element of a JSON array: as it is if it is JSON, quoted otherwise. -/
def jsonPart (p : Str) : Str :=
  if (Value.parse p).isSome then p else (Value.str p).marshal

def applyOutputStrategy (output strategy : Str) : Str :=
  if strategy = [] ∨ strategy = str "join" then output
  else
    let parts := split output partSeparator
    if strategy = str "first" then parts.headD []
    else if strategy = str "last" then parts.getLastD []
    else if strategy = str "longest" then
      bestPart (fun p best => best.length < p.length) [] parts
    else if strategy = str "shortest" then
      match parts with
      | [] => []
      | p :: rest => bestPart (fun p best => p.length < best.length) p rest
    else if strategy = str "json_array" then
      str "[" ++ joinWith (str ",") (parts.map jsonPart) ++ str "]"
    else output

/-! ## What a run is given -/

inductive CompoundKind
  | ifBranch
  | loop
  | map
  | reduce
  | parallel
  | saga
  deriving DecidableEq

/-- The kind of a compound step: the first one it has the parts of, in the order of the switch of
`handleCompoundStep`. -/
def WorkflowStep.compoundKind (step : WorkflowStep) : Option CompoundKind :=
  if step.ifConfig.isSome then some .ifBranch
  else if step.loop.isSome then some .loop
  else if step.map.isSome then some .map
  else if step.reduce.isSome then some .reduce
  else if !step.parallel.isEmpty then some .parallel
  else if step.saga.isSome then some .saga
  else none

/-- The kind of a compound step for `executeSubStep` and `executeDAGStep`, which look for a
`parallel` block before `map` and `reduce`. -/
def WorkflowStep.subKind (step : WorkflowStep) : Option CompoundKind :=
  if step.ifConfig.isSome then some .ifBranch
  else if step.loop.isSome then some .loop
  else if !step.parallel.isEmpty then some .parallel
  else if step.map.isSome then some .map
  else if step.reduce.isSome then some .reduce
  else if step.saga.isSome then some .saga
  else none

theorem WorkflowStep.isCompound_eq_false {step : WorkflowStep} (h : step.compoundKind = none) :
    step.isCompound = false := by
  unfold WorkflowStep.compoundKind at h
  split_ifs at h
  simp_all [WorkflowStep.isCompound]

/-- What a sequential run is given. -/
structure SeqConfig where
  world : World
  wf : WorkflowDef
  /-- The data that the first step receives. -/
  initialData : Str
  /-- The executors of compound steps, by kind, step, data and engine. They leave the outputs and
  variables of the engine as they are. -/
  compound : CompoundKind → WorkflowStep → Str → ExpressionEngine → Except Str Str

/-- What flows from step to step: the engine, and the data. -/
structure SeqState where
  engine : ExpressionEngine
  data : Str
  deriving DecidableEq

/-- How the node of a step is run, with its retries: by step, input and parameters. -/
abbrev NodeRun := WorkflowStep → Str → StringMap → Str × Option Str

/-- What one round of the loop comes to: the loop goes on, after saving a checkpoint or not; the
workflow fails; or it is paused, where the state is the one at that moment. -/
inductive Handled
  | next (s : SeqState) (saved : Bool)
  | failed (err : Str)
  | paused (s : SeqState) (err : Str)
  deriving DecidableEq

namespace SeqConfig

variable (c : SeqConfig)

/-- The state before the first step. -/
def initial : SeqState := ⟨newExpressionEngine.setVariables c.wf.vars, c.initialData⟩

/-! ## One round of the loop -/

variable (i : ℕ)

/-- The input of a step: the data, or what the `input:` override makes of it. -/
def stepInput (s : SeqState) : Except Str Str :=
  let step := c.wf.step i
  match resolveStepInput c.world s.engine step.input s.data with
  | .error err =>
    .error (str "step " ++ itoa i ++ str " (" ++ step.node ++ str ") input evaluation failed: " ++
      err)
  | .ok input => .ok input

/-- `handleStepFailure`, up to the checkpoint it saves. -/
def handleStepFailure (s : SeqState) (execErr : Str) : Handled :=
  let step := c.wf.step i
  if step.resumable then .paused s execErr
  else
    .failed (str "step " ++ itoa (i + 1) ++ str " (" ++ step.node ++ str ") failed: " ++ execErr)

def executeRegularStep (run : NodeRun) (i : ℕ) (input : Str) (e : ExpressionEngine) : Handled :=
  let step := c.wf.step i
  match e.evaluateParams c.world step.params input with
  | .error err => .failed (str "expression evaluation failed: " ++ err)
  | .ok params =>
    if (c.world.node step.node).isNone then
      .failed (str "node '" ++ step.node ++ str "' not found in registry")
    else
      match run step input params with
      | (output, none) => .next ⟨e.setStepOutput i step.name output, output⟩ true
      | (output, some execErr) =>
        let r := applyErrorRecovery c.world step output execErr e input
        let e := e.setStepOutput i step.name r.output
        match r.abortErr with
        | none => .next ⟨e, r.output⟩ true
        | some err => c.handleStepFailure i ⟨e, input⟩ err

/-- The data that flows on from a compound step. -/
def compoundData (kind : CompoundKind) (i : ℕ) (output : Str) : Str :=
  match kind with
  | .loop | .parallel => applyOutputStrategy output (c.wf.step i).outputStrategy
  | _ => output

/-- `handleCompoundStep`, for a step of the given kind. -/
def handleCompoundStep (kind : CompoundKind) (i : ℕ) (input : Str) (e : ExpressionEngine) :
    Handled :=
  let step := c.wf.step i
  match c.compound kind step input e with
  | .error err => .failed err
  | .ok output => .next ⟨e.setStepOutput i step.name output, c.compoundData kind i output⟩ true

/-- The rest of a round, once the input of the step is known. A skipped step stores its empty output
under the name of its node, passes on the data it found and saves no checkpoint. -/
def handleStep (run : NodeRun) (i : ℕ) (input : Str) (s : SeqState) : Handled :=
  let step := c.wf.step i
  match step.compoundKind with
  | some kind => c.handleCompoundStep kind i input s.engine
  | none =>
    match evaluateCondition c.world s.engine step.condition input with
    | .error err => .failed err
    | .ok false => .next ⟨s.engine.setStepOutput i step.node [], s.data⟩ false
    | .ok true => c.executeRegularStep run i input s.engine

theorem handleStep_of_simple {i : ℕ} (h : (c.wf.step i).compoundKind = none) (run : NodeRun)
    (input : Str) (s : SeqState) :
    c.handleStep run i input s =
      match evaluateCondition c.world s.engine (c.wf.step i).condition input with
      | .error err => .failed err
      | .ok false => .next ⟨s.engine.setStepOutput i (c.wf.step i).node [], s.data⟩ false
      | .ok true => c.executeRegularStep run i input s.engine := by
  simp only [handleStep, h]

/-! ## The loop -/

/-- How a run ends. -/
inductive Result
  | completed (output : Str)
  | failed (err : Str)
  | paused (err : Str)
  deriving DecidableEq

/-- A run of the loop: the inputs of the steps it came to, the states after the steps it completed,
and how it ended. -/
structure Execution where
  inputs : List Str
  states : List SeqState
  result : Result

/-- The run from a later step on. -/
def Execution.drop (x : Execution) (n : ℕ) : Execution :=
  { x with inputs := x.inputs.drop n, states := x.states.drop n }

/-- The output of the workflow, once the loop has ended. -/
def finish (s : SeqState) : Str :=
  if c.wf.output = [] then s.data
  else
    match s.engine.evaluate c.world c.wf.output s.data with
    | .error _ => s.data
    | .ok output => output

/-- The loop of `executeWorkflowSequential` over the given number of steps from step `i` on;
`shutdown` tells whether a shutdown is seen before a step, which ends the loop without an error. -/
def executeSteps (shutdown : ℕ → Bool) : ℕ → ℕ → SeqState → Execution
  | 0, _, s => ⟨[], [], .completed (c.finish s)⟩
  | left + 1, i, s =>
    if shutdown i then ⟨[], [], .completed (c.finish s)⟩
    else
      match c.stepInput i s with
      | .error err => ⟨[], [], .failed err⟩
      | .ok input =>
        match c.handleStep c.world.executeStep i input s with
        | .next s' _ =>
          let x := executeSteps shutdown left (i + 1) s'
          ⟨input :: x.inputs, s' :: x.states, x.result⟩
        | .failed err => ⟨[input], [], .failed err⟩
        | .paused _ err => ⟨[input], [], .paused err⟩

/-- The loop from step `i` on, undisturbed. -/
def executeFrom (s : SeqState) : Execution :=
  c.executeSteps (fun _ => false) (c.wf.steps.length - i) i s

/-! ## The states of an undisturbed run -/

/-- The state after step `i`, if the run goes on from it. -/
def nextState (s : SeqState) : Option SeqState :=
  match c.stepInput i s with
  | .error _ => none
  | .ok input =>
    match c.handleStep c.world.executeStep i input s with
    | .next s' _ => some s'
    | _ => none

/-- The state before step `i` of an undisturbed run, if it comes that far. -/
def stateAt : ℕ → Option SeqState
  | 0 => some c.initial
  | i + 1 => (stateAt i).bind (c.nextState i)

variable {c} {i : ℕ} {s s' u : SeqState}

theorem nextState_eq_some_iff :
    c.nextState i s = some s' ↔ ∃ input, c.stepInput i s = .ok input ∧
      ∃ saved, c.handleStep c.world.executeStep i input s = .next s' saved := by
  grind [nextState]

theorem executeFrom_of_nextState (hi : i < c.wf.steps.length) {input : Str}
    (hinput : c.stepInput i s = .ok input) (hnext : c.nextState i s = some s') :
    c.executeFrom i s =
      ⟨input :: (c.executeFrom (i + 1) s').inputs, s' :: (c.executeFrom (i + 1) s').states,
        (c.executeFrom (i + 1) s').result⟩ := by
  obtain ⟨input', hinput', saved, hhandle⟩ := nextState_eq_some_iff.mp hnext
  obtain rfl : input = input' := Except.ok.inj (hinput.symm.trans hinput')
  have hleft : c.wf.steps.length - i = (c.wf.steps.length - (i + 1)) + 1 := by omega
  rw [executeFrom, hleft, executeSteps]
  simp only [hinput, hhandle, Bool.false_eq_true, if_false]
  rfl

/-- From any state of an undisturbed run the loop goes on as the whole run does. -/
theorem executeFrom_stateAt (hi : i ≤ c.wf.steps.length) (hu : c.stateAt i = some u) :
    c.executeFrom i u = (c.executeFrom 0 c.initial).drop i := by
  induction i generalizing u with
  | zero =>
    cases hu
    rfl
  | succ i ih =>
    obtain ⟨t, ht, hnext⟩ := Option.bind_eq_some_iff.mp hu
    obtain ⟨input, hinput, -⟩ := nextState_eq_some_iff.mp hnext
    have hrest := ih (by omega) ht
    rw [executeFrom_of_nextState (by omega) hinput hnext] at hrest
    -- one step less is left of both runs
    have hdrop : ∀ x y : Execution, x = y.drop i →
        Execution.mk x.inputs.tail x.states.tail x.result = y.drop (i + 1) := by
      rintro _ y rfl
      simp [Execution.drop]
    exact hdrop _ _ hrest

/-- Where a run cannot be told apart by its next round, it cannot be told apart at all. -/
theorem executeFrom_congr (hi : i < c.wf.steps.length) (hinput : c.stepInput i s = c.stepInput i u)
    (hhandle : ∀ input, c.stepInput i u = .ok input →
      c.handleStep c.world.executeStep i input s = c.handleStep c.world.executeStep i input u) :
    c.executeFrom i s = c.executeFrom i u := by
  have hleft : c.wf.steps.length - i = (c.wf.steps.length - (i + 1)) + 1 := by omega
  rw [executeFrom, executeFrom, hleft, executeSteps, executeSteps]
  simp only [Bool.false_eq_true, if_false, hinput]
  cases hu : c.stepInput i u with
  | error err => rfl
  | ok input => simp only [hhandle input hu]

end SeqConfig

/-! ## Skipped steps -/

namespace ExpressionEngine

/-- A reference reads what is stored for the step `i` under a name: by the index, by the name, or by
one of the two keys as it stands, where the references that are tried before find nothing. -/
def Reads (e : ExpressionEngine) (i : ℕ) (name ref : Str) : Prop :=
  ref = itoa i ∨ e.stepOutputs[str "idx:" ++ ref]? = none ∧
    (storesName name = true ∧ ref = name ∨ e.stepOutputs[nameKey ref]? = none ∧
      (ref = idxKey i ∨ storesName name = true ∧ ref = nameKey name))
  deriving Decidable

/-- A new output is seen by the references that read its step, and by no other. -/
theorem evalStepRef_setStepOutput (e : ExpressionEngine) (i : ℕ) (name output ref : Str) :
    (e.setStepOutput i name output).evalStepRef ref =
      if e.Reads i name ref then .ok output else e.evalStepRef ref := by
  have hidx : (str "idx:" ++ ref = idxKey i ∨
      storesName name = true ∧ str "idx:" ++ ref = nameKey name) ↔ ref = itoa i := by
    have hne : str "idx:" ++ ref ≠ nameKey name := by
      simp [nameKey, str, String.utf8EncodeChar]
    simp [hne, idxKey]
  have hname : (nameKey ref = idxKey i ∨ storesName name = true ∧ nameKey ref = nameKey name) ↔
      storesName name = true ∧ ref = name := by
    simp [(idxKey_ne_nameKey i ref).symm, nameKey_injective.eq_iff]
  simp only [evalStepRef, getElem?_setStepOutput, hidx, hname, Reads]
  -- the three keys are tried in turn
  by_cases hthis : ref = itoa i
  · simp [hthis]
  rcases Option.eq_none_or_eq_some e.stepOutputs[str "idx:" ++ ref]? with hfirst | ⟨value, hfirst⟩
  · by_cases hstored : storesName name = true ∧ ref = name
    · obtain ⟨hstores, rfl⟩ := hstored
      simp [hthis, hfirst, hstores]
    rcases Option.eq_none_or_eq_some e.stepOutputs[nameKey ref]? with hsecond | ⟨value, hsecond⟩
    · by_cases hraw : ref = idxKey i ∨ storesName name = true ∧ ref = nameKey name
      · simp [hthis, hfirst, hstored, hsecond, hraw]
      · simp [hthis, hfirst, hstored, hsecond, hraw]
    · simp [hthis, hfirst, hstored, hsecond]
  · simp [hthis, hfirst]

end ExpressionEngine

/-- A reference means the step `i` with a name: by its index or its name, or by the key of one of
them. -/
def Means (i : ℕ) (name ref : Str) : Prop :=
  ref = itoa i ∨ ref = name ∨ ref = idxKey i ∨ ref = nameKey name

/-- What a skip stores under the node of the step is local to the step: the name of the step reads
it, or gave an empty output anyway, and so did every other reference that reads it. -/
def SkipLocal (e : ExpressionEngine) (i : ℕ) (step : WorkflowStep) : Prop :=
  (e.Reads i step.node step.name ∨ e.evalStepRef step.name = .ok []) ∧
    ∀ ref, e.Reads i step.node ref → ¬ Means i step.name ref → e.evalStepRef ref = .ok []

namespace SeqConfig

variable {c : SeqConfig} {i : ℕ} {s s' : SeqState} {input : Str} {saved : Bool}

/-- A skipped step gives the empty output under its name, and changes no reference that means no
output of it, exactly if what it stores under the name of its node is local. -/
theorem skip_local_iff (hkind : (c.wf.step i).compoundKind = none)
    (hskip : evaluateCondition c.world s.engine (c.wf.step i).condition input = .ok false)
    (hnext : c.handleStep c.world.executeStep i input s = .next s' saved) :
    (s'.engine.evalStepRef (c.wf.step i).name = .ok [] ∧
        ∀ ref, ¬ Means i (c.wf.step i).name ref →
          s'.engine.evalStepRef ref = s.engine.evalStepRef ref) ↔
      SkipLocal s.engine i (c.wf.step i) := by
  rw [handleStep_of_simple c hkind, hskip] at hnext
  obtain ⟨rfl, -⟩ := Handled.next.inj hnext
  simp only [ExpressionEngine.evalStepRef_setStepOutput, SkipLocal]
  refine and_congr ?_ (forall_congr' fun ref => ?_)
  · by_cases hreads : s.engine.Reads i (c.wf.step i).node (c.wf.step i).name <;> simp [hreads]
  · by_cases hreads : s.engine.Reads i (c.wf.step i).node ref <;> simp [hreads, eq_comm]

end SeqConfig

/-- A step of which the condition fails. -/
def neverStep (name node : String) : WorkflowStep :=
  { name := str name, node := str node, condition := str "contains:never" }

/-- A workflow of these steps, whose nodes give their input. -/
def skipConfig (steps : List WorkflowStep) : SeqConfig where
  world := nodeWorld
  wf := ⟨[], ∅, steps, []⟩
  initialData := str "data"
  compound _ _ _ _ := .error []

/-- After a step `fetch`, the step that is skipped has the name of its node; `fetch` is kept. -/
theorem skip_local_check :
    let c := skipConfig [{ name := str "fetch", node := str "http" }, neverStep "check" "check"]
    ∃ s s', c.stateAt 1 = some s ∧ s.engine.evalStepRef (str "fetch") = .ok (str "data") ∧
      c.handleStep c.world.executeStep 1 s.data s = .next s' false ∧
      s'.engine.evalStepRef (str "check") = .ok [] ∧
      ∀ ref, ¬ Means 1 (str "check") ref →
        s'.engine.evalStepRef ref = s.engine.evalStepRef ref := by
  intro c
  have hkind : (c.wf.step 1).compoundKind = none := rfl
  obtain ⟨s, hs, hfetch, hskip, hreads⟩ : ∃ s ∈ c.stateAt 1,
      s.engine.evalStepRef (str "fetch") = .ok (str "data") ∧
        evaluateCondition c.world s.engine (c.wf.step 1).condition s.data = .ok false ∧
        s.engine.Reads 1 (str "check") (str "check") := by decide
  have hnext := c.handleStep_of_simple hkind c.world.executeStep s.data s
  rw [hskip] at hnext
  refine ⟨s, _, hs, hfetch, hnext, (SeqConfig.skip_local_iff hkind hskip hnext).mpr
    ⟨.inl hreads, fun ref hreads hnot => absurd ?_ hnot⟩⟩
  rcases hreads with h | ⟨-, ⟨-, h⟩ | ⟨-, h | ⟨-, h⟩⟩⟩
  · exact .inl h
  · exact .inr (.inl h)
  · exact .inr (.inr (.inl h))
  · exact .inr (.inr (.inr h))

/-- After a step `fetch`, a step `check` with a node `fetch` is skipped. The output of `fetch` is
gone, and `check` is not known. -/
theorem not_skip_local :
    let c := skipConfig [{ name := str "fetch", node := str "http" }, neverStep "check" "fetch"]
    ((c.stateAt 1).map fun s => (s.engine.evalStepRef (str "fetch"),
        evaluateCondition c.world s.engine (c.wf.step 1).condition s.data)) =
        some (.ok (str "data"), .ok false) ∧
      ((c.stateAt 2).map fun s => (s.engine.evalStepRef (str "fetch"),
        s.engine.evalStepRef (str "check"))) =
        some (.ok [], .error (str "step reference not found: check")) := by
  decide

end Workflow
