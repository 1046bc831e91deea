import Aflare.Workflow.Sequential

/-!
# Sagas

A saga runs its forward steps in order and hands the output of each to the next. When one fails, the
steps that undo the earlier ones are run from the last to the first; one that fails itself does not
stop the others.

Each sub-step runs in a world of its own, so that a node may answer differently each time it is
called.
-/

namespace Workflow

open Go List

/-! ## Sub-steps -/

/-- What a node gave, after its retries. -/
structure NodeAnswer where
  output : Str
  err : Option Str
  deriving DecidableEq

/-- What a sub-step returns, with the answer of its node; `none` if no node was called. -/
structure SubOutcome where
  results : List StepResult
  output : Str
  err : Option Str
  called : Option NodeAnswer

/-- What a sub-step is run in. -/
structure SubEnv where
  world : World
  /-- The executors of compound steps, by kind, index, step, input and engine. -/
  compound : CompoundKind → ℕ → WorkflowStep → Str → ExpressionEngine → SubOutcome

/-- A sub-step that returns before its node is called. -/
def SubOutcome.early (err : Option Str) : SubOutcome := ⟨[], [], err, none⟩

/-- A sub-step whose node was called. -/
def callNode (w : World) (baseIdx : ℕ) (step : WorkflowStep) (input : Str)
    (params : StringMap) (e : ExpressionEngine) : SubOutcome :=
  match w.executeStep step input params with
  | (output, none) =>
    ⟨[⟨baseIdx, step.node, input, output, none⟩], output, none, some ⟨output, none⟩⟩
  | (output, some execErr) =>
    let r := applyErrorRecovery w step output execErr e input
    let sr : StepResult := ⟨baseIdx, step.node, input, r.output, r.traceErr⟩
    match r.abortErr with
    | none => ⟨[sr], r.output, none, some ⟨output, some execErr⟩⟩
    | some err =>
      ⟨[sr], [], some (str "sub-step node '" ++ step.node ++ str "' failed: " ++ err),
        some ⟨output, some execErr⟩⟩

/-- `executeSubStep`. The engine is not used after it. -/
def executeSubStep (env : SubEnv) (baseIdx : ℕ) (step : WorkflowStep) (input : Str)
    (e : ExpressionEngine) : SubOutcome :=
  match step.subKind with
  | some kind => env.compound kind baseIdx step input e
  | none =>
    match resolveStepInput env.world e step.input input with
    | .error err => .early (some (str "sub-step input eval failed: " ++ err))
    | .ok input =>
      match evaluateCondition env.world e step.condition input with
      | .error err => .early (some (str "sub-step condition failed: " ++ err))
      | .ok false => .early none
      | .ok true =>
        match e.evaluateParams env.world step.params input with
        | .error err => .early (some (str "sub-step param eval failed: " ++ err))
        | .ok params =>
          if (env.world.node step.node).isNone then
            .early (some (str "node '" ++ step.node ++ str "' not found in registry"))
          else callNode env.world baseIdx step input params e

/-! ## Sagas -/

/-- The two kinds of sub-steps of a saga. -/
inductive SagaPhase
  | forward
  | compensate
  deriving DecidableEq

/-- The start of a sub-step of a saga: the position it belongs to, its input and its engine. -/
structure SagaCall where
  phase : SagaPhase
  idx : ℕ
  step : WorkflowStep
  input : Str
  engine : ExpressionEngine

/-- A sub-step of a saga that was run. -/
structure SagaEvent where
  call : SagaCall
  outcome : SubOutcome

structure SagaCompletedStep where
  idx : ℕ
  output : Str

/-- A saga: its steps, its place in the workflow, the variables of the workflow, and what each of
its sub-steps is run in. -/
structure Saga where
  steps : List (SagaStep WorkflowStep)
  stepIndex : ℕ
  parentVars : GoMap Str Str
  env : SagaPhase → ℕ → SubEnv

/-- What `executeSagaStep` returns, with the sub-steps that were run. -/
structure SagaRun where
  events : List SagaEvent
  output : Str
  err : Option Str

namespace Saga

variable (sg : Saga)

def perform (call : SagaCall) : SagaEvent where
  call := call
  outcome := executeSubStep (sg.env call.phase call.idx) (sg.stepIndex * maxParallel + call.idx)
    call.step call.input call.engine

def forwardEngine : ExpressionEngine := newExpressionEngine.setVariables sg.parentVars

def compensateEngine (triggerErr : Str) : ExpressionEngine :=
  sg.forwardEngine.setVariable (str "error") triggerErr

/-- The compensating step of a completed one, if it has one. -/
def compensation (triggerErr : Str) (done : SagaCompletedStep) : Option SagaCall :=
  (sg.steps[done.idx]?.bind (·.compensate)).map fun step =>
    ⟨.compensate, done.idx, step, done.output, sg.compensateEngine triggerErr⟩

/-- The loop of `compensateSaga` over the completed steps, the last one first. What a compensating
step returns is only logged. -/
def compensateSaga (triggerErr : Str) : List SagaCompletedStep → List SagaEvent
  | [] => []
  | done :: earlier =>
    match sg.compensation triggerErr done with
    | none => compensateSaga triggerErr earlier
    | some call => sg.perform call :: compensateSaga triggerErr earlier

/-- The loop of `executeSagaStep` over the given steps; `completed` has the latest one last. -/
def forwardLoop (data : Str) (completed : List SagaCompletedStep) :
    List (SagaStep WorkflowStep × ℕ) → SagaRun
  | [] => ⟨[], data, none⟩
  | (sgStep, idx) :: rest =>
    let ev := sg.perform ⟨.forward, idx, sgStep.forward, data, sg.forwardEngine⟩
    match ev.outcome.err with
    | some fwdErr =>
      ⟨ev :: sg.compensateSaga fwdErr completed.reverse,
        (completed.getLast?.map (·.output)).getD [],
        some (str "saga forward step " ++ itoa idx ++ str " failed: " ++ fwdErr)⟩
    | none =>
      let run := forwardLoop ev.outcome.output (completed ++ [⟨idx, ev.outcome.output⟩]) rest
      ⟨ev :: run.events, run.output, run.err⟩

def executeSagaStep (input : Str) : SagaRun := sg.forwardLoop input [] sg.steps.zipIdx

/-- The event is the run of the forward step with an index. -/
def IsForward (i : ℕ) (ev : SagaEvent) : Prop :=
  ∃ sgStep data, sg.steps[i]? = some sgStep ∧
    ev = sg.perform ⟨.forward, i, sgStep.forward, data, sg.forwardEngine⟩

/-- The events are the runs of the first forward steps, all of which returned without an error. -/
def Succeeded (done : List SagaEvent) : Prop :=
  ∀ (i : ℕ) ev, done[i]? = some ev → sg.IsForward i ev ∧ ev.outcome.err = none

end Saga

/-- What is kept of a forward step that returned. -/
def SagaEvent.completed (ev : SagaEvent) : SagaCompletedStep := ⟨ev.call.idx, ev.outcome.output⟩

namespace Saga

variable {sg : Saga}

theorem compensateSaga_eq (triggerErr : Str) (l : List SagaCompletedStep) :
    sg.compensateSaga triggerErr l = (l.filterMap (sg.compensation triggerErr)).map sg.perform := by
  induction l with
  | nil => rfl
  | cons done earlier ih =>
    rw [compensateSaga]
    cases h : sg.compensation triggerErr done with
    | none => rw [ih, filterMap_cons_none h]
    | some call => rw [ih, filterMap_cons_some h, map_cons]

variable {done : List SagaEvent}

theorem Succeeded.snoc {ev : SagaEvent} (h : sg.Succeeded done) (hfwd : sg.IsForward done.length ev)
    (herr : ev.outcome.err = none) : sg.Succeeded (done ++ [ev]) := by
  intro i ev' hi
  rcases Nat.lt_or_ge i done.length with hlt | hge
  · rw [getElem?_append_left hlt] at hi
    exact h i ev' hi
  · rw [getElem?_append_right hge] at hi
    obtain ⟨hzero, rfl⟩ : i - done.length = 0 ∧ ev = ev' := by
      simpa [getElem?_singleton] using hi
    obtain rfl : i = done.length := by omega
    exact ⟨hfwd, herr⟩

theorem Succeeded.length_le (h : sg.Succeeded done) : done.length ≤ sg.steps.length := by
  by_contra hlt
  push Not at hlt
  obtain ⟨⟨sgStep, data, hstep, -⟩, -⟩ := h sg.steps.length _ (getElem?_eq_getElem hlt)
  simp at hstep

/-- The loop, after some forward steps have returned: either the others do as well, or one of them
fails and all before it are compensated. -/
theorem forwardLoop_spec (hdone : sg.Succeeded done) (data : Str)
    {rest : List (SagaStep WorkflowStep × ℕ)} (hrest : sg.steps.zipIdx.drop done.length = rest) :
    let run := sg.forwardLoop data (done.map (·.completed)) rest
    (∃ more, run.events = more ∧ run.err = none ∧ sg.Succeeded (done ++ more) ∧
      sg.steps.length ≤ (done ++ more).length) ∨
    ∃ more failed triggerErr, sg.Succeeded (done ++ more) ∧
      sg.IsForward (done ++ more).length failed ∧ failed.outcome.err = some triggerErr ∧
      run.err = some (str "saga forward step " ++ itoa (done ++ more).length ++ str " failed: " ++
        triggerErr) ∧
      run.events = more ++ failed ::
        sg.compensateSaga triggerErr ((done ++ more).map (·.completed)).reverse := by
  induction rest generalizing done data with
  | nil =>
    have hlen : sg.steps.length ≤ done.length := by
      simpa using drop_eq_nil_iff.mp hrest
    exact .inl ⟨[], rfl, rfl, by simpa using hdone, by simpa using hlen⟩
  | cons s rest ih =>
    obtain ⟨sgStep, idx⟩ := s
    -- the next step of the loop is the one after the completed ones
    have hget : sg.steps.zipIdx[done.length]? = some (sgStep, idx) := by
      have hhead := congrArg List.head? hrest
      rwa [head?_drop] at hhead
    obtain ⟨hstep, rfl⟩ : sg.steps[done.length]? = some sgStep ∧ done.length = idx := by
      simpa [getElem?_zipIdx] using hget
    rw [forwardLoop]
    set ev := sg.perform ⟨.forward, done.length, sgStep.forward, data, sg.forwardEngine⟩ with hev
    have hfwd : sg.IsForward done.length ev := ⟨sgStep, data, hstep, hev⟩
    cases herr : ev.outcome.err with
    | some triggerErr =>
      refine .inr ⟨[], ev, triggerErr, ?_, ?_, herr, ?_, ?_⟩
      · simpa using hdone
      · simpa using hfwd
      · simp
      · simp
    | none =>
      have hrest' : sg.steps.zipIdx.drop (done ++ [ev]).length = rest := by
        rw [length_append, length_singleton, ← drop_drop, hrest]
        rfl
      have hcompleted : (done ++ [ev]).map (·.completed) =
          done.map (·.completed) ++ [⟨done.length, ev.outcome.output⟩] := by
        simp [SagaEvent.completed, hev, perform]
      have hnext := ih (hdone.snoc hfwd herr) ev.outcome.output hrest'
      simp only [hcompleted] at hnext
      rcases hnext with ⟨more, hevents, hnone, hall, hlen⟩ |
        ⟨more, failed, triggerErr, hall, hfail, hfailErr, hrunErr, hevents⟩
      · refine .inl ⟨ev :: more, ?_, ?_, ?_, ?_⟩
        · simp [hevents]
        · simpa using hnone
        · simpa using hall
        · simpa using hlen
      · refine .inr ⟨ev :: more, failed, triggerErr, ?_, ?_, hfailErr, ?_, ?_⟩
        · simpa using hall
        · simpa using hfail
        · simpa using hrunErr
        · simpa using hevents

/-- A saga either runs its forward steps to the end, all without an error, or stops at the first one
that fails. Then the compensating steps of all earlier forward steps are run in reverse order, each
with the output of its forward step as input and with the error in the variable `error`, whatever
the compensating steps return. -/
theorem saga_compensation (sg : Saga) (input : Str) : let run := sg.executeSagaStep input
    (run.err = none ∧ sg.Succeeded run.events ∧ run.events.length = sg.steps.length) ∨
    ∃ done failed triggerErr comp, run.events = done ++ failed :: comp ∧
      run.err =
        some (str "saga forward step " ++ itoa done.length ++ str " failed: " ++ triggerErr) ∧
      sg.Succeeded done ∧ sg.IsForward done.length failed ∧
      failed.outcome.err = some triggerErr ∧
      comp.map (·.call) = done.reverse.filterMap (fun ev =>
        (sg.steps[ev.call.idx]?.bind (·.compensate)).map fun step =>
          ⟨.compensate, ev.call.idx, step, ev.outcome.output, sg.compensateEngine triggerErr⟩) ∧
      ∀ ev ∈ comp, ev = sg.perform ev.call ∧
        ev.call.engine.vars[str "error"]? = some triggerErr := by
  have hempty : sg.Succeeded [] := by simp [Succeeded]
  rcases forwardLoop_spec hempty input rfl with
    ⟨events, hevents, herr, hall, hlen⟩ |
    ⟨done, failed, triggerErr, hall, hfail, hfailErr, herr, hevents⟩
  · subst hevents
    exact .inl ⟨herr, hall, Nat.le_antisymm hall.length_le hlen⟩
  · refine .inr ⟨done, failed, triggerErr, _, hevents, herr, hall, hfail, hfailErr, ?_, ?_⟩
    · have hcalls : (fun ev => ev.call) ∘ sg.perform = id := rfl
      rw [compensateSaga_eq, map_map, hcalls, map_id, nil_append, ← map_reverse, filterMap_map]
      rfl
    · intro ev hev
      rw [compensateSaga_eq, mem_map] at hev
      obtain ⟨call, hcall, rfl⟩ := hev
      obtain ⟨done, -, hdone⟩ := mem_filterMap.mp hcall
      obtain ⟨step, -, rfl⟩ := Option.map_eq_some_iff.mp hdone
      exact ⟨rfl, Std.ExtTreeMap.getElem?_insert_self⟩

end Saga

/-! ## Steps whose node did not succeed -/

/-- A world whose node `bad` fails and whose other nodes give their input. -/
def badNodeWorld : World :=
  { nodeWorld with
    executeStep := fun step input _ =>
      if step.node = str "bad" then ([], some (str "down")) else (input, none) }

/-- A saga of a step that has a compensation, and of a step that fails. -/
def twoStepSaga (first : WorkflowStep) : Saga where
  steps := [⟨first, some { node := str "undo" }⟩, ⟨{ node := str "bad" }, none⟩]
  stepIndex := 0
  parentVars := ∅
  env _ _ := ⟨badNodeWorld, fun _ _ _ _ _ => .early none⟩

/-- The sub-steps of a saga that were run, with what their nodes gave. -/
def SagaRun.calls (run : SagaRun) : List (SagaPhase × ℕ × Option NodeAnswer) :=
  run.events.map fun ev => (ev.call.phase, ev.call.idx, ev.outcome.called)

/-- A forward step that its condition skipped is compensated, and so is one whose node failed with
`continue_on_error`. -/
theorem not_compensates_only_succeeded :
    ((twoStepSaga { node := str "do", condition := str "false" }).executeSagaStep []).calls =
      [(.forward, 0, none), (.forward, 1, some ⟨[], some (str "down")⟩),
        (.compensate, 0, some ⟨[], none⟩)] ∧
    ((twoStepSaga { node := str "bad", continueOnError := true }).executeSagaStep []).calls =
      [(.forward, 0, some ⟨[], some (str "down")⟩), (.forward, 1, some ⟨[], some (str "down")⟩),
        (.compensate, 0, some ⟨[], none⟩)] := by
  constructor <;> decide

end Workflow
