import Aflare.Workflow.Expression

/-!
# Recovery from a failed step

A step that failed is tried to be recovered by its `capture_error` branch, its fallback value, its
`on_error` handler and `continue_on_error`, in that order. The last one lets the workflow go on but
keeps the error.
-/

namespace Workflow

open Go Option

inductive Recovery
  | captureError
  | fallback
  | onError
  | continueOnError
  deriving DecidableEq

/-- The outcome of a recovery: the output, the error that stops the workflow, the error that is
recorded for the step, and the means that applied. -/
structure Recovered where
  output : Str
  abortErr : Option Str
  traceErr : Option Str
  recoveries : List Recovery
  deriving DecidableEq

variable (w : World)

/-- The output of the `capture_error` branch. -/
def captureOutput (step : WorkflowStep) (execErr : Str) (e : ExpressionEngine) : Option Str :=
  if step.captureError.isEmpty then none
  else (w.captureErrorBranch step.captureError execErr e.vars).toOption

def fallbackOutput (step : WorkflowStep) (e : ExpressionEngine) (input : Str) : Option Str :=
  if step.fallback = [] then none else (e.evaluate w step.fallback input).toOption

/-- The output of the `on_error` handler. -/
def onErrorOutput (step : WorkflowStep) (e : ExpressionEngine) (input : Str) : Option Str := do
  let handler ← step.onError
  let params ← (e.evaluateParams w handler.params input).toOption
  let execute ← w.node handler.node
  match execute input params with
  | (output, none) => some output
  | (_, some _) => none

/-- `applyErrorRecovery`, for a step that gave `output` and failed with `execErr`. -/
def applyErrorRecovery (step : WorkflowStep) (output execErr : Str)
    (e : ExpressionEngine) (input : Str) : Recovered :=
  match captureOutput w step execErr e with
  | some out => ⟨out, none, none, [.captureError]⟩
  | none =>
    match fallbackOutput w step e input with
    | some out => ⟨out, none, none, [.fallback]⟩
    | none =>
      match onErrorOutput w step e input with
      | some out => ⟨out, none, none, [.onError]⟩
      | none =>
        if step.continueOnError then ⟨[], none, some execErr, [.continueOnError]⟩
        else ⟨output, some execErr, some execErr, []⟩

/-- The step references that the recovery of a step can read. -/
def recoveryRefs (step : WorkflowStep) : List Str :=
  templateRefs step.fallback ++ (step.onError.elim [] fun h => ExpressionEngine.paramsRefs h.params)

variable {step : WorkflowStep} {input : Str} {e : ExpressionEngine} {w : World}
variable {output execErr : Str}

/-- Recovery depends on the engine only through its references. -/
theorem applyErrorRecovery_congr {e' : ExpressionEngine}
    (h : ExpressionEngine.AgreeOn (recoveryRefs step) e e') :
    applyErrorRecovery w step output execErr e input =
      applyErrorRecovery w step output execErr e' input := by
  have hcapture : captureOutput w step execErr e = captureOutput w step execErr e' := by
    simp only [captureOutput, h.vars]
  have hfallback : fallbackOutput w step e input = fallbackOutput w step e' input := by
    have heval : e.evaluate w step.fallback input = e'.evaluate w step.fallback input :=
      ExpressionEngine.evaluate_congr (h.mono (List.subset_append_left _ _)) fun _ => rfl
    simp only [fallbackOutput, heval]
  have honError : onErrorOutput w step e input = onErrorOutput w step e' input := by
    unfold onErrorOutput
    cases hhandler : step.onError with
    | none => rfl
    | some handler =>
      have hparams : e.evaluateParams w handler.params input =
          e'.evaluateParams w handler.params input := by
        apply ExpressionEngine.evaluateParams_congr
        apply h.mono
        intro ref href
        simp only [recoveryRefs, hhandler, elim_some, List.mem_append]
        exact .inr href
      simp only [bind_eq_bind, bind_some, hparams]
  simp only [applyErrorRecovery, hcapture, hfallback, honError]

theorem applyErrorRecovery_withOrder (order : RangeOrder) :
    applyErrorRecovery (w.withOrder order) step output execErr e input =
      applyErrorRecovery w step output execErr e input := by
  have honError : onErrorOutput (w.withOrder order) step e input =
      onErrorOutput w step e input := by
    unfold onErrorOutput
    cases step.onError with
    | none => rfl
    | some handler =>
      simp only [bind_eq_bind, bind_some, ExpressionEngine.evaluateParams_withOrder]
      rfl
  unfold applyErrorRecovery
  rw [honError]
  rfl

theorem applyErrorRecovery_abortErr
    (h : (applyErrorRecovery w step output execErr e input).traceErr = none) :
    (applyErrorRecovery w step output execErr e input).abortErr = none := by
  unfold applyErrorRecovery at h ⊢
  repeat' split
  all_goals simp_all

theorem applyErrorRecovery_traceErr (hstep : step.continueOnError = false)
    (h : (applyErrorRecovery w step output execErr e input).abortErr = none) :
    (applyErrorRecovery w step output execErr e input).traceErr = none := by
  unfold applyErrorRecovery at h ⊢
  repeat' split
  all_goals simp_all

end Workflow
