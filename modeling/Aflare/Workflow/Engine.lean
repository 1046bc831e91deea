import Aflare.Go.Encoding

/-!
# The state of the expression engine

Step outputs are kept in one string-keyed map, under `idx:N` for the index of the step and under
`name:S` for its name. A name that reads as a number is not stored, since `{{step.3}}` means the
step with that index.
-/

namespace Workflow

open Go

/-- The maps an expression is evaluated against. -/
structure ExpressionEngine where
  stepOutputs : GoMap Str Str
  vars : GoMap Str Str
  /-- The loop context; `none` outside of loops. -/
  loopVars : StringMap
  deriving DecidableEq

def newExpressionEngine : ExpressionEngine where
  stepOutputs := ∅
  vars := ∅
  loopVars := none

/-- The key of a step output by index. -/
def idxKey (i : ℤ) : Str := str "idx:" ++ itoa i

/-- The key of a step output by name. -/
def nameKey (name : Str) : Str := str "name:" ++ name

/-- Whether outputs are stored under a name: it is not empty and does not read as a number. -/
def storesName (name : Str) : Bool := name ≠ [] && (atoi name).isNone

theorem idxKey_injective : Function.Injective idxKey := fun _ _ h =>
  itoa_injective (List.append_cancel_left h)

theorem nameKey_injective : Function.Injective nameKey := fun _ _ h => List.append_cancel_left h

theorem idxKey_ne_nameKey (i : ℤ) (name : Str) : idxKey i ≠ nameKey name := by
  have hidx : str "idx:" = [105, 100, 120, 58] := by decide
  have hname : str "name:" = [110, 97, 109, 101, 58] := by decide
  intro h
  simp [idxKey, nameKey, hidx, hname] at h

namespace ExpressionEngine

variable (e : ExpressionEngine)

/-- Record the output of a step, by index and, where the name allows it, by name. -/
def setStepOutput (i : ℤ) (name output : Str) : ExpressionEngine :=
  let outputs := e.stepOutputs.insert (idxKey i) output
  { e with
    stepOutputs := if storesName name then outputs.insert (nameKey name) output else outputs }

def setVariable (name value : Str) : ExpressionEngine := { e with vars := e.vars.insert name value }

/-- Set the variables of a map, one by one. -/
def setVariables (vars : GoMap Str Str) : ExpressionEngine :=
  { e with vars := GoMap.assignAll e.vars vars.toList }

variable (e : ExpressionEngine)

theorem getElem?_setStepOutput (i : ℤ) (name output key : Str) :
    (e.setStepOutput i name output).stepOutputs[key]? =
      if key = idxKey i ∨ storesName name = true ∧ key = nameKey name then some output
      else e.stepOutputs[key]? := by
  simp only [setStepOutput]
  split <;> rename_i hstores
  · rw [Std.ExtTreeMap.getElem?_insert, Std.ExtTreeMap.getElem?_insert]
    grind [Std.LawfulEqOrd.compare_eq_iff_eq]
  · rw [Std.ExtTreeMap.getElem?_insert]
    grind [Std.LawfulEqOrd.compare_eq_iff_eq]

theorem getElem?_setStepOutput_idx (i j : ℤ) (name output : Str) :
    (e.setStepOutput i name output).stepOutputs[idxKey j]? =
      if i = j then some output else e.stepOutputs[idxKey j]? := by
  simp [getElem?_setStepOutput, idxKey_ne_nameKey, idxKey_injective.eq_iff, @eq_comm _ j i]

/-- An output takes the place of an earlier one of the same step. -/
theorem setStepOutput_setStepOutput (i : ℤ) (name a b : Str) :
    (e.setStepOutput i name a).setStepOutput i name b = e.setStepOutput i name b := by
  have houts : ((e.setStepOutput i name a).setStepOutput i name b).stepOutputs =
      (e.setStepOutput i name b).stepOutputs := by
    apply Std.ExtTreeMap.ext_getElem?
    intro key
    simp only [getElem?_setStepOutput]
    split_ifs <;> rfl
  exact congrArg (fun o => { e with stepOutputs := o }) houts

end ExpressionEngine

end Workflow
