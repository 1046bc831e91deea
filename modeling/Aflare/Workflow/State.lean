import Aflare.Workflow.Engine
import Aflare.Workflow.Types

/-!
# Persisted workflow state

The snapshot of a run that is written to a checkpoint file or derived from the write-ahead log, how
it is taken from the expression engine and how it is put back.
-/

namespace Workflow

open Go

structure WorkflowState where
  workflowName : Str
  stepIndex : ℤ
  data : Str
  /-- The outputs by step index; `none` is a nil map. -/
  stepOutputs : Option (GoMap ℤ Str)
  /-- The variables; `none` is a nil map. -/
  vars : StringMap
  savedAt : Time
  dagMode : Bool
  stepNames : List Str
  deriving DecidableEq

/-- The step index in a key of the engine's outputs, if it is a key by index. -/
def idxOfKey (key : Str) : Option ℤ :=
  if key.take 4 = str "idx:" then signedNat (key.drop 4) else none

/-- The outputs of the engine by step index. -/
def saveStepOutputs (outputs : GoMap Str Str) : GoMap ℤ Str :=
  GoMap.assignAll ∅ (outputs.toList.filterMap fun e => (idxOfKey e.1).map fun i => (i, e.2))

def saveCurrentState (wf : WorkflowDef) (stepIndex : ℤ) (data : Str) (e : ExpressionEngine)
    (now : Time) : WorkflowState where
  workflowName := wf.name
  stepIndex := stepIndex
  data := data
  stepOutputs := some (saveStepOutputs e.stepOutputs)
  vars := some e.vars
  savedAt := now
  dagMode := false
  stepNames := []

@[simp] theorem idxOfKey_idxKey (i : ℤ) : idxOfKey (idxKey i) = some i := by
  have htake : (str "idx:" ++ itoa i).take 4 = str "idx:" := List.take_left' rfl
  have hdrop : (str "idx:" ++ itoa i).drop 4 = itoa i := List.drop_left' rfl
  rw [idxOfKey, idxKey, htake, hdrop, if_pos rfl, signedNat_itoa]

@[simp] theorem idxOfKey_nameKey (name : Str) : idxOfKey (nameKey name) = none := by
  have hname : str "name:" = [110, 97, 109, 101, 58] := by decide
  have hidx : str "idx:" = [105, 100, 120, 58] := by decide
  simp [idxOfKey, nameKey, hname, hidx]

variable {e : ExpressionEngine}

namespace ExpressionEngine

/-- Every output of the engine is stored under an index or under a name. -/
def WellKeyed (e : ExpressionEngine) : Prop :=
  e.stepOutputs.Forall fun k _ => (∃ i, k = idxKey i) ∨ ∃ name, k = nameKey name

end ExpressionEngine

private theorem eq_idxKey_of_idxOfKey (h : e.WellKeyed) {k v : Str}
    (hk : e.stepOutputs[k]? = some v) {i : ℤ} (hi : idxOfKey k = some i) : k = idxKey i := by
  rcases h k v hk with ⟨j, rfl⟩ | ⟨name, rfl⟩
  · rw [idxOfKey_idxKey] at hi
    rw [Option.some.inj hi]
  · rw [idxOfKey_nameKey] at hi
    cases hi

/-- A snapshot holds exactly the outputs that the engine has by index. -/
theorem getElem?_saveStepOutputs (h : e.WellKeyed) (i : ℤ) :
    (saveStepOutputs e.stepOutputs)[i]? = e.stepOutputs[idxKey i]? := by
  let entries := e.stepOutputs.toList.filterMap fun en => (idxOfKey en.1).map fun i => (i, en.2)
  have hmem (j : ℤ) (v : Str) : (j, v) ∈ entries ↔ e.stepOutputs[idxKey j]? = some v := by
    simp only [entries, List.mem_filterMap, Option.map_eq_some_iff, Prod.mk.injEq]
    constructor
    · rintro ⟨⟨k, w⟩, hkw, j', hj', rfl, rfl⟩
      have hget := Std.ExtTreeMap.mem_toList_iff_getElem?_eq_some.mp hkw
      rw [← eq_idxKey_of_idxOfKey h hget hj']
      exact hget
    · intro hget
      exact ⟨(idxKey j, v), Std.ExtTreeMap.mem_toList_iff_getElem?_eq_some.mpr hget, j, by simp⟩
  cases hget : e.stepOutputs[idxKey i]? with
  | some v =>
    refine GoMap.getElem?_assignAll_of_mem ((hmem i v).mpr hget) fun w hw => ?_
    rw [(hmem i w).mp hw] at hget
    exact Option.some.inj hget
  | none =>
    have hnot : i ∉ entries.map Prod.fst := by
      intro hi
      obtain ⟨⟨j, v⟩, hjv, rfl⟩ := List.mem_map.mp hi
      rw [(hmem j v).mp hjv] at hget
      cases hget
    rw [saveStepOutputs, GoMap.getElem?_assignAll_of_notMem hnot]
    simp

end Workflow
