import Aflare.Workflow.State

/-!
# Checkpoint files

A checkpoint is the indented JSON text of a workflow state. It is written atomically, so that the
file holds the last state that was written or none, and it is refused on loading when it is larger
than a workflow file may be.
-/

namespace Go

open List

/-- Decode an array of strings. -/
def decodeStrings (_cur : List Str) : Value → Option (List Str)
  | .null => some []
  | .arr xs => xs.mapM (decodeString [])
  | _ => none

/-- The JSON form of a list of strings. -/
def stringsJson (l : List Str) : Value := .arr (l.map .str)

variable (l : List Str)

private theorem coerceElems_strings : Value.coerceElems (l.map .str) = (l.map coerce).map .str := by
  induction l with
  | nil => rfl
  | cons s l ih => rw [map_cons, Value.coerceElems, ih]; rfl

theorem decodeStrings_stringsJson (cur l : List Str) :
    decodeStrings cur (stringsJson l).coerce = some (l.map coerce) := by
  rw [stringsJson, Value.coerce, coerceElems_strings, decodeStrings]
  induction l with
  | nil => rfl
  | cons s l ih =>
    rw [map_cons, map_cons, mapM_cons, ih]
    rfl

private theorem depthElems_strings : Value.depthElems (l.map .str) = 0 := by
  induction l with
  | nil => rfl
  | cons s l ih => simp [Value.depthElems, Value.depth, ih]

@[simp] theorem shallow_stringsJson : (stringsJson l).Shallow := by
  constructor
  · apply Value.wellFormedElems_iff.mpr
    intro v hv
    obtain ⟨s, -, rfl⟩ := mem_map.mp hv
    trivial
  · simp [stringsJson, Value.depth, depthElems_strings]

end Go

namespace Workflow

open Go

variable (s : WorkflowState)

namespace WorkflowState

def zero : WorkflowState where
  workflowName := []
  stepIndex := 0
  data := []
  stepOutputs := none
  vars := none
  savedAt := Time.zero
  dagMode := false
  stepNames := []

/-- The members of the JSON object of a state; `dag_mode` is left out when it is false, and
`step_names` when there are none. -/
def members (s : WorkflowState) : List (Str × Value) :=
  [(str "workflow_name", .str s.workflowName),
    (str "step_index", .num (itoa s.stepIndex)),
    (str "data", .str s.data),
    (str "step_outputs", intMapJson s.stepOutputs),
    (str "variables", stringMapJson s.vars),
    (str "saved_at", .str s.savedAt.text)] ++
  ((if s.dagMode then [(str "dag_mode", .bool true)] else []) ++
    if s.stepNames = [] then [] else [(str "step_names", stringsJson s.stepNames)])

def fields : List (StructField WorkflowState) :=
  [.of (str "workflow_name") workflowName (fun s x => { s with workflowName := x }) decodeString,
    .of (str "step_index") stepIndex (fun s x => { s with stepIndex := x }) decodeInt,
    .of (str "data") data (fun s x => { s with data := x }) decodeString,
    .of (str "step_outputs") stepOutputs (fun s x => { s with stepOutputs := x })
      (decodeMap signedNat),
    .of (str "variables") vars (fun s x => { s with vars := x }) (decodeMap some),
    .of (str "saved_at") savedAt (fun s x => { s with savedAt := x }) decodeTime,
    .of (str "dag_mode") dagMode (fun s x => { s with dagMode := x }) decodeBool,
    .of (str "step_names") stepNames (fun s x => { s with stepNames := x }) decodeStrings]

def marshalIndent (s : WorkflowState) : Str := (Value.obj s.members).marshalIndent

def unmarshal (bytes : Str) : Option WorkflowState :=
  (Value.parse bytes).bind (decodeStruct fields zero)

/-- A state after a round trip through JSON: every text is coerced to valid UTF-8. -/
def clean (s : WorkflowState) : WorkflowState :=
  { s with
    workflowName := coerce s.workflowName
    data := coerce s.data
    stepOutputs := s.stepOutputs.map cleanIntMap
    vars := s.vars.map cleanStringMap
    stepNames := s.stepNames.map coerce }

private theorem shallow_state : ∀ m ∈ s.members, m.2.Shallow := by
  simp only [members, List.forall_mem_append, List.forall_mem_cons]
  simp

private theorem decode_state :
    decodeMembers fields zero (Value.coerceMembers s.members) = some s.clean := by
  have houts := decodeMap_intMapJson none s.stepOutputs rfl
  have hvars := decodeMap_stringMapJson none s.vars rfl
  simp only [members, coerceMembers_append, Value.coerceMembers, List.cons_append, List.nil_append]
  -- each member of the object fills its own field, in the order of the fields
  refine (decodeMembers_cons rfl rfl _).trans ?_
  refine (decodeMembers_cons rfl (decodeInt_itoa 0 s.stepIndex) _).trans ?_
  refine (decodeMembers_cons rfl rfl _).trans ?_
  refine (decodeMembers_cons rfl houts _).trans ?_
  refine (decodeMembers_cons rfl hvars _).trans ?_
  refine (decodeMembers_cons rfl (decodeTime_coerce _ _) _).trans ?_
  rw [← ite_not, ← List.append_nil (Value.coerceMembers (if s.stepNames = [] then _ else _))]
  refine (decodeMembers_optional rfl (x := s.dagMode) (fun h => ?_) (fun h => ?_) _).trans ?_
  · simp only [Bool.not_eq_true] at h
    rw [h]
    rfl
  · rw [not_not.mp h]
    rfl
  refine (decodeMembers_optional rfl (x := s.stepNames.map coerce) (fun h => ?_)
    (fun _ => decodeStrings_stringsJson _ _) _).trans ?_
  · simp only [h, List.map_nil]
    rfl
  · rfl

theorem unmarshal_marshalIndent : unmarshal s.marshalIndent = some s.clean := by
  rw [unmarshal, marshalIndent, Value.marshalIndent,
    Value.parse_render_obj .indented (shallow_state s), Option.bind_some]
  exact decode_state s

end WorkflowState

/-- The size limit of checkpoint files. -/
def maxFileSize : ℕ := 10 * 1024 * 1024

/-- Why a checkpoint is not loaded. -/
inductive LoadError
  | missing
  | tooLarge
  | corrupt
  deriving DecidableEq

/-- `loadCheckpoint` on the content of the file, if there is one. -/
def loadCheckpoint (file : Option Str) : Except LoadError WorkflowState :=
  match file with
  | none => .error .missing
  | some bytes =>
    if bytes.length > maxFileSize then .error .tooLarge
    else
      match WorkflowState.unmarshal bytes with
      | none => .error .corrupt
      | some state => .ok state

theorem loadCheckpoint_marshalIndent :
    loadCheckpoint (some s.marshalIndent) =
      if s.marshalIndent.length > maxFileSize then .error .tooLarge else .ok s.clean := by
  simp only [loadCheckpoint, WorkflowState.unmarshal_marshalIndent]

end Workflow
