import Aflare.Go.Encoding

/-!
# Workflows

The parsed form of a workflow file: a list of steps, each a call of a node or a compound step with
sub-steps of its own. A step may carry several compound parts at once; which one is run is decided
by the executors.
-/

namespace Workflow

open Go List

/-- The most branches of a `parallel` block, and the most iterations that a loop or a map runs at
one time. -/
def maxParallel : ℕ := 50

/-- A setting with a default for values that are not positive, and a cap. -/
def clampSetting (default cap : ℕ) (value : ℤ) : ℕ :=
  if value ≤ 0 then default else if cap < value then cap else value.toNat

/-- A step inside a `parallel` block, or an `on_error` handler: a single node call. -/
structure Step where
  node : Str
  params : StringMap
  condition : Str

/-- An if/else branch. -/
structure IfConfig (S : Type) where
  condition : Str
  thenSteps : List S
  elseSteps : List S

/-- A sub-workflow run once for each item of a list. -/
structure MapConfig (S : Type) where
  overExpr : Str
  steps : List S

/-- A left fold over a list by a sub-workflow. -/
structure ReduceConfig (S : Type) where
  overExpr : Str
  initialExpr : Str
  steps : List S

/-- A forward step of a saga and the step that undoes it. -/
structure SagaStep (S : Type) where
  forward : S
  compensate : Option S

/-- A sequence of forward steps with compensations. -/
structure SagaConfig (S : Type) where
  steps : List (SagaStep S)

/-- A node run once for each item of a list. -/
structure LoopConfig where
  items : Str
  splitBy : Str

/-- The fields of a step that do not hold sub-steps. -/
structure StepCore where
  node : Str
  name : Str := []
  params : StringMap := none
  condition : Str := []
  parallel : List Step := []
  continueOnError : Bool := false
  fallback : Str := []
  onError : Option Step := none
  loop : Option LoopConfig := none
  /-- The templates of an `input:` override; `none` when there is none. -/
  input : Option (List Str) := none
  dependsOn : List Str := []
  resumable : Bool := false
  /-- How the joined output of a loop or a parallel block is reduced to the data that flows on. -/
  outputStrategy : Str := []

/-- A step of a workflow. -/
structure WorkflowStep extends StepCore where
  ifConfig : Option (IfConfig WorkflowStep) := none
  map : Option (MapConfig WorkflowStep) := none
  reduce : Option (ReduceConfig WorkflowStep) := none
  saga : Option (SagaConfig WorkflowStep) := none
  captureError : List WorkflowStep := []

/-! ## Induction on steps -/

def ifSteps : Option (IfConfig WorkflowStep) → List WorkflowStep
  | none => []
  | some c => c.thenSteps ++ c.elseSteps

def mapSteps : Option (MapConfig WorkflowStep) → List WorkflowStep
  | none => []
  | some c => c.steps

def reduceSteps : Option (ReduceConfig WorkflowStep) → List WorkflowStep
  | none => []
  | some c => c.steps

/-- A step of a saga and the one that undoes it. -/
def SagaStep.steps (s : SagaStep WorkflowStep) : List WorkflowStep :=
  s.forward :: s.compensate.toList

def sagaSteps : Option (SagaConfig WorkflowStep) → List WorkflowStep
  | none => []
  | some c => c.steps.flatMap SagaStep.steps

/-- The steps directly inside a step. -/
def WorkflowStep.subSteps (step : WorkflowStep) : List WorkflowStep :=
  ifSteps step.ifConfig ++ mapSteps step.map ++ reduceSteps step.reduce ++ sagaSteps step.saga ++
    step.captureError

/-- What passes from the steps inside a step to the step holds of all steps. -/
theorem WorkflowStep.induction {P : WorkflowStep → Prop}
    (h : ∀ step : WorkflowStep, (∀ s ∈ step.subSteps, P s) → P step) (step : WorkflowStep) :
    P step := by
  -- one motive for every type that a step nests
  refine @WorkflowStep.rec P (fun c => ∀ s ∈ ifSteps c, P s) (fun c => ∀ s ∈ mapSteps c, P s)
    (fun c => ∀ s ∈ reduceSteps c, P s) (fun c => ∀ s ∈ sagaSteps c, P s) (fun l => ∀ s ∈ l, P s)
    (fun c => ∀ s ∈ c.thenSteps ++ c.elseSteps, P s) (fun c => ∀ s ∈ c.steps, P s)
    (fun c => ∀ s ∈ c.steps, P s) (fun c => ∀ s ∈ c.steps.flatMap SagaStep.steps, P s)
    (fun l => ∀ s ∈ l.flatMap SagaStep.steps, P s) (fun s => ∀ t ∈ s.steps, P t)
    (fun o => ∀ s ∈ o.toList, P s) ?step (by simp [ifSteps]) (fun _ hc => hc) (by simp [mapSteps])
    (fun _ hc => hc) (by simp [reduceSteps]) (fun _ hc => hc) (by simp [sagaSteps])
    (fun _ hc => hc) (by simp) ?cons ?branches (fun _ _ hl => hl) (fun _ _ _ hl => hl)
    (fun _ hl => hl) (by simp) ?sagaCons ?sagaStep (by simp) (by simp) step
  case step =>
    intro core ifConfig map reduce saga captureError hif hmap hreduce hsaga hcapture
    apply h
    simp only [WorkflowStep.subSteps, forall_mem_append]
    exact ⟨⟨⟨⟨hif, hmap⟩, hreduce⟩, hsaga⟩, hcapture⟩
  case cons =>
    intro step rest hstep hrest
    exact forall_mem_cons.mpr ⟨hstep, hrest⟩
  case branches =>
    intro condition thenSteps elseSteps hthen helse
    exact forall_mem_append.mpr ⟨hthen, helse⟩
  case sagaCons =>
    intro step rest hstep hrest
    rw [flatMap_cons]
    exact forall_mem_append.mpr ⟨hstep, hrest⟩
  case sagaStep =>
    intro forward compensate hforward hcompensate
    exact forall_mem_cons.mpr ⟨hforward, hcompensate⟩

structure WorkflowDef where
  name : Str
  vars : GoMap Str Str
  steps : List WorkflowStep
  /-- The template of the final output; empty for the last output. -/
  output : Str

end Workflow
