import Aflare.Policy.Engine
import Aflare.Workflow.Sequential

/-!
# Policy validation of workflows

Before a workflow runs, its steps are passed through the policy engine, each with the action that
its node stands for. The validation goes into the branches of an `if`, into `parallel` blocks and
into sagas. It does not go into `map` and `reduce`, nor into the handlers of errors.
-/

namespace Workflow

open Go List

/-! ## Places -/

/-- A step inside another one, or of the workflow. -/
inductive Segment
  | step (i : ℕ)
  | thenStep (i : ℕ)
  | elseStep (i : ℕ)
  | parallel (i : ℕ)
  | forward (i : ℕ)
  | compensate (i : ℕ)
  | mapStep (i : ℕ)
  | reduceStep (i : ℕ)
  | captureError (i : ℕ)
  | onError
  deriving DecidableEq

/-- The place of a step, from the inside out. -/
abbrev Place := List Segment

/-- Whether the validation goes there. -/
def Segment.validated : Segment → Bool
  | .mapStep _ | .reduceStep _ | .captureError _ | .onError => false
  | _ => true

/-- The validation comes to the place. -/
def Validated (place : Place) : Prop := ∀ seg ∈ place, seg.validated = true
  deriving Decidable

/-! ## Checks -/

/-- What the policy engine is asked. -/
structure Check where
  action : Policy.Action
  details : Str
  deriving DecidableEq

def llmProviderNodes : List Str :=
  [str "openai", str "anthropic", str "gemini", str "glm", str "kimi", str "qwen", str "deepseek",
    str "mistral", str "yi", str "baichuan", str "internlm", str "minimax", str "xverse",
    str "mimo", str "coze", str "ima", str "ascend", str "cambricon", str "hygon", str "ollama",
    str "fastgpt", str "llm_router"]

/-- The value of a parameter, empty if it is not given. -/
def paramOf (params : StringMap) (key : String) : Str := ((params.getD ∅)[str key]?).getD []

/-- The switch of `validateStep`: the check that a node calls for, and the text before its error. -/
def nodeCheck (node : Str) (params : StringMap) : Option (Check × Str) :=
  if node = str "shell" ∨ node = str "exec" ∨ node = str "execute" then
    some (⟨.shellExec, paramOf params "command"⟩, str "shell execution not allowed: ")
  else if node = str "http_request" ∨ node = str "fetch_url" then
    some (⟨.networkHTTP, paramOf params "url"⟩, str "network access not allowed: ")
  else if node ∈ llmProviderNodes then
    some (⟨.networkHTTP, paramOf params "endpoint"⟩,
      str "LLM provider endpoint not allowed by network policy: ")
  else if node = str "file_write" ∨ node = str "file_save" then
    some (⟨.fileWrite, node⟩, str "file write not allowed: ")
  else if node = str "file_delete" then
    some (⟨.fileDelete, node⟩, str "file delete not allowed: ")
  else if node = str "transfer" ∨ node = str "payment" then
    some (⟨.financial, node⟩, str "financial operation not allowed: ")
  else none

/-- A validation: the checks that were made, each with the place of its step, and the error that
stopped it. -/
structure Validation where
  checks : List (Place × Check)
  err : Option Str

namespace Validation

def pass : Validation := ⟨[], none⟩

/-- Go on with a second validation unless the first one has stopped. -/
def andThen (a b : Validation) : Validation :=
  match a.err with
  | some _ => a
  | none => ⟨a.checks ++ b.checks, b.err⟩

variable {a b : Validation}

@[simp] theorem err_andThen_eq_none : (a.andThen b).err = none ↔ a.err = none ∧ b.err = none := by
  unfold andThen
  cases ha : a.err with
  | none => simp
  | some err => simp [ha]

theorem checks_andThen (h : (a.andThen b).err = none) :
    (a.andThen b).checks = a.checks ++ b.checks := by
  obtain ⟨ha, -⟩ := err_andThen_eq_none.mp h
  simp only [andThen, ha]

theorem mem_andThen {x : Place × Check} (h : x ∈ (a.andThen b).checks) :
    x ∈ a.checks ∨ x ∈ b.checks := by
  unfold andThen at h
  split at h
  · exact .inl h
  · exact mem_append.mp h

end Validation

/-! ## Validation -/

section Validate

variable (e : Policy.Engine)

/-- The check of one node. -/
def checkNode (place : Place) (node : Str) (params : StringMap) : Validation :=
  match nodeCheck node params with
  | none => .pass
  | some (check, what) =>
    match e.check check.action check.details with
    | .error err => ⟨[(place, check)], some (what ++ err)⟩
    | .ok _ => ⟨[(place, check)], none⟩

/-- The loop over a `parallel` block, whose steps have no sub-steps. -/
def validateParallel (place : Place) : ℕ → List Step → Validation
  | _, [] => .pass
  | i, s :: rest =>
    (checkNode e (.parallel i :: place) s.node s.params).andThen
      (validateParallel place (i + 1) rest)

mutual

/-- `validateStep`, for the step at a place. -/
def validateStep (place : Place) : WorkflowStep → Validation
  | ⟨core, ifConfig, _, _, saga, _⟩ =>
    (checkNode e place core.node core.params).andThen <|
      (validateParallel e place 0 core.parallel).andThen <|
        (validateSaga place saga).andThen (validateIf place ifConfig)
termination_by structural step => step

/-- The part of `validateStep` for a saga. -/
def validateSaga (place : Place) : Option (SagaConfig WorkflowStep) → Validation
  | none => .pass
  | some ⟨steps⟩ => validateSagaSteps place 0 steps
termination_by structural saga => saga

/-- The loop over the steps of a saga. -/
def validateSagaSteps (place : Place) (i : ℕ) : List (SagaStep WorkflowStep) → Validation
  | [] => .pass
  | ⟨forward, none⟩ :: rest =>
    (validateStep (.forward i :: place) forward).andThen (validateSagaSteps place (i + 1) rest)
  | ⟨forward, some compensate⟩ :: rest =>
    (validateStep (.forward i :: place) forward).andThen <|
      (validateStep (.compensate i :: place) compensate).andThen
        (validateSagaSteps place (i + 1) rest)
termination_by structural steps => steps

/-- The part of `validateStep` for an `if`. -/
def validateIf (place : Place) : Option (IfConfig WorkflowStep) → Validation
  | none => .pass
  | some ⟨_, thenSteps, elseSteps⟩ =>
    (validateSteps place .thenStep 0 thenSteps).andThen (validateSteps place .elseStep 0 elseSteps)
termination_by structural ifConfig => ifConfig

/-- The loop over the steps of a branch. -/
def validateSteps (place : Place) (seg : ℕ → Segment) (i : ℕ) : List WorkflowStep → Validation
  | [] => .pass
  | step :: rest =>
    (validateStep (seg i :: place) step).andThen (validateSteps place seg (i + 1) rest)
termination_by structural steps => steps

end

/-- The error of a step, as the workflow reports it. -/
def Validation.inStep (v : Validation) (i : ℕ) (step : WorkflowStep) : Validation :=
  { v with
    err := v.err.map fun err =>
      str "policy violation in step " ++ itoa (i + 1) ++ str " (" ++ step.node ++ str "): " ++ err }

/-- The loop of `ValidateWorkflow`. -/
def validateFrom : ℕ → List WorkflowStep → Validation
  | _, [] => .pass
  | i, step :: rest =>
    ((validateStep e [.step i] step).inStep i step).andThen (validateFrom (i + 1) rest)

end Validate

/-- `ValidateWorkflow`; without an engine everything is allowed. -/
def validateWorkflow (engine : Option Policy.Engine) (wf : WorkflowDef) : Validation :=
  match engine with
  | none => .pass
  | some e => validateFrom e 0 wf.steps

/-! ## Node calls -/

/-- A call of a node that a workflow can make. -/
structure Invocation where
  place : Place
  node : Str
  params : StringMap

/-- Some executor runs the step as one of this kind. -/
def WorkflowStep.runsAs (step : WorkflowStep) (kind : CompoundKind) : Bool :=
  step.compoundKind = some kind || step.subKind = some kind

/-- Some executor calls the node of the step: it is not compound, or a loop. -/
def WorkflowStep.callsNode (step : WorkflowStep) : Bool :=
  step.compoundKind = none || step.runsAs .loop

/-- The calls of a `parallel` block. -/
def parallelCalls (place : Place) : ℕ → List Step → List Invocation
  | _, [] => []
  | i, s :: rest => ⟨.parallel i :: place, s.node, s.params⟩ :: parallelCalls place (i + 1) rest

mutual

/-- The calls that a step at a place can make: those of the kinds it is run as, and of its handlers
of errors. -/
def stepCalls (place : Place) : WorkflowStep → List Invocation
  | ⟨core, ifConfig, map, reduce, saga, captureError⟩ =>
    let step : WorkflowStep := ⟨core, ifConfig, map, reduce, saga, captureError⟩
    (if step.callsNode then [⟨place, core.node, core.params⟩] else []) ++
      (if step.runsAs .parallel then parallelCalls place 0 core.parallel else []) ++
      (if step.runsAs .saga then sagaCalls place saga else []) ++
      (if step.runsAs .ifBranch then ifCalls place ifConfig else []) ++
      (if step.runsAs .map then mapCalls place map else []) ++
      (if step.runsAs .reduce then reduceCalls place reduce else []) ++
      listCalls place .captureError 0 captureError ++
      (core.onError.elim [] fun h => [⟨.onError :: place, h.node, h.params⟩])
termination_by structural step => step

def sagaCalls (place : Place) : Option (SagaConfig WorkflowStep) → List Invocation
  | none => []
  | some ⟨steps⟩ => sagaStepCalls place 0 steps
termination_by structural saga => saga

def sagaStepCalls (place : Place) (i : ℕ) : List (SagaStep WorkflowStep) → List Invocation
  | [] => []
  | ⟨forward, none⟩ :: rest =>
    stepCalls (.forward i :: place) forward ++ sagaStepCalls place (i + 1) rest
  | ⟨forward, some compensate⟩ :: rest =>
    stepCalls (.forward i :: place) forward ++ stepCalls (.compensate i :: place) compensate ++
      sagaStepCalls place (i + 1) rest
termination_by structural steps => steps

/-- The calls of both branches of an `if`. -/
def ifCalls (place : Place) : Option (IfConfig WorkflowStep) → List Invocation
  | none => []
  | some ⟨_, thenSteps, elseSteps⟩ =>
    listCalls place .thenStep 0 thenSteps ++ listCalls place .elseStep 0 elseSteps
termination_by structural ifConfig => ifConfig

def mapCalls (place : Place) : Option (MapConfig WorkflowStep) → List Invocation
  | none => []
  | some ⟨_, steps⟩ => listCalls place .mapStep 0 steps
termination_by structural map => map

def reduceCalls (place : Place) : Option (ReduceConfig WorkflowStep) → List Invocation
  | none => []
  | some ⟨_, _, steps⟩ => listCalls place .reduceStep 0 steps
termination_by structural reduce => reduce

def listCalls (place : Place) (seg : ℕ → Segment) (i : ℕ) : List WorkflowStep → List Invocation
  | [] => []
  | step :: rest => stepCalls (seg i :: place) step ++ listCalls place seg (i + 1) rest
termination_by structural steps => steps

end

/-- The node calls that a workflow can make. -/
def WorkflowDef.invocations (wf : WorkflowDef) : List Invocation := listCalls [] .step 0 wf.steps

/-! ## Calls are where their step is -/

variable {place : Place} {inv : Invocation} {i : ℕ}

theorem suffix_of_mem_parallelCalls {steps : List Step}
    (h : inv ∈ parallelCalls place i steps) : place <:+ inv.place := by
  induction steps generalizing i with
  | nil => cases h
  | cons s rest ih =>
    rcases mem_cons.mp h with rfl | h
    · exact suffix_cons _ _
    · exact ih h

/-- The calls of a step are at its place or inside of it. -/
def CallsInside (step : WorkflowStep) : Prop :=
  ∀ place, ∀ inv ∈ stepCalls place step, place <:+ inv.place

variable {steps : List WorkflowStep} {seg : ℕ → Segment}

theorem exists_suffix_of_mem_listCalls (hsteps : ∀ s ∈ steps, CallsInside s)
    (h : inv ∈ listCalls place seg i steps) : ∃ j, seg j :: place <:+ inv.place := by
  induction steps generalizing i with
  | nil => cases h
  | cons s rest ih =>
    rcases mem_append.mp h with h | h
    · exact ⟨i, hsteps s mem_cons_self _ inv h⟩
    · exact ih (forall_mem_of_forall_mem_cons hsteps) h

theorem suffix_of_mem_listCalls (hsteps : ∀ s ∈ steps, CallsInside s)
    (h : inv ∈ listCalls place seg i steps) : place <:+ inv.place := by
  obtain ⟨j, hj⟩ := exists_suffix_of_mem_listCalls hsteps h
  exact (suffix_cons _ _).trans hj

theorem suffix_of_mem_sagaStepCalls {steps : List (SagaStep WorkflowStep)}
    (hsteps : ∀ s ∈ steps.flatMap SagaStep.steps, CallsInside s)
    (h : inv ∈ sagaStepCalls place i steps) : place <:+ inv.place := by
  induction steps generalizing i with
  | nil => cases h
  | cons s rest ih =>
    obtain ⟨forward, compensate⟩ := s
    rw [flatMap_cons, forall_mem_append] at hsteps
    obtain ⟨hforward, hcompensate⟩ := forall_mem_cons.mp hsteps.1
    cases compensate with
    | none =>
      rcases mem_append.mp h with h | h
      · exact (suffix_cons _ _).trans (hforward _ inv h)
      · exact ih hsteps.2 h
    | some compensate =>
      rcases mem_append.mp h with h | h
      · rcases mem_append.mp h with h | h
        · exact (suffix_cons _ _).trans (hforward _ inv h)
        · exact (suffix_cons _ _).trans (hcompensate _ mem_cons_self _ inv h)
      · exact ih hsteps.2 h

private theorem mem_of_mem_ite {b : Bool} {l : List Invocation}
    (h : inv ∈ if b then l else []) : inv ∈ l := by
  split at h
  · exact h
  · cases h

theorem forall_subSteps {P : WorkflowStep → Prop} {step : WorkflowStep}
    (h : ∀ s ∈ step.subSteps, P s) :
    (∀ s ∈ ifSteps step.ifConfig, P s) ∧ (∀ s ∈ mapSteps step.map, P s) ∧
      (∀ s ∈ reduceSteps step.reduce, P s) ∧ (∀ s ∈ sagaSteps step.saga, P s) ∧
      ∀ s ∈ step.captureError, P s := by
  simp only [WorkflowStep.subSteps, forall_mem_append] at h
  obtain ⟨⟨⟨⟨hif, hmap⟩, hreduce⟩, hsaga⟩, hcapture⟩ := h
  exact ⟨hif, hmap, hreduce, hsaga, hcapture⟩

variable {ifConfig : Option (IfConfig WorkflowStep)}

theorem suffix_of_mem_ifCalls (hsteps : ∀ s ∈ ifSteps ifConfig, CallsInside s)
    (h : inv ∈ ifCalls place ifConfig) : place <:+ inv.place := by
  cases ifConfig with
  | none => cases h
  | some config =>
    obtain ⟨hthen, helse⟩ := forall_mem_append.mp hsteps
    rcases mem_append.mp h with h | h
    · exact suffix_of_mem_listCalls hthen h
    · exact suffix_of_mem_listCalls helse h

variable (step : WorkflowStep)

theorem callsInside : CallsInside step := by
  induction step using WorkflowStep.induction with
  | h step ih =>
    obtain ⟨hif, hmap, hreduce, hsaga, hcapture⟩ := forall_subSteps ih
    obtain ⟨core, ifConfig, map, reduce, saga, captureError⟩ := step
    intro place inv h
    simp only [stepCalls, mem_append] at h
    rcases h with ((((((h | h) | h) | h) | h) | h) | h) | h
    · obtain rfl := mem_singleton.mp (mem_of_mem_ite h)
      exact suffix_rfl
    · exact suffix_of_mem_parallelCalls (mem_of_mem_ite h)
    · cases saga with
      | none => cases mem_of_mem_ite h
      | some config => exact suffix_of_mem_sagaStepCalls hsaga (mem_of_mem_ite h)
    · exact suffix_of_mem_ifCalls hif (mem_of_mem_ite h)
    · cases map with
      | none => cases mem_of_mem_ite h
      | some config => exact suffix_of_mem_listCalls hmap (mem_of_mem_ite h)
    · cases reduce with
      | none => cases mem_of_mem_ite h
      | some config => exact suffix_of_mem_listCalls hreduce (mem_of_mem_ite h)
    · exact suffix_of_mem_listCalls hcapture h
    · cases hhandler : core.onError with
      | none => simp [hhandler] at h
      | some handler =>
        obtain rfl : inv = _ := by simpa [hhandler] using h
        exact suffix_cons _ _

/-! ## What a validation covers -/

/-- If the validation passes, it has checked the calls at all places it comes to. -/
def Covers (v : Validation) (calls : List Invocation) : Prop :=
  v.err = none → ∀ inv ∈ calls, Validated inv.place → ∀ r ∈ nodeCheck inv.node inv.params,
    (inv.place, r.1) ∈ v.checks

namespace Covers

variable {v : Validation} {calls calls' : List Invocation}

theorem append (h : Covers v calls) (h' : Covers v calls') : Covers v (calls ++ calls') := by
  intro hok
  exact forall_mem_append.mpr ⟨h hok, h' hok⟩

theorem ite {c : Bool} (h : Covers v calls) : Covers v (if c then calls else []) := by
  intro hok inv hinv
  exact h hok inv (mem_of_mem_ite hinv)

theorem of_not_validated (h : ∀ inv ∈ calls, ¬ Validated inv.place) : Covers v calls :=
  fun _ inv hinv hplace => absurd hplace (h inv hinv)

end Covers

/-- All checks are made at places that the validation comes to. -/
def ChecksValidated (v : Validation) : Prop := ∀ x ∈ v.checks, Validated x.1

/-- A validation at a place covers the calls; its checks are made where the validation comes to, if
the place is such a one. -/
def Visits (place : Place) (v : Validation) (calls : List Invocation) : Prop :=
  Covers v calls ∧ (Validated place → ChecksValidated v)

namespace Visits

variable {v a b : Validation} {calls calls' : List Invocation}

theorem pass : Visits place .pass [] := ⟨fun _ _ h => (by cases h), fun _ _ hx => by cases hx⟩

theorem andThen (ha : Visits place a calls) (hb : Visits place b calls') :
    Visits place (a.andThen b) (calls ++ calls') := by
  constructor
  · intro hok inv hinv hplace r hr
    rw [Validation.checks_andThen hok]
    obtain ⟨haok, hbok⟩ := Validation.err_andThen_eq_none.mp hok
    rcases mem_append.mp hinv with hinv | hinv
    · exact mem_append_left _ (ha.1 haok inv hinv hplace r hr)
    · exact mem_append_right _ (hb.1 hbok inv hinv hplace r hr)
  · intro hplace x hx
    rcases Validation.mem_andThen hx with hx | hx
    · exact ha.2 hplace x hx
    · exact hb.2 hplace x hx

/-- What is visited inside of a place is visited there. -/
theorem outer {seg : Segment} (hseg : seg.validated = true) (h : Visits (seg :: place) v calls) :
    Visits place v calls := by
  exact ⟨h.1, fun hplace => h.2 (forall_mem_cons.mpr ⟨hseg, hplace⟩)⟩

theorem ite {c : Bool} (h : Visits place v calls) :
    Visits place v (if c then calls else []) := ⟨h.1.ite, h.2⟩

end Visits

section Coverage

variable (e : Policy.Engine)

theorem visits_checkNode (place : Place) (node : Str) (params : StringMap) :
    Visits place (checkNode e place node params) [⟨place, node, params⟩] := by
  constructor
  · intro _ inv hinv _ r hr
    obtain rfl := mem_singleton.mp hinv
    have hr : nodeCheck node params = some r := hr
    simp only [checkNode, hr]
    split <;> exact mem_singleton.mpr rfl
  · intro hplace x hx
    unfold checkNode at hx
    split at hx
    · cases hx
    · split at hx
      · obtain rfl := mem_singleton.mp hx
        exact hplace
      · obtain rfl := mem_singleton.mp hx
        exact hplace

theorem visits_validateParallel (place : Place) (i : ℕ) (steps : List Step) :
    Visits place (validateParallel e place i steps) (parallelCalls place i steps) := by
  induction steps generalizing i with
  | nil => exact .pass
  | cons s rest ih =>
    exact ((visits_checkNode e (.parallel i :: place) _ _).outer rfl).andThen (ih (i + 1))

/-- The validation of a step visits its calls. -/
def StepVisited (step : WorkflowStep) : Prop :=
  ∀ place, Visits place (validateStep e place step) (stepCalls place step)

variable {e}

theorem visits_validateSteps (hsteps : ∀ s ∈ steps, StepVisited e s) (place : Place)
    (hseg : ∀ j, (seg j).validated = true) (i : ℕ) :
    Visits place (validateSteps e place seg i steps) (listCalls place seg i steps) := by
  induction steps generalizing i with
  | nil => exact .pass
  | cons s rest ih =>
    obtain ⟨hs, hrest⟩ := forall_mem_cons.mp hsteps
    exact ((hs _).outer (hseg i)).andThen (ih hrest (i + 1))

theorem visits_validateSagaSteps {steps : List (SagaStep WorkflowStep)}
    (hsteps : ∀ s ∈ steps.flatMap SagaStep.steps, StepVisited e s) (place : Place) (i : ℕ) :
    Visits place (validateSagaSteps e place i steps) (sagaStepCalls place i steps) := by
  induction steps generalizing i with
  | nil => exact .pass
  | cons s rest ih =>
    obtain ⟨forward, compensate⟩ := s
    rw [flatMap_cons, forall_mem_append] at hsteps
    obtain ⟨hforward, hcompensate⟩ := forall_mem_cons.mp hsteps.1
    have hforward := (hforward (.forward i :: place)).outer rfl
    have hrest := ih hsteps.2 (i + 1)
    cases compensate with
    | none => exact hforward.andThen hrest
    | some compensate =>
      have hcompensate := (hcompensate _ mem_cons_self (.compensate i :: place)).outer rfl
      have hall := hforward.andThen (hcompensate.andThen hrest)
      rw [← append_assoc] at hall
      exact hall

theorem visits_validateIf (hsteps : ∀ s ∈ ifSteps ifConfig, StepVisited e s) (place : Place) :
    Visits place (validateIf e place ifConfig) (ifCalls place ifConfig) := by
  cases ifConfig with
  | none => exact .pass
  | some config =>
    obtain ⟨hthen, helse⟩ := forall_mem_append.mp hsteps
    exact (visits_validateSteps hthen _ (fun _ => rfl) _).andThen
      (visits_validateSteps helse _ (fun _ => rfl) _)

theorem not_validated_of_listCalls (hseg : ∀ j, (seg j).validated = false) :
    ∀ inv ∈ listCalls place seg i steps, ¬ Validated inv.place := by
  intro inv hinv hplace
  obtain ⟨j, hj⟩ := exists_suffix_of_mem_listCalls (fun s _ => callsInside s) hinv
  have htrue := hplace (seg j) (hj.subset mem_cons_self)
  rw [hseg j] at htrue
  cases htrue

/-- The validation visits every call of a step, compound steps included. -/
theorem stepVisited : StepVisited e step := by
  induction step using WorkflowStep.induction with
  | h step ih =>
    obtain ⟨hif, -, -, hsaga, -⟩ := forall_subSteps ih
    obtain ⟨core, ifConfig, map, reduce, saga, captureError⟩ := step
    intro place
    have hown := visits_checkNode e place core.node core.params
    have hparallel := visits_validateParallel e place 0 core.parallel
    have hsagas : Visits place (validateSaga e place saga) (sagaCalls place saga) := by
      cases saga with
      | none => exact .pass
      | some config => exact visits_validateSagaSteps hsaga place 0
    have hifs := visits_validateIf hif place
    -- the parts that the validation goes into, in its order
    let step : WorkflowStep := ⟨core, ifConfig, map, reduce, saga, captureError⟩
    have hvisited := (hown.ite (c := step.callsNode)).andThen
      ((hparallel.ite (c := step.runsAs .parallel)).andThen
        ((hsagas.ite (c := step.runsAs .saga)).andThen (hifs.ite (c := step.runsAs .ifBranch))))
    simp only [← append_assoc] at hvisited
    have hmap : ∀ inv ∈ mapCalls place map, ¬ Validated inv.place := by
      cases map with
      | none => exact fun inv hinv => by cases hinv
      | some config => exact not_validated_of_listCalls fun _ => rfl
    have hreduce : ∀ inv ∈ reduceCalls place reduce, ¬ Validated inv.place := by
      cases reduce with
      | none => exact fun inv hinv => by cases hinv
      | some config => exact not_validated_of_listCalls fun _ => rfl
    have honError : ∀ inv ∈ core.onError.elim [] fun h =>
        [(⟨.onError :: place, h.node, h.params⟩ : Invocation)], ¬ Validated inv.place := by
      intro inv hinv hplace
      cases hhandler : core.onError with
      | none => simp [hhandler] at hinv
      | some handler =>
        obtain rfl : inv = _ := by simpa [hhandler] using hinv
        cases hplace .onError mem_cons_self
    exact ⟨(((hvisited.1.append (Covers.of_not_validated hmap).ite).append
      (Covers.of_not_validated hreduce).ite).append
      (.of_not_validated (not_validated_of_listCalls fun _ => rfl))).append
      (.of_not_validated honError), hvisited.2⟩

/-! ## Coverage of a workflow -/

theorem visits_validateFrom (i : ℕ) (steps : List WorkflowStep) :
    Visits [] (validateFrom e i steps) (listCalls [] .step i steps) := by
  induction steps generalizing i with
  | nil => exact .pass
  | cons step rest ih =>
    obtain ⟨hcovers, hchecks⟩ := (stepVisited (e := e) step [.step i]).outer rfl
    have hstep : Visits [] ((validateStep e [.step i] step).inStep i step)
        (stepCalls [.step i] step) :=
      ⟨fun hok => hcovers (Option.map_eq_none_iff.mp hok), hchecks⟩
    exact hstep.andThen (ih (i + 1))

end Coverage

/-- After a validation without error all node calls of the workflow are checked exactly if every
call that needs a check stands where the validation goes: not under `map`, `reduce`,
`capture_error` or `on_error`. -/
theorem policy_coverage_iff (e : Policy.Engine) (wf : WorkflowDef)
    (hok : (validateWorkflow (some e) wf).err = none) :
    (∀ inv ∈ wf.invocations, ∀ r ∈ nodeCheck inv.node inv.params,
      (inv.place, r.1) ∈ (validateWorkflow (some e) wf).checks) ↔
      ∀ inv ∈ wf.invocations, (nodeCheck inv.node inv.params).isSome = true →
        Validated inv.place := by
  constructor
  · intro h inv hinv hsome
    obtain ⟨r, hr⟩ := Option.isSome_iff_exists.mp hsome
    exact (visits_validateFrom 0 wf.steps).2 (by simp [Validated]) _ (h inv hinv r hr)
  · intro h inv hinv r hr
    have hplace := h inv hinv (Option.isSome_iff_exists.mpr ⟨r, hr⟩)
    exact (visits_validateFrom 0 wf.steps).1 hok inv hinv hplace r hr

/-! ## Samples -/

/-- The engine for a policy that leaves nothing to approve, on texts in lower case. -/
def plainEngine (policy : Policy.Rules) : Policy.Engine := ⟨policy, none, id, id⟩

def singleStep (step : WorkflowStep) : WorkflowDef := ⟨[], ∅, [step], []⟩

/-- A call inside a branch is checked. -/
theorem policy_coverage_branch :
    (validateWorkflow (some (plainEngine Policy.defaultPolicy)) (singleStep
        { node := [], ifConfig := some ⟨[], [{ node := str "shell" }], []⟩ })).err = none ∧
      ∀ inv ∈ (singleStep
          { node := [], ifConfig := some ⟨[], [{ node := str "shell" }], []⟩ }).invocations,
        ∀ r ∈ nodeCheck inv.node inv.params, (inv.place, r.1) ∈
          (validateWorkflow (some (plainEngine Policy.defaultPolicy)) (singleStep
            { node := [], ifConfig := some ⟨[], [{ node := str "shell" }], []⟩ })).checks := by
  have hok : (validateWorkflow (some (plainEngine Policy.defaultPolicy)) (singleStep
      { node := [], ifConfig := some ⟨[], [{ node := str "shell" }], []⟩ })).err = none := by
    decide
  refine ⟨hok, (policy_coverage_iff _ _ hok).mpr ?_⟩
  decide

/-- A policy that disables the shell lets a `map` call it. -/
theorem not_policy_coverage_map :
    ¬ ∀ (e : Policy.Engine) (wf : WorkflowDef), (validateWorkflow (some e) wf).err = none →
      ∀ inv ∈ wf.invocations, ∀ r ∈ nodeCheck inv.node inv.params,
        (inv.place, r.1) ∈ (validateWorkflow (some e) wf).checks := by
  intro h
  have hall := h (plainEngine Policy.strictPolicy)
    (singleStep { node := [], map := some ⟨[], [{ node := str "shell" }]⟩ }) (by decide)
  revert hall
  decide

end Workflow
