import Aflare.Workflow.Saga
import Aflare.Lib.WorkPool

/-!
# Loops and maps

A `map` step runs a sub-workflow and a `loop` step calls a node once for every item of a list. With
a concurrency of one the items are taken in turn. With a higher one a map hands them to a pool of
workers through a bounded queue, and a loop starts a goroutine for every item under a semaphore;
the results are put in order before they are looked at.

A sub-workflow and a node are functions of what they are given. The limiter across the steps of the
workflow shows in a map only by the iterations that it refuses, and is left out of a loop, as are
durations and the messages to the screen.
-/

namespace Workflow

open Go List Option

/-! ## Settings -/

theorem clampSetting_pos {default cap : ℕ} (hdefault : 0 < default) (hcap : 0 < cap) (value : ℤ) :
    0 < clampSetting default cap value := by
  rw [clampSetting]
  split_ifs <;> omega

/-- The settings of a `map` besides its list and its steps. -/
structure MapOptions where
  splitBy : Str := []
  concurrency : ℤ := 0
  stopOnError : Option Bool := none
  maxIterations : ℤ := 0
  backpressure : Str := []
  queueSize : ℤ := 0

/-- The settings of a `loop` besides its list. -/
structure LoopOptions where
  var : Str := []
  concurrency : ℤ := 0
  stopOnError : Option Bool := none
  maxIterations : ℤ := 0

/-- The separator of a list of items. -/
def splitSetting (splitBy : Str) : Str := if splitBy = [] then str "\n" else splitBy

namespace MapOptions

variable (o : MapOptions)

def getSplitBy : Str := splitSetting o.splitBy

def getConcurrency : ℕ := clampSetting 1 maxParallel o.concurrency

def getStopOnError : Bool := o.stopOnError.getD true

def getMaxIterations : ℕ := clampSetting 100 10000 o.maxIterations

def getBackpressure : Str := if o.backpressure = str "drop" then str "drop" else str "block"

def getQueueSize : ℕ :=
  if o.getConcurrency ≤ 1 then 1
  else clampSetting (min 1000 (o.getConcurrency * 2)) 1000 o.queueSize

theorem getConcurrency_pos : 0 < o.getConcurrency := clampSetting_pos Nat.one_pos (by decide) _

theorem getQueueSize_pos : 0 < o.getQueueSize := by
  have hpos := o.getConcurrency_pos
  rw [getQueueSize]
  split_ifs
  · exact Nat.one_pos
  · exact clampSetting_pos (by omega) (by decide) _

end MapOptions

namespace LoopOptions

variable (o : LoopOptions)

def getVar : Str := if o.var = [] then str "item" else o.var

def getConcurrency : ℕ := clampSetting 1 maxParallel o.concurrency

def getStopOnError : Bool := o.stopOnError.getD true

def getMaxIterations : ℕ := clampSetting 100 10000 o.maxIterations

theorem getConcurrency_pos : 0 < o.getConcurrency := clampSetting_pos Nat.one_pos (by decide) _

end LoopOptions

/-! ## Items -/

/-- The parts of a text that are not blank. -/
def splitItems (s splitBy : Str) : List Str :=
  (split s splitBy).filter fun item => trimSpace item ≠ []

/-- The texts of the elements of a JSON array, from one that starts here on. -/
def rawElems : ℕ → Str → List Str
  | 0, _ => []
  | fuel + 1, s =>
    let s := Value.skipSpace s
    match Value.read Value.maxNestingDepth s with
    | none => []
    | some (_, r) =>
      s.take (s.length - r.length) ::
        match Value.skipSpace r with
        | 44 :: t => rawElems fuel t
        | _ => []

/-- A text read into a slice of `json.RawMessage`, for a text that starts with a bracket. -/
def unmarshalRaw (s : Str) : Option (List Str) :=
  match Value.parse s with
  | some (.arr []) => some []
  | some (.arr (_ :: _)) => some (rawElems s.length (s.drop 1))
  | _ => none

/-- An element as an item: a string without its quotes, any other value as it stands. `null` reads
as an empty string. -/
def rawItem (raw : Str) : Str :=
  match Value.parse raw with
  | some (.str s) => s
  | some .null => []
  | _ => raw

def resolveMapItems (overText splitBy : Str) : List Str :=
  let overText := trimSpace overText
  if overText = [] then []
  else
    match if hasPrefix overText (str "[") then unmarshalRaw overText else none with
    | some raw => raw.map rawItem
    | none => splitItems overText splitBy

example : resolveMapItems (str " [1, \"a\", null,[2]] ") (str "\n") =
    [str "1", str "a", [], str "[2]"] := by decide +kernel

namespace ExpressionEngine

def setLoopVars (e : ExpressionEngine) (item : Str) (index count : ℕ) : ExpressionEngine :=
  { e with
    loopVars := some ((((e.loopVars.getD ∅).insert (str "item") item).insert (str "index")
      (itoa index)).insert (str "count") (itoa count)) }

end ExpressionEngine

/-! ## Outcomes -/

/-- What one iteration gives, without its duration. -/
structure IterResult where
  output : Str
  err : Option Str
  deriving DecidableEq

deriving instance DecidableEq for StepResult

/-- What a step returns. -/
structure StepOutcome where
  results : List StepResult
  output : Str
  err : Option Str
  deriving DecidableEq

/-- A step that has failed before its first iteration. -/
def StepOutcome.failed (err : Str) : StepOutcome := ⟨[], [], some err⟩

/-- How a step goes on once its items are known: it returns, or it starts threads. -/
inductive Plan (τ : Type)
  | done (o : StepOutcome)
  | threads (t : τ)

/-- Every interleaving of the threads of a step comes to an end: none goes on forever, each can be
carried on until the step returns, and then it returns this outcome. -/
structure Returns {α : Type} (interleaving : List α → Prop)
    (execute : List α → Option StepOutcome) (o : StepOutcome) : Prop where
  bounded : ∃ bound, ∀ actions, interleaving actions → actions.length ≤ bound
  finishes : ∀ actions, interleaving actions →
    ∃ more, interleaving (actions ++ more) ∧ execute (actions ++ more) = some o
  unique : ∀ actions o', interleaving actions → execute actions = some o' → o' = o

variable {o : StepOutcome}

theorem Returns.of_done {α : Type} {interleaving : List α → Prop}
    {execute : List α → Option StepOutcome}
    (hinterleaving : ∀ actions, interleaving actions ↔ actions = [])
    (hexecute : execute [] = some o) : Returns interleaving execute o where
  bounded := ⟨0, fun actions h => by simp [(hinterleaving actions).mp h]⟩
  finishes actions h := by
    obtain rfl := (hinterleaving actions).mp h
    exact ⟨[], (hinterleaving _).mpr rfl, hexecute⟩
  unique actions o' h ho' := by
    obtain rfl := (hinterleaving actions).mp h
    exact Option.some.inj (ho'.symm.trans hexecute)

/-- A step whose threads can always be run to the end, where the outcome is the same for all runs.
-/
theorem Returns.of_threads {σ α : Type} {step : σ → α → Option σ} {s₀ : σ} {Finished : σ → Prop}
    {interleaving : List α → Prop} {execute : List α → Option StepOutcome}
    {bound : ℕ}
    (hinterleaving : ∀ actions, interleaving actions ↔ (Runs.run step s₀ actions).isSome)
    (hdone : ∀ actions s, Runs.run step s₀ actions = some s → Finished s → execute actions = some o)
    (hopen : ∀ actions s, Runs.run step s₀ actions = some s → ¬ Finished s → execute actions = none)
    (hbound : ∀ actions s, Runs.run step s₀ actions = some s → actions.length ≤ bound)
    (hfinish : ∀ actions s, Runs.run step s₀ actions = some s →
      ∃ more s', Runs.run step s more = some s' ∧ Finished s') :
    Returns interleaving execute o where
  bounded := by
    refine ⟨bound, fun actions h => ?_⟩
    obtain ⟨s, hs⟩ := isSome_iff_exists.mp ((hinterleaving actions).mp h)
    exact hbound actions s hs
  finishes actions h := by
    obtain ⟨s, hs⟩ := isSome_iff_exists.mp ((hinterleaving actions).mp h)
    obtain ⟨more, s', hmore, hfinished⟩ := hfinish actions s hs
    have hrun : Runs.run step s₀ (actions ++ more) = some s' := Runs.run_append.mpr ⟨s, hs, hmore⟩
    refine ⟨more, (hinterleaving _).mpr ?_, hdone _ s' hrun hfinished⟩
    rw [hrun]
    rfl
  unique actions o' h ho' := by
    obtain ⟨s, hs⟩ := isSome_iff_exists.mp ((hinterleaving actions).mp h)
    by_cases hfinished : Finished s
    · rw [hdone actions s hs hfinished] at ho'
      exact (Option.some.inj ho').symm
    · rw [hopen actions s hs hfinished] at ho'
      cases ho'

/-! ## Maps -/

/-- A map step, its place in the workflow and what it is run in. -/
structure MapStep where
  env : SubEnv
  /-- The engine after a compound sub-step, by kind, index, step, input and engine. -/
  compoundEngine : CompoundKind → ℕ → WorkflowStep → Str → ExpressionEngine → ExpressionEngine
  config : MapConfig WorkflowStep
  options : MapOptions
  outputStrategy : Str
  stepIndex : ℕ
  input : Str
  engine : ExpressionEngine
  /-- The iterations in which a node panics, by index and item. -/
  panics : ℕ → Str → Bool := fun _ _ => false
  /-- The error with which the limiter refuses an iteration, by index and item. -/
  refused : ℕ → Str → Option Str := fun _ _ => none

/-- The results and the outputs of the iterations so far. -/
structure MapState where
  results : List StepResult
  outputs : List Str

variable (count idx : ℕ)

namespace MapStep

variable (m : MapStep)

def withConcurrency (k : ℤ) : MapStep := { m with options := { m.options with concurrency := k } }

/-- The engine after a sub-step: a node that has returned leaves its output there. -/
def engineAfter (baseIdx : ℕ) (step : WorkflowStep) (data : Str) (e : ExpressionEngine) :
    ExpressionEngine :=
  match step.subKind with
  | some kind => m.compoundEngine kind baseIdx step data e
  | none =>
    let o := executeSubStep m.env baseIdx step data e
    if o.called.isSome && o.err.isNone then e.setStepOutput baseIdx step.name o.output else e

/-- The sub-steps of one iteration, one after the other. -/
def runSubSteps (baseIdx : ℕ) :
    List WorkflowStep → Str → ExpressionEngine → IterResult
  | [], data, _ => ⟨data, none⟩
  | step :: rest, data, e =>
    let o := executeSubStep m.env baseIdx step data e
    match o.err with
    | some err => ⟨[], some err⟩
    | none => runSubSteps baseIdx rest o.output (m.engineAfter baseIdx step data e)

/-- The sub-workflow of an item: it has an engine of its own, with the variables of the workflow. -/
def subWorkflow (count idx : ℕ) (item : Str) : IterResult :=
  m.runSubSteps (m.stepIndex * maxParallel + idx) m.config.steps item
    ((newExpressionEngine.setVariables m.engine.vars).setLoopVars item idx count)

/-- `runOne`: a panic is recovered, and the iteration then returns the zero result. -/
def runOne (count idx : ℕ) (item : Str) : IterResult :=
  if m.panics idx item then ⟨[], none⟩ else m.subWorkflow count idx item

/-- The refusal of an iteration: only the workers of a pool ask the limiter. -/
def refusal (idx : ℕ) (item : Str) : Option Str :=
  if 1 < m.options.getConcurrency then m.refused idx item else none

/-- One iteration; the error of the limiter is its result if it is refused. -/
def iterate (count idx : ℕ) (item : Str) : IterResult :=
  match m.refusal idx item with
  | some err => ⟨[], some err⟩
  | none => m.runOne count idx item

/-- The result of an iteration is recorded; the step stops here if the iteration has failed and
`stop_on_error` is set. -/
def record (idx : ℕ) (item : Str) (r : IterResult) (s : MapState) : Except StepOutcome MapState :=
  let results := s.results ++ [⟨m.stepIndex * maxParallel + idx, str "map", item, r.output, r.err⟩]
  match r.err with
  | some err =>
    if m.options.getStopOnError then
      .error ⟨results, [], some (str "map iteration " ++ itoa (idx + 1) ++ str " failed: " ++ err)⟩
    else .ok { s with results := results }
  | none => .ok ⟨results, s.outputs.set idx r.output⟩

def combine (s : MapState) : StepOutcome :=
  let strategy := if m.outputStrategy = [] then str "json_array" else m.outputStrategy
  ⟨s.results, applyOutputStrategy (joinWith partSeparator s.outputs) strategy, none⟩

/-- The iterations one after the other. -/
def sequential (count : ℕ) : ℕ → List Str → MapState → StepOutcome
  | _, [], s => m.combine s
  | idx, item :: rest, s =>
    match m.record idx item (m.iterate count idx item) s with
    | .error o => o
    | .ok s => sequential count (idx + 1) rest s

/-- The stored results in the order of their items. -/
def inOrder (items : List Str) : ℕ → List IterResult → MapState → StepOutcome
  | _, [], s => m.combine s
  | idx, r :: rest, s =>
    match m.record idx (items.getD idx []) r s with
    | .error o => o
    | .ok s => inOrder items (idx + 1) rest s

/-- Nothing recorded, with room for an output for every item. -/
def blankState (items : List Str) : MapState := ⟨[], List.replicate items.length []⟩

def job (items : List Str) : WorkPool.Job Str IterResult where
  items := items
  compute := m.iterate items.length
  blank := ⟨[], none⟩
  capacity := m.options.getQueueSize
  blocking := m.options.getBackpressure ≠ str "drop"

/-- The items, or what the step returns without an iteration. -/
def prepare : Except StepOutcome (List Str) :=
  match m.engine.evaluate m.env.world m.config.overExpr m.input with
  | .error err => .error (.failed (str "map: failed to evaluate `over`: " ++ err))
  | .ok overText =>
    let items := resolveMapItems overText m.options.getSplitBy
    if m.options.getMaxIterations < items.length then
      .error (.failed (str "map: items (" ++ itoa items.length ++ str ") exceed max_iterations (" ++
        itoa m.options.getMaxIterations ++ str ")"))
    else if items = [] then .error ⟨[], [], none⟩
    else .ok items

/-- The part of `executeMapStep` before the pool is started. -/
def plan : Plan (List Str) :=
  match m.prepare with
  | .error o => .done o
  | .ok items =>
    if m.options.getConcurrency ≤ 1 then
      .done (m.sequential items.length 0 items (blankState items))
    else .threads items

/-- The state of the pool after some steps of its threads. -/
def poolAfter (items : List Str) (actions : List WorkPool.PoolAction) :
    Option (WorkPool.Pool Str IterResult) :=
  Runs.run (m.job items).step ((m.job items).start m.options.getConcurrency) actions

variable (actions : List WorkPool.PoolAction)

/-- A list of actions is one interleaving of the threads of the step, as far as it goes. -/
def Interleaving : Prop :=
  match m.plan with
  | .done _ => actions = []
  | .threads items => (m.poolAfter items actions).isSome

/-- `executeMapStep`; `none` if the step has not returned after these actions. -/
def executeMapStep : Option StepOutcome :=
  match m.plan with
  | .done o => some o
  | .threads items =>
    match m.poolAfter items actions with
    | none => none
    | some s =>
      if WorkPool.Job.Finished s then some (m.inOrder items 0 s.results (blankState items))
      else none

/-! ### The outcome -/

/-- What the step returns when its items are taken one after the other. -/
def outcome : StepOutcome :=
  match m.prepare with
  | .error o => o
  | .ok items => m.sequential items.length 0 items (blankState items)

/-- The results of the iterations, taken in order, are what the iterations give one by one. -/
theorem inOrder_mapIdx (items front rest : List Str) (hitems : items = front ++ rest)
    (s : MapState) :
    m.inOrder items front.length
        (rest.mapIdx fun i item => m.iterate items.length (front.length + i) item) s =
      m.sequential items.length front.length rest s := by
  induction rest generalizing front s with
  | nil => rfl
  | cons item rest ih =>
    have hitem : items.getD front.length [] = item := by simp [hitems]
    have hrest := ih (front ++ [item]) (by simp [hitems])
    simp only [length_append, length_singleton, Nat.add_assoc, Nat.add_comm 1] at hrest
    rw [mapIdx_cons, inOrder, sequential, hitem, Nat.add_zero]
    cases m.record front.length item (m.iterate items.length front.length item) s with
    | error o => rfl
    | ok s => exact hrest s

theorem inOrder_computed (items : List Str) :
    m.inOrder items 0 (m.job items).computed (blankState items) =
      m.sequential items.length 0 items (blankState items) := by
  simpa [WorkPool.Job.computed, job] using
    m.inOrder_mapIdx items [] items rfl (blankState items)

theorem plan_cases :
    m.plan = .done m.outcome ∨ ∃ items, m.prepare = .ok items ∧ m.plan = .threads items := by
  unfold plan outcome
  cases m.prepare with
  | error o => exact .inl rfl
  | ok items => exact (em _).imp (if_pos ·) fun hmany => ⟨items, rfl, if_neg hmany⟩

/-- Every interleaving of the workers returns what the items give one after the other. -/
theorem returns_outcome (hblock : m.options.getBackpressure = str "block") :
    Returns m.Interleaving m.executeMapStep m.outcome := by
  obtain hplan | ⟨items, hprepare, hplan⟩ := m.plan_cases
  · refine .of_done (fun actions => by simp only [Interleaving, hplan]) ?_
    simp only [executeMapStep, hplan]
  · have hblocking : (m.job items).blocking = true := by
      simp only [job, hblock]
      decide
    have hworkers := m.options.getConcurrency_pos
    refine .of_threads (fun actions => by rw [Interleaving, hplan]; rfl) ?_ ?_
      (fun actions s hrun => WorkPool.Job.length_le hblocking hrun)
      (fun actions s hrun =>
        WorkPool.Job.exists_finished hblocking m.options.getQueueSize_pos hworkers hrun)
    · intro actions s hrun hfinished
      rw [← poolAfter] at hrun
      have hresults := WorkPool.Job.results_of_run hblocking hworkers hrun hfinished
      simp only [executeMapStep, hplan, hrun, if_pos hfinished, hresults, inOrder_computed, outcome,
        hprepare]
    · intro actions s hrun hfinished
      rw [← poolAfter] at hrun
      simp only [executeMapStep, hplan, hrun, if_neg hfinished]

/-! ### Another concurrency -/

section WithConcurrency

variable (k : ℤ)

theorem runSubSteps_withConcurrency (baseIdx : ℕ) (steps : List WorkflowStep) (data : Str)
    (e : ExpressionEngine) :
    (m.withConcurrency k).runSubSteps baseIdx steps data e =
      m.runSubSteps baseIdx steps data e := by
  induction steps generalizing data e with
  | nil => rfl
  | cons step rest ih =>
    simp only [runSubSteps, ih]
    rfl

variable (hfree : ∀ idx item, m.refused idx item = none)

include hfree

theorem iterate_withConcurrency (item : Str) :
    (m.withConcurrency k).iterate count idx item = m.iterate count idx item := by
  have hrefusal : ∀ k', (m.withConcurrency k').refusal idx item = none := by
    intro k'
    unfold refusal
    split_ifs
    · exact hfree idx item
    · rfl
  have hself : m.refusal idx item = none := hrefusal m.options.concurrency
  simp only [iterate, hrefusal, hself, runOne, subWorkflow, runSubSteps_withConcurrency]
  rfl

theorem sequential_withConcurrency (items : List Str) (s : MapState) :
    (m.withConcurrency k).sequential count idx items s = m.sequential count idx items s := by
  induction items generalizing idx s with
  | nil => rfl
  | cons item rest ih =>
    simp only [sequential, ih, m.iterate_withConcurrency count idx k hfree]
    rfl

/-- If the limiter refuses nothing the concurrency does not change the outcome. -/
theorem outcome_withConcurrency : (m.withConcurrency k).outcome = m.outcome := by
  simp only [outcome, m.sequential_withConcurrency _ _ k hfree]
  rfl

end WithConcurrency

/-! ### Failures -/

/-- The items of the step; none if they cannot be evaluated. -/
def items : List Str :=
  match m.engine.evaluate m.env.world m.config.overExpr m.input with
  | .error _ => []
  | .ok overText => resolveMapItems overText m.options.getSplitBy

/-- An item is refused by the limiter, or its sub-workflow returns an error. -/
def Fails (idx : ℕ) (item : Str) : Prop :=
  m.refusal idx item ≠ none ∨
    m.panics idx item = false ∧ (m.subWorkflow m.items.length idx item).err ≠ none

/-- The sub-workflow of an item is run to its end without an error. -/
def Completes (idx : ℕ) (item : Str) : Prop :=
  m.refusal idx item = none ∧ m.panics idx item = false ∧
    (m.subWorkflow m.items.length idx item).err = none

theorem exists_interleaving : ∃ actions, m.Interleaving actions := by
  refine ⟨[], ?_⟩
  unfold Interleaving
  cases m.plan with
  | done o => rfl
  | threads items => rfl

variable {m}

/-- A step that stops at errors returns none exactly if no iteration has returned one. -/
theorem err_sequential (hstop : m.options.getStopOnError = true) (count idx : ℕ)
    (items : List Str) (s : MapState) :
    (m.sequential count idx items s).err = none ↔
      ∀ k item, items[k]? = some item → (m.iterate count (idx + k) item).err = none := by
  induction items generalizing idx s with
  | nil => simp [sequential, combine]
  | cons item rest ih =>
    cases herr : (m.iterate count idx item).err with
    | some err =>
      simp only [sequential, record, herr, hstop, if_true, reduceCtorEq, false_iff]
      intro hall
      have hitem := hall 0 item rfl
      rw [Nat.add_zero, herr] at hitem
      cases hitem
    | none =>
      simp only [sequential, record, herr, ih, Nat.add_right_comm idx 1, Nat.add_assoc]
      constructor
      · rintro hall (_ | k) item' hk
        · cases hk
          exact herr
        · exact hall k item' hk
      · exact fun hall k item' hk => hall (k + 1) item' hk

theorem err_iterate (item : Str) :
    (m.iterate m.items.length idx item).err = none ↔ ¬ m.Fails idx item := by
  unfold iterate runOne Fails
  cases m.refusal idx item <;> cases m.panics idx item <;> simp

/-- What keeps an item from being completed is a panic, a refusal or an error. -/
theorem not_completes_iff (item : Str) :
    ¬ m.Completes idx item ↔ m.panics idx item = true ∨ m.Fails idx item := by
  unfold Completes Fails
  cases m.refusal idx item <;> cases m.panics idx item <;> simp

theorem err_outcome (hstop : m.options.getStopOnError = true) (hitems : m.items ≠ []) :
    m.outcome.err = none ↔ ¬ m.options.getMaxIterations < m.items.length ∧
      ∀ idx item, m.items[idx]? = some item → ¬ m.Fails idx item := by
  simp only [← err_iterate]
  unfold items at hitems ⊢
  unfold outcome prepare
  cases heval : m.engine.evaluate m.env.world m.config.overExpr m.input with
  | error err => simp [heval] at hitems
  | ok overText =>
    simp only [heval] at hitems ⊢
    split_ifs with hmax
    · simp [StepOutcome.failed, hmax]
    · simpa [hmax] using err_sequential hstop _ 0 _ _

/-- A map step that stops at errors returns one whenever an item is not completed, unless a node
panics: the panic alone does not make the step fail. -/
theorem map_failures_surface_iff (hblock : m.options.getBackpressure = str "block")
    (hstop : m.options.getStopOnError = true) :
    (∀ actions o, m.Interleaving actions → m.executeMapStep actions = some o →
        (∃ idx item, m.items[idx]? = some item ∧ ¬ m.Completes idx item) → o.err ≠ none) ↔
      ((∃ idx item, m.items[idx]? = some item ∧ m.panics idx item = true) →
        m.options.getMaxIterations < m.items.length ∨
          ∃ idx item, m.items[idx]? = some item ∧ m.Fails idx item) := by
  have hreturns := m.returns_outcome hblock
  constructor
  · rintro hsurfaces ⟨idx, item, hitem, hpanics⟩
    have hitems := ne_nil_of_mem (mem_of_getElem? hitem)
    -- some interleaving returns the outcome, and the panic is an item that is not completed
    obtain ⟨start, hstart⟩ : ∃ start, m.Interleaving start := m.exists_interleaving
    obtain ⟨more, hmore, hexecute⟩ := hreturns.finishes start hstart
    have herr := hsurfaces _ _ hmore hexecute
      ⟨idx, item, hitem, (not_completes_iff idx item).mpr (.inl hpanics)⟩
    rw [Ne, err_outcome hstop hitems] at herr
    by_contra hnone
    push Not at hnone
    exact herr ⟨hnone.1.not_gt, hnone.2⟩
  · rintro hcond actions o hactions hexecute ⟨idx, item, hitem, hcompletes⟩ herr
    have hitems := ne_nil_of_mem (mem_of_getElem? hitem)
    rw [hreturns.unique actions o hactions hexecute, err_outcome hstop hitems] at herr
    have hpanics :=
      ((not_completes_iff idx item).mp hcompletes).resolve_right (herr.2 idx item hitem)
    obtain hmax | ⟨idx', item', hitem', hfails⟩ := hcond ⟨idx, item, hitem, hpanics⟩
    · exact herr.1 hmax
    · exact herr.2 idx' item' hitem' hfails

end MapStep

/-! ## Loops -/

/-- A loop step, its place in the workflow and what it is run in. -/
structure LoopStep where
  world : World
  step : WorkflowStep
  config : LoopConfig
  options : LoopOptions
  stepIndex : ℕ
  input : Str
  engine : ExpressionEngine

/-- `iterEval`: an item with its evaluated parameters. -/
structure IterEval where
  item : Str
  params : GoMap Str Str
  err : Option Str

/-- The results of the iterations so far, and the outputs of those that have succeeded. -/
structure LoopState where
  results : List StepResult
  outputs : List Str

namespace LoopStep

variable (l : LoopStep)

def withConcurrency (k : ℤ) : LoopStep := { l with options := { l.options with concurrency := k } }

/-- The parameters of an iteration, with the item under the name of the loop variable. -/
def iterEval (e : ExpressionEngine) (item : Str) : IterEval :=
  match e.evaluateParams l.world l.step.params l.input with
  | .error err => ⟨item, (∅ : GoMap Str Str).insert l.options.getVar item, some err⟩
  | .ok params => ⟨item, (params.getD ∅).insert l.options.getVar item, none⟩

/-- The parameters of all iterations, evaluated before the first one. -/
def preEvaluate (count : ℕ) : ℕ → List Str → ExpressionEngine → List IterEval
  | _, [], _ => []
  | idx, item :: rest, e =>
    let e := e.setLoopVars item idx count
    l.iterEval e item :: preEvaluate count (idx + 1) rest e

def runIteration (ie : IterEval) : IterResult :=
  match ie.err with
  | some err => ⟨[], some err⟩
  | none =>
    let answer := l.world.executeStep l.step ie.item (some ie.params)
    ⟨answer.1, answer.2⟩

/-- The result of an iteration is recorded; the step stops here if the iteration has failed and
`stop_on_error` is set. -/
def record (idx : ℕ) (item : Str) (r : IterResult) (s : LoopState) : Except StepOutcome LoopState :=
  let results :=
    s.results ++ [⟨l.stepIndex * maxParallel + idx, l.step.node, item, r.output, r.err⟩]
  match r.err with
  | some err =>
    if l.options.getStopOnError then
      .error ⟨results, [], some (str "loop iteration " ++ itoa (idx + 1) ++ str " failed: " ++ err)⟩
    else .ok { s with results := results }
  | none => .ok ⟨results, s.outputs ++ [r.output]⟩

def combine (s : LoopState) : StepOutcome := ⟨s.results, joinWith partSeparator s.outputs, none⟩

/-- The iterations one after the other. -/
def sequential : ℕ → List IterEval → LoopState → StepOutcome
  | _, [], s => combine s
  | idx, ie :: rest, s =>
    match l.record idx ie.item (l.runIteration ie) s with
    | .error o => o
    | .ok s => sequential (idx + 1) rest s

/-- The collected results, each with the index it came with. -/
def inOrder (evals : List IterEval) : List (ℕ × IterResult) → LoopState → StepOutcome
  | [], s => combine s
  | (idx, r) :: rest, s =>
    match l.record idx ((evals[idx]?.map (·.item)).getD []) r s with
    | .error o => o
    | .ok s => inOrder evals rest s

variable (evals : List IterEval)

def gathering : WorkPool.Gathering IterResult where
  count := evals.length
  compute idx := (evals[idx]?.map l.runIteration).getD ⟨[], none⟩
  blank := (0, ⟨[], none⟩)
  limit := l.options.getConcurrency

/-- The evaluated items, or what the step returns without an iteration. -/
def prepare : Except StepOutcome (List IterEval) :=
  match l.engine.evaluate l.world l.config.items l.input with
  | .error err => .error (.failed (str "failed to evaluate loop items: " ++ err))
  | .ok itemsText =>
    let items := splitItems itemsText (splitSetting l.config.splitBy)
    if l.options.getMaxIterations < items.length then
      .error (.failed (str "loop items (" ++ itoa items.length ++ str ") exceed max_iterations (" ++
        itoa l.options.getMaxIterations ++ str ")"))
    else if items = [] then .error ⟨[], [], none⟩
    else if (l.world.node l.step.node).isNone then
      .error (.failed (str "node '" ++ l.step.node ++ str "' not found in registry"))
    else .ok (l.preEvaluate items.length 0 items l.engine)

/-- The part of `executeLoopStep` before the goroutines are started. -/
def plan : Plan (List IterEval) :=
  match l.prepare with
  | .error o => .done o
  | .ok evals =>
    if l.options.getConcurrency ≤ 1 then .done (l.sequential 0 evals ⟨[], []⟩) else .threads evals

/-- The state of the goroutines after some of their steps. -/
def gatherAfter (actions : List WorkPool.GatherAction) : Option (WorkPool.Gather IterResult) :=
  Runs.run (l.gathering evals).step (l.gathering evals).init actions

variable (actions : List WorkPool.GatherAction)

/-- A list of actions is one interleaving of the threads of the step, as far as it goes. -/
def Interleaving : Prop :=
  match l.plan with
  | .done _ => actions = []
  | .threads evals => (l.gatherAfter evals actions).isSome

/-- `executeLoopStep`; `none` if the step has not returned after these actions. -/
def executeLoopStep : Option StepOutcome :=
  match l.plan with
  | .done o => some o
  | .threads evals =>
    match l.gatherAfter evals actions with
    | none => none
    | some s =>
      if (l.gathering evals).Finished s then some (l.inOrder evals s.slots ⟨[], []⟩) else none

/-! ### The outcome -/

/-- What the step returns when its items are taken one after the other. -/
def outcome : StepOutcome :=
  match l.prepare with
  | .error o => o
  | .ok evals => l.sequential 0 evals ⟨[], []⟩

/-- The results of the iterations, taken in order, are what the iterations give one by one. -/
theorem inOrder_range (evals front rest : List IterEval) (hevals : evals = front ++ rest)
    (s : LoopState) :
    l.inOrder evals ((List.range' front.length rest.length).map fun idx =>
        (idx, (l.gathering evals).compute idx)) s =
      l.sequential front.length rest s := by
  induction rest generalizing front s with
  | nil => rfl
  | cons ie rest ih =>
    have hie : evals[front.length]? = some ie := by simp [hevals]
    have hrest := ih (front ++ [ie]) (by simp [hevals])
    rw [length_append, length_singleton] at hrest
    rw [length_cons, range'_succ, map_cons, inOrder, sequential]
    simp only [gathering, hie, map_some, getD_some]
    cases l.record front.length ie.item (l.runIteration ie) s with
    | error o => rfl
    | ok s => exact hrest s

theorem inOrder_gathered :
    l.inOrder evals (l.gathering evals).gathered ⟨[], []⟩ = l.sequential 0 evals ⟨[], []⟩ := by
  rw [WorkPool.Gathering.gathered, range_eq_range']
  exact l.inOrder_range evals [] evals rfl ⟨[], []⟩

theorem plan_cases :
    l.plan = .done l.outcome ∨ ∃ evals, l.prepare = .ok evals ∧ l.plan = .threads evals := by
  unfold plan outcome
  cases l.prepare with
  | error o => exact .inl rfl
  | ok evals => exact (em _).imp (if_pos ·) fun hmany => ⟨evals, rfl, if_neg hmany⟩

/-- Every interleaving of the goroutines returns what the items give one after the other. -/
theorem returns_outcome : Returns l.Interleaving l.executeLoopStep l.outcome := by
  obtain hplan | ⟨evals, hprepare, hplan⟩ := l.plan_cases
  · refine .of_done (fun actions => by simp only [Interleaving, hplan]) ?_
    simp only [executeLoopStep, hplan]
  · refine .of_threads (fun actions => by rw [Interleaving, hplan]; rfl) ?_ ?_
      (fun actions s hrun => WorkPool.Gathering.length_le hrun)
      (fun actions s hrun =>
        WorkPool.Gathering.exists_finished l.options.getConcurrency_pos hrun)
    · intro actions s hrun hfinished
      rw [← gatherAfter] at hrun
      have hslots := WorkPool.Gathering.slots_of_run hrun hfinished
      simp only [executeLoopStep, hplan, hrun, if_pos hfinished, hslots, inOrder_gathered, outcome,
        hprepare]
    · intro actions s hrun hfinished
      rw [← gatherAfter] at hrun
      simp only [executeLoopStep, hplan, hrun, if_neg hfinished]

/-! ### Another concurrency -/

section WithConcurrency

variable (k : ℤ)

theorem preEvaluate_withConcurrency (items : List Str) (e : ExpressionEngine) :
    (l.withConcurrency k).preEvaluate count idx items e = l.preEvaluate count idx items e := by
  induction items generalizing idx e with
  | nil => rfl
  | cons item rest ih =>
    simp only [preEvaluate, ih]
    rfl

theorem prepare_withConcurrency : (l.withConcurrency k).prepare = l.prepare := by
  simp only [prepare, preEvaluate_withConcurrency]
  rfl

theorem sequential_withConcurrency (evals : List IterEval) (s : LoopState) :
    (l.withConcurrency k).sequential idx evals s = l.sequential idx evals s := by
  induction evals generalizing idx s with
  | nil => rfl
  | cons ie rest ih =>
    simp only [sequential, ih]
    rfl

theorem outcome_withConcurrency : (l.withConcurrency k).outcome = l.outcome := by
  simp only [outcome, prepare_withConcurrency, sequential_withConcurrency]

end WithConcurrency

end LoopStep

/-! ## The concurrency cannot be observed -/

/-- A map whose producer waits for its workers and is refused nothing, and a loop, return the same
results in the same order, the same output and the same error for every concurrency as for a
concurrency of one, whatever turns their threads take. -/
theorem iteration_concurrency_unobservable (k : ℤ) :
    (∀ m : MapStep, m.options.getBackpressure = str "block" →
      (∀ idx item, m.refused idx item = none) →
      ∃ o, Returns (m.withConcurrency 1).Interleaving (m.withConcurrency 1).executeMapStep o ∧
        Returns (m.withConcurrency k).Interleaving (m.withConcurrency k).executeMapStep o) ∧
    ∀ l : LoopStep,
      ∃ o, Returns (l.withConcurrency 1).Interleaving (l.withConcurrency 1).executeLoopStep o ∧
        Returns (l.withConcurrency k).Interleaving (l.withConcurrency k).executeLoopStep o := by
  constructor
  · intro m hblock hfree
    refine ⟨m.outcome, ?_, ?_⟩
    · rw [← m.outcome_withConcurrency 1 hfree]
      exact (m.withConcurrency 1).returns_outcome hblock
    · rw [← m.outcome_withConcurrency k hfree]
      exact (m.withConcurrency k).returns_outcome hblock
  · intro l
    refine ⟨l.outcome, ?_, ?_⟩
    · rw [← l.outcome_withConcurrency 1]
      exact (l.withConcurrency 1).returns_outcome
    · rw [← l.outcome_withConcurrency k]
      exact (l.withConcurrency k).returns_outcome

/-- Nodes that fail for the input `b` and give every other input back. -/
def pickyWorld : World :=
  { nodeWorld with
    executeStep := fun _ input _ =>
      if input = str "b" then ([], some (str "no")) else (input, none) }

/-- A map over three items whose sub-workflow fails for the second one. -/
def pickyMap : MapStep where
  env := ⟨pickyWorld, fun _ _ _ _ _ => .early none⟩
  compoundEngine _ _ _ _ e := e
  config := ⟨str "a\nb\nc", [{ node := str "n" }]⟩
  options := {}
  outputStrategy := []
  stepIndex := 2
  input := []
  engine := newExpressionEngine

/-- A loop over the same items that does not stop at the failure. -/
def pickyLoop : LoopStep where
  world := pickyWorld
  step := { node := str "n" }
  config := ⟨str "a\nb\nc", []⟩
  options := { stopOnError := some false }
  stepIndex := 2
  input := []
  engine := newExpressionEngine

/-- What the map returns: the second item has failed. -/
def pickyMapOutcome : StepOutcome :=
  ⟨[⟨100, str "map", str "a", str "a", none⟩,
    ⟨101, str "map", str "b", [], some (str "sub-step node 'n' failed: no")⟩], [],
    some (str "map iteration 2 failed: sub-step node 'n' failed: no")⟩

/-- What the loop returns: the outputs of the first and the third item. -/
def pickyLoopOutcome : StepOutcome :=
  ⟨[⟨100, str "n", str "a", str "a", none⟩, ⟨101, str "n", str "b", [], some (str "no")⟩,
    ⟨102, str "n", str "c", str "c", none⟩], str "a\n---\nc", none⟩

theorem iteration_concurrency_picky :
    pickyMap.options.getBackpressure = str "block" ∧
      Returns (pickyMap.withConcurrency 3).Interleaving (pickyMap.withConcurrency 3).executeMapStep
        pickyMapOutcome ∧
      Returns (pickyLoop.withConcurrency 3).Interleaving
        (pickyLoop.withConcurrency 3).executeLoopStep pickyLoopOutcome := by
  have hblock : pickyMap.options.getBackpressure = str "block" := by decide
  have hmap : (pickyMap.withConcurrency 1).executeMapStep [] = some pickyMapOutcome := by
    decide +kernel
  have hloop : (pickyLoop.withConcurrency 1).executeLoopStep [] = some pickyLoopOutcome := by
    decide +kernel
  obtain ⟨o, hone, hthree⟩ :=
    (iteration_concurrency_unobservable 3).1 pickyMap hblock fun _ _ => rfl
  obtain ⟨o', hone', hthree'⟩ := (iteration_concurrency_unobservable 3).2 pickyLoop
  refine ⟨hblock, ?_, ?_⟩
  · rwa [hone.unique [] pickyMapOutcome rfl hmap]
  · rwa [hone'.unique [] pickyLoopOutcome rfl hloop]

/-- The same map, with a node that panics at the second item. -/
def panickyMap : MapStep := { pickyMap with panics := fun _ item => item = str "b" }

/-- A failure that is not a panic makes the step fail. -/
theorem map_failures_surface_picky :
    pickyMap.options.getBackpressure = str "block" ∧ pickyMap.options.getStopOnError = true ∧
      pickyMap.items[1]? = some (str "b") ∧ ¬ pickyMap.Completes 1 (str "b") ∧
      ∀ actions o, pickyMap.Interleaving actions → pickyMap.executeMapStep actions = some o →
        (∃ idx item, pickyMap.items[idx]? = some item ∧ ¬ pickyMap.Completes idx item) →
        o.err ≠ none := by
  refine ⟨by decide, by decide, by decide +kernel, ?_, ?_⟩
  · unfold MapStep.Completes
    decide +kernel
  · refine (MapStep.map_failures_surface_iff (by decide) (by decide)).mpr ?_
    rintro ⟨_, _, _, hpanics⟩
    exact absurd hpanics Bool.false_ne_true

/-- The second item panics, and the step returns the outputs without an error. -/
theorem not_map_failures_surface :
    ¬ ∀ m : MapStep, m.options.getBackpressure = str "block" → m.options.getStopOnError = true →
      ∀ actions o, m.Interleaving actions → m.executeMapStep actions = some o →
        (∃ idx item, m.items[idx]? = some item ∧ ¬ m.Completes idx item) → o.err ≠ none := by
  intro hall
  have hexecute : panickyMap.executeMapStep [] =
      some ⟨[⟨100, str "map", str "a", str "a", none⟩, ⟨101, str "map", str "b", [], none⟩,
        ⟨102, str "map", str "c", str "c", none⟩], str "[\"a\",\"\",\"c\"]", none⟩ := by
    decide +kernel
  refine hall panickyMap (by decide) (by decide) [] _ rfl hexecute ⟨1, str "b", ?_, ?_⟩ rfl
  · decide +kernel
  · rintro ⟨-, hpanics, -⟩
    exact absurd hpanics (by decide)

end Workflow
