import Aflare.Lib.Dataflow
import Aflare.Workflow.DagScheduling

/-!
# What a workflow computes

A workflow whose steps refer to declared dependencies only is a dataflow graph: the outcome of a
step is a function of the outputs of the steps before it, and the schedule does not enter. The
scheduler is compared with this function.
-/

namespace Workflow

open Go List

/-! ## The steps before a step -/

section Precedes

variable {g : DepGraph} {kept : ℕ → Prop} {k i : ℕ}

/-- `k` is a dependency of `i`, or one of a dependency that is not forgotten. -/
inductive Precedes (g : DepGraph) (kept : ℕ → Prop) (k : ℕ) : ℕ → Prop
  | dep {i : ℕ} (h : k ∈ g.deps i) : Precedes g kept k i
  | trans {d i : ℕ} (h : d ∈ g.deps i) (hk : Precedes g kept k d) (hkept : kept k) :
      Precedes g kept k i

theorem Precedes.transGen (h : Precedes g kept k i) :
    Relation.TransGen (fun d i => d ∈ g.deps i) k i := by
  induction h with
  | dep h => exact .single h
  | trans h _ _ ih => exact ih.tail h

theorem wellFounded_precedes (hg : g.WellFormed) : WellFounded (Precedes g kept) :=
  Subrelation.wf (fun h => h.transGen) (WellFounded.intro hg.acc).transGen

theorem Precedes.lt (hg : g.EdgesWithin) (h : Precedes g kept k i) : k < g.nodeCount := by
  induction h with
  | dep h => exact (hg.lt _ _ h).1
  | trans _ _ _ ih => exact ih

open Classical in
/-- The steps before a step, in the order of their indices. -/
noncomputable def sources (g : DepGraph) (kept : ℕ → Prop) (i : ℕ) : List ℕ :=
  (List.range g.nodeCount).filter fun k => Precedes g kept k i

theorem mem_sources (hg : g.EdgesWithin) : k ∈ sources g kept i ↔ Precedes g kept k i := by
  simp only [sources, mem_filter, mem_range, decide_eq_true_eq, and_iff_right_iff_imp]
  exact fun h => h.lt hg

end Precedes

/-! ## The outputs that an engine holds -/

/-- The step `j` writes its output under the key. -/
def Writes (wf : WorkflowDef) (j : ℕ) (key : Str) : Prop :=
  j < wf.steps.length ∧
    (key = idxKey j ∨ storesName (wf.step j).name = true ∧ key = nameKey (wf.step j).name)
  deriving Decidable

/-- No two steps write under the key. -/
def Unambiguous (wf : WorkflowDef) (key : Str) : Prop :=
  ∀ j j', Writes wf j key → Writes wf j' key → j = j'

/-- The engine holds the outputs `out` of the steps of `D`, and nothing else. -/
structure EngineHolds (wf : WorkflowDef) (out : ℕ → Str) (D : Finset ℕ)
    (e : ExpressionEngine) : Prop where
  vars : e.vars = wf.vars
  loopVars : e.loopVars = none
  written : ∀ key j, j ∈ D → Writes wf j key → Unambiguous wf key →
    e.stepOutputs[key]? = some (out j)
  unwritten : ∀ key, (∀ j ∈ D, ¬ Writes wf j key) → e.stepOutputs[key]? = none

variable {i : ℕ}

namespace EngineHolds

variable {wf : WorkflowDef} {out : ℕ → Str} {D : Finset ℕ} {e : ExpressionEngine}

theorem new (wf : WorkflowDef) (out : ℕ → Str) :
    EngineHolds wf out ∅ { newExpressionEngine with vars := wf.vars } where
  vars := rfl
  loopVars := rfl
  written := by simp
  unwritten := by simp [newExpressionEngine]

open Classical in
theorem getElem?_setStepOutput (hi : i < wf.steps.length) (output key : Str) :
    (e.setStepOutput i (wf.step i).name output).stepOutputs[key]? =
      if Writes wf i key then some output else e.stepOutputs[key]? := by
  simp [ExpressionEngine.getElem?_setStepOutput, Writes, hi, true_and]

/-- Storing an output, in place of an earlier one of the step if there is one. -/
theorem update (h : EngineHolds wf out D e) (hi : i < wf.steps.length) (output : Str) :
    EngineHolds wf (Function.update out i output) (insert i D)
      (e.setStepOutput i (wf.step i).name output) where
  vars := h.vars
  loopVars := h.loopVars
  written := by
    intro key j hj hwrites hunique
    by_cases hkey : Writes wf i key
    · obtain rfl := hunique i j hkey hwrites
      rw [getElem?_setStepOutput hi, if_pos hkey, Function.update_self]
    · have hne : j ≠ i := by
        rintro rfl
        exact hkey hwrites
      rw [getElem?_setStepOutput hi, if_neg hkey, Function.update_of_ne hne]
      exact h.written key j (Finset.mem_of_mem_insert_of_ne hj hne) hwrites hunique
  unwritten := by
    intro key hkey
    rw [getElem?_setStepOutput hi, if_neg (hkey i (Finset.mem_insert_self _ _))]
    exact h.unwritten key fun j hj => hkey j (Finset.mem_insert_of_mem hj)

theorem insert (h : EngineHolds wf out D e) (hi : i < wf.steps.length) :
    EngineHolds wf out (insert i D) (e.setStepOutput i (wf.step i).name (out i)) := by
  simpa using h.update hi (out i)

end EngineHolds

/-! ## Declared references -/

/-- The keys under which a reference is looked up. -/
def refKeys (ref : Str) : List Str := [str "idx:" ++ ref, nameKey ref, ref]

/-- The step references of the templates of a step. -/
def stepRefs (step : WorkflowStep) : List Str :=
  (step.input.getD []).flatMap templateRefs ++ templateRefs step.condition ++
    (if step.isCompound then [] else ExpressionEngine.paramsRefs step.params) ++ recoveryRefs step

/-- Every step that a template of a step can refer to precedes it, under a key of its own. -/
structure Declared (wf : WorkflowDef) (g : DepGraph) (kept : ℕ → Prop) : Prop where
  precedes : ∀ i < wf.steps.length, ∀ ref ∈ stepRefs (wf.step i), ∀ key ∈ refKeys ref,
    ∀ j, Writes wf j key → Precedes g kept j i
  unambiguous : ∀ i < wf.steps.length, ∀ ref ∈ stepRefs (wf.step i), ∀ key ∈ refKeys ref,
    Unambiguous wf key

variable {wf : WorkflowDef} {g : DepGraph}

theorem Declared.of_deps {kept : ℕ → Prop}
    (hdeps : ∀ i < wf.steps.length, ∀ ref ∈ stepRefs (wf.step i), ∀ key ∈ refKeys ref,
      ∀ j < wf.steps.length, Writes wf j key → j ∈ g.deps i)
    (hunique : ∀ i < wf.steps.length, ∀ ref ∈ stepRefs (wf.step i), ∀ key ∈ refKeys ref,
      ∀ j < wf.steps.length, ∀ j' < wf.steps.length, Writes wf j key → Writes wf j' key → j = j') :
    Declared wf g kept where
  precedes i hi ref href key hkey j hj := .dep (hdeps i hi ref href key hkey j hj.1 hj)
  unambiguous i hi ref href key hkey j j' hj hj' :=
    hunique i hi ref href key hkey j hj.1 j' hj'.1 hj hj'

variable {e e' : ExpressionEngine}

theorem ExpressionEngine.AgreeOn.of_keys {refs : List Str} (hvars : e.vars = e'.vars)
    (hloop : e.loopVars = e'.loopVars)
    (hkey : ∀ ref ∈ refs, ∀ key ∈ refKeys ref, e.stepOutputs[key]? = e'.stepOutputs[key]?) :
    AgreeOn refs e e' where
  vars := hvars
  loopVars := hloop
  evalStepRef := by
    intro ref href
    simp only [ExpressionEngine.evalStepRef, hkey ref href _ mem_cons_self,
      hkey ref href (nameKey ref) (by simp [refKeys]), hkey ref href ref (by simp [refKeys])]

/-- Two engines that hold the steps which references can mean agree on them. -/
theorem EngineHolds.agreeOn {out : ℕ → Str} {D D' : Finset ℕ}
    (h : EngineHolds wf out D e) (h' : EngineHolds wf out D' e')
    {refs : List Str} (hunique : ∀ ref ∈ refs, ∀ key ∈ refKeys ref, Unambiguous wf key)
    (hmem : ∀ ref ∈ refs, ∀ key ∈ refKeys ref, ∀ j, Writes wf j key → j ∈ D ∧ j ∈ D') :
    ExpressionEngine.AgreeOn refs e e' := by
  refine .of_keys (h.vars.trans h'.vars.symm) (h.loopVars.trans h'.loopVars.symm)
    fun ref href key hkey => ?_
  by_cases hw : ∃ j, Writes wf j key
  · obtain ⟨j, hj⟩ := hw
    obtain ⟨hD, hD'⟩ := hmem ref href key hkey j hj
    rw [h.written key j hD hj (hunique ref href key hkey),
      h'.written key j hD' hj (hunique ref href key hkey)]
  · rw [h.unwritten key fun j _ hj => hw ⟨j, hj⟩, h'.unwritten key fun j _ hj => hw ⟨j, hj⟩]

/-! ## Preparing a step -/

theorem resolveInput_congr {resolver resolver' : ℕ → Option Str}
    {initialInput : Str} (h : ∀ d ∈ g.deps i, resolver d = resolver' d) :
    resolveInput g i resolver initialInput = resolveInput g i resolver' initialInput := by
  have hsorted : ∀ d ∈ g.sorted (g.deps i), resolver d = resolver' d := fun d hd =>
    h d (DepGraph.mem_sorted.mp hd).2
  unfold resolveInput
  generalize g.sorted (g.deps i) = ds at hsorted
  match ds with
  | [] => rfl
  | [d] => simp [hsorted d mem_cons_self]
  | d :: d' :: rest =>
    have hparts : (d :: d' :: rest).filterMap resolver = (d :: d' :: rest).filterMap resolver' :=
      filterMap_congr hsorted
    simp [hparts]

variable {step : WorkflowStep} {input : Str} {w : World}

/-- A prepared step depends on the engine only through its references. -/
theorem prepareStep_congr (h : ExpressionEngine.AgreeOn (stepRefs step) e e') :
    prepareStep w step i input e = prepareStep w step i input e' := by
  have hinput : resolveStepInput w e step.input input = resolveStepInput w e' step.input input :=
    resolveStepInput_congr (h.mono (by simp [stepRefs]))
  have hcondition : ∀ input, evaluateCondition w e step.condition input =
      evaluateCondition w e' step.condition input := fun input =>
    evaluateCondition_congr (h.mono (by simp [stepRefs]))
  have hparams : step.isCompound = false → ∀ input, e.evaluateParams w step.params input =
      e'.evaluateParams w step.params input := by
    intro hcompound input
    apply ExpressionEngine.evaluateParams_congr
    apply h.mono
    intro ref href
    simp [stepRefs, hcompound, href]
  unfold prepareStep
  simp only [hinput, hcondition]
  cases hcompound : step.isCompound with
  | true => rfl
  | false => simp [hparams hcompound]

/-- A prepared step without the text of its error, which depends on the order of ranges. -/
def PreparedStep.forget (ps : PreparedStep) : PreparedStep :=
  { ps with evalErr := ps.evalErr.map fun _ => [] }

theorem PreparedStep.eq_of_forget {ps ps' : PreparedStep} (h : ps.forget = ps'.forget)
    (herr : ps.evalErr = none) : ps = ps' := by
  obtain ⟨idx, input, params, evalErr, skipped⟩ := ps
  obtain ⟨idx', input', params', evalErr', skipped'⟩ := ps'
  obtain rfl : evalErr = none := herr
  simp only [PreparedStep.forget, PreparedStep.mk.injEq, Option.map_none] at h
  obtain ⟨rfl, rfl, rfl, herr', rfl⟩ := h
  rw [Option.map_eq_none_iff.mp herr'.symm]

theorem prepareStep_withOrder {e : ExpressionEngine} (order : RangeOrder) :
    (prepareStep (w.withOrder order) step i input e).forget =
      (prepareStep w step i input e).forget := by
  have hcondition : ∀ input, evaluateCondition (w.withOrder order) e step.condition input =
      evaluateCondition w e step.condition input := fun _ => rfl
  unfold prepareStep
  rw [resolveStepInput_withOrder]
  cases resolveStepInput w e step.input input with
  | error err => rfl
  | ok input =>
    simp only [hcondition]
    cases evaluateCondition w e step.condition input with
    | error err => rfl
    | ok passed =>
      cases passed with
      | false => rfl
      | true =>
        dsimp only
        split
        · rfl
        · -- only here a map is ranged over
          have hparams :=
            ExpressionEngine.evaluateParams_withOrder (w := w) (e := e) order step.params input
          cases hother : e.evaluateParams (w.withOrder order) step.params input with
          | error err =>
            cases hparam : e.evaluateParams w step.params input with
            | error err' => rfl
            | ok params => simp [hother, hparam, Except.toOption] at hparams
          | ok params =>
            cases hparam : e.evaluateParams w step.params input with
            | error err' => simp [hother, hparam, Except.toOption] at hparams
            | ok params' =>
              obtain rfl : params = params' := by
                simpa [hother, hparam, Except.toOption] using hparams
              rfl

/-! ## The meaning of a workflow -/

variable (c : DAGConfig)

/-- The result of the worker of a prepared step. -/
def workerResult (i : ℕ) (ps : PreparedStep) : ExecResult :=
  let result := c.world.executeStep (c.wf.step i) ps.input ps.evaluatedParams
  ⟨i, result.1, result.2⟩

/-- The outcome of a prepared step, recovered by the given engine if its worker fails. -/
def outcomeOf (i : ℕ) (ps : PreparedStep) (e : ExpressionEngine) : Sched.Outcome :=
  match ps.evalErr with
  | some err => ⟨[], some err, some err⟩
  | none =>
    if ps.skipped then ⟨[], none, none⟩
    else
      let res := workerResult c i ps
      match res.err with
      | none => ⟨res.output, none, none⟩
      | some err =>
        let r := applyErrorRecovery c.world (c.wf.step i) res.output err e ps.input
        ⟨r.output, r.traceErr, r.abortErr⟩

/-- The same outcome, apart from the text of an error that aborts. -/
structure Sched.Outcome.Same (o o' : Sched.Outcome) : Prop where
  output : o.output = o'.output
  abortErr : o.abortErr.isSome = o'.abortErr.isSome
  eq : o.abortErr = none → o = o'

variable {ps : PreparedStep}

theorem outcome_eq_outcomeOf {c : DAGConfig} {s : Sched}
    (hres : ps.hasWorker = true → s.results i = some (workerResult c i ps)) :
    s.outcome c i ps = outcomeOf c i ps s.engine := by
  unfold Sched.outcome outcomeOf
  cases hevalErr : ps.evalErr with
  | some err => rfl
  | none =>
    cases hskipped : ps.skipped with
    | true => rfl
    | false =>
      rewrite [hres (by simp [PreparedStep.hasWorker, hevalErr, hskipped])]
      rfl

theorem outcomeOf_skipped {c : DAGConfig} (herr : ps.evalErr = none) (hskip : ps.skipped = true)
    (e : ExpressionEngine) : outcomeOf c i ps e = ⟨[], none, none⟩ := by
  simp [outcomeOf, herr, hskip]

theorem outcomeOf_success {c : DAGConfig} (hworker : ps.hasWorker = true)
    (hok : (workerResult c i ps).err = none) (e : ExpressionEngine) :
    outcomeOf c i ps e = ⟨(workerResult c i ps).output, none, none⟩ := by
  obtain ⟨herr, hskip⟩ : ps.evalErr = none ∧ ps.skipped = false := by
    simpa [PreparedStep.hasWorker] using hworker
  simp [outcomeOf, herr, hskip, hok]

/-- The engine that holds the outputs of the listed steps. -/
def sourceEngine (wf : WorkflowDef) (out : ℕ → Str) (ks : List ℕ) : ExpressionEngine :=
  ks.foldl (fun e (k : ℕ) => e.setStepOutput k (wf.step k).name (out k))
    { newExpressionEngine with vars := wf.vars }

variable {ks : List ℕ}

theorem holds_sourceEngine (out : ℕ → Str) (hks : ∀ k ∈ ks, k < wf.steps.length) :
    EngineHolds wf out ks.toFinset (sourceEngine wf out ks) := by
  -- the steps written so far are those of a front of the list
  induction ks using List.reverseRecOn with
  | nil => exact EngineHolds.new wf out
  | append_singleton front k ih =>
    have hfront := ih fun j hj => hks j (mem_append_left _ hj)
    have hlast := hfront.insert (hks k (by simp))
    have hset : (front ++ [k]).toFinset = insert k front.toFinset := by
      simp [toFinset_append]
    rw [hset, sourceEngine, foldl_append]
    exact hlast

theorem sourceEngine_congr {out out' : ℕ → Str}
    (h : ∀ k ∈ ks, out k = out' k) : sourceEngine wf out ks = sourceEngine wf out' ks := by
  unfold sourceEngine
  apply foldl_ext
  intro e k hk
  rw [h k hk]

/-- How a step is prepared, and its outcome. -/
structure StepMeaning where
  prepared : PreparedStep
  outcome : Sched.Outcome

instance : Inhabited StepMeaning := ⟨⟨⟨0, [], none, none, false⟩, ⟨[], none, none⟩⟩⟩

/-- The meaning of a step, given the outputs of the steps before it. -/
noncomputable def meaningOf (kept : ℕ → Prop) (i : ℕ) (out : ℕ → Str) : StepMeaning :=
  let ks := sources c.graph kept i
  let e := sourceEngine c.wf out ks
  let ps := prepareDAGStep c i (fun k => if k ∈ ks then some (out k) else none) e
  ⟨ps, outcomeOf c i ps e⟩

noncomputable def meaning {kept : ℕ → Prop}
    (hwf : WellFounded (Precedes c.graph kept)) : ℕ → StepMeaning :=
  Dataflow.solve hwf fun i m => meaningOf c kept i fun k => (m k).outcome.output

section Meaning

variable {c : DAGConfig} {kept : ℕ → Prop} (hg : c.graph.WellFormed)

include hg

theorem meaning_eq (hwf : WellFounded (Precedes c.graph kept)) (i : ℕ) :
    meaning c hwf i = meaningOf c kept i fun k => (meaning c hwf k).outcome.output := by
  refine Dataflow.solve_eq hwf ?_ i
  intro i m m' h
  have hout : ∀ k ∈ sources c.graph kept i, (m k).outcome.output = (m' k).outcome.output :=
    fun k hk => by rw [h k ((mem_sources hg.toEdgesWithin).mp hk)]
  have hengine : sourceEngine c.wf _ _ = sourceEngine c.wf _ _ := sourceEngine_congr hout
  have hresolver : (fun k => if k ∈ sources c.graph kept i then some (m k).outcome.output else none)
      = fun k => if k ∈ sources c.graph kept i then some (m' k).outcome.output else none := by
    funext k
    split
    · rename_i hk
      rw [hout k hk]
    · rfl
  simp [meaningOf, hengine, hresolver]

variable (hn : c.graph.nodeCount = c.wf.steps.length) (hdecl : Declared c.wf c.graph kept)
  {out : ℕ → Str} {D : Finset ℕ} {e : ExpressionEngine} {i : ℕ}

include hn hdecl

variable (he : EngineHolds c.wf out D e) (hi : i < c.wf.steps.length)
  (hD : ∀ k, Precedes c.graph kept k i → k ∈ D)

include he hi hD

/-- An engine that holds the steps before a step reads for its templates what the engine of the
sources does. -/
theorem agreeOn_sourceEngine :
    ExpressionEngine.AgreeOn (stepRefs (c.wf.step i)) e
      (sourceEngine c.wf out (sources c.graph kept i)) := by
  have hlt : ∀ k ∈ sources c.graph kept i, k < c.wf.steps.length := by
    intro k hk
    rw [← hn]
    exact ((mem_sources hg.toEdgesWithin).mp hk).lt hg.toEdgesWithin
  refine he.agreeOn (holds_sourceEngine out hlt) (hdecl.unambiguous i hi) ?_
  intro ref href key hkey j hj
  have hprec := hdecl.precedes i hi ref href key hkey j hj
  exact ⟨hD j hprec, mem_toFinset.mpr ((mem_sources hg.toEdgesWithin).mpr hprec)⟩

variable {resolver : ℕ → Option Str}

theorem prepareDAGStep_eq (hresolver : ∀ k ∈ D, resolver k = some (out k)) :
    prepareDAGStep c i resolver e = (meaningOf c kept i out).prepared := by
  have hinput : resolveInput c.graph i resolver c.initialInput =
      resolveInput c.graph i (fun k => if k ∈ sources c.graph kept i then some (out k) else none)
        c.initialInput := by
    apply resolveInput_congr
    intro d hd
    rw [hresolver d (hD d (.dep hd)), if_pos ((mem_sources hg.toEdgesWithin).mpr (.dep hd))]
  have hagree := agreeOn_sourceEngine hg hn hdecl he hi hD
  rw [prepareDAGStep, hinput, prepareStep_congr hagree]
  rfl

theorem prepareDAGStep_eq_meaning
    (hresolver : ∀ k ∈ D, resolver k = some (out k)) (order : RangeOrder) :
    (prepareDAGStep { c with world := c.world.withOrder order } i resolver e).forget =
      (meaningOf c kept i out).prepared.forget := by
  rw [← prepareDAGStep_eq hg hn hdecl he hi hD hresolver]
  exact prepareStep_withOrder order

/-- The outcome of a step that is prepared as its meaning says is what its meaning says. -/
theorem outcomeOf_eq :
    outcomeOf c i (meaningOf c kept i out).prepared e = (meaningOf c kept i out).outcome := by
  have hagree := agreeOn_sourceEngine hg hn hdecl he hi hD
  have hrecover : ∀ output err,
      applyErrorRecovery c.world (c.wf.step i) output err e
          (meaningOf c kept i out).prepared.input =
        applyErrorRecovery c.world (c.wf.step i) output err
          (sourceEngine c.wf out (sources c.graph kept i))
          (meaningOf c kept i out).prepared.input := by
    intro output err
    apply applyErrorRecovery_congr
    apply hagree.mono
    exact subset_append_right _ _
  change _ = outcomeOf c i (meaningOf c kept i out).prepared
    (sourceEngine c.wf out (sources c.graph kept i))
  simp [outcomeOf, hrecover]

/-- The outcome of a step is what its meaning says. -/
theorem outcomeOf_eq_meaning (hps : ps.forget = (meaningOf c kept i out).prepared.forget)
    (order : RangeOrder) : (outcomeOf { c with world := c.world.withOrder order } i ps e).Same
      (meaningOf c kept i out).outcome := by
  cases herr : ps.evalErr with
  | some err =>
    have hevalErr : some ([] : Str) =
        (meaningOf c kept i out).prepared.evalErr.map fun _ => [] := by
      simpa [PreparedStep.forget, herr] using congrArg PreparedStep.evalErr hps
    obtain ⟨err', herr', -⟩ := Option.map_eq_some_iff.mp hevalErr.symm
    have houtcome : (meaningOf c kept i out).outcome = ⟨[], some err', some err'⟩ := by
      rw [← outcomeOf_eq hg hn hdecl he hi hD]
      simp [outcomeOf, herr']
    rw [houtcome]
    simp only [outcomeOf, herr]
    exact ⟨rfl, rfl, by simp⟩
  | none =>
    rw [PreparedStep.eq_of_forget hps herr]
    have hrecover : ∀ output err,
        applyErrorRecovery (c.world.withOrder order) (c.wf.step i) output err e
            (meaningOf c kept i out).prepared.input =
          applyErrorRecovery c.world (c.wf.step i) output err e
            (meaningOf c kept i out).prepared.input :=
      fun output err => applyErrorRecovery_withOrder ..
    have heq : outcomeOf { c with world := c.world.withOrder order } i
          (meaningOf c kept i out).prepared e =
        outcomeOf c i (meaningOf c kept i out).prepared e := by
      simp only [outcomeOf, hrecover]
      rfl
    rw [heq, outcomeOf_eq hg hn hdecl he hi hD]
    exact ⟨rfl, rfl, fun _ => rfl⟩

omit he hi hD

end Meaning

end Workflow
