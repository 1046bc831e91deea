import Aflare.Workflow.DagResume

/-!
# The order in which workers finish

A fresh run dispatches a step as soon as its dependencies are done, so that the order of dispatch
depends on the order in which the workers finish. What a step is given and what it gives does not,
as long as its templates refer to steps that it waits for. The error that ends an aborted run does:
it is that of the first step in the order of dispatch that cannot be recovered.
-/

namespace Workflow

open Go List

/-- What can happen in a run that is not shut down: the main goroutine goes on, with the fate of a
checkpoint it may write, or a worker delivers what its node computes. -/
inductive WorkerAction
  | tick (disk : Option Time)
  | finish (idx : ℕ)

/-- The order in which a world ranges over maps. -/
def World.order (w : World) : RangeOrder where
  params := w.rangeParams
  outputs := w.rangeOutputs
  params_perm := w.rangeParams_perm
  outputs_perm := w.rangeOutputs_perm

namespace Sched

variable {c : DAGConfig} {kept : ℕ → Prop} {m : ℕ → StepMeaning} {s s' : Sched}

def workerStep (c : DAGConfig) (s : Sched) : WorkerAction → Option Sched
  | .tick disk => s.step c (.tick disk)
  | .finish idx => (s.prepared idx).bind fun ps => s.step c (.receive (workerResult c idx ps))

def workerRun (c : DAGConfig) (s : Sched) (actions : List WorkerAction) : Option Sched :=
  Runs.run (workerStep c) s actions

theorem nodeStep_of_workerStep {a : WorkerAction} (h : s.workerStep c a = some s') :
    ∃ b, s.nodeStep c b = some s' := by
  cases a with
  | tick disk => exact ⟨.tick c.world.order disk, h⟩
  | finish idx => exact ⟨.finish idx, h⟩

theorem move_of_workerStep {a : WorkerAction} (h : s.workerStep c a = some s') :
    ∃ b ≠ Action.signalShutdown, Move c s b s' := by
  cases a with
  | tick disk => exact ⟨.tick disk, by simp, move_of_step c h⟩
  | finish idx =>
    obtain ⟨ps, -, h⟩ := Option.bind_eq_some_iff.mp h
    exact ⟨_, by simp, move_of_step c h⟩

/-- What a run has prepared and reported is the meaning of the steps, and the error that ends it is
that of the first processed step that aborts. -/
structure Exact (c : DAGConfig) (m : ℕ → StepMeaning) (s : Sched) : Prop where
  prepared : ∀ i, ∀ ps ∈ s.prepared i, ps = (m i).prepared
  reported : ∀ r ∈ s.allResults, r = ⟨r.stepIndex, (c.wf.step r.stepIndex).node,
    (m r.stepIndex).prepared.input, (m r.stepIndex).outcome.output,
    (m r.stepIndex).outcome.resultErr⟩
  firstAbortErr : s.firstAbortErr = s.processed.findSome? fun i => (m i).outcome.abortErr

section

variable (hg : c.graph.WellFormed) (hn : c.graph.nodeCount = c.wf.steps.length)
  (hdecl : Declared c.wf c.graph kept) (hm : IsMeaning c kept m)

include hg hn hdecl hm

variable (hrun : s.RunsTo c kept m) (h : s.Exact c m)

include hrun h

theorem Exact.dispatchOne {idx : ℕ} {rest : List ℕ} (hqueue : s.readyQueue = idx :: rest)
    (hab : s.aborted = false) : (s.dispatchOne c idx rest).Exact c m := by
  have hmem : idx ∈ s.readyQueue := hqueue ▸ mem_cons_self
  have hlt := hrun.inv.lt_length hn (mem_append_right _ hmem)
  have hps : prepareDAGStep c idx s.resolver s.engine = (m idx).prepared := by
    rw [hm idx]
    exact prepareDAGStep_eq hg hn hdecl hrun.follows.engine hlt
      (fun k => hrun.follows.sources_written hrun.inv hab hmem) hrun.follows.resolver
  have hprepared : ∀ i, ∀ ps ∈ Function.update s.prepared idx (some (m idx).prepared) i,
      ps = (m i).prepared :=
    (Function.forall_update_iff s.prepared fun i p => ∀ ps ∈ p, ps = (m i).prepared).mpr
      ⟨by simp, fun i _ => h.prepared i⟩
  have hprocessed : (s.dispatchSeq ++ [idx]).take s.processPos = s.processed :=
    take_append_of_le_length hrun.inv.workers.pos_le
  have hfirst : s.firstAbortErr = ((s.dispatchSeq ++ [idx]).take s.processPos).findSome? fun i =>
      (m i).outcome.abortErr := by
    rw [hprocessed]
    exact h.firstAbortErr
  have hcases := dispatchOne_cases (c := c) s idx rest
  rw [hps] at hcases
  rcases hcases with ⟨-, heq⟩ | ⟨-, -, heq⟩ | ⟨-, heq⟩ <;>
    exact heq ▸ ⟨hprepared, h.reported, hfirst⟩

theorem Exact.processStep {idx : ℕ} {ps : PreparedStep} (hturn : s.Turn idx ps)
    (disk : Option Time) : (s.processStep c disk idx ps).Exact c m := by
  have hseq : idx ∈ s.dispatchSeq := mem_of_getElem? hturn.next
  have hlt := hrun.inv.lt_length hn (mem_append_left _ hseq)
  have hprepared := h.prepared idx ps hturn.prepared
  have houtcome : s.outcome c idx ps = (m idx).outcome := by
    rw [outcome_eq_outcomeOf (hrun.inv.result_of_worker hrun.follows.results hturn), hprepared,
      hm idx]
    exact outcomeOf_eq hg hn hdecl hrun.follows.engine hlt (hrun.follows.dispatched idx hseq)
  have hproc : Processes c idx ps (s.outcome c idx ps) s (s.processStep c disk idx ps) :=
    processes_withOrder c.world.order disk hturn.next
  obtain ⟨pending, queue, completed, checkpoints, heq, -⟩ := processStep_eq (c := c) s disk idx ps
  refine ⟨?_, ?_, ?_⟩
  · rw [heq]
    exact h.prepared
  · rw [hproc.allResults, houtcome, hprepared]
    exact forall_mem_append.mpr ⟨h.reported, forall_mem_singleton.mpr rfl⟩
  · rw [hproc.processed, findSome?_append, ← h.firstAbortErr, heq, houtcome]
    simp only [findSome?_cons, findSome?_nil]
    cases (m idx).outcome.abortErr <;> rfl

theorem Exact.workerStep {a : WorkerAction}
    (hstep : s.workerStep c a = some s') : s'.Exact c m := by
  obtain ⟨b, hb, hmove⟩ := move_of_workerStep hstep
  cases hmove with
  | signal => exact absurd rfl hb
  | dispatch hphase hqueue hab hflag => exact h.dispatchOne hg hn hdecl hm hrun hqueue hab
  | @receive res hwait hidx =>
    rcases receive_cases (c := c) s res with ⟨-, -, heq⟩ | ⟨-, heq⟩ <;> exact heq ▸ { h with }
  | process hturn => exact h.processStep hg hn hdecl hm hrun hturn _
  | _ => exact { h with }

omit hrun h

theorem exact_workerRun {actions : List WorkerAction}
    (hrun : (newDAGScheduler c).workerRun c actions = some s) :
    s.RunsTo c kept m ∧ s.Exact c m := by
  refine Runs.invariant (P := fun t => t.RunsTo c kept m ∧ t.Exact c m) ?_ ?_ hrun
  · rintro t a t' ⟨hruns, hexact⟩ hstep
    obtain ⟨b, hb⟩ := nodeStep_of_workerStep hstep
    exact ⟨hruns.nodeStep hg hn hdecl hm hb, hexact.workerStep hg hn hdecl hm hruns hstep⟩
  · exact ⟨runsTo_newDAGScheduler c kept m, by simp [newDAGScheduler], by simp [newDAGScheduler],
      by simp [newDAGScheduler, processed]⟩

end

end Sched

/-- The meaning of every step of a fresh run. -/
noncomputable def freshMeaning (c : DAGConfig) (hg : c.graph.WellFormed) : ℕ → StepMeaning :=
  meaning c (show WellFounded (Precedes c.graph fun _ => True) from wellFounded_precedes hg)

theorem isMeaning_freshMeaning {c : DAGConfig} (hg : c.graph.WellFormed) :
    IsMeaning c (fun _ => True) (freshMeaning c hg) := meaning_eq hg _

/-- Two runs that have ended agree on every step that both dispatch, on whether they abort, and on
the abort error of every step; without an abort both dispatch every step, and with one each ends
with the first of these errors in its order of dispatch. -/
theorem schedule_independent {c : DAGConfig} (hgraph : buildDepGraph c.wf.steps = .ok c.graph)
    (hdecl : Declared c.wf c.graph fun _ => True) {actions actions' : List WorkerAction}
    {s s' : Sched} (hrun : (startDAG c none).workerRun c actions = some s) (hdone : s.phase = .done)
    (hrun' : (startDAG c none).workerRun c actions' = some s') (hdone' : s'.phase = .done) :
    (∀ i, ∀ ps ∈ s.prepared i, ∀ ps' ∈ s'.prepared i, ps = ps') ∧
    (∀ r ∈ s.allResults, ∀ r' ∈ s'.allResults, r.stepIndex = r'.stepIndex → r = r') ∧
    s.aborted = s'.aborted ∧
    (s.aborted = false → ∀ i < c.wf.steps.length,
      (∃ r ∈ s.allResults, r.stepIndex = i) ∧ ∃ r' ∈ s'.allResults, r'.stepIndex = i) ∧
    ∃ abortErr : ℕ → Option Str,
      (∀ i, abortErr i =
        (freshMeaning c (wellFormed_of_buildDepGraph hgraph).1 i).outcome.abortErr) ∧
      s.firstAbortErr = s.dispatchSeq.findSome? abortErr ∧
      s'.firstAbortErr = s'.dispatchSeq.findSome? abortErr := by
  obtain ⟨hg, hn⟩ := wellFormed_of_buildDepGraph hgraph
  have hm := isMeaning_freshMeaning hg
  obtain ⟨hruns, hexact⟩ := Sched.exact_workerRun hg hn hdecl hm hrun
  obtain ⟨hruns', hexact'⟩ := Sched.exact_workerRun hg hn hdecl hm hrun'
  -- a run that has ended has processed what it dispatched, also after an abort
  have hfirst : ∀ {t : Sched}, t.RunsTo c (fun _ => True) (freshMeaning c hg) →
      t.Exact c (freshMeaning c hg) → t.phase = .done →
      t.firstAbortErr = t.dispatchSeq.findSome? fun i =>
        (freshMeaning c hg i).outcome.abortErr := by
    intro t ht hext hend
    rw [hext.firstAbortErr, Sched.processed, (ht.inv.done hend).1, take_length]
  have hreported : ∀ {t : Sched}, t.RunsTo c (fun _ => True) (freshMeaning c hg) →
      t.phase = .done → t.aborted = false → ∀ i < c.wf.steps.length,
        ∃ r ∈ t.allResults, r.stepIndex = i := by
    intro t ht hend hab i hi
    have hmem := (ht.reported_perm hg hn hend hab).mem_iff.mpr
      (mem_map_of_mem (mem_range.mpr hi))
    obtain ⟨r, hr, heq⟩ := mem_map.mp hmem
    exact ⟨r, hr, congrArg Prod.fst heq⟩
  have habort : s.aborted = s'.aborted := by
    rw [Bool.eq_iff_iff, hruns.aborted_iff hg hn hdone, hruns'.aborted_iff hg hn hdone']
  refine ⟨?_, ?_, habort, ?_, _, fun _ => rfl, hfirst hruns hexact hdone,
    hfirst hruns' hexact' hdone'⟩
  · intro i ps hps ps' hps'
    rw [hexact.prepared i ps hps, hexact'.prepared i ps' hps']
  · intro r hr r' hr' hindex
    rw [hexact.reported r hr, hexact'.reported r' hr', hindex]
  · intro hab i hi
    exact ⟨hreported hruns hdone hab i hi, hreported hruns' hdone' (habort ▸ hab) i hi⟩

/-- The main goroutine goes on for some time. -/
def turns (n : ℕ) : List WorkerAction := List.replicate n (.tick none)

/-- A run that does not resume another one. -/
def freshRun (c : DAGConfig) (actions : List WorkerAction) : Option Sched :=
  (startDAG c none).workerRun c actions

/-- Of two independent steps, each with a step that waits for it, the first finishes first. -/
def firstFirst : List WorkerAction :=
  turns 4 ++ .finish 0 :: turns 7 ++ .finish 1 :: turns 7 ++ .finish 2 :: turns 6 ++
    .finish 3 :: turns 5

/-- The second finishes first, so that the fourth step is dispatched before the third. -/
def secondFirst : List WorkerAction :=
  turns 4 ++ .finish 1 :: turns 3 ++ .finish 0 :: turns 11 ++ .finish 3 :: turns 6 ++
    .finish 2 :: turns 5

private theorem declared_crossSteps (world : World) :
    Declared (sampleConfig world crossSteps []).wf (sampleConfig world crossSteps []).graph
      fun _ => True := by
  have hrefs : ∀ i < crossSteps.length,
      stepRefs ((sampleConfig world crossSteps []).wf.step i) = [] := by
    change ∀ i < 4, stepRefs (crossSteps.getD i default) = []
    decide
  constructor
  · intro i hi ref href
    rw [hrefs i hi] at href
    cases href
  · intro i hi ref href
    rw [hrefs i hi] at href
    cases href

/-- The two orders give the same results, though the steps are dispatched in another order. -/
theorem schedule_independent_cross :
    ∃ s s', (startDAG crossConfig none).workerRun crossConfig firstFirst = some s ∧
      (startDAG crossConfig none).workerRun crossConfig secondFirst = some s' ∧
      s.dispatchSeq ≠ s'.dispatchSeq ∧ s.aborted = s'.aborted ∧
      ∀ r ∈ s.allResults, ∀ r' ∈ s'.allResults, r.stepIndex = r'.stepIndex → r = r' := by
  obtain ⟨s, hs, hdone, hseq⟩ : ∃ s ∈ freshRun crossConfig firstFirst,
      s.phase = .done ∧ s.dispatchSeq = [0, 1, 2, 3] := by decide
  obtain ⟨s', hs', hdone', hseq'⟩ : ∃ s ∈ freshRun crossConfig secondFirst,
      s.phase = .done ∧ s.dispatchSeq = [0, 1, 3, 2] := by decide
  obtain ⟨-, hresults, habort, -⟩ := schedule_independent
    (buildDepGraph_sampleConfig (by decide)) (declared_crossSteps tagWorld) hs hdone hs'
    hdone'
  exact ⟨s, s', hs, hs', by rw [hseq, hseq']; decide, habort, hresults⟩

/-- A world in which the nodes `c` and `d` fail. -/
def abortWorld : World :=
  { echoWorld with
    executeStep := fun step input _ =>
      if step.node = str "c" ∨ step.node = str "d" then ([], some step.node)
      else (step.node ++ input, none) }

/-- Two steps with one name, and a third that waits for both and refers to this name. -/
def namesakeSteps : List WorkflowStep :=
  [{ node := str "a", name := str "x" }, { node := str "b", name := str "x" },
    { node := str "c"
      dependsOn := [str "1", str "2"]
      input := some [str "\x7b\x7bstep.x\x7d\x7d"] }]

/-- The error that ends an aborted run depends on the order in which the workers finish, and so does
what a template is given that refers to a name which two of its dependencies have. -/
theorem not_schedule_independent :
    (¬ ∀ (c : DAGConfig) (actions actions' : List WorkerAction) (s s' : Sched),
      buildDepGraph c.wf.steps = .ok c.graph → Declared c.wf c.graph (fun _ => True) →
      (startDAG c none).workerRun c actions = some s → s.phase = .done →
      (startDAG c none).workerRun c actions' = some s' → s'.phase = .done →
        s.firstAbortErr = s'.firstAbortErr) ∧
    ¬ ∀ (c : DAGConfig) (actions actions' : List WorkerAction) (s s' : Sched),
      buildDepGraph c.wf.steps = .ok c.graph →
      (∀ i < c.wf.steps.length, ∀ ref ∈ stepRefs (c.wf.step i), ∀ key ∈ refKeys ref,
        ∀ j, Writes c.wf j key → Relation.TransGen (fun d i => d ∈ c.graph.deps i) j i) →
      (startDAG c none).workerRun c actions = some s → s.phase = .done →
      (startDAG c none).workerRun c actions' = some s' → s'.phase = .done →
        ∀ i, ∀ ps ∈ s.prepared i, ∀ ps' ∈ s'.prepared i, ps = ps' := by
  constructor
  · intro h
    obtain ⟨s, hs, hdone, herr⟩ :
        ∃ s ∈ freshRun (sampleConfig abortWorld crossSteps []) firstFirst,
          s.phase = .done ∧ s.firstAbortErr = some (str "c") := by decide
    obtain ⟨s', hs', hdone', herr'⟩ :
        ∃ s ∈ freshRun (sampleConfig abortWorld crossSteps []) secondFirst,
          s.phase = .done ∧ s.firstAbortErr = some (str "d") := by decide
    have heq := h _ firstFirst secondFirst s s' (buildDepGraph_sampleConfig (by decide))
      (declared_crossSteps abortWorld) hs hdone hs' hdone'
    rw [herr, herr'] at heq
    exact absurd heq (by decide)
  · intro h
    obtain ⟨s, hs, hdone, ps, hps, hinput⟩ :
        ∃ s ∈ freshRun (sampleConfig tagWorld namesakeSteps []) (turns 4 ++
          .finish 0 :: turns 6 ++ .finish 1 :: turns 7 ++ .finish 2 :: turns 5),
          s.phase = .done ∧ ∃ ps ∈ s.prepared 2, ps.input = str "b" := by decide
    obtain ⟨s', hs', hdone', ps', hps', hinput'⟩ :
        ∃ s ∈ freshRun (sampleConfig tagWorld namesakeSteps []) (turns 4 ++
          .finish 1 :: turns 2 ++ .finish 0 :: turns 11 ++ .finish 2 :: turns 5),
          s.phase = .done ∧ ∃ ps ∈ s.prepared 2, ps.input = str "a" := by decide
    have hrefs : ∀ i < 3, ∀ ref ∈ stepRefs (namesakeSteps.getD i default), ∀ key ∈ refKeys ref,
        ∀ j < 3, Writes (sampleConfig tagWorld namesakeSteps []).wf j key →
          j ∈ (sampleConfig tagWorld namesakeSteps []).graph.deps i := by
      decide
    have heq := h (sampleConfig tagWorld namesakeSteps []) _ _ s s'
      (buildDepGraph_sampleConfig (by decide))
      (fun i hi ref href key hkey j hj => .single (hrefs i hi ref href key hkey j hj.1 hj))
      hs hdone hs' hdone' 2 ps hps ps' hps'
    rw [heq, hinput'] at hinput
    exact absurd hinput (by decide)

end Workflow
