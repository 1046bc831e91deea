import Aflare.Workflow.DagCheckpoint
import Aflare.Workflow.Meaning

/-!
# Resuming dependency graphs

A run of deterministic nodes computes the meaning of the workflow, whatever the order in which the
workers finish, and so does a run that resumes from a checkpoint of another one.
-/

namespace Workflow

open Go List Option Function Finset

/-! ## Runs of deterministic nodes -/

/-- What can happen in a run that is not shut down: the main goroutine goes on, with the order of
the ranges and the fate of a checkpoint it may write, or a worker delivers what its node computes.
-/
inductive NodeAction
  | tick (order : RangeOrder) (disk : Option Time)
  | finish (idx : ℕ)

/-- The configuration with the given order of ranges. -/
def DAGConfig.withOrder (c : DAGConfig) (order : RangeOrder) : DAGConfig :=
  { c with world := c.world.withOrder order }

variable {a : NodeAction} {i : ℕ}

namespace Sched

def nodeStep (c : DAGConfig) (s : Sched) : NodeAction → Option Sched
  | .tick order disk => s.step (c.withOrder order) (.tick disk)
  | .finish idx => (s.prepared idx).bind fun ps => s.step c (.receive (workerResult c idx ps))

def nodeRun (c : DAGConfig) (s : Sched) (actions : List NodeAction) : Option Sched :=
  Runs.run (nodeStep c) s actions

/-- What an action can do to the state. -/
inductive NodeMove (c : DAGConfig) : Sched → Sched → Prop
  | goto {s : Sched} (phase : Phase) : NodeMove c s { s with phase := phase }
  | dispatch {s : Sched} {idx : ℕ} {rest : List ℕ} (order : RangeOrder)
      (hqueue : s.readyQueue = idx :: rest) (hab : s.aborted = false) :
      NodeMove c s (s.dispatchOne (c.withOrder order) idx rest)
  | receive {s : Sched} {idx : ℕ} {ps : PreparedStep} (hidx : idx ∈ s.inFlight)
      (hps : s.prepared idx = some ps) : NodeMove c s (s.receive c (workerResult c idx ps))
  | process {s : Sched} {idx : ℕ} {ps : PreparedStep} (order : RangeOrder) (disk : Option Time)
      (hturn : s.Turn idx ps) :
      NodeMove c s (s.processStep (c.withOrder order) disk idx ps)

variable {c : DAGConfig} {s s' : Sched}

theorem nodeMove_of_nodeStep (h : s.nodeStep c a = some s') : NodeMove c s s' := by
  cases a with
  | tick order disk =>
    have hstep : s.step (c.withOrder order) (.tick disk) = some s' := h
    cases move_of_step _ hstep with
    | round | finish => exact .goto _
    | dispatch _ hqueue hab => exact .dispatch order hqueue hab
    | dispatched | arrived => exact .goto _
    | process hturn => exact .process order _ hturn
  | finish idx =>
    obtain ⟨ps, hps, h⟩ := bind_eq_some_iff.mp h
    cases move_of_step c h with
    | receive _ hidx => exact .receive hidx hps

theorem step_of_nodeStep (h : s.nodeStep c a = some s') :
    ∃ world b, b ≠ .signalShutdown ∧ s.step { c with world := world } b = some s' := by
  cases a with
  | tick order disk => exact ⟨c.world.withOrder order, .tick disk, by simp, h⟩
  | finish idx =>
    obtain ⟨ps, _, h⟩ := bind_eq_some_iff.mp h
    exact ⟨c.world, .receive _, by simp, h⟩

theorem Inv.withWorld {world : World} (h : s.Inv c) : s.Inv { c with world := world } := { h with }

theorem Inv.nodeStep (hg : c.graph.EdgesWithin) (h : s.Inv c)
    (hstep : s.nodeStep c a = some s') : s'.Inv c := by
  obtain ⟨world, b, -, hstep⟩ := step_of_nodeStep hstep
  have h' : s'.Inv { c with world := world } :=
    Inv.move (c := { c with world := world }) hg h.withWorld (move_of_step _ hstep)
  exact h'.withWorld

/-- The steps whose output is written. -/
def written (s : Sched) : Finset ℕ := s.resumed ∪ s.propagated

theorem written_finalize (s : Sched) (idx : ℕ) (output : Str) :
    (s.finalize c idx output).written = insert idx s.written := by
  rw [written, propagated_finalize]
  exact union_insert _ _ _

theorem written_processStep {idx : ℕ} (hidx : s.dispatchSeq[s.processPos]? = some idx)
    (disk : Option Time) (ps : PreparedStep) :
    (s.processStep c disk idx ps).written = insert idx s.written := by
  have hsame := sameProgress_processStep (c := c) s disk idx ps
  rw [written, propagated, processed, hsame.resumed, hsame.finalized, hsame.dispatchSeq,
    hsame.processPos]
  change s.resumed ∪ (s.finalized ∪ (s.dispatchSeq.take (s.processPos + 1)).toFinset) = _
  rw [processed_succ hidx, union_insert, union_insert]
  rfl

theorem Inv.lt_length (h : s.Inv c) (hn : c.graph.nodeCount = c.wf.steps.length)
    (hi : i ∈ s.dispatchSeq ++ s.readyQueue) : i < c.wf.steps.length :=
  hn ▸ (h.queued.within i hi).1

theorem Inv.mem_of_written (h : s.Inv c) (hi : i ∈ s.written) :
    i ∈ s.resumed ∨ i ∈ s.dispatchSeq := by
  rcases mem_union.mp hi with hi | hi
  · exact .inl hi
  rcases mem_union.mp hi with hi | hi
  · exact .inr (h.workers.finalized_mem i hi)
  · exact .inr (mem_of_mem_take (mem_toFinset.mp hi))

end Sched

variable {c : DAGConfig}

/-- The result of a worker has arrived when its step is processed. -/
theorem Sched.Inv.result_of_worker {s : Sched} (hinv : s.Inv c)
    (hresults : ∀ i, ∀ res ∈ s.results i, ∀ ps ∈ s.prepared i, res = workerResult c i ps)
    {idx : ℕ} {ps : PreparedStep} (hturn : s.Turn idx ps) (hworker : ps.hasWorker = true) :
    s.results idx = some (workerResult c idx ps) := by
  obtain ⟨res, hres⟩ := isSome_iff_exists.mp (hturn.arrived hinv hworker)
  rw [hres, hresults idx res hres ps hturn.prepared]

theorem update_results {results : ℕ → Option ExecResult}
    {prepared : ℕ → Option PreparedStep} {idx : ℕ} {r : Option ExecResult}
    (h : ∀ i, ∀ res ∈ results i, ∀ ps ∈ prepared i, res = workerResult c i ps)
    (hr : ∀ res ∈ r, ∀ ps ∈ prepared idx, res = workerResult c idx ps) :
    ∀ i, ∀ res ∈ Function.update results idx r i, ∀ ps ∈ prepared i, res = workerResult c i ps :=
  (forall_update_iff results fun i r => ∀ res ∈ r, ∀ ps ∈ prepared i, res = workerResult c i ps).mpr
    ⟨hr, fun i _ => h i⟩

/-! ## The meaning along a run -/

/-- The output that a step is to give. -/
def outputOf (m : ℕ → StepMeaning) (i : ℕ) : Str := (m i).outcome.output

/-- The meaning of every step is computed from the outputs of those before it. -/
def IsMeaning (c : DAGConfig) (kept : ℕ → Prop) (m : ℕ → StepMeaning) : Prop :=
  ∀ i, m i = meaningOf c kept i (outputOf m)

section

variable {c : DAGConfig} {kept : ℕ → Prop} {m : ℕ → StepMeaning} {i : ℕ} {ps : PreparedStep}

theorem IsMeaning.outcome_eq (hm : IsMeaning c kept m) (i : ℕ) :
    ∃ e, (m i).outcome = outcomeOf c i (m i).prepared e := by
  rw [hm i]
  exact ⟨_, rfl⟩

theorem IsMeaning.of_skipped (hm : IsMeaning c kept m) (hps : ps.forget = (m i).prepared.forget)
    (herr : ps.evalErr = none) (hskip : ps.skipped = true) : (m i).outcome = ⟨[], none, none⟩ := by
  obtain ⟨e, hout⟩ := hm.outcome_eq i
  rw [hout, ← PreparedStep.eq_of_forget hps herr, outcomeOf_skipped herr hskip]

theorem IsMeaning.of_success (hm : IsMeaning c kept m) (hps : ps.forget = (m i).prepared.forget)
    (hworker : ps.hasWorker = true) (hok : (workerResult c i ps).err = none) :
    (m i).outcome = ⟨(workerResult c i ps).output, none, none⟩ := by
  have herr : ps.evalErr = none := by
    simpa using (Bool.and_eq_true_iff.mp hworker).1
  obtain ⟨e, hout⟩ := hm.outcome_eq i
  rw [hout, ← PreparedStep.eq_of_forget hps herr, outcomeOf_success hworker hok]

theorem IsMeaning.abortErr_eq_none (hm : IsMeaning c kept m)
    (hok : (m i).outcome.resultErr = none) : (m i).outcome.abortErr = none := by
  obtain ⟨e, hout⟩ := hm.outcome_eq i
  rw [hout] at hok ⊢
  revert hok
  unfold outcomeOf
  split
  · exact id
  · split
    · exact id
    · dsimp only
      split
      · exact id
      · exact applyErrorRecovery_abortErr

end

variable {idx : ℕ} {rest : List ℕ}

namespace Sched

/-- What the scheduler has prepared, received and written, the latter for the steps of `D`, is the
meaning of the steps. -/
structure Follows (c : DAGConfig) (kept : ℕ → Prop) (m : ℕ → StepMeaning) (D : Finset ℕ)
    (s : Sched) : Prop where
  engine : EngineHolds c.wf (outputOf m) D s.engine
  resolver : ∀ i ∈ D, s.resolver i = some (outputOf m i)
  prepared : ∀ i, ∀ ps ∈ s.prepared i, ps.forget = (m i).prepared.forget
  results : ∀ i, ∀ res ∈ s.results i, ∀ ps ∈ s.prepared i, res = workerResult c i ps
  dispatched : ∀ i ∈ s.dispatchSeq, ∀ k, Precedes c.graph kept k i → k ∈ D
  resumed : ∀ i ∈ s.resumed, ∀ k, Precedes c.graph kept k i → kept k → k ∈ D

namespace Follows

variable {c : DAGConfig} {kept : ℕ → Prop} {m : ℕ → StepMeaning} {D : Finset ℕ} {s s' : Sched}

theorem writeBack (h : s.Follows c kept m D) (hi : i < c.wf.steps.length) :
    (s.writeBack c i (outputOf m i)).Follows c kept m (insert i D) :=
  { h with
    engine := h.engine.insert hi
    resolver := (forall_update_iff s.resolver fun j o =>
      j ∈ insert i D → o = some (outputOf m j)).mpr
      ⟨fun _ => rfl, fun j hji hj => h.resolver j ((mem_insert.mp hj).resolve_left hji)⟩
    dispatched j hj k hk := mem_insert_of_mem (h.dispatched j hj k hk)
    resumed j hj k hk hkept := mem_insert_of_mem (h.resumed j hj k hk hkept) }

theorem finalize (h : s.Follows c kept m s.written) (hi : i < c.wf.steps.length) {output : Str}
    (hout : outputOf m i = output) :
    (s.finalize c i output).Follows c kept m (s.finalize c i output).written := by
  rw [written_finalize, ← hout]
  exact { h.writeBack hi with }

theorem enter (h : s.Follows c kept m D) (hres : s.results idx = none)
    {ps : PreparedStep} (hps : ps.forget = (m idx).prepared.forget)
    (hsources : ∀ k, Precedes c.graph kept k idx → k ∈ D) :
    (s.enter idx rest ps).Follows c kept m D := by
  refine ⟨h.engine, h.resolver, ?_, ?_, ?_, h.resumed⟩
  · exact (forall_update_iff s.prepared fun i p => ∀ ps ∈ p, ps.forget = (m i).prepared.forget).mpr
      ⟨by simpa using hps, fun i _ => h.prepared i⟩
  · exact (forall_update_iff s.prepared fun i p =>
      ∀ res ∈ s.results i, ∀ ps ∈ p, res = workerResult c i ps).mpr
      ⟨by simp [hres], fun i _ => h.results i⟩
  · exact forall_mem_append.mpr ⟨h.dispatched, forall_mem_singleton.mpr hsources⟩

section

variable (hg : c.graph.WellFormed) (hn : c.graph.nodeCount = c.wf.steps.length)
  (hdecl : Declared c.wf c.graph kept) (hm : IsMeaning c kept m)

theorem sources_written (hinv : s.Inv c) (h : s.Follows c kept m s.written)
    (hab : s.aborted = false) (hidx : idx ∈ s.readyQueue) {k : ℕ}
    (hk : Precedes c.graph kept k idx) : k ∈ s.written := by
  have hdeps : c.graph.deps idx ⊆ s.written :=
    (hinv.counted hab).deps_subset hinv.queued (mem_append_right _ hidx)
  cases hk with
  | dep hk => exact hdeps hk
  | trans hd hk hkept =>
    -- the dependency in between was resumed or dispatched
    rcases hinv.mem_of_written (hdeps hd) with hd | hd
    · exact h.resumed _ hd k hk hkept
    · exact h.dispatched _ hd k hk

include hg hn hdecl hm

theorem dispatchOne (hinv : s.Inv c) (h : s.Follows c kept m s.written) (hab : s.aborted = false)
    (hqueue : s.readyQueue = idx :: rest) (order : RangeOrder) :
    (s.dispatchOne (c.withOrder order) idx rest).Follows c kept m
      (s.dispatchOne (c.withOrder order) idx rest).written := by
  have hmem : idx ∈ s.readyQueue := hqueue ▸ mem_cons_self
  have hlt := hinv.lt_length hn (mem_append_right _ hmem)
  have hfresh : idx ∉ s.dispatchSeq := hinv.queued.notMem_seq hmem
  have hsources : ∀ k, Precedes c.graph kept k idx → k ∈ s.written := fun k =>
    sources_written hinv h hab hmem
  have hps : (prepareDAGStep (c.withOrder order) idx s.resolver s.engine).forget =
      (m idx).prepared.forget := by
    rw [hm idx]
    exact prepareDAGStep_eq_meaning hg hn hdecl h.engine hlt hsources h.resolver order
  have hcases := dispatchOne_cases (c := c.withOrder order) s idx rest
  set ps := prepareDAGStep (c.withOrder order) idx s.resolver s.engine
  have hwritten : (s.enter idx rest ps).written = s.written := by
    simp only [written, propagated, processed, Sched.enter,
      take_append_of_le_length hinv.workers.pos_le]
  have hentered : (s.enter idx rest ps).Follows c kept m (s.enter idx rest ps).written := by
    rw [hwritten]
    refine h.enter ?_ hps hsources
    -- no result of the new step has arrived
    by_contra hres
    exact hfresh (mem_of_mem_drop
      (hinv.workers.results_mem idx (isSome_iff_ne_none.mpr hres)))
  rcases hcases with ⟨-, heq⟩ | ⟨herr, hskip, heq⟩ | ⟨-, heq⟩ <;> rw [heq]
  · exact hentered
  · refine hentered.finalize hlt ?_
    rw [outputOf, hm.of_skipped hps herr hskip]
  · exact { hentered with }

omit hdecl hn hg in
theorem receive (hinv : s.Inv c) (hn : c.graph.nodeCount = c.wf.steps.length)
    (h : s.Follows c kept m s.written) {ps : PreparedStep} (hidx : idx ∈ s.inFlight)
    (hps : s.prepared idx = some ps) :
    (s.receive c (workerResult c idx ps)).Follows c kept m
      (s.receive c (workerResult c idx ps)).written := by
  have hseq : idx ∈ s.dispatchSeq := mem_of_mem_drop (hinv.workers.flight_mem idx hidx)
  have hlt := hinv.lt_length hn (mem_append_left _ hseq)
  have hres : ∀ res ∈ some (workerResult c idx ps), ∀ ps ∈ s.prepared idx,
      res = workerResult c idx ps := by simp [hps]
  have hkept : (s.keep (workerResult c idx ps)).Follows c kept m s.written :=
    { h with results := update_results h.results hres }
  rcases receive_cases (c := c) s (workerResult c idx ps) with ⟨hok, -, heq⟩ | ⟨-, heq⟩ <;> rw [heq]
  · have hworker := hinv.workers.flight_worker idx hidx ps hps
    refine hkept.finalize hlt ?_
    rw [outputOf, hm.of_success (h.prepared idx ps hps) hworker hok]
  · exact hkept

omit hdecl hn hg hm in
theorem settle (h : s.Follows c kept m D) {c' : DAGConfig} (idx : ℕ) (o : Outcome)
    (disk : Option Time) : (s.settle c' idx o disk).Follows c kept m D := by
  obtain ⟨pending, queue, completed, checkpoints, heq, -⟩ := settle_eq (c := c') s idx o disk
  rw [heq]
  exact { h with }

variable (hinv : s.Inv c) (h : s.Follows c kept m s.written)

include hinv h

theorem outcome_same {ps : PreparedStep} (hturn : s.Turn idx ps) (order : RangeOrder) :
    (s.outcome (c.withOrder order) idx ps).Same (m idx).outcome := by
  have hseq : idx ∈ s.dispatchSeq := mem_of_getElem? hturn.next
  have hlt := hinv.lt_length hn (mem_append_left _ hseq)
  have hres : ps.hasWorker = true →
      s.results idx = some (workerResult (c.withOrder order) idx ps) :=
    hinv.result_of_worker h.results hturn
  have hforget := h.prepared idx ps hturn.prepared
  rw [outcome_eq_outcomeOf hres]
  rw [hm idx] at hforget ⊢
  exact outcomeOf_eq_meaning hg hn hdecl h.engine hlt (h.dispatched idx hseq) hforget order

theorem processStep {ps : PreparedStep} (hturn : s.Turn idx ps) (order : RangeOrder)
    (disk : Option Time) :
    (s.processStep (c.withOrder order) disk idx ps).Follows c kept m
      (s.processStep (c.withOrder order) disk idx ps).written := by
  have hseq : idx ∈ s.dispatchSeq := mem_of_getElem? hturn.next
  have hlt := hinv.lt_length hn (mem_append_left _ hseq)
  have hout := (h.outcome_same hg hn hdecl hm hinv hturn order).output
  have hwrite := h.writeBack hlt
  have hrecord : (s.recordResult (c.withOrder order) idx ps
      (s.outcome (c.withOrder order) idx ps)).Follows c kept m (insert idx s.written) := by
    unfold Sched.recordResult
    rw [hout]
    exact { hwrite with results := update_results h.results (by simp) }
  rw [written_processStep hturn.next]
  exact hrecord.settle idx _ disk

theorem nodeStep (hstep : s.nodeStep c a = some s') : s'.Follows c kept m s'.written := by
  cases nodeMove_of_nodeStep hstep with
  | goto phase => exact { h with }
  | dispatch order hqueue hab => exact h.dispatchOne hg hn hdecl hm hinv hab hqueue order
  | receive hidx hps => exact h.receive hm hinv hn hidx hps
  | process order disk hturn => exact h.processStep hg hn hdecl hm hinv hturn order disk

omit hinv h

end

end Follows

/-! ## What is reported and saved -/

/-- What an action does to the verdict, the reports and the checkpoints, when a set of steps is
newly written on arrival. -/
structure Arrives (new : Finset ℕ) (s s' : Sched) : Prop where
  resumed : s'.resumed = s.resumed
  processed : s'.processed = s.processed
  written : s'.written = new ∪ s.written
  firstAbortErr : s'.firstAbortErr = s.firstAbortErr
  completedOK : s'.completedOK = new ∪ s.completedOK
  allResults : s'.allResults = s.allResults
  checkpoints : s'.checkpoints = s.checkpoints

section

variable {c : DAGConfig} {kept : ℕ → Prop} {m : ℕ → StepMeaning} {s s' : Sched}

theorem Arrives.of_eq (hresumed : s'.resumed = s.resumed) (hprocessed : s'.processed = s.processed)
    (hfinalized : s'.finalized = s.finalized) (hfirst : s'.firstAbortErr = s.firstAbortErr)
    (hcompleted : s'.completedOK = s.completedOK) (hresults : s'.allResults = s.allResults)
    (hcheckpoints : s'.checkpoints = s.checkpoints) : Arrives ∅ s s' := by
  refine ⟨hresumed, hprocessed, ?_, hfirst, ?_, hresults, hcheckpoints⟩
  · rw [empty_union]
    change s'.resumed ∪ (s'.finalized ∪ s'.processed.toFinset) = _
    rw [hresumed, hprocessed, hfinalized]
    rfl
  · rw [empty_union, hcompleted]

theorem Arrives.finalize (h : Arrives ∅ s s') (idx : ℕ) (output : Str) :
    Arrives {idx} s (s'.finalize c idx output) := by
  refine { h with written := ?_, completedOK := ?_ }
  · rw [written_finalize, h.written, Finset.empty_union, Finset.insert_eq]
  · change insert idx s'.completedOK = _
    rw [h.completedOK, Finset.empty_union, Finset.insert_eq]

/-- The end of `processNextResult`: the workflow is aborted, or the step is counted and a checkpoint
may be written. -/
inductive Settles (c : DAGConfig) (idx : ℕ) (o : Outcome) (s s' : Sched) : Prop
  | abort (hcause : s.aborted = true ∨ o.abortErr.isSome = true) (hab : s'.aborted = true)
      (hcompleted : s'.completedOK = s.completedOK) (hcheckpoints : s'.checkpoints = s.checkpoints)
  | failed (hab : s.aborted = false) (hab' : s'.aborted = false) (hgo : o.abortErr = none)
      (herr : o.resultErr.isSome = true) (hcompleted : s'.completedOK = s.completedOK)
      (hcheckpoints : s'.checkpoints = s.checkpoints)
  | complete (hab : s.aborted = false) (hab' : s'.aborted = false) (hgo : o.abortErr = none)
      (hok : o.resultErr = none) (hcompleted : s'.completedOK = insert idx s.completedOK)
      (hcheckpoints : ∀ cp ∈ s'.checkpoints,
        cp ∈ s.checkpoints ∨ ∃ now, cp = s'.checkpointState c now)

theorem settles_processStep {d : DAGConfig} (hstate : ∀ t now, checkpointState d t now =
    checkpointState c t now) (s : Sched) (disk : Option Time) (idx : ℕ) (ps : PreparedStep) :
    Settles c idx (s.outcome d idx ps) s (s.processStep d disk idx ps) ∧
      (s.processStep d disk idx ps).allResults =
        (s.recordResult d idx ps (s.outcome d idx ps)).allResults := by
  have hcases := processStep_cases (c := d) s disk idx ps
  set o := s.outcome d idx ps
  rcases hcases with ⟨-, herr, heq⟩ | ⟨hab, heq⟩ | ⟨hab, hgo, heq⟩ <;> rw [heq]
  · exact ⟨.abort (.inr herr) herr rfl rfl, rfl⟩
  · exact ⟨.abort (.inl hab) hab rfl rfl, rfl⟩
  obtain ⟨pending, queue, hcredit⟩ := propagateOnce_eq (c := d) (s.recordResult d idx ps o) idx
  rw [hcredit]
  unfold Sched.complete
  split
  · rename_i hok
    have hok : o.resultErr = none := by simpa using hok
    unfold Sched.saveCheckpointState
    split
    · exact ⟨.complete hab hab hgo hok rfl fun cp hcp => .inl hcp, rfl⟩
    · split
      · exact ⟨.complete hab hab hgo hok rfl fun cp hcp => .inl hcp, rfl⟩
      · rename_i now
        refine ⟨.complete hab hab hgo hok rfl fun cp hcp => ?_, rfl⟩
        rcases mem_append.mp hcp with hcp | hcp
        · exact .inl hcp
        · exact .inr ⟨now, (List.mem_singleton.mp hcp).trans (hstate _ _)⟩
  · rename_i herr
    exact ⟨.failed hab hab hgo (by simpa [isSome_iff_ne_none] using herr) rfl rfl, rfl⟩

/-- What processing a step does to the verdict, the reports and the checkpoints. -/
structure Processes (c : DAGConfig) (idx : ℕ) (ps : PreparedStep) (o : Outcome) (s s' : Sched) :
    Prop where
  resumed : s'.resumed = s.resumed
  processed : s'.processed = s.processed ++ [idx]
  written : s'.written = insert idx s.written
  settles : Settles c idx o s s'
  allResults : s'.allResults =
    s.allResults ++ [⟨idx, (c.wf.step idx).node, ps.input, o.output, o.resultErr⟩]

/-- The order of ranges does not enter what is reported and saved. -/
theorem processes_withOrder {ps : PreparedStep} (order : RangeOrder) (disk : Option Time)
    (hidx : s.dispatchSeq[s.processPos]? = some idx) :
    Processes c idx ps (s.outcome (c.withOrder order) idx ps) s
      (s.processStep (c.withOrder order) disk idx ps) := by
  obtain ⟨hsettles, hresults⟩ := settles_processStep (c := c) (d := c.withOrder order)
    (fun _ _ => rfl) s disk idx ps
  obtain ⟨-, hseq, hpos, -⟩ := processStep_progress (c := c.withOrder order) s disk idx ps
  refine ⟨(sameProgress_processStep _ _ _ _).resumed, ?_, written_processStep hidx disk ps,
    hsettles, hresults⟩
  rw [Sched.processed, hseq, hpos, take_add_one, hidx]
  rfl

variable (hm : IsMeaning c kept m)

include hm

/-- A dispatched step is written only if it is skipped. -/
theorem arrives_dispatchOne (hinv : s.Inv c) (c' : DAGConfig)
    {D : Finset ℕ} (h' : (s.dispatchOne c' idx rest).Follows c kept m D) :
    ∃ new, Arrives new s (s.dispatchOne c' idx rest) ∧
      ∀ i ∈ new, (m i).outcome.resultErr = none := by
  have hcases := dispatchOne_cases (c := c') s idx rest
  set ps := prepareDAGStep c' idx s.resolver s.engine
  have hprocessed : (s.dispatchSeq ++ [idx]).take s.processPos = s.processed :=
    take_append_of_le_length hinv.workers.pos_le
  rcases hcases with ⟨-, heq⟩ | ⟨herr, hskip, heq⟩ | ⟨-, heq⟩ <;> rw [heq] at h' ⊢
  · exact ⟨∅, Arrives.of_eq rfl hprocessed rfl rfl rfl rfl rfl, by simp⟩
  · have hforget := h'.prepared idx ps (update_self _ _ _)
    refine ⟨{idx}, Arrives.finalize ?_ _ _, ?_⟩
    · exact Arrives.of_eq rfl hprocessed rfl rfl rfl rfl rfl
    intro i hi
    obtain rfl := Finset.mem_singleton.mp hi
    rw [hm.of_skipped hforget herr hskip]
  · exact ⟨∅, Arrives.of_eq rfl hprocessed rfl rfl rfl rfl rfl, by simp⟩

theorem arrives_receive (hinv : s.Inv c) (h : s.Follows c kept m s.written)
    {ps : PreparedStep} (hidx : idx ∈ s.inFlight) (hps : s.prepared idx = some ps) :
    ∃ new, Arrives new s (s.receive c (workerResult c idx ps)) ∧
      ∀ i ∈ new, (m i).outcome.resultErr = none := by
  rcases receive_cases (c := c) s (workerResult c idx ps) with ⟨hok, -, heq⟩ | ⟨-, heq⟩ <;> rw [heq]
  · refine ⟨{idx}, Arrives.finalize ?_ _ _, ?_⟩
    · exact Arrives.of_eq rfl rfl rfl rfl rfl rfl rfl
    intro i hi
    obtain rfl := Finset.mem_singleton.mp hi
    rw [hm.of_success (h.prepared i ps hps) (hinv.workers.flight_worker i hidx ps hps) hok]
  · exact ⟨∅, Arrives.of_eq rfl rfl rfl rfl rfl rfl rfl, by simp⟩

end

/-- The verdict and the reports are those of the meaning. -/
structure Reports (c : DAGConfig) (m : ℕ → StepMeaning) (s : Sched) : Prop where
  good : s.aborted = false → ∀ i ∈ s.written, (m i).outcome.abortErr = none
  bad : s.aborted = true → ∃ i < c.wf.steps.length, (m i).outcome.abortErr.isSome = true
  indices : s.allResults.map StepResult.stepIndex = c.graph.sorted s.resumed ++ s.processed
  results : ∀ r ∈ s.allResults, r.output = outputOf m r.stepIndex ∧
    ((m r.stepIndex).outcome.abortErr = none → r.error = (m r.stepIndex).outcome.resultErr)

section

variable {c : DAGConfig} {kept : ℕ → Prop} {m : ℕ → StepMeaning} {s s' : Sched}

theorem Reports.arrives (hm : IsMeaning c kept m) (h : s.Reports c m) {new : Finset ℕ}
    (harr : Arrives new s s') (hnew : ∀ i ∈ new, (m i).outcome.resultErr = none) :
    s'.Reports c m where
  good := by
    intro hab i hi
    rw [aborted, harr.firstAbortErr] at hab
    rw [harr.written] at hi
    rcases mem_union.mp hi with hi | hi
    · exact hm.abortErr_eq_none (hnew i hi)
    · exact h.good hab i hi
  bad := by
    intro hab
    rw [aborted, harr.firstAbortErr] at hab
    exact h.bad hab
  indices := by rw [harr.allResults, harr.resumed, harr.processed, h.indices]
  results := by
    rw [harr.allResults]
    exact h.results

/-- A processed step is reported with its meaning. -/
theorem Reports.processes (h : s.Reports c m) {ps : PreparedStep} {o : Outcome}
    (hproc : Processes c idx ps o s s') (hsame : o.Same (m idx).outcome)
    (hlt : idx < c.wf.steps.length) : s'.Reports c m where
  good := by
    intro hab i hi
    rw [hproc.written] at hi
    have hcause : s.aborted = false ∧ o.abortErr = none := by
      cases hproc.settles with
      | abort _ hab' =>
        rw [hab'] at hab
        cases hab
      | failed hab' _ hgo | complete hab' _ hgo => exact ⟨hab', hgo⟩
    rcases mem_insert.mp hi with rfl | hi
    · simpa [hcause.2] using hsame.abortErr.symm
    · exact h.good hcause.1 i hi
  bad := by
    intro hab
    cases hproc.settles with
    | abort hcause =>
      rcases hcause with hab' | habort
      · exact h.bad hab'
      · exact ⟨idx, hlt, hsame.abortErr ▸ habort⟩
    | failed _ hab' | complete _ hab' =>
      rw [hab'] at hab
      cases hab
  indices := by
    rw [hproc.allResults, hproc.resumed, hproc.processed, map_append, h.indices,
      append_assoc]
    rfl
  results := by
    rw [hproc.allResults]
    refine forall_mem_append.mpr ⟨h.results, forall_mem_singleton.mpr ⟨hsame.output, fun hgo => ?_⟩⟩
    have hnone : o.abortErr = none := by simpa [hgo] using hsame.abortErr
    exact congrArg Outcome.resultErr (hsame.eq hnone)

end

end Sched

/-! ## What a checkpoint holds -/

/-- A checkpoint holds outputs of steps that did not fail, with all kept steps before them. -/
structure CheckpointSound (c : DAGConfig) (kept : ℕ → Prop) (m : ℕ → StepMeaning)
    (cp : WorkflowState) : Prop where
  outputs : ∀ (i : ℕ) out, (cp.stepOutputs.getD ∅)[(i : ℤ)]? = some out →
    out = outputOf m i ∧ (m i).outcome.resultErr = none
  closed : ∀ i k, Records cp i → Precedes c.graph kept k i → kept k → Records cp k
  vars : cp.vars = some c.wf.vars

theorem unambiguous_idxKey (wf : WorkflowDef) (i : ℕ) : Unambiguous wf (idxKey i) := by
  have howner : ∀ j, Writes wf j (idxKey i) → j = i := by
    rintro j ⟨-, hkey | ⟨-, hkey⟩⟩
    · exact_mod_cast (idxKey_injective hkey).symm
    · exact absurd hkey (idxKey_ne_nameKey _ _)
  intro j j' hj hj'
  rw [howner j hj, howner j' hj']

theorem EngineHolds.output {wf : WorkflowDef} {out : ℕ → Str} {D : Finset ℕ}
    {e : ExpressionEngine} (h : EngineHolds wf out D e) (hi : i ∈ D)
    (hlt : i < wf.steps.length) : e.stepOutputs[idxKey i]? = some (out i) :=
  h.written _ i hi ⟨hlt, .inl rfl⟩ (unambiguous_idxKey wf i)

namespace Sched

variable {c : DAGConfig} {kept : ℕ → Prop} {m : ℕ → StepMeaning} {D : Finset ℕ} {s s' : Sched}

/-- A checkpoint of a run that follows the meaning has its outputs. -/
theorem Follows.checkpointSound (hn : c.graph.nodeCount = c.wf.steps.length)
    (hg : c.graph.EdgesWithin) (h : s.Follows c kept m D)
    (hcompleted : ∀ i ∈ s.completedOK, i ∈ D ∧ (m i).outcome.resultErr = none)
    (hclosed : ∀ i ∈ s.completedOK, ∀ k, Precedes c.graph kept k i → kept k → k ∈ s.completedOK)
    (now : Time) : CheckpointSound c kept m (s.checkpointState c now) := by
  have hrecords : ∀ i, Records (s.checkpointState c now) i ↔
      i < c.graph.nodeCount ∧ i ∈ s.completedOK := by
    intro i
    rw [Records, getElem?_checkpointState]
    constructor
    · intro hsome
      by_contra hnot
      simp [hnot] at hsome
    · intro hi
      rw [if_pos hi, h.engine.output (hcompleted i hi.2).1 (hn ▸ hi.1)]
      rfl
  refine ⟨?_, ?_, congrArg some h.engine.vars⟩
  · intro i out hout
    have hi := (hrecords i).mp (by rw [Records, hout]; rfl)
    rw [getElem?_checkpointState, if_pos hi, h.engine.output (hcompleted i hi.2).1 (hn ▸ hi.1)]
      at hout
    exact ⟨(Option.some.inj hout).symm, (hcompleted i hi.2).2⟩
  · intro i k hi hk hkept
    rw [hrecords] at hi ⊢
    exact ⟨hk.lt hg, hclosed i hi.2 k hk hkept⟩

/-- A run that started afresh counts the steps that did not fail as completed, and its checkpoints
are sound. -/
structure Saves (c : DAGConfig) (kept : ℕ → Prop) (m : ℕ → StepMeaning) (s : Sched) : Prop where
  fresh : s.resumed = ∅
  completed : ∀ i ∈ s.completedOK, i ∈ s.written ∧ (m i).outcome.resultErr = none
  counted : s.aborted = false → ∀ i ∈ s.written, kept i → i ∈ s.completedOK
  saved : ∀ cp ∈ s.checkpoints, CheckpointSound c kept m cp

theorem Saves.arrives (h : s.Saves c kept m) {new : Finset ℕ} (harr : Arrives new s s')
    (hnew : ∀ i ∈ new, (m i).outcome.resultErr = none) : s'.Saves c kept m where
  fresh := harr.resumed.trans h.fresh
  completed := by
    intro i hi
    rw [harr.completedOK] at hi
    rw [harr.written]
    rcases mem_union.mp hi with hi | hi
    · exact ⟨mem_union_left _ hi, hnew i hi⟩
    · exact ⟨mem_union_right _ (h.completed i hi).1, (h.completed i hi).2⟩
  counted := by
    intro hab i hi hkept
    rw [aborted, harr.firstAbortErr] at hab
    rw [harr.written] at hi
    rw [harr.completedOK]
    rcases mem_union.mp hi with hi | hi
    · exact mem_union_left _ hi
    · exact mem_union_right _ (h.counted hab i hi hkept)
  saved := by
    rw [harr.checkpoints]
    exact h.saved

/-- Processing a step keeps the checkpoints sound, where `kept` steps do not go on after a failure.
-/
theorem Saves.processes (hn : c.graph.nodeCount = c.wf.steps.length) (hg : c.graph.EdgesWithin)
    (hkeep : ∀ i, kept i → (m i).outcome.abortErr = none → (m i).outcome.resultErr = none)
    (h : s.Saves c kept m) {ps : PreparedStep} {o : Outcome}
    (hproc : Processes c idx ps o s s') (hsame : o.Same (m idx).outcome) (hinv' : s'.Inv c)
    (h' : s'.Follows c kept m s'.written) : s'.Saves c kept m := by
  have hfresh : s'.resumed = ∅ := hproc.resumed.trans h.fresh
  have hbefore : ∀ i ∈ s.completedOK, i ∈ s'.written ∧ (m i).outcome.resultErr = none := by
    intro i hi
    rw [hproc.written]
    exact ⟨mem_insert_of_mem (h.completed i hi).1, (h.completed i hi).2⟩
  cases hproc.settles with
  | abort _ hab hcompleted hcheckpoints =>
    refine ⟨hfresh, hcompleted ▸ hbefore, ?_, hcheckpoints ▸ h.saved⟩
    intro hab'
    rw [hab] at hab'
    cases hab'
  | failed hab hab' hgo herr hcompleted hcheckpoints =>
    refine ⟨hfresh, hcompleted ▸ hbefore, ?_, hcheckpoints ▸ h.saved⟩
    intro _ i hi hkept
    rw [hcompleted]
    rw [hproc.written] at hi
    rcases mem_insert.mp hi with rfl | hi
    · -- a kept step does not go on after a failure
      have heq := hsame.eq hgo
      rw [heq] at hgo herr
      rw [hkeep i hkept hgo] at herr
      cases herr
    · exact h.counted hab i hi hkept
  | complete hab hab' hgo hok hcompleted hcheckpoints =>
    have hall : ∀ i ∈ s'.completedOK, i ∈ s'.written ∧ (m i).outcome.resultErr = none := by
      intro i hi
      rw [hcompleted] at hi
      rcases mem_insert.mp hi with rfl | hi
      · exact ⟨hproc.written ▸ mem_insert_self _ _, hsame.eq hgo ▸ hok⟩
      · exact hbefore i hi
    have hcounted : ∀ i ∈ s'.written, kept i → i ∈ s'.completedOK := by
      intro i hi hkept
      rw [hcompleted]
      rw [hproc.written] at hi
      rcases mem_insert.mp hi with rfl | hi
      · exact mem_insert_self _ _
      · exact mem_insert_of_mem (h.counted hab i hi hkept)
    refine ⟨hfresh, hall, fun _ => hcounted, ?_⟩
    intro cp hcp
    rcases hcheckpoints cp hcp with hcp | ⟨now, rfl⟩
    · exact h.saved cp hcp
    · refine h'.checkpointSound hn hg hall ?_ now
      intro i hi k hk hkept
      have hseq : i ∈ s'.dispatchSeq := by
        rcases hinv'.mem_of_written (hall i hi).1 with hres | hseq
        · rw [hfresh] at hres
          cases hres
        · exact hseq
      exact hcounted k (h'.dispatched i hseq k hk) hkept

/-! ## Whole runs -/

theorem nodeStep_shutdown (hstep : s.nodeStep c a = some s') : s'.shutdown = s.shutdown := by
  obtain ⟨world, b, hb, hstep⟩ := step_of_nodeStep hstep
  cases move_of_step _ hstep with
  | signal => exact absurd rfl hb
  | dispatch => exact (dispatchOne_progress _ _ _).2.2.2.1
  | receive => exact (receive_progress _ _).2.2.2.1
  | process => exact (processStep_progress _ _ _ _).2.2.2.1
  | _ => rfl

/-- What holds in every state of a run of deterministic nodes. -/
structure RunsTo (c : DAGConfig) (kept : ℕ → Prop) (m : ℕ → StepMeaning) (s : Sched) : Prop where
  inv : s.Inv c
  follows : s.Follows c kept m s.written
  reports : s.Reports c m
  running : s.shutdown = false

section

variable (hg : c.graph.WellFormed) (hn : c.graph.nodeCount = c.wf.steps.length)
  (hdecl : Declared c.wf c.graph kept) (hm : IsMeaning c kept m)

include hg hn hdecl hm

/-- What an action does to the verdict, the reports and the checkpoints. -/
theorem RunsTo.effect (h : s.RunsTo c kept m) (hstep : s.nodeStep c a = some s') :
    (∃ new, Arrives new s s' ∧ ∀ i ∈ new, (m i).outcome.resultErr = none) ∨
      ∃ idx ps o, Processes c idx ps o s s' ∧ o.Same (m idx).outcome ∧
        idx < c.wf.steps.length := by
  have hfollows' := h.follows.nodeStep hg hn hdecl hm h.inv hstep
  cases nodeMove_of_nodeStep hstep with
  | goto phase => exact .inl ⟨∅, .of_eq rfl rfl rfl rfl rfl rfl rfl, by simp⟩
  | dispatch order hqueue hab =>
    exact .inl (arrives_dispatchOne hm h.inv (c.withOrder order) hfollows')
  | receive hidx hps => exact .inl (arrives_receive hm h.inv h.follows hidx hps)
  | @process idx ps order disk hturn =>
    exact .inr ⟨idx, ps, _, processes_withOrder order disk hturn.next,
      h.follows.outcome_same hg hn hdecl hm h.inv hturn order,
      h.inv.lt_length hn (mem_append_left _ (mem_of_getElem? hturn.next))⟩

theorem RunsTo.nodeStep (h : s.RunsTo c kept m)
    (hstep : s.nodeStep c a = some s') : s'.RunsTo c kept m := by
  refine ⟨h.inv.nodeStep hg.toEdgesWithin hstep,
    h.follows.nodeStep hg hn hdecl hm h.inv hstep, ?_, (nodeStep_shutdown hstep).trans h.running⟩
  rcases h.effect hg hn hdecl hm hstep with ⟨new, harr, hnew⟩ | ⟨idx, ps, o, hproc, hsame, hlt⟩
  · exact h.reports.arrives hm harr hnew
  · exact h.reports.processes hproc hsame hlt

theorem Saves.nodeStep
    (hkeep : ∀ i, kept i → (m i).outcome.abortErr = none → (m i).outcome.resultErr = none)
    (hrun : s.RunsTo c kept m) (h : s.Saves c kept m)
    (hstep : s.nodeStep c a = some s') : s'.Saves c kept m := by
  rcases hrun.effect hg hn hdecl hm hstep with ⟨new, harr, hnew⟩ | ⟨idx, ps, o, hproc, hsame, -⟩
  · exact h.arrives harr hnew
  · have hrun' := hrun.nodeStep hg hn hdecl hm hstep
    exact h.processes hn hg.toEdgesWithin hkeep hproc hsame hrun'.inv hrun'.follows

end

theorem written_newDAGScheduler (c : DAGConfig) : (newDAGScheduler c).written = ∅ := rfl

theorem runsTo_newDAGScheduler (c : DAGConfig) (kept : ℕ → Prop) (m : ℕ → StepMeaning) :
    (newDAGScheduler c).RunsTo c kept m where
  inv := (core_newDAGScheduler c).inv (by rfl) (.inl rfl)
  follows := by
    rw [written_newDAGScheduler]
    refine ⟨EngineHolds.new _ _, ?_, ?_, ?_, ?_, ?_⟩
    all_goals simp [newDAGScheduler]
  reports := by
    refine ⟨?_, ?_, ?_, ?_⟩
    · simp [written_newDAGScheduler]
    all_goals simp [newDAGScheduler, aborted, DepGraph.sorted, processed]
  running := rfl

theorem saves_newDAGScheduler (c : DAGConfig) (kept : ℕ → Prop) (m : ℕ → StepMeaning) :
    (newDAGScheduler c).Saves c kept m where
  fresh := rfl
  completed := fun _ h => by cases h
  counted := fun _ i hi => by
    rw [written_newDAGScheduler] at hi
    cases hi
  saved := fun _ h => by cases h

theorem Follows.foldl_writeBack (h : s.Follows c kept m D) {entries : List (ℕ × Str)}
    (hentries : ∀ e ∈ entries, e.1 < c.wf.steps.length ∧ e.2 = outputOf m e.1) :
    (entries.foldl (fun s e => s.writeBack c e.1 e.2) s).Follows c kept m
      ((entries.map Prod.fst).toFinset ∪ D) := by
  induction entries generalizing s D with
  | nil => simpa using h
  | cons e rest ih =>
    obtain ⟨hlt, hout⟩ := hentries e mem_cons_self
    have hnext := h.writeBack hlt
    rw [← hout] at hnext
    have hrest := ih hnext (forall_mem_of_forall_mem_cons hentries)
    have hset : ((rest.map Prod.fst).toFinset ∪ insert e.1 D) =
        ((e :: rest).map Prod.fst).toFinset ∪ D := by
      simp
    rw [hset] at hrest
    exact hrest

variable {state : WorkflowState}

/-- The scheduler of a resumed run, once the outputs are written back. -/
theorem resumeFrom_of_writeBack {engine : ExpressionEngine}
    {resolver : ℕ → Option Str}
    (hwrite : (restoredEntries c state).foldl (fun s e => s.writeBack c e.1 e.2) s =
      { s with engine := engine, resolver := resolver }) :
    ∃ pending queue, resumeFrom c s state = { s with
      engine := engine.setVariables (state.vars.getD ∅)
      resolver := resolver
      resumed := restoredSteps c state
      pending := pending
      readyQueue := queue
      lastOutput := state.data
      allResults := s.allResults ++
        (c.graph.sorted (restoredSteps c state)).map (restoredResult c state) } := by
  obtain ⟨pending, queue, happly⟩ := applyResumed_eq (c := c)
    { s with engine := engine.setVariables (state.vars.getD ∅), resolver := resolver }
    (restoredSteps c state)
  refine ⟨pending, queue, ?_⟩
  unfold resumeFrom
  dsimp only
  rw [hwrite]
  dsimp only
  rw [show ((restoredEntries c state).map Prod.fst).toFinset = restoredSteps c state from rfl,
    happly]

/-- A run that resumes a sound checkpoint starts in accordance with the meaning. -/
theorem runsTo_resumeFrom (hg : c.graph.WellFormed) (hn : c.graph.nodeCount = c.wf.steps.length)
    (hm : IsMeaning c kept m) (hstate : CheckpointSound c kept m state) (order : RangeOrder) :
    (resumeFrom (c.withOrder order) (newDAGScheduler c) state).RunsTo c kept m := by
  have hinv : (resumeFrom (c.withOrder order) (newDAGScheduler c) state).Inv (c.withOrder order) :=
    inv_resumeFrom (c := c.withOrder order) hg.toEdgesWithin hn state
  have hentry : ∀ e ∈ restoredEntries (c.withOrder order) state,
      e.1 < c.wf.steps.length ∧ e.2 = outputOf m e.1 := by
    intro e he
    obtain ⟨hlt, hout⟩ := mem_restoredEntries.mp he
    exact ⟨hlt, (hstate.outputs _ _ hout).1⟩
  have hR : ∀ i, i ∈ restoredSteps (c.withOrder order) state ↔
      i < c.wf.steps.length ∧ Records state i := fun i =>
    mem_restoredSteps (c := c.withOrder order)
  have houtput : ∀ i ∈ restoredSteps (c.withOrder order) state,
      (state.stepOutputs.getD ∅)[(i : ℤ)]? = some (outputOf m i) ∧
        (m i).outcome.resultErr = none := by
    intro i hi
    obtain ⟨out, hout⟩ := isSome_iff_exists.mp ((hR i).mp hi).2
    obtain ⟨rfl, hok⟩ := hstate.outputs i out hout
    exact ⟨hout, hok⟩
  have hnew := (runsTo_newDAGScheduler c kept m).follows
  rw [written_newDAGScheduler] at hnew
  have hfold := hnew.foldl_writeBack hentry
  rw [union_empty] at hfold
  obtain ⟨engine, resolver, hwrite⟩ :=
    foldl_writeBack_eq c (newDAGScheduler c) (restoredEntries (c.withOrder order) state)
  rw [hwrite] at hfold
  obtain ⟨pending, queue, hres⟩ := resumeFrom_of_writeBack (c := c.withOrder order) hwrite
  -- the variables of the checkpoint are those of the workflow
  have hvars : engine.setVariables (state.vars.getD ∅) = engine := by
    have hengine : engine.vars = c.wf.vars := hfold.engine.vars
    rw [hstate.vars, getD_some, ← hengine, ExpressionEngine.setVariables,
      GoMap.assignAll_eq_union (List.Perm.refl _), GoMap.union_self]
  rw [hres, hvars] at hinv ⊢
  have hwritten : ∀ {t : Sched}, t.resumed = restoredSteps (c.withOrder order) state →
      t.propagated = ∅ → t.written = restoredSteps (c.withOrder order) state := by
    intro t hresumed hprop
    rw [written, hresumed, hprop, union_empty]
  refine ⟨hinv.withWorld, ?_, ?_, rfl⟩
  · rw [hwritten rfl rfl]
    refine { hfold with resumed := ?_ }
    intro i hi k hk hkept
    exact (hR k).mpr ⟨hn ▸ hk.lt hg.toEdgesWithin, hstate.closed i k ((hR i).mp hi).2 hk hkept⟩
  · refine ⟨?_, ?_, ?_, ?_⟩
    · intro _ i hi
      rw [hwritten rfl rfl] at hi
      exact hm.abortErr_eq_none (houtput i hi).2
    · intro hab
      cases hab
    · change (([] : List StepResult) ++ _).map StepResult.stepIndex = _ ++ []
      rw [List.nil_append, List.map_map, List.append_nil]
      exact map_id _
    · intro r hr
      obtain ⟨i, hi, rfl⟩ := mem_map.mp (nil_append _ ▸ hr)
      obtain ⟨hout, hok⟩ := houtput i (DepGraph.mem_sorted.mp hi).2
      refine ⟨?_, fun _ => hok.symm⟩
      rw [restoredResult, hout]
      rfl

/-- What a run reports: the output and the error of each step. -/
def reported (s : Sched) : List (ℕ × Str × Option Str) :=
  s.allResults.map fun r => (r.stepIndex, r.output, r.error)

section

variable (hg : c.graph.WellFormed) (hn : c.graph.nodeCount = c.wf.steps.length)

include hg hn

variable (h : s.RunsTo c kept m) (hdone : s.phase = .done)

include h hdone

theorem RunsTo.written (hab : s.aborted = false) (hi : i < c.wf.steps.length) : i ∈ s.written := by
  obtain ⟨hprocessed, hall⟩ := h.inv.completed hg hdone hab h.running
  by_cases hres : i ∈ s.resumed
  · exact mem_union_left _ hres
  · have hseq := hall i (hn ▸ hi) hres
    rw [← hprocessed] at hseq
    exact mem_union_right _ (mem_union_right _ (mem_toFinset.mpr hseq))

theorem RunsTo.aborted_iff :
    s.aborted = true ↔ ∃ i < c.wf.steps.length, (m i).outcome.abortErr.isSome = true := by
  refine ⟨h.reports.bad, ?_⟩
  rintro ⟨i, hi, hbad⟩
  by_contra hab
  have hab : s.aborted = false := by simpa using hab
  rw [h.reports.good hab i (h.written hg hn hdone hab hi)] at hbad
  cases hbad

/-- A run that has ended without abort reports every step once, with what it means. -/
theorem RunsTo.reported_perm (hab : s.aborted = false) :
    s.reported.Perm ((List.range c.wf.steps.length).map fun i =>
      (i, outputOf m i, (m i).outcome.resultErr)) := by
  obtain ⟨hprocessed, hall⟩ := h.inv.completed hg hdone hab h.running
  have hmeans : s.reported = (s.allResults.map StepResult.stepIndex).map fun i =>
      (i, outputOf m i, (m i).outcome.resultErr) := by
    rw [reported, List.map_map]
    apply map_congr_left
    intro r hr
    have hindex : r.stepIndex ∈ s.allResults.map StepResult.stepIndex := mem_map_of_mem hr
    rw [h.reports.indices] at hindex
    have hwritten : r.stepIndex ∈ s.written := by
      rcases mem_append.mp hindex with hindex | hindex
      · exact mem_union_left _ (DepGraph.mem_sorted.mp hindex).2
      · exact mem_union_right _ (mem_union_right _ (mem_toFinset.mpr hindex))
    obtain ⟨hout, herr⟩ := h.reports.results r hr
    simp only [comp_apply, hout, herr (h.reports.good hab _ hwritten)]
  rw [hmeans, h.reports.indices, hprocessed]
  apply List.Perm.map
  rw [perm_ext_iff_of_nodup _ nodup_range]
  · intro i
    rw [List.mem_append, DepGraph.mem_sorted, List.mem_range, ← hn]
    constructor
    · rintro (hi | hi)
      · exact hi.1
      · exact (h.inv.queued.within i (mem_append_left _ hi)).1
    · intro hi
      by_cases hres : i ∈ s.resumed
      · exact .inl ⟨hi, hres⟩
      · exact .inr (hall i hi hres)
  · refine nodup_append.mpr ⟨DepGraph.nodup_sorted _ _, h.inv.nodup_dispatchSeq, ?_⟩
    rintro i hi j hj rfl
    exact h.inv.not_resumed hj (DepGraph.mem_sorted.mp hi).2

omit h hdone

end

end Sched

/-! ## Resumed runs -/

/-- The steps that a checkpoint does not forget: they do not go on after a failure. -/
def Keeps (wf : WorkflowDef) (i : ℕ) : Prop := (wf.step i).continueOnError = false

/-- The output template does not read the last output, and each of its references means at most one
step. -/
structure OutputDeclared (wf : WorkflowDef) : Prop where
  nonempty : wf.output ≠ []
  input : templateReadsInput wf.output = false
  unambiguous : ∀ ref ∈ templateRefs wf.output, ∀ key ∈ refKeys ref, Unambiguous wf key

variable {m : ℕ → StepMeaning}

theorem IsMeaning.resultErr_eq_none {kept : ℕ → Prop}
    (hm : IsMeaning c kept m) (hkeeps : Keeps c.wf i)
    (hgo : (m i).outcome.abortErr = none) : (m i).outcome.resultErr = none := by
  obtain ⟨e, hout⟩ := hm.outcome_eq i
  rw [hout] at hgo ⊢
  revert hgo
  unfold outcomeOf
  split
  · exact id
  · split
    · exact id
    · dsimp only
      split
      · exact id
      · exact applyErrorRecovery_traceErr hkeeps

/-- Reading a checkpoint back changes nothing in it that matters, if its texts are valid. -/
theorem CheckpointSound.clean {kept : ℕ → Prop} {cp : WorkflowState}
    (h : CheckpointSound c kept m cp) (houtputs : CleanIntMap (cp.stepOutputs.getD ∅))
    (hvars : CleanStringMap c.wf.vars) : CheckpointSound c kept m cp.clean := by
  have hmap : cp.clean.stepOutputs.getD ∅ = cp.stepOutputs.getD ∅ := by
    unfold WorkflowState.clean
    cases hcp : cp.stepOutputs with
    | none => rfl
    | some outputs =>
      rw [hcp] at houtputs
      exact houtputs.cleanIntMap_eq
  refine ⟨fun i out hout => h.outputs i out (hmap ▸ hout), ?_, ?_⟩
  · intro i k hi hk hkept
    exact records_clean.mpr (h.closed i k (records_clean.mp hi) hk hkept)
  · simp [WorkflowState.clean, h.vars, hvars.cleanStringMap_eq]

section

variable {c : DAGConfig} (hgraph : buildDepGraph c.wf.steps = .ok c.graph)
  (hdecl : Declared c.wf c.graph (Keeps c.wf))

include hgraph hdecl

/-- The workflow has a meaning that every run computes, fresh or from a checkpoint of a fresh one.
-/
theorem exists_meaning : ∃ m,
    (∀ {actions s}, (startDAG c none).nodeRun c actions = some s →
      s.RunsTo c (Keeps c.wf) m ∧ s.Saves c (Keeps c.wf) m) ∧
    ∀ {cp order actions s}, CheckpointSound c (Keeps c.wf) m cp →
      CleanIntMap (cp.stepOutputs.getD ∅) → CleanStringMap c.wf.vars →
      (startDAG (c.withOrder order) (loadedFrom (some cp))).nodeRun c actions = some s →
        s.RunsTo c (Keeps c.wf) m := by
  obtain ⟨hg, hn⟩ := wellFormed_of_buildDepGraph hgraph
  obtain ⟨m, hm⟩ : ∃ m, IsMeaning c (Keeps c.wf) m :=
    ⟨meaning c (wellFounded_precedes hg), meaning_eq hg _⟩
  refine ⟨m, ?_, ?_⟩
  · intro actions s hrun
    refine Runs.invariant (P := fun t => t.RunsTo c (Keeps c.wf) m ∧ t.Saves c (Keeps c.wf) m)
      ?_ ⟨Sched.runsTo_newDAGScheduler c _ _, Sched.saves_newDAGScheduler c _ _⟩ hrun
    rintro t a t' ⟨hruns, hsaves⟩ hstep
    exact ⟨hruns.nodeStep hg hn hdecl hm hstep,
      hsaves.nodeStep hg hn hdecl hm (fun _ => hm.resultErr_eq_none) hruns hstep⟩
  · intro cp order actions s hcp houtputs hvars hrun
    refine Runs.invariant (P := fun t => t.RunsTo c (Keeps c.wf) m)
      (fun t a t' hruns hstep => hruns.nodeStep hg hn hdecl hm hstep) ?_ hrun
    -- a checkpoint that is not accepted is ignored
    have hfresh := Sched.runsTo_newDAGScheduler c (Keeps c.wf) m
    have hresume := Sched.runsTo_resumeFrom hg hn hm (hcp.clean houtputs hvars) order
    by_cases hfits : cp.marshalIndent.length ≤ maxFileSize
    · rw [loadedFrom_some hfits]
      unfold startDAG
      dsimp only
      split
      · exact hresume
      · exact hfresh
    · rw [loadedFrom, map_some, loadCheckpoint_marshalIndent, if_pos (not_le.mp hfits)]
      exact hfresh

/-- A run that resumes from any checkpoint of a run, and goes on to the end in whatever order, gives
what an uninterrupted run gives. -/
theorem resumed_run_eq {u s r : Sched} {cp : WorkflowState} {order : RangeOrder}
    {uninterrupted crashed resumed : List NodeAction}
    (hu : (startDAG c none).nodeRun c uninterrupted = some u) (hudone : u.phase = .done)
    (hs : (startDAG c none).nodeRun c crashed = some s) (hcp : cp ∈ s.checkpoints)
    (houtputs : CleanIntMap (cp.stepOutputs.getD ∅)) (hvars : CleanStringMap c.wf.vars)
    (hr : (startDAG (c.withOrder order) (loadedFrom (some cp))).nodeRun c resumed = some r)
    (hrdone : r.phase = .done) :
    r.aborted = u.aborted ∧
    (u.aborted = false →
      (∀ i < c.wf.steps.length, r.engine.stepOutputs[idxKey i]? = u.engine.stepOutputs[idxKey i]?) ∧
      r.reported.Perm u.reported ∧
      (OutputDeclared c.wf →
        (u.engine.evaluate c.world c.wf.output u.lastOutput).isOk = true →
          r.finalOutput c = u.finalOutput c)) := by
  obtain ⟨m, hfresh, hresume⟩ := exists_meaning hgraph hdecl
  obtain ⟨hg, hn⟩ := wellFormed_of_buildDepGraph hgraph
  have hU := (hfresh hu).1
  have hR := hresume ((hfresh hs).2.saved cp hcp) houtputs hvars hr
  have habort : r.aborted = u.aborted := by
    rw [Bool.eq_iff_iff, hU.aborted_iff hg hn hudone, hR.aborted_iff hg hn hrdone]
  refine ⟨habort, fun huab => ?_⟩
  have hrab : r.aborted = false := habort.trans huab
  have hUall : ∀ {i}, i < c.wf.steps.length → i ∈ u.written := hU.written hg hn hudone huab
  have hRall : ∀ {i}, i < c.wf.steps.length → i ∈ r.written := hR.written hg hn hrdone hrab
  refine ⟨?_, ?_, ?_⟩
  · intro i hi
    rw [hR.follows.engine.output (hRall hi) hi, hU.follows.engine.output (hUall hi) hi]
  · exact (hR.reported_perm hg hn hrdone hrab).trans (hU.reported_perm hg hn hudone huab).symm
  · intro hout hok
    have hagree : ExpressionEngine.AgreeOn (templateRefs c.wf.output) r.engine u.engine :=
      hR.follows.engine.agreeOn hU.follows.engine hout.unambiguous
        fun ref _ key _ j hj => ⟨hRall hj.1, hUall hj.1⟩
    have heval : r.engine.evaluate c.world c.wf.output r.lastOutput =
        u.engine.evaluate c.world c.wf.output u.lastOutput :=
      ExpressionEngine.evaluate_congr hagree fun hreads => by simp [hout.input] at hreads
    unfold Sched.finalOutput
    rw [if_neg hout.nonempty, if_neg hout.nonempty, heval]
    cases hval : u.engine.evaluate c.world c.wf.output u.lastOutput with
    | ok v => rfl
    | error err => simp [hval, Except.isOk, Except.toBool] at hok

end

/-- Maps are ranged over in the order of their keys. -/
def keyOrder : RangeOrder where
  params m := m.toList
  outputs m := m.toList
  params_perm := echoWorld.rangeParams_perm
  outputs_perm := echoWorld.rangeOutputs_perm

/-- A world whose steps put the name of their node before their input. -/
def tagWorld : World :=
  { echoWorld with executeStep := fun step input _ => (step.node ++ input, none) }

/-- The main goroutine goes on for some time, writing its checkpoints. -/
def ticks (n : ℕ) : List NodeAction := List.replicate n (.tick keyOrder (some Time.zero))

/-- A step, and a second one that waits for it and refers to it. -/
def referSteps : List WorkflowStep :=
  [{ node := str "a" },
    { node := str "b"
      params := some (GoMap.assignAll ∅ [(str "x", str "\x7b\x7bstep.0\x7d\x7d")])
      dependsOn := [str "1"] }]

def referConfig : DAGConfig := sampleConfig tagWorld referSteps (str "\x7b\x7bstep.1\x7d\x7d")

/-- A run up to the first checkpoint, and to the end. -/
def referCrash : List NodeAction := ticks 3 ++ .finish 0 :: ticks 5

def referEnd : List NodeAction := referCrash ++ ticks 2 ++ .finish 1 :: ticks 5

/-- A run that resumes the first step. -/
def referResume : List NodeAction := ticks 3 ++ .finish 1 :: ticks 5

private theorem referConfig_declared :
    Declared referConfig.wf referConfig.graph (Keeps referConfig.wf) :=
  .of_deps (by decide) (by decide)

private theorem referConfig_output : OutputDeclared referConfig.wf where
  nonempty := by decide
  input := by decide
  unambiguous := by
    have hunique : ∀ ref ∈ templateRefs referConfig.wf.output, ∀ key ∈ refKeys ref,
        ∀ j < 2, ∀ j' < 2, Writes referConfig.wf j key → Writes referConfig.wf j' key → j = j' := by
      decide
    exact fun ref href key hkey j j' hj hj' => hunique ref href key hkey j hj.1 j' hj'.1 hj hj'

theorem resumed_run_eq_refer :
    ∃ u cp r, (startDAG referConfig none).nodeRun referConfig referEnd = some u ∧
      (startDAG (referConfig.withOrder keyOrder) (loadedFrom (some cp))).nodeRun referConfig
        referResume = some r ∧
      r.aborted = false ∧ r.finalOutput referConfig = u.finalOutput referConfig := by
  obtain ⟨u, hu, hudone, huab, hok⟩ :
      ∃ u ∈ (startDAG referConfig none).nodeRun referConfig referEnd, u.phase = .done ∧
        u.aborted = false ∧
        (u.engine.evaluate tagWorld referConfig.wf.output u.lastOutput).isOk = true := by
    decide
  obtain ⟨s, hs, cp, hcp, hfits, hclean, r, hr, hrdone⟩ :
      ∃ s ∈ (startDAG referConfig none).nodeRun referConfig referCrash, ∃ cp ∈ s.checkpoints,
        cp.marshalIndent.length ≤ maxFileSize ∧
        (∀ e ∈ (cp.stepOutputs.getD ∅).toList, ValidUtf8 e.2) ∧
        ∃ r ∈ (startDAG (referConfig.withOrder keyOrder) (some cp.clean)).nodeRun referConfig
          referResume, r.phase = .done := by
    decide +kernel
  have houtputs : CleanIntMap (cp.stepOutputs.getD ∅) := fun k v hv =>
    hclean (k, v) (Std.ExtTreeMap.mem_toList_iff_getElem?_eq_some.mpr hv)
  have hvars : CleanStringMap referConfig.wf.vars := GoMap.Forall.empty
  rw [← loadedFrom_some hfits] at hr
  obtain ⟨hab, hsame⟩ := resumed_run_eq (buildDepGraph_sampleConfig (by decide))
    referConfig_declared hu hudone hs hcp houtputs hvars hr hrdone
  exact ⟨u, cp, r, hu, hr, hab.trans huab, (hsame huab).2.2 referConfig_output hok⟩

/-- Two steps, and a third and a fourth that wait for one of them each. -/
def crossSteps : List WorkflowStep :=
  [{ node := str "a" }, { node := str "b" }, { node := str "c", dependsOn := [str "1"] },
    { node := str "d", dependsOn := [str "2"] }]

def crossConfig : DAGConfig := sampleConfig tagWorld crossSteps []

/-- The second step finishes first, so that the fourth is dispatched before the third. -/
def crossCrash : List NodeAction := ticks 4 ++ .finish 1 :: ticks 3 ++ .finish 0 :: ticks 9

def crossRest : List NodeAction := ticks 2 ++ .finish 3 :: ticks 6 ++ .finish 2 :: ticks 5

/-- The resumed run dispatches them in the order of their indices. -/
def crossResume : List NodeAction := ticks 4 ++ .finish 2 :: ticks 6 ++ .finish 3 :: ticks 5

/-- Without an output template the final output depends on the order in which steps finish. -/
theorem not_same_output_after_crash :
    ¬ ∀ (c : DAGConfig) (crashed rest resumed : List NodeAction) (s u r : Sched)
      (cp : WorkflowState), buildDepGraph c.wf.steps = .ok c.graph →
      (startDAG c none).nodeRun c crashed = some s → s.checkpoints.getLast? = some cp →
      (startDAG c none).nodeRun c (crashed ++ rest) = some u → u.phase = .done →
      (startDAG c (loadedFrom (some cp))).nodeRun c resumed = some r → r.phase = .done →
        r.finalOutput c = u.finalOutput c := by
  intro h
  obtain ⟨u, hu, hudone, hu'⟩ :
      ∃ u ∈ (startDAG crossConfig none).nodeRun crossConfig (crossCrash ++ crossRest),
        u.phase = .done ∧ u.finalOutput crossConfig = str "ca" := by
    decide
  obtain ⟨s, hs, cp, hcp, hfits, r, hr, hrdone, hr'⟩ :
      ∃ s ∈ (startDAG crossConfig none).nodeRun crossConfig crossCrash,
        ∃ cp ∈ s.checkpoints.getLast?, cp.marshalIndent.length ≤ maxFileSize ∧
          ∃ r ∈ (startDAG crossConfig (some cp.clean)).nodeRun crossConfig crossResume,
            r.phase = .done ∧ r.finalOutput crossConfig = str "db" := by
    decide +kernel
  rw [← loadedFrom_some hfits] at hr
  have heq := h crossConfig crossCrash crossRest crossResume s u r cp
    (buildDepGraph_sampleConfig (by decide)) hs hcp hu hudone hr hrdone
  rw [hu', hr'] at heq
  exact absurd heq (by decide)

end Workflow
