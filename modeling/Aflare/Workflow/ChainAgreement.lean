import Aflare.Workflow.DagConfluence
import Aflare.Workflow.Sequential

/-!
# A linear chain in both executors

The same plain steps can be run one after the other, or by the scheduler as a chain in which each
step waits for the one before it. Until a step is skipped both give a step the same input, the same
outcome and the same engine. They differ in what a skipped step hands on, in which output counts as
the last one, in the treatment of a node that is not registered, and in how errors are worded.
-/

namespace Workflow

open Go List Option Function Finset

/-! ## The links of a chain -/

variable {input : Str} {ps : PreparedStep} {output : Str}

section Links

variable (c : DAGConfig) (i : ℕ) (t : SeqState)

/-- A step, prepared with the output and the engine that the one before it left. -/
def preparedFrom : PreparedStep := prepareStep c.world (c.wf.step i) i t.data t.engine

def outcomeFrom : Sched.Outcome := outcomeOf c i (preparedFrom c i t) t.engine

def linkNext : SeqState :=
  ⟨t.engine.setStepOutput i (c.wf.step i).name (outcomeFrom c i t).output,
    (outcomeFrom c i t).output⟩

/-- What a step of the chain finds. -/
def linkState : ℕ → SeqState
  | 0 => ⟨{ newExpressionEngine with vars := c.wf.vars }, c.initialInput⟩
  | i + 1 => linkNext c i (linkState i)

/-- A step of the chain, prepared. -/
def linkPrepared : PreparedStep := preparedFrom c i (linkState c i)

def linkOutcome : Sched.Outcome := outcomeFrom c i (linkState c i)

/-- No step before `i` is skipped or aborts. -/
def CleanBelow : Prop :=
  ∀ j < i, (linkPrepared c j).skipped = false ∧ (linkOutcome c j).abortErr = none

/-- The last output that is not empty. -/
def lastNonEmpty (outputs : List Str) : Str :=
  outputs.foldl (fun last output => if output = [] then last else output) []

variable {c} {i j : ℕ}

theorem CleanBelow.mono (h : CleanBelow c i) (hj : j ≤ i) : CleanBelow c j := fun k hk =>
  h k (Nat.lt_of_lt_of_le hk hj)

theorem CleanBelow.succ (h : CleanBelow c i) (hskip : (linkPrepared c i).skipped = false)
    (hgo : (linkOutcome c i).abortErr = none) : CleanBelow c (i + 1) := by
  intro j hj
  rcases Nat.lt_succ_iff_lt_or_eq.mp hj with hj | rfl
  · exact h j hj
  · exact ⟨hskip, hgo⟩

variable {e : ExpressionEngine}

theorem applyErrorRecovery_continued {w : World} {step : WorkflowStep} {output execErr : Str}
    (hgo : (applyErrorRecovery w step output execErr e input).abortErr = none)
    (herr : (applyErrorRecovery w step output execErr e input).traceErr ≠ none) :
    (applyErrorRecovery w step output execErr e input).output = [] := by
  unfold applyErrorRecovery at hgo herr ⊢
  repeat' split
  all_goals simp_all

theorem output_of_continued (hgo : (outcomeOf c i ps e).abortErr = none)
    (herr : (outcomeOf c i ps e).resultErr ≠ none) : (outcomeOf c i ps e).output = [] := by
  revert hgo herr
  unfold outcomeOf
  split
  · intro hgo
    cases hgo
  · split
    · intro _ herr
      exact absurd rfl herr
    · dsimp only
      split
      · intro _ herr
        exact absurd rfl herr
      · exact applyErrorRecovery_continued

theorem link_of_constant (h : ∀ e, outcomeOf c i (linkPrepared c i) e = ⟨output, none, none⟩) :
    (linkOutcome c i).abortErr = none ∧ (linkOutcome c i).output = output ∧
      ∀ e, outcomeOf c i (linkPrepared c i) e = linkOutcome c i := by
  have hlink : linkOutcome c i = ⟨output, none, none⟩ := h _
  rw [hlink]
  exact ⟨rfl, rfl, h⟩

end Links

/-! ## The scheduler on a chain -/

/-- Each step waits for the one before it. -/
structure DepGraph.IsChain (g : DepGraph) : Prop where
  zero : g.deps 0 = ∅
  succ : ∀ i, i + 1 < g.nodeCount → g.deps (i + 1) = {i}

variable {i : ℕ}

theorem DepGraph.sorted_singleton {g : DepGraph} (hi : i < g.nodeCount) : g.sorted {i} = [i] := by
  have hperm : (g.sorted {i}).Perm [i] := by
    rw [perm_ext_iff_of_nodup (g.nodup_sorted _) (nodup_singleton i)]
    intro j
    rw [DepGraph.mem_sorted, Finset.mem_singleton, List.mem_singleton]
    exact and_iff_right_of_imp fun hj => hj ▸ hi
  exact perm_singleton.mp hperm

variable {idx : ℕ}

namespace Sched

/-- What the scheduler has done on a chain. Steps are dispatched in order, each after the one before
it is written; only skipped steps are written ahead of the processing. -/
structure Chained (c : DAGConfig) (s : Sched) : Prop where
  fresh : s.resumed = ∅
  running : s.shutdown = false
  order : s.dispatchSeq = List.range s.dispatchSeq.length
  behind : ∀ i, i + 1 < s.dispatchSeq.length → i ∈ s.propagated
  prepared : ∀ i < s.dispatchSeq.length, CleanBelow c i → s.prepared i = some (linkPrepared c i)
  results : ∀ i, ∀ res ∈ s.results i, ∀ ps ∈ s.prepared i, res = workerResult c i ps
  finalized : ∀ i ∈ s.finalized, CleanBelow c i → (linkOutcome c i).abortErr = none ∧
    ∀ e, outcomeOf c i (linkPrepared c i) e = linkOutcome c i
  ahead : ∀ i ∈ s.propagated, s.processPos < i → CleanBelow c i → (linkPrepared c i).skipped = true
  written : ∀ w, CleanBelow c w → s.propagated = Finset.range w →
    s.engine = (linkState c w).engine ∧ ∀ i, i + 1 = w → s.resolver i = some (linkState c w).data
  reported : s.allResults.length = s.processPos
  reports : ∀ i < s.processPos, CleanBelow c i → s.allResults[i]? =
    some ⟨i, (c.wf.step i).node, (linkPrepared c i).input, (linkOutcome c i).output,
      (linkOutcome c i).resultErr⟩
  abort : ∀ k < s.processPos, CleanBelow c k → ∀ err, (linkOutcome c k).abortErr = some err →
    s.firstAbortErr = some err ∧ s.dispatchSeq.length = k + 1
  going : CleanBelow c s.processPos → s.firstAbortErr = none
  last : CleanBelow c s.processPos → s.lastOutput =
    lastNonEmpty ((List.range s.processPos).map fun i => (linkOutcome c i).output)

variable {c : DAGConfig} {s s' : Sched}

theorem Chained.other (h : s.Chained c) (phase : Phase) (pending : ℕ → ℤ) (queue flight : List ℕ)
    (completed : Finset ℕ) (checkpoints : List WorkflowState) :
    Chained c { s with
      phase := phase, pending := pending, readyQueue := queue, inFlight := flight,
      completedOK := completed, checkpoints := checkpoints } :=
  { h with }

theorem chained_newDAGScheduler (c : DAGConfig) : (newDAGScheduler c).Chained c where
  fresh := rfl
  running := rfl
  order := rfl
  behind i hi := by simp [newDAGScheduler] at hi
  prepared i hi := by simp [newDAGScheduler] at hi
  results i res hres := by simp [newDAGScheduler] at hres
  finalized i hi := by simp [newDAGScheduler] at hi
  ahead i hi := by simp [newDAGScheduler, propagated, processed] at hi
  written w _ hw := by
    obtain rfl : w = 0 := by
      rw [← range_eq_empty_iff, ← hw]
      rfl
    exact ⟨rfl, fun i hi => by omega⟩
  reported := rfl
  reports i hi := by simp [newDAGScheduler] at hi
  abort k hk := by simp [newDAGScheduler] at hk
  going _ := rfl
  last _ := rfl

theorem Chained.mem_dispatchSeq (h : s.Chained c) :
    i ∈ s.dispatchSeq ↔ i < s.dispatchSeq.length := by
  rw [h.order, List.mem_range, List.length_range]

theorem Chained.lt_of_propagated (h : s.Chained c) (hinv : s.Inv c)
    (hi : i ∈ s.propagated) : i < s.dispatchSeq.length := by
  rcases hinv.mem_of_written (mem_union_right _ hi) with hi | hi
  · simp [h.fresh] at hi
  · exact h.mem_dispatchSeq.mp hi

/-- Only the last dispatched step is not yet written. -/
theorem Chained.last_of_notMem (h : s.Chained c) (hinv : s.Inv c) (hi : i < s.dispatchSeq.length)
    (hnot : i ∉ s.propagated) : s.dispatchSeq.length = i + 1 ∧ s.propagated = Finset.range i := by
  have hm : s.dispatchSeq.length = i + 1 := by
    by_contra hne
    exact hnot (h.behind i (by omega))
  refine ⟨hm, ?_⟩
  ext j
  rw [Finset.mem_range]
  constructor
  · intro hj
    have hlt := h.lt_of_propagated hinv hj
    have hne : j ≠ i := fun heq => hnot (heq ▸ hj)
    omega
  · intro hj
    exact h.behind j (by omega)

theorem Chained.next (h : s.Chained c) (hidx : s.dispatchSeq[s.processPos]? = some idx) :
    idx = s.processPos ∧ s.processPos < s.dispatchSeq.length := by
  have hlt : s.processPos < s.dispatchSeq.length := (List.getElem?_eq_some_iff.mp hidx).1
  rw [h.order, getElem?_range hlt] at hidx
  exact ⟨(Option.some.inj hidx).symm, hlt⟩

theorem mem_processed (h : s.Chained c) (hinv : s.Inv c) : i ∈ s.processed ↔ i < s.processPos := by
  have hpos := hinv.workers.pos_le
  rw [processed, h.order, List.take_range, List.mem_range]
  omega

theorem Chained.mem_propagated (h : s.Chained c) (hinv : s.Inv c) (hi : s.processPos ≤ i) :
    i ∈ s.propagated ↔ i ∈ s.finalized := by
  rw [propagated, Finset.mem_union, List.mem_toFinset, mem_processed h hinv]
  exact or_iff_left (not_lt.mpr hi)

/-- The step that is dispatched is the next one, and all before it are written. -/
theorem Chained.dispatch_next (hchain : c.graph.IsChain) (h : s.Chained c) (hinv : s.Inv c)
    (hab : s.aborted = false) (hmem : idx ∈ s.readyQueue) :
    idx = s.dispatchSeq.length ∧ s.propagated = Finset.range idx := by
  have hcounted := hinv.counted hab
  have hsub : c.graph.deps idx ⊆ s.resumed ∪ s.propagated :=
    hcounted.deps_subset hinv.queued (mem_append_right _ hmem)
  rw [h.fresh, Finset.empty_union] at hsub
  have hlt : idx < c.graph.nodeCount := (hinv.queued.within idx (mem_append_right _ hmem)).1
  have hnew : idx ∉ s.dispatchSeq := fun hseq =>
    (nodup_append.mp hinv.queued.nodup).2.2 idx hseq idx hmem rfl
  rw [h.mem_dispatchSeq, not_lt] at hnew
  have hdep : ∀ i, i + 1 = idx → i ∈ s.propagated := by
    rintro i rfl
    exact hsub (by rw [hchain.succ i hlt]; exact Finset.mem_singleton_self i)
  have hidx : idx = s.dispatchSeq.length := by
    refine Nat.le_antisymm ?_ hnew
    cases idx with
    | zero => exact Nat.zero_le _
    | succ i => exact h.lt_of_propagated hinv (hdep i rfl)
  refine ⟨hidx, ?_⟩
  ext i
  rw [Finset.mem_range]
  constructor
  · exact fun hi => hidx ▸ h.lt_of_propagated hinv hi
  · intro hi
    rcases Nat.lt_or_ge (i + 1) s.dispatchSeq.length with hlt | hge
    · exact h.behind i hlt
    · exact hdep i (by omega)

/-- The last dispatched step is written, after all others. -/
theorem Chained.finalize (h : s.Chained c)
    (hm : s.dispatchSeq.length = idx + 1) (hprop : s.propagated = Finset.range idx)
    (hlink : CleanBelow c idx → (linkOutcome c idx).abortErr = none ∧
      (linkOutcome c idx).output = output ∧
      ∀ e, outcomeOf c idx (linkPrepared c idx) e = linkOutcome c idx)
    (hahead : s.processPos < idx → CleanBelow c idx → (linkPrepared c idx).skipped = true) :
    (s.finalize c idx output).Chained c := by
  have hprop' : (s.finalize c idx output).propagated = Finset.range (idx + 1) := by
    rw [propagated_finalize, hprop, range_add_one]
  refine { h with behind := ?_, finalized := ?_, ahead := ?_, written := ?_ }
  · intro i hi
    rw [hprop', Finset.mem_range]
    have hi : i + 1 < s.dispatchSeq.length := hi
    omega
  · intro i hi hclean
    rcases mem_insert.mp hi with rfl | hi
    · obtain ⟨hgo, -, hall⟩ := hlink hclean
      exact ⟨hgo, hall⟩
    · exact h.finalized i hi hclean
  · intro i hi hpos hclean
    rw [propagated_finalize] at hi
    rcases mem_insert.mp hi with rfl | hi
    · exact hahead hpos hclean
    · exact h.ahead i hi hpos hclean
  · intro w hclean hw
    obtain rfl : idx + 1 = w := by
      rw [hprop'] at hw
      simpa using congrArg Finset.card hw
    have hbelow := hclean.mono (Nat.le_succ idx)
    obtain ⟨hengine, -⟩ := h.written idx hbelow hprop
    obtain ⟨-, hout, -⟩ := hlink hbelow
    constructor
    · change s.engine.setStepOutput idx (c.wf.step idx).name output = _
      rw [hengine, ← hout]
      rfl
    · intro i hi
      obtain rfl : i = idx := by omega
      change Function.update s.resolver i (some output) i = _
      rw [update_self, ← hout]
      rfl

/-- The step that is dispatched is prepared as the link of the chain. -/
theorem Chained.prepareDAGStep_eq (hchain : c.graph.IsChain) (hinv : s.Inv c) (h : s.Chained c)
    (hab : s.aborted = false) (hmem : idx ∈ s.readyQueue) (hclean : CleanBelow c idx) :
    prepareDAGStep c idx s.resolver s.engine = linkPrepared c idx := by
  obtain ⟨-, hprop⟩ := h.dispatch_next hchain hinv hab hmem
  obtain ⟨hengine, hresolver⟩ := h.written idx hclean hprop
  have hlt : idx < c.graph.nodeCount := (hinv.queued.within idx (mem_append_right _ hmem)).1
  have hinput : resolveInput c.graph idx s.resolver c.initialInput = (linkState c idx).data := by
    cases idx with
    | zero =>
      have hnone : c.graph.sorted (c.graph.deps 0) = [] := by
        rw [hchain.zero]
        simp [DepGraph.sorted]
      simp only [resolveInput, hnone]
      rfl
    | succ i =>
      have hone : c.graph.sorted (c.graph.deps (i + 1)) = [i] := by
        rw [hchain.succ i hlt]
        exact DepGraph.sorted_singleton (Nat.lt_of_succ_lt hlt)
      simp [resolveInput, hone, hresolver i rfl, getD_some]
  rw [prepareDAGStep, hinput, hengine]
  rfl

/-- The step that is dispatched is the next one of the chain. -/
theorem Chained.dispatchOne (hchain : c.graph.IsChain) (hinv : s.Inv c) (h : s.Chained c)
    (hab : s.aborted = false) {rest : List ℕ} (hqueue : s.readyQueue = idx :: rest) :
    (s.dispatchOne c idx rest).Chained c := by
  have hmem : idx ∈ s.readyQueue := hqueue ▸ mem_cons_self
  obtain ⟨hidx, hprop⟩ := h.dispatch_next hchain hinv hab hmem
  have hps := h.prepareDAGStep_eq hchain hinv hab hmem
  have hcases := dispatchOne_cases (c := c) s idx rest
  set ps := prepareDAGStep c idx s.resolver s.engine
  set t := s.enter idx rest ps with ht
  have hprop' : t.propagated = s.propagated := by
    simp only [propagated, processed, ht, Sched.enter, take_append_of_le_length hinv.workers.pos_le]
  have hlength : t.dispatchSeq.length = s.dispatchSeq.length + 1 := length_append
  -- the new step is the last one, and it is prepared as the link of the chain
  have hentered : t.Chained c := by
    refine { h with
      order := ?_, behind := ?_, prepared := ?_, results := ?_
      ahead := ?_, written := ?_, abort := ?_ }
    · rw [hlength, range_succ, ← h.order, ← hidx]
      rfl
    · intro i hi
      rw [hprop', hprop, Finset.mem_range]
      omega
    · refine (forall_update_iff s.prepared fun i p => i < t.dispatchSeq.length →
        CleanBelow c i → p = some (linkPrepared c i)).mpr ⟨?_, ?_⟩
      · exact fun _ hclean => congrArg some (hps hclean)
      · exact fun i hne hi => h.prepared i (by omega)
    · refine (forall_update_iff s.prepared fun i p => ∀ res ∈ s.results i, ∀ ps ∈ p,
        res = workerResult c i ps).mpr ⟨fun res hres => ?_, fun i _ => h.results i⟩
      -- no result of the new step has arrived
      have hmem := hinv.workers.results_mem idx (by rw [mem_def.mp hres]; rfl)
      have := h.mem_dispatchSeq.mp (mem_of_mem_drop hmem)
      omega
    · rw [hprop']
      exact h.ahead
    · rw [hprop']
      exact h.written
    · intro k hk hclean err herr
      obtain ⟨hfirst, -⟩ := h.abort k hk hclean err herr
      simp [aborted, hfirst] at hab
  rcases hcases with ⟨-, heq⟩ | ⟨hnoErr, hskip, heq⟩ | ⟨-, heq⟩ <;> rw [heq]
  · exact hentered
  · refine hentered.finalize (hlength.trans (by rw [hidx])) (hprop'.trans hprop) ?_ ?_
    · intro hclean
      apply link_of_constant
      rw [← hps hclean]
      exact outcomeOf_skipped hnoErr hskip
    · intro _ hclean
      rw [← hps hclean]
      exact hskip
  · exact hentered.other _ _ _ _ _ _

/-- The result that is waited for is that of the last dispatched step. -/
theorem Chained.waiting_last (hinv : s.Inv c) (h : s.Chained c) (hwait : s.Waiting)
    (hidx : idx ∈ s.inFlight) :
    s.dispatchSeq.length = idx + 1 ∧ s.processPos = idx ∧ s.propagated = Finset.range idx := by
  have hlast : ∀ i ∈ s.inFlight, s.dispatchSeq.length = i + 1 ∧
      s.propagated = Finset.range i := by
    intro i hi
    have hmem := hinv.workers.flight_mem i hi
    refine h.last_of_notMem hinv (h.mem_dispatchSeq.mp (mem_of_mem_drop hmem)) fun hprop => ?_
    exact hinv.workers.flight_finalized i hi ((hinv.mem_propagated hmem).mp hprop)
  obtain ⟨want, hwant, hflight⟩ := hinv.want_inFlight hwait
  obtain ⟨hm, hprop⟩ := hlast idx hidx
  obtain ⟨hm', -⟩ := hlast want hflight
  obtain ⟨rfl, -⟩ := h.next hwant
  exact ⟨hm, by omega, hprop⟩

theorem Chained.receive (hinv : s.Inv c) (h : s.Chained c) (hwait : s.Waiting)
    (hidx : idx ∈ s.inFlight) (hps : s.prepared idx = some ps) :
    (s.receive c (workerResult c idx ps)).Chained c := by
  obtain ⟨hm, hpos, hprop⟩ := h.waiting_last hinv hwait hidx
  have hworker := hinv.workers.flight_worker idx hidx ps hps
  -- the result is kept; the rest depends on whether the node failed
  have hres : ∀ res ∈ some (workerResult c idx ps), ∀ ps ∈ s.prepared idx,
      res = workerResult c idx ps := by simp [hps]
  have hkept : (s.keep (workerResult c idx ps)).Chained c :=
    { h with results := update_results h.results hres }
  rcases receive_cases (c := c) s (workerResult c idx ps) with ⟨hnoErr, -, heq⟩ | ⟨-, heq⟩ <;>
    rw [heq]
  · have hlink : CleanBelow c idx → ∀ e, outcomeOf c idx (linkPrepared c idx) e =
        ⟨(workerResult c idx ps).output, none, none⟩ := by
      intro hclean
      have hps' : ps = linkPrepared c idx :=
        Option.some.inj (hps.symm.trans (h.prepared idx (by omega) hclean))
      rw [← hps']
      exact outcomeOf_success hworker hnoErr
    exact hkept.finalize hm hprop
      (fun hclean => link_of_constant (hlink hclean))
      fun hlt => absurd hpos (Nat.ne_of_lt hlt)
  · exact hkept

/-- When a step of a chain is processed, its outcome is that of the link. -/
theorem Chained.outcome_eq (hinv : s.Inv c) (h : s.Chained c) (hturn : s.Turn idx ps)
    (hclean : CleanBelow c idx) :
    ps = linkPrepared c idx ∧ s.outcome c idx ps = linkOutcome c idx := by
  obtain ⟨rfl, hlt⟩ := h.next hturn.next
  have hlink : ps = linkPrepared c s.processPos :=
    Option.some.inj (hturn.prepared.symm.trans (h.prepared _ hlt hclean))
  refine ⟨hlink, ?_⟩
  rw [outcome_eq_outcomeOf (hinv.result_of_worker h.results hturn), hlink]
  by_cases hfin : s.processPos ∈ s.finalized
  · exact (h.finalized _ hfin hclean).2 _
  · rw [← h.mem_propagated hinv le_rfl] at hfin
    rw [(h.written _ hclean (h.last_of_notMem hinv hlt hfin).2).1]
    rfl

theorem lastNonEmpty_snoc (outputs : List Str) (output : Str) :
    lastNonEmpty (outputs ++ [output]) = if output = [] then lastNonEmpty outputs else output := by
  simp [lastNonEmpty]

/-- What is written once the next step is processed as well. -/
theorem Chained.written_process (hinv : s.Inv c) (h : s.Chained c)
    (hlt : s.processPos < s.dispatchSeq.length) {w : ℕ} (hclean : CleanBelow c w)
    (hw : insert s.processPos s.propagated = Finset.range w) :
    w = s.processPos + 1 ∧
      s.engine.setStepOutput s.processPos (c.wf.step s.processPos).name
        (linkOutcome c s.processPos).output = (linkState c w).engine := by
  have hpw : s.processPos < w := by
    rw [← Finset.mem_range, ← hw]
    exact mem_insert_self _ _
  obtain rfl : w = s.processPos + 1 := by
    by_contra hne
    have hahead : s.processPos + 1 ∈ insert s.processPos s.propagated := by
      rw [hw, Finset.mem_range]
      omega
    have hprop := (mem_insert.mp hahead).resolve_left (by omega)
    -- only a skipped step is written ahead of the processing
    have hskip := h.ahead _ hprop (Nat.lt_succ_self _) (hclean.mono (by omega))
    rw [(hclean (s.processPos + 1) (by omega)).1] at hskip
    cases hskip
  refine ⟨rfl, ?_⟩
  by_cases hprop : s.processPos ∈ s.propagated
  · rw [insert_eq_of_mem hprop] at hw
    rw [(h.written _ hclean hw).1]
    exact ExpressionEngine.setStepOutput_setStepOutput _ _ _ _ _
  · rw [(h.written _ (hclean.mono (Nat.le_succ _)) (h.last_of_notMem hinv hlt hprop).2).1]
    rfl

/-- The step in turn is processed with the outcome that it has in the chain. -/
theorem Chained.processStep (hinv : s.Inv c) (h : s.Chained c) (hturn : s.Turn idx ps)
    (disk : Option Time) : (s.processStep c disk idx ps).Chained c := by
  have hlink := h.outcome_eq hinv hturn
  obtain ⟨rfl, hlt⟩ := h.next hturn.next
  set o := s.outcome c s.processPos ps with ho
  have hprop : s.finalized ∪ (s.dispatchSeq.take (s.processPos + 1)).toFinset =
      insert s.processPos s.propagated := by
    rw [processed_succ hturn.next, union_insert]
    rfl
  have hahead : ∀ i ∈ insert s.processPos s.propagated, s.processPos + 1 < i → CleanBelow c i →
      (linkPrepared c i).skipped = true := by
    intro i hi hpos
    rcases mem_insert.mp hi with rfl | hi
    · omega
    · exact h.ahead i hi (by omega)
  have hwritten : ∀ w, CleanBelow c w → insert s.processPos s.propagated = Finset.range w →
      s.engine.setStepOutput s.processPos (c.wf.step s.processPos).name o.output =
        (linkState c w).engine ∧
      ∀ i, i + 1 = w → Function.update s.resolver s.processPos (some o.output) i =
        some (linkState c w).data := by
    intro w hclean hw
    obtain ⟨rfl, hengine⟩ := h.written_process hinv hlt hclean hw
    have hout := (hlink (hclean.mono (Nat.le_succ _))).2
    rw [hout]
    refine ⟨hengine, fun i hi => ?_⟩
    obtain rfl : i = s.processPos := by omega
    rw [update_self]
    rfl
  have hreports : ∀ i < s.processPos + 1, CleanBelow c i → (s.allResults ++
      [⟨s.processPos, (c.wf.step s.processPos).node, ps.input, o.output, o.resultErr⟩])[i]? =
        some ⟨i, (c.wf.step i).node, (linkPrepared c i).input, (linkOutcome c i).output,
          (linkOutcome c i).resultErr⟩ := by
    intro i hi hclean
    rcases Nat.lt_succ_iff_lt_or_eq.mp hi with hi | rfl
    · rw [getElem?_append_left (by rw [h.reported]; exact hi)]
      exact h.reports i hi hclean
    · rw [getElem?_append_right (by rw [h.reported]), h.reported, Nat.sub_self,
        (hlink hclean).2, (hlink hclean).1]
      rfl
  have habort : ∀ k < s.processPos + 1, CleanBelow c k → ∀ err,
      (linkOutcome c k).abortErr = some err →
        s.firstAbortErr.or o.abortErr = some err ∧ s.dispatchSeq.length = k + 1 := by
    intro k hk hclean err herr
    rcases Nat.lt_succ_iff_lt_or_eq.mp hk with hk | rfl
    · have := (h.abort k hk hclean err herr).2
      omega
    · rw [h.going hclean, (hlink hclean).2, herr]
      refine ⟨rfl, (h.last_of_notMem hinv hlt fun hprop => ?_).1⟩
      rw [(h.finalized _ ((h.mem_propagated hinv le_rfl).mp hprop) hclean).1] at herr
      cases herr
  have hgoing : CleanBelow c (s.processPos + 1) → s.firstAbortErr.or o.abortErr = none := by
    intro hclean
    have hbelow := hclean.mono (Nat.le_succ _)
    rw [h.going hbelow, (hlink hbelow).2]
    exact (hclean _ (Nat.lt_succ_self _)).2
  have hlast : CleanBelow c (s.processPos + 1) →
      (if o.resultErr.isNone ∧ o.output ≠ [] then o.output else s.lastOutput) =
        lastNonEmpty ((List.range (s.processPos + 1)).map fun i => (linkOutcome c i).output) := by
    intro hclean
    have hbelow := hclean.mono (Nat.le_succ _)
    have hgo := (hclean _ (Nat.lt_succ_self s.processPos)).2
    rw [List.range_succ, List.map_append, List.map_singleton, lastNonEmpty_snoc, ← h.last hbelow,
      (hlink hbelow).2]
    by_cases hout : (linkOutcome c s.processPos).output = []
    · simp [hout]
    · have hok : (linkOutcome c s.processPos).resultErr = none := by
        by_contra herr
        exact hout (output_of_continued hgo herr)
      simp [hout, hok]
  obtain ⟨pending, queue, completed, checkpoints, heq, -⟩ :=
    processStep_eq (c := c) s disk s.processPos ps
  rw [heq, ← ho]
  rw [← hprop] at hahead
  exact ⟨h.fresh, h.running, h.order,
    fun i hi => hprop.symm.subset (mem_insert_of_mem (h.behind i hi)), h.prepared,
    update_results h.results (by simp), h.finalized, hahead,
    fun w hclean hw => hwritten w hclean (hprop.symm.trans hw),
    (length_append).trans (congrArg (· + 1) h.reported), hreports, habort, hgoing, hlast⟩

/-- Every step of the scheduler goes along the chain. -/
theorem Chained.workerStep (hg : c.graph.EdgesWithin) (hchain : c.graph.IsChain) (hinv : s.Inv c)
    (h : s.Chained c) {a : WorkerAction} (hstep : s.workerStep c a = some s') :
    s'.Inv c ∧ s'.Chained c := by
  obtain ⟨b, hb, hmove⟩ := move_of_workerStep hstep
  refine ⟨hinv.move hg hmove, ?_⟩
  cases a with
  | finish idx =>
    -- a result that arrives is the one of the node
    obtain ⟨ps, hps, hstep⟩ := bind_eq_some_iff.mp hstep
    have hmove := move_of_step c hstep
    cases hmove with
    | receive hwait hidx => exact h.receive hinv hwait hidx hps
  | tick disk =>
    have hmove : Move c s (.tick disk) s' := move_of_step c hstep
    cases hmove with
    | dispatch _ hqueue hab _ => exact h.dispatchOne hchain hinv hab hqueue
    | process hturn => exact h.processStep hinv hturn disk
    | _ => exact h.other _ _ _ _ _ _

theorem chained_workerRun (hg : c.graph.EdgesWithin) (hchain : c.graph.IsChain)
    {actions : List WorkerAction} (hrun : (newDAGScheduler c).workerRun c actions = some s) :
    s.Inv c ∧ s.Chained c := by
  refine Runs.invariant (P := fun t => t.Inv c ∧ t.Chained c) ?_ ?_ hrun
  · rintro t a t' ⟨hinv, h⟩ hstep
    exact h.workerStep hg hchain hinv hstep
  · exact ⟨(core_newDAGScheduler c).inv rfl (.inl rfl), chained_newDAGScheduler c⟩

variable (hg : c.graph.WellFormed) (hinv : s.Inv c) (h : s.Chained c) (hdone : s.phase = .done)

include hg hinv h hdone

/-- Where the run ends: at the first link that aborts, if no link before it is skipped, and after
the last link otherwise. -/
theorem Chained.ends (hi : i < c.graph.nodeCount) (hclean : CleanBelow c i) : i < s.processPos := by
  obtain ⟨hpos, -⟩ := hinv.done hdone
  by_contra hle
  have hgoing := h.going (hclean.mono (by omega))
  have hall := (hinv.completed hg hdone (by simp [aborted, hgoing]) h.running).2 i hi
    (by simp [h.fresh])
  have := h.mem_dispatchSeq.mp hall
  omega

theorem Chained.result_abort {k : ℕ} (hk : k < c.graph.nodeCount) (hclean : CleanBelow c k)
    {err : Str} (herr : (linkOutcome c k).abortErr = some err) :
    s.result c = .error (str "DAG step " ++ itoa k ++ str " failed: " ++ err) := by
  obtain ⟨hfirst, hm⟩ := h.abort k (h.ends hg hinv hdone hk hclean) hclean err herr
  obtain ⟨hpos, -⟩ := hinv.done hdone
  have hlast : (s.processPos : ℤ) - 1 = k := by omega
  simp [Sched.result, hfirst, hlast]

/-- A chain without a failure ends as its steps one after the other do. -/
theorem Chained.result_complete (hclean : CleanBelow c c.graph.nodeCount) :
    s.firstAbortErr = none ∧ s.engine = (linkState c c.graph.nodeCount).engine ∧
      s.lastOutput =
        lastNonEmpty ((List.range c.graph.nodeCount).map fun i => (linkOutcome c i).output) := by
  obtain ⟨hpos, -⟩ := hinv.done hdone
  have hle := hinv.length_le
  rw [length_append] at hle
  have hgoing := h.going (hclean.mono (by omega))
  have hn : s.processPos = c.graph.nodeCount := by
    by_contra hne
    have := h.ends hg hinv hdone (i := s.processPos) (by omega) (hclean.mono (by omega))
    omega
  have hprop : s.propagated = Finset.range c.graph.nodeCount := by
    ext i
    rw [Finset.mem_range]
    constructor
    · intro hi
      have := h.lt_of_propagated hinv hi
      omega
    · intro hi
      exact mem_union_right _ (mem_toFinset.mpr ((mem_processed h hinv).mpr (by omega)))
  refine ⟨hgoing, (h.written _ hclean hprop).1, ?_⟩
  rw [h.last (hclean.mono (by omega)), hn]

omit hg hinv h hdone

end Sched

/-! ## The sequential executor on the same steps -/

/-- What makes a step fail: its input, its condition, its parameters or its node. -/
inductive StepFailure
  | input (err : Str)
  | condition (err : Str)
  | params (err : Str)
  | node (err : Str)

/-- How the sequential run ends at a failed step. -/
def StepFailure.seqResult (i : ℕ) (step : WorkflowStep) : StepFailure → SeqConfig.Result
  | .input err =>
    .failed (str "step " ++ itoa i ++ str " (" ++ step.node ++ str ") input evaluation failed: " ++
      err)
  | .condition err => .failed err
  | .params err => .failed (str "expression evaluation failed: " ++ err)
  | .node err =>
    if step.resumable then .paused err
    else
      .failed (str "step " ++ itoa (i + 1) ++ str " (" ++ step.node ++ str ") failed: " ++ err)

/-- The error with which the scheduler stops at a failed step. -/
def StepFailure.abortErr : StepFailure → Str
  | .input err => err
  | .condition err => str "condition evaluation failed: " ++ err
  | .params err => err
  | .node err => err

/-- The sequential run of the steps of a chain. -/
def DAGConfig.sequential (c : DAGConfig)
    (compound : CompoundKind → WorkflowStep → Str → ExpressionEngine → Except Str Str) :
    SeqConfig where
  world := c.world
  wf := c.wf
  initialData := c.initialInput
  compound := compound

/-- The sequential run comes to a step and skips it. -/
def SeqConfig.Skips (c : SeqConfig) (i : ℕ) : Prop :=
  ∃ t input, c.stateAt i = some t ∧ c.stepInput i t = .ok input ∧
    (c.wf.step i).compoundKind = none ∧
    evaluateCondition c.world t.engine (c.wf.step i).condition input = .ok false

/-- A call of one registered node. -/
structure WorkflowStep.Plain (w : World) (step : WorkflowStep) : Prop where
  simple : step.compoundKind = none
  registered : (w.node step.node).isSome = true

variable {sc : SeqConfig}

section Rounds

variable {c : DAGConfig} {compound : CompoundKind → WorkflowStep → Str → ExpressionEngine →
  Except Str Str} {i : ℕ} {t : SeqState}

theorem preparedFrom_input (h : (c.sequential compound).stepInput i t = .ok input) :
    (preparedFrom c i t).input = input := by
  grind [DAGConfig.sequential, SeqConfig.stepInput, preparedFrom, prepareStep]

theorem SeqConfig.executeFrom_eq (hi : i < sc.wf.steps.length) :
    sc.executeFrom i t =
      match sc.stepInput i t with
      | .error err => ⟨[], [], .failed err⟩
      | .ok input =>
        match sc.handleStep sc.world.executeStep i input t with
        | .next t' _ =>
          ⟨input :: (sc.executeFrom (i + 1) t').inputs, t' :: (sc.executeFrom (i + 1) t').states,
            (sc.executeFrom (i + 1) t').result⟩
        | .failed err => ⟨[input], [], .failed err⟩
        | .paused _ err => ⟨[input], [], .paused err⟩ := by
  have hleft : sc.wf.steps.length - i = (sc.wf.steps.length - (i + 1)) + 1 := by omega
  rw [executeFrom, hleft, executeSteps]
  rfl

/-- What one round does in both executors, from the same state. -/
inductive Round (c : DAGConfig) (sc : SeqConfig) (i : ℕ) (t : SeqState) : Prop
  | failed (f : StepFailure) (hnext : sc.nextState i t = none)
      (hresult : (sc.executeFrom i t).result = f.seqResult i (c.wf.step i))
      (habort : (outcomeFrom c i t).abortErr = some f.abortErr)
  | skipped (input : Str) (hinput : sc.stepInput i t = .ok input)
      (hcond : evaluateCondition c.world t.engine (c.wf.step i).condition input = .ok false)
  | completed (hnext : sc.nextState i t = some (linkNext c i t))
      (hskip : (preparedFrom c i t).skipped = false) (hgo : (outcomeFrom c i t).abortErr = none)

/-- How a round ends the run, if it does. -/
def Handled.result : Handled → Option SeqConfig.Result
  | .next _ _ => none
  | .failed err => some (.failed err)
  | .paused _ err => some (.paused err)

theorem SeqConfig.ends_of_handleStep (hi : i < sc.wf.steps.length)
    (hinput : sc.stepInput i t = .ok input) {result : SeqConfig.Result}
    (h : (sc.handleStep sc.world.executeStep i input t).result = some result) :
    sc.nextState i t = none ∧ (sc.executeFrom i t).result = result := by
  rw [SeqConfig.executeFrom_eq hi, SeqConfig.nextState, hinput]
  cases hhandle : sc.handleStep sc.world.executeStep i input t with
  | next t' saved => simp [hhandle, Handled.result] at h
  | failed err | paused t' err => simpa [hhandle, Handled.result] using h

/-- A plain step whose condition holds, in both executors. -/
theorem round_regular (hi : i < c.wf.steps.length) (hplain : (c.wf.step i).Plain c.world)
    (hinput : (c.sequential compound).stepInput i t = .ok input)
    (hhandle : (c.sequential compound).handleStep c.world.executeStep i input t =
      (c.sequential compound).executeRegularStep c.world.executeStep i input t.engine)
    (hprepared : preparedFrom c i t =
      match t.engine.evaluateParams c.world (c.wf.step i).params input with
      | .error err => ⟨i, input, none, some err, false⟩
      | .ok params => ⟨i, input, params, none, false⟩) :
    Round c (c.sequential compound) i t := by
  have hnode : (c.world.node (c.wf.step i).node).isNone = false := by
    simpa using hplain.registered
  unfold SeqConfig.executeRegularStep at hhandle
  simp only [DAGConfig.sequential, hnode] at hhandle
  cases hparams : t.engine.evaluateParams c.world (c.wf.step i).params input with
  | error err =>
    rw [hparams] at hprepared hhandle
    obtain ⟨hnext, hresult⟩ := SeqConfig.ends_of_handleStep hi hinput (congrArg _ hhandle)
    refine .failed (.params err) hnext hresult ?_
    simp [outcomeFrom, hprepared, outcomeOf, StepFailure.abortErr]
  | ok params =>
    rw [hparams] at hprepared hhandle
    cases hrun : c.world.executeStep (c.wf.step i) input params with
    | mk output err =>
      cases err with
      | none =>
        have hout : outcomeFrom c i t = ⟨output, none, none⟩ := by
          simp [outcomeFrom, hprepared, outcomeOf, workerResult, hrun]
        refine .completed ?_ (by rw [hprepared]) (by rw [hout])
        apply SeqConfig.nextState_eq_some_iff.mpr
        refine ⟨input, hinput, true, hhandle.trans ?_⟩
        simp [hrun, linkNext, hout]
      | some execErr =>
        -- both executors recover with the same engine and the same input
        set r := applyErrorRecovery c.world (c.wf.step i) output execErr t.engine input with hr
        have hout : outcomeFrom c i t = ⟨r.output, r.traceErr, r.abortErr⟩ := by
          simp [outcomeFrom, hprepared, outcomeOf, workerResult, hrun, hr]
        cases habort : r.abortErr with
        | none =>
          refine .completed ?_ (by rw [hprepared]) (by rw [hout, habort])
          apply SeqConfig.nextState_eq_some_iff.mpr
          refine ⟨input, hinput, true, hhandle.trans ?_⟩
          simp [hrun, ← hr, habort, linkNext, hout]
        | some err =>
          have hends : ((c.sequential compound).handleStep c.world.executeStep i input t).result =
              some ((StepFailure.node err).seqResult i (c.wf.step i)) := by
            refine (congrArg Handled.result hhandle).trans ?_
            simp only [Bool.false_eq_true, if_false, hrun, ← hr, habort,
              SeqConfig.handleStepFailure, StepFailure.seqResult]
            split
            · rfl
            · rfl
          obtain ⟨hnext, hresult⟩ := SeqConfig.ends_of_handleStep hi hinput hends
          refine .failed (.node err) hnext hresult ?_
          rw [hout]
          exact habort

variable (compound) in
/-- A plain step in both executors. -/
theorem round (hi : i < c.wf.steps.length) (hplain : (c.wf.step i).Plain c.world) (t : SeqState) :
    Round c (c.sequential compound) i t := by
  have hcompound := WorkflowStep.isCompound_eq_false hplain.simple
  cases hres : resolveStepInput c.world t.engine (c.wf.step i).input t.data with
  | error err =>
    have hinput : (c.sequential compound).stepInput i t = .error (str "step " ++ itoa i ++
        str " (" ++ (c.wf.step i).node ++ str ") input evaluation failed: " ++ err) := by
      simp [SeqConfig.stepInput, DAGConfig.sequential, hres]
    refine .failed (.input err) ?_ ?_ ?_
    · simp [SeqConfig.nextState, hinput]
    · rw [SeqConfig.executeFrom_eq hi, hinput]
      rfl
    · simp [outcomeFrom, preparedFrom, prepareStep, outcomeOf, hres, StepFailure.abortErr]
  | ok input =>
    have hinput : (c.sequential compound).stepInput i t = .ok input := by
      simp [SeqConfig.stepInput, DAGConfig.sequential, hres]
    have hhandle := SeqConfig.handleStep_of_simple (c.sequential compound) hplain.simple
      c.world.executeStep input t
    rw [show evaluateCondition (c.sequential compound).world t.engine
      ((c.sequential compound).wf.step i).condition input =
        evaluateCondition c.world t.engine (c.wf.step i).condition input from rfl] at hhandle
    cases hcond : evaluateCondition c.world t.engine (c.wf.step i).condition input with
    | error err =>
      rw [hcond] at hhandle
      obtain ⟨hnext, hresult⟩ := SeqConfig.ends_of_handleStep hi hinput (congrArg _ hhandle)
      refine .failed (.condition err) hnext hresult ?_
      simp [outcomeFrom, preparedFrom, prepareStep, outcomeOf, hres, hcond, StepFailure.abortErr]
    | ok pass =>
      cases pass with
      | false => exact .skipped input hinput hcond
      | true =>
        rw [hcond] at hhandle
        apply round_regular hi hplain hinput hhandle
        simp only [preparedFrom, prepareStep, hres, hcond, hcompound]
        rfl

end Rounds

section Agreement

variable {c : DAGConfig} {compound : CompoundKind → WorkflowStep → Str → ExpressionEngine →
  Except Str Str}

theorem initial_eq_linkState : (c.sequential compound).initial = linkState c 0 := by
  simp only [SeqConfig.initial, ExpressionEngine.setVariables, DAGConfig.sequential, linkState,
    newExpressionEngine, GoMap.assignAll_toList_empty]

/-- An input of the sequential run is that of a step it came to. -/
theorem SeqConfig.exists_stateAt_of_input {k j : ℕ} {u : SeqState} (hu : sc.stateAt k = some u)
    (h : (sc.executeFrom k u).inputs[j]? = some input) :
    k + j < sc.wf.steps.length ∧
      ∃ t, sc.stateAt (k + j) = some t ∧ sc.stepInput (k + j) t = .ok input := by
  have hlt : ∀ {k j : ℕ} {u : SeqState}, (sc.executeFrom k u).inputs[j]? = some input →
      k < sc.wf.steps.length := by
    intro k j u h
    by_contra hge
    have hzero : sc.wf.steps.length - k = 0 := by omega
    rw [executeFrom, hzero, executeSteps] at h
    simp at h
  induction j generalizing k u with
  | zero =>
    refine ⟨hlt h, u, hu, ?_⟩
    rw [executeFrom_eq (hlt h)] at h
    cases hinput : sc.stepInput k u with
    | error err => simp [hinput] at h
    | ok input' =>
      rw [hinput] at h
      cases hhandle : sc.handleStep sc.world.executeStep k input' u <;>
        simpa [hhandle] using h
  | succ j ih =>
    rw [executeFrom_eq (hlt h)] at h
    cases hinput : sc.stepInput k u with
    | error err => simp [hinput] at h
    | ok input' =>
      rw [hinput] at h
      cases hhandle : sc.handleStep sc.world.executeStep k input' u with
      | failed err | paused t err => simp [hhandle] at h
      | next t saved =>
        have hnext : sc.stateAt (k + 1) = some t := by
          rw [stateAt, hu, bind_some]
          exact nextState_eq_some_iff.mpr ⟨input', hinput, saved, hhandle⟩
        simp only [hhandle, getElem?_cons_succ] at h
        have hadd : k + (j + 1) = k + 1 + j := by omega
        rw [hadd]
        exact ih hnext h

variable (compound) in
theorem finalOutput_eq_finish (s : Sched) :
    s.finalOutput c = (c.sequential compound).finish ⟨s.engine, s.lastOutput⟩ := by
  unfold Sched.finalOutput SeqConfig.finish
  simp only [DAGConfig.sequential]
  by_cases houtput : c.wf.output = []
  · simp [houtput]
  · simp only [houtput, if_false]
    cases s.engine.evaluate c.world c.wf.output s.lastOutput <;> rfl

theorem getLast?_links (c : DAGConfig) (n : ℕ) :
    ((List.range n).map fun i => linkState c (i + 1)).getLast?.getD (linkState c 0) =
      linkState c n := by
  cases n with
  | zero => rfl
  | succ n => simp [range_succ]

section

variable (hplain : ∀ i < c.wf.steps.length, (c.wf.step i).Plain c.world)

include hplain

/-- Until a step is skipped, the sequential run finds the states of the chain. -/
theorem stateAt_eq_linkState (hi : i ≤ c.wf.steps.length)
    (hskips : ∀ j < i, ¬ (c.sequential compound).Skips j) {t : SeqState}
    (ht : (c.sequential compound).stateAt i = some t) : t = linkState c i ∧ CleanBelow c i := by
  induction i generalizing t with
  | zero =>
    cases ht
    exact ⟨initial_eq_linkState, fun j hj => by omega⟩
  | succ i ih =>
    obtain ⟨u, hu, hnext⟩ := bind_eq_some_iff.mp ht
    obtain ⟨rfl, hclean⟩ := ih (by omega) (fun j hj => hskips j (by omega)) hu
    cases round compound (by omega) (hplain i (by omega)) (linkState c i) with
    | failed f hnone =>
      rw [hnone] at hnext
      cases hnext
    | skipped input hinput hcond =>
      exact absurd ⟨_, input, hu, hinput, (hplain i (by omega)).simple, hcond⟩
        (hskips i (Nat.lt_succ_self i))
    | completed hlink hskip hgo =>
      rw [hlink] at hnext
      exact ⟨(Option.some.inj hnext).symm, hclean.succ hskip hgo⟩

/-- How the sequential run goes on from a state of the chain, if it skips no step. -/
theorem executeFrom_linkState (hskips : ∀ j, ¬ (c.sequential compound).Skips j) {k left : ℕ}
    (hk : k + left = c.wf.steps.length)
    (hstate : (c.sequential compound).stateAt k = some (linkState c k)) :
    (∃ (i : ℕ) (f : StepFailure), i < c.wf.steps.length ∧ CleanBelow c i ∧
      ((c.sequential compound).executeFrom k (linkState c k)).result = f.seqResult i (c.wf.step i) ∧
      (linkOutcome c i).abortErr = some f.abortErr) ∨
    CleanBelow c c.wf.steps.length ∧
      ((c.sequential compound).executeFrom k (linkState c k)).result =
        .completed ((c.sequential compound).finish (linkState c c.wf.steps.length)) ∧
      ((c.sequential compound).executeFrom k (linkState c k)).states =
        (List.range' k left).map fun i => linkState c (i + 1) := by
  have hclean : CleanBelow c k :=
    (stateAt_eq_linkState hplain (by omega) (fun j _ => hskips j) hstate).2
  induction left generalizing k with
  | zero =>
    obtain rfl : k = c.wf.steps.length := by omega
    have hzero : (c.sequential compound).wf.steps.length - c.wf.steps.length = 0 := Nat.sub_self _
    refine .inr ⟨hclean, ?_, ?_⟩
    · rw [SeqConfig.executeFrom, hzero]
      rfl
    · rw [SeqConfig.executeFrom, hzero]
      rfl
  | succ left ih =>
    have hlt : k < c.wf.steps.length := by omega
    cases round compound hlt (hplain k hlt) (linkState c k) with
    | failed f hnone hresult habort => exact .inl ⟨k, f, hlt, hclean, hresult, habort⟩
    | skipped input hinput hcond =>
      exact absurd ⟨_, input, hstate, hinput, (hplain k hlt).simple, hcond⟩ (hskips k)
    | completed hnext hskip hgo =>
      have hstate' : (c.sequential compound).stateAt (k + 1) = some (linkState c (k + 1)) := by
        rw [SeqConfig.stateAt, hstate, bind_some]
        exact hnext
      obtain ⟨input, hinput, -⟩ := SeqConfig.nextState_eq_some_iff.mp hnext
      rw [SeqConfig.executeFrom_of_nextState hlt hinput hnext]
      have hrest := ih (k := k + 1) (by omega) hstate' (hclean.succ hskip hgo)
      rcases hrest with hfail | ⟨hall, hresult, hstates⟩
      · exact .inl hfail
      · refine .inr ⟨hall, hresult, ?_⟩
        rw [List.range'_succ, List.map_cons, ← hstates]
        rfl

end

variable (compound) in
/-- A chain of plain steps with registered nodes, run by both executors without a shutdown. A step
has the same input in both as long as no step before it is skipped. If no step is skipped, both fail
at the same step and for the same cause, each with its own wording, or both end; then the final
output of the scheduler is that of the sequential run with the last output that is not empty in
place of the last output. -/
theorem chain_agrees (hgraph : buildDepGraph c.wf.steps = .ok c.graph) (hchain : c.graph.IsChain)
    (hplain : ∀ i < c.wf.steps.length, (c.wf.step i).Plain c.world) {actions : List WorkerAction}
    {s : Sched} (hrun : (startDAG c none).workerRun c actions = some s) (hdone : s.phase = .done) :
    let x := (c.sequential compound).executeFrom 0 (c.sequential compound).initial
    (∀ (i : ℕ) (input : Str), (∀ j < i, ¬ (c.sequential compound).Skips j) →
      x.inputs[i]? = some input →
        ∃ r, s.allResults[i]? = some r ∧ r.stepIndex = i ∧ r.input = input) ∧
    ((∀ i, ¬ (c.sequential compound).Skips i) →
      (∃ (i : ℕ) (f : StepFailure), x.result = f.seqResult i (c.wf.step i) ∧
        s.result c = .error (str "DAG step " ++ itoa i ++ str " failed: " ++ f.abortErr)) ∨
      ∃ t, x.states.getLast?.getD (c.sequential compound).initial = t ∧
        x.result = .completed ((c.sequential compound).finish t) ∧
        s.result c = .ok ((c.sequential compound).finish
          { t with data := lastNonEmpty (x.states.map (·.data)) }) ∧
        (0 < c.wf.steps.length → t.data ≠ [] →
          s.result c = .ok ((c.sequential compound).finish t))) := by
  obtain ⟨hg, hn⟩ := wellFormed_of_buildDepGraph hgraph
  obtain ⟨hinv, h⟩ := Sched.chained_workerRun hg.toEdgesWithin hchain hrun
  have hstart : (c.sequential compound).stateAt 0 = some (linkState c 0) :=
    congrArg some initial_eq_linkState
  refine ⟨?_, ?_⟩
  · intro i input hskips hinput
    have hzero : (c.sequential compound).stateAt 0 = some (c.sequential compound).initial := rfl
    obtain ⟨hlt, t, ht, hstep⟩ := SeqConfig.exists_stateAt_of_input hzero hinput
    rw [Nat.zero_add] at hlt ht hstep
    obtain ⟨rfl, hclean⟩ := stateAt_eq_linkState hplain (Nat.le_of_lt hlt) hskips ht
    have hpos := h.ends hg hinv hdone (hn.symm ▸ hlt) hclean
    exact ⟨_, h.reports i hpos hclean, rfl, preparedFrom_input hstep⟩
  · intro hskips
    rw [initial_eq_linkState]
    rcases executeFrom_linkState hplain hskips (Nat.zero_add _) hstart with
      ⟨i, f, hi, hclean, hresult, habort⟩ | ⟨hclean, hresult, hstates⟩
    · exact .inl ⟨i, f, hresult, h.result_abort hg hinv hdone (hn.symm ▸ hi) hclean habort⟩
    · rw [← hn] at hclean
      obtain ⟨hfirst, hengine, hlast⟩ := h.result_complete hg hinv hdone hclean
      rw [hn] at hengine hlast
      have hdata : lastNonEmpty
          (((c.sequential compound).executeFrom 0 (linkState c 0)).states.map (·.data)) =
            s.lastOutput := by
        rw [hstates, hlast, List.map_map, ← List.range_eq_range']
        rfl
      have hfinal : s.result c = .ok ((c.sequential compound).finish
          { linkState c c.wf.steps.length with data := s.lastOutput }) := by
        simp [Sched.result, hfirst, finalOutput_eq_finish compound, hengine]
      refine .inr ⟨linkState c c.wf.steps.length, ?_, hresult, by rw [hdata]; exact hfinal, ?_⟩
      · rw [hstates, ← range_eq_range']
        exact getLast?_links c _
      · intro hpos hne
        have hsame : s.lastOutput = (linkState c c.wf.steps.length).data := by
          rw [hlast]
          obtain ⟨m, hm⟩ := Nat.exists_eq_succ_of_ne_zero (Nat.ne_of_gt hpos)
          rw [hm] at hne ⊢
          rw [List.range_succ, List.map_append, List.map_singleton, Sched.lastNonEmpty_snoc]
          exact if_neg hne
        rw [hfinal, hsame]

end Agreement

/-! ## Small chains -/

/-- A world of a few nodes; `ghost` is not registered. -/
def chainWorld : World :=
  { nodeWorld with
    node := fun name => if name = str "ghost" then none else some fun input _ => (input, none)
    executeStep := fun step input _ =>
      if step.node = str "say" then (str "hi", none)
      else if step.node = str "quiet" then ([], none)
      else if step.node = str "bad" then ([], some (str "down"))
      else if step.node = str "ghost" then ([], some (str "node 'ghost' not found in registry"))
      else (input, none) }

def linkedConfig (steps : List WorkflowStep) : DAGConfig := sampleConfig chainWorld steps []

/-- The main goroutine goes on, and takes a result whenever it waits for one. -/
def chainActions (rounds : List (ℕ × ℕ)) (left : ℕ) : List WorkerAction :=
  rounds.flatMap (fun r => List.replicate r.1 (.tick none) ++ [.finish r.2]) ++
    List.replicate left (.tick none)

/-- The inputs of the steps and the result of a run of the scheduler that has ended. -/
def chainView (steps : List WorkflowStep) (actions : List WorkerAction) :
    Option (List Str × Except Str Str) := do
  let s ← (startDAG (linkedConfig steps) none).workerRun (linkedConfig steps) actions
  if s.phase = .done then some (s.allResults.map (·.input), s.result (linkedConfig steps)) else none

/-- The sequential run of the given steps. -/
def seqView (steps : List WorkflowStep) : List Str × SeqConfig.Result :=
  let sc := (linkedConfig steps).sequential fun _ _ _ _ => .error []
  ((sc.executeFrom 0 sc.initial).inputs, (sc.executeFrom 0 sc.initial).result)

/-- A step that speaks and one that repeats it. -/
def echoSteps : List WorkflowStep :=
  [{ node := str "say" }, { node := str "echo", dependsOn := [str "1"] }]

theorem chain_agrees_echoSteps :
    ∃ s, (startDAG (linkedConfig echoSteps) none).workerRun (linkedConfig echoSteps)
        (chainActions [(3, 0), (7, 1)] 5) = some s ∧ s.phase = .done ∧
      ∃ r, s.allResults[1]? = some r ∧ r.stepIndex = 1 ∧ r.input = str "hi" := by
  have hdone : (((startDAG (linkedConfig echoSteps) none).workerRun (linkedConfig echoSteps)
      (chainActions [(3, 0), (7, 1)] 5)).map (·.phase)) = some .done := by decide
  obtain ⟨s, hs, hphase⟩ := map_eq_some_iff.mp hdone
  have hgraph : buildDepGraph (linkedConfig echoSteps).wf.steps =
      .ok (linkedConfig echoSteps).graph := buildDepGraph_sampleConfig (by decide)
  have hchain : (linkedConfig echoSteps).graph.IsChain := by
    refine ⟨by decide, fun i hi => ?_⟩
    have hn : (linkedConfig echoSteps).graph.nodeCount = 2 := by decide
    obtain rfl : i = 0 := by omega
    decide
  have hplain : ∀ i < (linkedConfig echoSteps).wf.steps.length,
      ((linkedConfig echoSteps).wf.step i).Plain (linkedConfig echoSteps).world := by
    intro i hi
    have hi : i < 2 := hi
    interval_cases i
    · exact ⟨by decide, by decide⟩
    · exact ⟨by decide, by decide⟩
  refine ⟨s, hs, hphase, ?_⟩
  have hagree := chain_agrees (fun _ _ _ _ => .error []) hgraph hchain hplain hs hphase
  refine hagree.1 1 (str "hi") ?_ (by decide)
  rintro j hj ⟨t, input, -, -, -, hcond⟩
  obtain rfl : j = 0 := by omega
  have hcondition : ((linkedConfig echoSteps).wf.step 0).condition = [] := rfl
  simp [DAGConfig.sequential, evaluateCondition, hcondition] at hcond

/-- A chain with a skipped step in the middle. -/
def skippedSteps : List WorkflowStep :=
  [{ node := str "say" },
    { node := str "echo", condition := str "false", dependsOn := [str "1"] },
    { node := str "echo", dependsOn := [str "2"] }]

/-- A chain whose last step has no output. -/
def quietSteps : List WorkflowStep :=
  [{ node := str "say" }, { node := str "quiet", dependsOn := [str "1"] }]

/-- The step after a skipped one gets the output before it in one executor and an empty text in the
other; an empty last output is the final output of one executor only; a node that is not registered
is recovered by one executor only; and the same failure is worded differently. -/
theorem not_chain_agrees :
    ((seqView skippedSteps).1 = [[], str "hi", str "hi"] ∧
      (chainView skippedSteps (chainActions [(3, 0), (12, 2)] 5)).map (·.1) =
        some [[], str "hi", []]) ∧
    ((seqView quietSteps).2 = .completed [] ∧
      (chainView quietSteps (chainActions [(3, 0), (7, 1)] 5)).map (·.2.toOption) =
        some (some (str "hi"))) ∧
    ((seqView [{ node := str "ghost", fallback := str "x" }]).2 =
        .failed (str "node 'ghost' not found in registry") ∧
      (chainView [{ node := str "ghost", fallback := str "x" }]
        (chainActions [(3, 0)] 5)).map (·.2.toOption) = some (some (str "x"))) ∧
    ((seqView [{ node := str "bad" }]).2 = .failed (str "step 1 (bad) failed: down") ∧
      (chainView [{ node := str "bad" }] (chainActions [(3, 0)] 5)).map
        (fun v => match v.2 with
          | .ok _ => none
          | .error err => some err) = some (some (str "DAG step 0 failed: down"))) := by
  refine ⟨⟨?_, ?_⟩, ⟨?_, ?_⟩, ⟨?_, ?_⟩, ?_, ?_⟩ <;> decide

end Workflow
