import Aflare.Workflow.DagCheckpoint

/-!
# The checkpoint at the end of a run

A node that succeeds is noted when its result arrives, but checkpoints are written when results are
processed in the order of dispatch, and none is written any more once a step has failed without
recovery. Whether a success is in the file at the end depends on which of the two came first.
-/

namespace Workflow

open Go List Function

/-- The checkpoint that the action may write is written. -/
def Action.Writes : Action → Prop
  | .tick disk => disk.isSome = true
  | _ => True

/-- The action delivers a success of the node of step `i`. -/
def Action.Finishes : Action → ℕ → Prop
  | .receive res, i => res.idx = i ∧ res.err = none
  | _, _ => False

namespace Sched

variable {c : DAGConfig} {s : Sched}

/-- The last checkpoint records the step `i`. -/
def OnDisk (s : Sched) (i : ℕ) : Prop := ∃ cp ∈ s.checkpoints.getLast?, Records cp i

/-- The success of step `i` has arrived and is not processed. -/
def Waits (s : Sched) (i : ℕ) : Prop := ∃ res, s.results i = some res ∧ res.err = none

/-- The step that is processed next fails without recovery. -/
def Aborting (c : DAGConfig) (s : Sched) : Prop :=
  s.aborted = false ∧ ∃ idx ps, s.Turn idx ps ∧ (s.outcome c idx ps).abortErr.isSome = true

end Sched

/-- No success arrives after the abort, and at the abort every success that has arrived is on
disk. -/
def Timely (c : DAGConfig) (s : Sched) : Action → Prop
  | .receive res => res.err = none → s.aborted = false
  | .tick _ => s.Aborting c → ∀ i, s.Waits i → s.OnDisk i
  | .signalShutdown => True

variable {finished : ℕ → Prop} {a : Action} {ps : PreparedStep} {idx i : ℕ}

namespace Sched

variable {c : DAGConfig} {s s' : Sched}

/-! ## What a move does to results and checkpoints -/

theorem processStep_fields (s : Sched) (disk : Option Time) (idx : ℕ) (ps : PreparedStep) :
    (s.processStep c disk idx ps).results = Function.update s.results idx none ∧
      (s.processStep c disk idx ps).prepared = s.prepared ∧
      (s.processStep c disk idx ps).completedOK ⊆ insert idx s.completedOK ∧
      s.checkpoints <+: (s.processStep c disk idx ps).checkpoints ∧
      (s.processStep c disk idx ps).firstAbortErr =
        s.firstAbortErr.or (s.outcome c idx ps).abortErr := by
  obtain ⟨pending, queue, completed, checkpoints, heq, hsub, hbefore⟩ :=
    processStep_eq (c := c) s disk idx ps
  rw [heq]
  exact ⟨rfl, rfl, hsub, hbefore, rfl⟩

theorem Move.checkpoints_prefix (hmove : Move c s a s') : s.checkpoints <+: s'.checkpoints := by
  cases hmove with
  | @dispatch idx rest =>
    rcases dispatchOne_cases (c := c) s idx rest with ⟨-, heq⟩ | ⟨-, -, heq⟩ | ⟨-, heq⟩ <;>
      exact heq ▸ prefix_rfl
  | @receive res =>
    rcases receive_cases (c := c) s res with ⟨-, -, heq⟩ | ⟨-, heq⟩ <;> exact heq ▸ prefix_rfl
  | process => exact (processStep_fields s _ _ _).2.2.2.1
  | _ => exact prefix_rfl

/-! ## Successes that are on disk stay there -/

theorem OnDisk.mono (h : s.OnDisk i) (hcp : s'.Checkpointed c)
    (hbefore : s.checkpoints <+: s'.checkpoints) : s'.OnDisk i := by
  obtain ⟨cp, hlast, hrecords⟩ := h
  obtain ⟨new, hnew⟩ := hbefore
  rcases eq_nil_or_concat new with rfl | ⟨front, last, rfl⟩
  · rw [append_nil] at hnew
    exact ⟨cp, hnew ▸ hlast, hrecords⟩
  · refine ⟨last, by simp [← hnew], ?_⟩
    have hgrow := hcp.grow
    rw [← hnew, concat_eq_append] at hgrow
    exact (pairwise_append.mp hgrow).2.2 cp (mem_of_getLast? hlast) last (by simp) i
      hrecords

theorem OnDisk.completed (h : s.OnDisk i) (hcp : s.Checkpointed c) : i ∈ s.completedOK := by
  obtain ⟨cp, hlast, hrecords⟩ := h
  exact hcp.recorded cp (mem_of_getLast? hlast) i hrecords

/-- No step whose worker runs has completed. -/
def Pending (s : Sched) : Prop := ∀ i ∈ s.inFlight, i ∉ s.completedOK

/-- A step completes only after its worker has returned. -/
theorem Pending.move (hinv : s.Inv c) (hcp : s.Checkpointed c) (h : s.Pending)
    (hmove : Move c s a s') : s'.Pending := by
  cases hmove with
  | @dispatch idx rest _ _ hqueue =>
    have hidx : idx ∉ s.dispatchSeq := hinv.queued.notMem_seq (hqueue ▸ mem_cons_self)
    rcases dispatchOne_cases (c := c) s idx rest with ⟨-, heq⟩ | ⟨-, -, heq⟩ | ⟨-, heq⟩ <;> rw [heq]
    · exact h
    · intro i hi hcompleted
      rcases Finset.mem_insert.mp hcompleted with rfl | hcompleted
      · exact hidx (mem_of_mem_drop (hinv.workers.flight_mem _ hi))
      · exact h i hi hcompleted
    · intro i hi hcompleted
      rcases mem_append.mp hi with hi | hi
      · exact h i hi hcompleted
      · exact hidx (mem_singleton.mp hi ▸ hcp.completed_mem i hcompleted)
  | @receive res _ hidx =>
    have hkept : ∀ i ∈ s.inFlight.erase res.idx, i ∉ s.completedOK := fun i hi =>
      h i (mem_of_mem_erase hi)
    rcases receive_cases (c := c) s res with ⟨-, -, heq⟩ | ⟨-, heq⟩ <;> rw [heq]
    · intro i hi hcompleted
      rcases Finset.mem_insert.mp hcompleted with rfl | hcompleted
      · exact hinv.workers.flight_nodup.not_mem_erase hi
      · exact hkept i hi hcompleted
    · exact hkept
  | @process idx ps disk hturn =>
    intro i hi hcompleted
    rw [(processStep_progress s disk idx ps).2.2.2.2] at hi
    rcases Finset.mem_insert.mp ((processStep_fields s disk idx ps).2.2.1 hcompleted)
      with rfl | hmem
    · exact hturn.notMem_inFlight hinv hi
    · exact h i hi hmem
  | _ => exact h

/-! ## Timely runs -/

/-- Every success is on disk, or waits in a run that has not aborted; only successes wait, and only
for steps with a worker. -/
structure Tracked (s : Sched) (finished : ℕ → Prop) : Prop where
  onDisk : ∀ i, finished i → s.OnDisk i ∨ (s.aborted = false ∧ s.Waits i)
  finished : ∀ i, s.Waits i → finished i
  worker : ∀ i, (s.results i).isSome → ∀ ps ∈ s.prepared i, ps.hasWorker = true

theorem onDisk_complete (hpath : c.statePath ≠ []) (hlt : idx < c.graph.nodeCount)
    (houtput : (s.engine.stepOutputs[idxKey idx]?).isSome = true) {o : Outcome}
    (hok : o.resultErr = none) (now : Time) : (s.complete c idx o (some now)).OnDisk idx := by
  rw [complete, hok, if_pos Option.isNone_none, saveCheckpointState, if_neg hpath]
  refine ⟨_, getLast?_concat, ?_⟩
  rw [Records, getElem?_checkpointState, if_pos ⟨hlt, Finset.mem_insert_self _ _⟩]
  exact houtput

theorem outcome_of_waits (hworker : ps.hasWorker = true) (hwaits : s.Waits idx) :
    (s.outcome c idx ps).resultErr = none ∧ (s.outcome c idx ps).abortErr = none := by
  obtain ⟨res, hres, herr⟩ := hwaits
  simp only [PreparedStep.hasWorker, Bool.and_eq_true, Option.isNone_iff_eq_none,
    Bool.not_eq_true'] at hworker
  simp [Sched.outcome, hworker.1, hworker.2, hres, herr]

/-- A success that is processed in a run that has not aborted is written. -/
theorem onDisk_processStep (hinv : s.Inv c) (hpath : c.statePath ≠ []) (now : Time)
    (hturn : s.Turn idx ps) (hab : s.aborted = false) (hworker : ps.hasWorker = true)
    (hwaits : s.Waits idx) : (s.processStep c (some now) idx ps).OnDisk idx := by
  obtain ⟨hok, hnoabort⟩ := outcome_of_waits (c := c) hworker hwaits
  have hlt : idx < c.graph.nodeCount :=
    (hinv.queued.within idx (mem_append_left _ (mem_of_getElem? hturn.next))).1
  rcases processStep_cases (c := c) s (some now) idx ps with ⟨-, herr, -⟩ | ⟨hab', -⟩ | ⟨-, -, heq⟩
  · simp [hnoabort] at herr
  · simp [hab] at hab'
  · obtain ⟨pending, readyQueue, hcredit⟩ :=
      propagateOnce_eq (c := c) (s.recordResult c idx ps (s.outcome c idx ps)) idx
    have houtput : ((s.writeBack c idx (s.outcome c idx ps).output).engine.stepOutputs[
        idxKey idx]?).isSome = true := output_writeBack (.inl rfl)
    rw [heq, hcredit]
    apply onDisk_complete hpath hlt ?_ hok now
    exact houtput

theorem aborted_processStep {disk : Option Time} (hturn : s.Turn idx ps) (hab : s.aborted = false) :
    (s.processStep c disk idx ps).aborted = false ∨ s.Aborting c := by
  have hnone : s.firstAbortErr = none := by simpa [aborted] using hab
  cases herr : (s.outcome c idx ps).abortErr with
  | none =>
    left
    rw [aborted, (processStep_fields s disk idx ps).2.2.2.2, hnone, herr]
    rfl
  | some err => exact Or.inr ⟨hab, idx, ps, hturn, by rw [herr]; rfl⟩

/-- A move that neither receives nor processes a result keeps track of the successes. -/
theorem Tracked.congr (h : s.Tracked finished) (hdisk : ∀ i, s.OnDisk i → s'.OnDisk i)
    (hresults : s'.results = s.results) (hab : s'.aborted = s.aborted)
    (hprepared : ∀ i, (s.results i).isSome → s'.prepared i = s.prepared i)
    (ha : ∀ i, ¬ a.Finishes i) : s'.Tracked fun i => finished i ∨ a.Finishes i where
  onDisk i hi := by
    rcases h.onDisk i (hi.resolve_right (ha i)) with hi | ⟨hab', hwaits⟩
    · exact Or.inl (hdisk i hi)
    · exact Or.inr ⟨hab.trans hab', by simpa [Waits, hresults] using hwaits⟩
  finished i hi := Or.inl (h.finished i (by simpa [Waits, hresults] using hi))
  worker i hi ps hps := by
    rw [hresults] at hi
    rw [hprepared i hi] at hps
    exact h.worker i hi ps hps

/-- A result arrives; a success does so before the abort. -/
theorem Tracked.receive (hinv : s.Inv c) (h : s.Tracked finished)
    {res : ExecResult} (hidx : res.idx ∈ s.inFlight) (htimely : res.err = none → s.aborted = false)
    (hdisk : ∀ i, s.OnDisk i → (s.receive c res).OnDisk i) :
    (s.receive c res).Tracked fun i => finished i ∨ (Action.receive res).Finishes i := by
  have hfields : (s.receive c res).results = Function.update s.results res.idx (some res) ∧
      (s.receive c res).aborted = s.aborted ∧ (s.receive c res).prepared = s.prepared := by
    rcases receive_cases (c := c) s res with ⟨-, -, heq⟩ | ⟨-, heq⟩ <;> exact heq ▸ ⟨rfl, rfl, rfl⟩
  obtain ⟨hresults, hab, hprepared⟩ := hfields
  -- a step whose worker runs has no result yet
  have hother : ∀ i, (s.results i).isSome → i ≠ res.idx := by
    rintro i hi rfl
    exact hinv.workers.results_flight _ hi hidx
  have hwaits : ∀ i, i ≠ res.idx → ((s.receive c res).Waits i ↔ s.Waits i) := by
    intro i hi
    simp [Waits, hresults, update_of_ne hi]
  refine ⟨?_, ?_, ?_⟩
  · rintro i (hi | ⟨rfl, herr⟩)
    · rcases h.onDisk i hi with hi | ⟨hab', hi⟩
      · exact Or.inl (hdisk i hi)
      · have hne : i ≠ res.idx := by
          obtain ⟨r, hr, -⟩ := hi
          exact hother i (by simp [hr])
        exact Or.inr ⟨hab.trans hab', (hwaits i hne).mpr hi⟩
    · exact Or.inr ⟨hab.trans (htimely herr), res, by simp [hresults], herr⟩
  · intro i hi
    by_cases hne : i = res.idx
    · subst hne
      obtain ⟨r, hr, herr⟩ := hi
      rw [hresults, update_self] at hr
      exact Or.inr ⟨rfl, Option.some.inj hr ▸ herr⟩
    · exact Or.inl (h.finished i ((hwaits i hne).mp hi))
  · intro i hi ps hps
    rw [hprepared] at hps
    by_cases hne : i = res.idx
    · exact hinv.workers.flight_worker i (hne ▸ hidx) ps hps
    · rw [hresults, update_of_ne hne] at hi
      exact h.worker i hi ps hps

/-- A result is processed; if that aborts the run, no success is left unwritten. -/
theorem Tracked.process (hinv : s.Inv c) (hpath : c.statePath ≠ []) (h : s.Tracked finished)
    {now : Time} (hturn : s.Turn idx ps) (htimely : s.Aborting c → ∀ i, s.Waits i → s.OnDisk i)
    (hdisk : ∀ i, s.OnDisk i → (s.processStep c (some now) idx ps).OnDisk i) :
    (s.processStep c (some now) idx ps).Tracked fun i =>
      finished i ∨ (Action.tick (some now)).Finishes i := by
  obtain ⟨hresults, hprepared, -⟩ := processStep_fields (c := c) s (some now) idx ps
  have hwaits : ∀ i, i ≠ idx → ((s.processStep c (some now) idx ps).Waits i ↔ s.Waits i) := by
    intro i hi
    simp [Waits, hresults, update_of_ne hi]
  have hprocessed : (s.processStep c (some now) idx ps).results idx = none := by simp [hresults]
  refine ⟨?_, ?_, ?_⟩
  · rintro i (hi | hi)
    · rcases h.onDisk i hi with hdone | ⟨hab, hwait⟩
      · exact Or.inl (hdisk i hdone)
      by_cases hne : i = idx
      · subst hne
        have hworker : ps.hasWorker = true := by
          obtain ⟨res, hres, -⟩ := hwait
          exact h.worker i (by simp [hres]) ps hturn.prepared
        exact Or.inl (onDisk_processStep hinv hpath now hturn hab hworker hwait)
      · rcases aborted_processStep hturn hab with hgo | habort
        · exact Or.inr ⟨hgo, (hwaits i hne).mpr hwait⟩
        · exact Or.inl (hdisk i (htimely habort i hwait))
    · exact hi.elim
  · intro i hi
    by_cases hne : i = idx
    · subst hne
      obtain ⟨res, hres, -⟩ := hi
      rw [hprocessed] at hres
      cases hres
    · exact Or.inl (h.finished i ((hwaits i hne).mp hi))
  · intro i hi ps' hps'
    rw [hprepared] at hps'
    have hne : i ≠ idx := by
      rintro rfl
      simp [hprocessed] at hi
    rw [hresults, update_of_ne hne] at hi
    exact h.worker i hi ps' hps'

/-- A timely action keeps track of the successes. -/
theorem Tracked.move (hinv : s.Inv c) (hcp' : s'.Checkpointed c) (hpath : c.statePath ≠ [])
    (h : s.Tracked finished) (hmove : Move c s a s') (hwrites : a.Writes) (htimely : Timely c s a) :
    s'.Tracked fun i => finished i ∨ a.Finishes i := by
  have hdisk : ∀ i, s.OnDisk i → s'.OnDisk i := fun i hi => hi.mono hcp' hmove.checkpoints_prefix
  cases hmove with
  | @dispatch idx rest _ _ hqueue =>
    have hidx : idx ∉ s.dispatchSeq := hinv.queued.notMem_seq (hqueue ▸ mem_cons_self)
    have hfields : (s.dispatchOne c idx rest).results = s.results ∧
        (s.dispatchOne c idx rest).aborted = s.aborted ∧
        ∃ ps, (s.dispatchOne c idx rest).prepared = Function.update s.prepared idx ps := by
      rcases dispatchOne_cases (c := c) s idx rest with ⟨-, heq⟩ | ⟨-, -, heq⟩ | ⟨-, heq⟩ <;>
        exact heq ▸ ⟨rfl, rfl, _, rfl⟩
    obtain ⟨hresults, hab, ps, hprepared⟩ := hfields
    refine h.congr hdisk hresults hab (fun i hi => ?_) fun i => id
    rw [hprepared, update_of_ne]
    rintro rfl
    exact hidx (mem_of_mem_drop (hinv.workers.results_mem _ hi))
  | receive _ hidx => exact h.receive hinv hidx htimely hdisk
  | process hturn =>
    obtain ⟨now, rfl⟩ := Option.isSome_iff_exists.mp hwrites
    exact h.process hinv hpath hturn htimely hdisk
  | signal | round | finish | dispatched | arrived =>
    exact h.congr hdisk rfl rfl (fun _ _ => rfl) fun _ => id

/-! ## Runs that are not timely -/

/-- The run has aborted and the step `i` is not on disk. -/
def Lost (s : Sched) (i : ℕ) : Prop := s.aborted = true ∧ ¬ s.OnDisk i

theorem Lost.move (h : s.Lost i) (hmove : Move c s a s') : s'.Lost i := by
  refine ⟨hmove.aborted h.1, ?_⟩
  have hsame : s'.checkpoints = s.checkpoints := by
    cases hmove with
    | dispatch _ _ hab =>
      rw [h.1] at hab
      cases hab
    | @receive res =>
      rcases receive_cases (c := c) s res with ⟨-, -, heq⟩ | ⟨-, heq⟩ <;> exact heq ▸ rfl
    | @process idx ps disk =>
      rcases processStep_cases (c := c) s disk idx ps with ⟨hab, -⟩ | ⟨-, heq⟩ | ⟨hab, -⟩
      · simp [h.1] at hab
      · exact heq ▸ rfl
      · simp [h.1] at hab
    | _ => rfl
  rw [OnDisk, hsame]
  exact h.2

/-- An action that is not timely loses a success that has arrived, or that it delivers. -/
theorem lost_of_not_timely (hcp : s.Checkpointed c) (hpending : s.Pending) (hmove : Move c s a s')
    (htimely : ¬ Timely c s a) : ∃ i, (s.Waits i ∨ a.Finishes i) ∧ s'.Lost i := by
  have hother : ∀ disk, s.phase ≠ .process → Timely c s (.tick disk) :=
    fun _ hphase ⟨_, _, _, hturn, _⟩ => absurd hturn.phase hphase
  cases hmove with
  | @receive res _ hidx =>
    obtain ⟨herr, hab⟩ := Classical.not_imp.mp htimely
    have hab : s.aborted = true := by simpa using hab
    refine ⟨res.idx, Or.inr ⟨rfl, herr⟩, ?_⟩
    rcases receive_cases (c := c) s res with ⟨-, hab', -⟩ | ⟨-, heq⟩
    · simp [hab] at hab'
    · rw [heq]
      exact ⟨hab, fun hdisk => hpending _ hidx (OnDisk.completed (s := s) hdisk hcp)⟩
  | @process idx ps disk hturn =>
    obtain ⟨habort, hlost⟩ := Classical.not_imp.mp htimely
    obtain ⟨i, hlost⟩ := not_forall.mp hlost
    obtain ⟨hwaits, hdisk⟩ := Classical.not_imp.mp hlost
    refine ⟨i, Or.inl hwaits, ?_⟩
    obtain ⟨hab, idx', ps', hturn', herr⟩ := habort
    obtain rfl : idx = idx' := Option.some.inj (hturn.next.symm.trans hturn'.next)
    obtain rfl : ps = ps' := Option.some.inj (hturn.prepared.symm.trans hturn'.prepared)
    rcases processStep_cases (c := c) s disk idx ps with ⟨-, -, heq⟩ | ⟨hab', -⟩ | ⟨-, hnone, -⟩
    · rw [heq]
      exact ⟨herr, hdisk⟩
    · simp [hab] at hab'
    · simp [hnone] at herr
  | signal => exact absurd trivial htimely
  | round hphase | finish hphase | dispatch hphase | dispatched hphase | arrived hphase =>
    exact absurd (hother _ (by simp [hphase])) htimely

theorem Lost.run (h : s.Lost i) {actions : List Action} (hrun : s.run c actions = some s') :
    s'.Lost i :=
  Runs.invariant (P := fun t => t.Lost i)
    (fun _ _ _ ht hstep => ht.move (move_of_step c hstep)) h hrun

/-- What is known of every state of a run. -/
structure Recorded (c : DAGConfig) (s : Sched) : Prop where
  inv : s.Inv c
  checkpointed : s.Checkpointed c
  pending : s.Pending

theorem Recorded.move (hg : c.graph.EdgesWithin) (hn : c.graph.nodeCount = c.wf.steps.length)
    (h : s.Recorded c) (hmove : Move c s a s') : s'.Recorded c :=
  ⟨h.inv.move hg hmove, h.checkpointed.move hn h.inv hmove,
    h.pending.move h.inv h.checkpointed hmove⟩

theorem Recorded.not_waits (h : s.Recorded c) (hdone : s.phase = .done) (i : ℕ) : ¬ s.Waits i := by
  rintro ⟨res, hres, -⟩
  have hmem := h.inv.workers.results_mem i (by simp [hres])
  rw [(h.inv.done hdone).1, drop_length] at hmem
  cases hmem

/-- All successes of a run that are known so far or are still to come are on disk at its end exactly
if its actions are timely. -/
theorem onDisk_iff_timely (hg : c.graph.EdgesWithin) (hn : c.graph.nodeCount = c.wf.steps.length)
    (hpath : c.statePath ≠ []) {actions : List Action}
    (h : s.Recorded c) (htracked : s.Tracked finished) (hrun : s.run c actions = some s')
    (hdone : s'.phase = .done) (hwrites : ∀ a ∈ actions, a.Writes) :
    (∀ i, (finished i ∨ ∃ a ∈ actions, a.Finishes i) → s'.OnDisk i) ↔
      Runs.Guarded (Sched.step c) (Timely c) s actions := by
  induction actions generalizing s finished with
  | nil =>
    cases hrun
    simp only [not_mem_nil, false_and, exists_false, or_false, Runs.Guarded, iff_true]
    intro i hi
    exact (htracked.onDisk i hi).resolve_right fun hwait => h.not_waits hdone i hwait.2
  | cons a actions ih =>
    obtain ⟨t, hstep, hrest⟩ := Runs.run_cons.mp hrun
    have hmove := move_of_step c hstep
    have ht := h.move hg hn hmove
    rw [Runs.guarded_cons hstep]
    by_cases htimely : Timely c s a
    · have htracked' := htracked.move h.inv ht.checkpointed hpath hmove
        (hwrites a mem_cons_self) htimely
      rw [and_iff_right htimely,
        ← ih ht htracked' hrest fun b hb => hwrites b (mem_cons_of_mem _ hb)]
      simp only [mem_cons, or_and_right, exists_or, exists_eq_left, or_assoc]
    · -- some success is lost here and is not on disk at the end
      obtain ⟨i, hi, hlost⟩ := lost_of_not_timely h.checkpointed h.pending hmove htimely
      refine iff_of_false (fun hall => ?_) fun hguard => htimely hguard.1
      refine (hlost.run hrest).2 (hall i ?_)
      rcases hi with hwaits | hfinishes
      · exact Or.inl (htracked.finished i hwaits)
      · exact Or.inr ⟨a, mem_cons_self, hfinishes⟩

end Sched

/-- Nothing has arrived, completed or been written in the initial state. -/
theorem startDAG_recorded {c : DAGConfig} (hgraph : buildDepGraph c.wf.steps = .ok c.graph)
    (loaded : Option WorkflowState) :
    (startDAG c loaded).Recorded c ∧ (startDAG c loaded).Tracked fun _ => False := by
  obtain ⟨hg, hn⟩ := wellFormed_of_buildDepGraph hgraph
  have hinv := inv_startDAG hg.toEdgesWithin hn loaded
  obtain ⟨hseq, hflight, -⟩ := startDAG_idle c loaded
  have hresults : ∀ i, (startDAG c loaded).results i = none := by
    intro i
    by_contra hsome
    have hmem := hinv.workers.results_mem i (Option.isSome_iff_ne_none.mpr hsome)
    simp [hseq] at hmem
  refine ⟨⟨hinv, checkpointed_startDAG c loaded, by simp [Sched.Pending, hflight]⟩, ?_⟩
  exact ⟨fun _ => False.elim, fun i hi => by simp [Sched.Waits, hresults] at hi,
    fun i hi => by simp [hresults] at hi⟩

/-- In a run that has ended, with all checkpoints written, every step whose node succeeded is in the
last checkpoint exactly if no success arrived after the abort, and none that had arrived was
unwritten at the abort. -/
theorem checkpoint_complete_iff {c : DAGConfig} (hgraph : buildDepGraph c.wf.steps = .ok c.graph)
    (hpath : c.statePath ≠ []) {loaded : Option WorkflowState} {actions : List Action} {s : Sched}
    (hrun : (startDAG c loaded).run c actions = some s) (hdone : s.phase = .done)
    (hwrites : ∀ a ∈ actions, a.Writes) :
    (∀ res, .receive res ∈ actions → res.err = none → s.OnDisk res.idx) ↔
      Runs.Guarded (Sched.step c) (Timely c) (startDAG c loaded) actions := by
  obtain ⟨hg, hn⟩ := wellFormed_of_buildDepGraph hgraph
  obtain ⟨hrecorded, htracked⟩ := startDAG_recorded hgraph loaded
  rw [← Sched.onDisk_iff_timely hg.toEdgesWithin hn hpath hrecorded htracked hrun hdone hwrites]
  constructor
  · rintro h i (hi | ⟨a, ha, hfinishes⟩)
    · exact hi.elim
    · cases a with
      | receive res =>
        obtain ⟨rfl, herr⟩ := hfinishes
        exact h res ha herr
      | tick disk | signalShutdown => exact hfinishes.elim
  · intro h res hres herr
    exact h res.idx (Or.inr ⟨_, hres, rfl, herr⟩)

/-! ## Concrete runs -/

def independentSteps : List WorkflowStep := [{ node := str "a" }, { node := str "b" }]

/-- The second step succeeds, then the first one gives a result, and both are processed. -/
def independentActions (first : ExecResult) : List Action :=
  let go := Action.tick (some Time.zero)
  List.replicate 4 go ++ [.receive ⟨1, str "y", none⟩, go, go, .receive first] ++
    List.replicate 9 go

/-- The scheduler at the end of such a run. -/
def independentRun (first : ExecResult) : Option Sched :=
  (startDAG (sampleConfig echoWorld independentSteps []) none).run
    (sampleConfig echoWorld independentSteps []) (independentActions first)

theorem writes_independentActions (first : ExecResult) :
    ∀ a ∈ independentActions first, a.Writes := by
  simp [independentActions, Action.Writes]

/-- If the first step succeeds too, both are in the last checkpoint, and the run is timely. -/
theorem checkpoint_complete_independent : ∃ s, independentRun ⟨0, str "x", none⟩ = some s ∧
    s.OnDisk 1 ∧ Runs.Guarded (Sched.step (sampleConfig echoWorld independentSteps []))
      (Timely (sampleConfig echoWorld independentSteps []))
      (startDAG (sampleConfig echoWorld independentSteps []) none)
      (independentActions ⟨0, str "x", none⟩) := by
  obtain ⟨s, hs, hdone, cp, hcp, hzero, hone⟩ : ∃ s ∈ independentRun ⟨0, str "x", none⟩,
      s.phase = .done ∧ ∃ cp ∈ s.checkpoints.getLast?, Records cp 0 ∧ Records cp 1 := by
    decide
  refine ⟨s, hs, ⟨cp, hcp, hone⟩, ?_⟩
  refine (checkpoint_complete_iff (buildDepGraph_sampleConfig (by decide)) (by decide) hs
    hdone (writes_independentActions _)).mp fun res hres _ => ?_
  have hreceived : res = ⟨1, str "y", none⟩ ∨ res = ⟨0, str "x", none⟩ := by
    simpa [independentActions] using hres
  rcases hreceived with rfl | rfl
  · exact ⟨cp, hcp, hone⟩
  · exact ⟨cp, hcp, hzero⟩

/-- If the first step fails, the run aborts and there is no checkpoint, although the second step
succeeded before. -/
theorem not_checkpoint_complete :
    ∃ s, independentRun ⟨0, [], some (str "boom")⟩ = some s ∧ s.phase = .done ∧
      (∀ a ∈ independentActions ⟨0, [], some (str "boom")⟩, a.Writes) ∧
      .receive ⟨1, str "y", none⟩ ∈ independentActions ⟨0, [], some (str "boom")⟩ ∧
      ¬ s.OnDisk 1 := by
  obtain ⟨s, hs, hdone, hnone⟩ : ∃ s ∈ independentRun ⟨0, [], some (str "boom")⟩,
      s.phase = .done ∧ s.checkpoints.length = 0 := by
    decide
  refine ⟨s, hs, hdone, writes_independentActions _, by simp [independentActions], ?_⟩
  rintro ⟨cp, hcp, -⟩
  rw [length_eq_zero_iff.mp hnone] at hcp
  cases hcp

end Workflow
