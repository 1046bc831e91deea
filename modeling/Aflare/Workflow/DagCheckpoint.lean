import Aflare.Workflow.Checkpoint
import Aflare.Workflow.DagScheduling

/-!
# Checkpoints of dependency graphs

A checkpoint of the scheduler holds the outputs of the steps that completed in the present run. The
steps that the run itself resumed from a checkpoint are not among them, so that the first checkpoint
of a resumed run forgets what the one before held.
-/

namespace Workflow

open Go List Option Finset

/-- The checkpoint has an output of the step `i`. -/
def Records (state : WorkflowState) (i : ℕ) : Prop :=
  ((state.stepOutputs.getD ∅)[(i : ℤ)]?).isSome = true
  deriving Decidable

variable {i : ℕ} {s : Sched}

namespace Sched

variable {c : DAGConfig} {s s' : Sched}

/-- The outputs in a checkpoint are those of the completed steps in the engine. -/
theorem getElem?_checkpointState (s : Sched) (now : Time) (i : ℕ) :
    ((s.checkpointState c now).stepOutputs.getD ∅)[(i : ℤ)]? =
      if i < c.graph.nodeCount ∧ i ∈ s.completedOK then s.engine.stepOutputs[idxKey i]?
      else none := by
  simp only [checkpointState, getD_some]
  set entries := (c.graph.sorted s.completedOK).filterMap fun idx : ℕ =>
    (s.engine.stepOutputs[idxKey idx]?).map fun out => ((idx : ℤ), out) with hentries
  have hmem : ∀ out, ((i : ℤ), out) ∈ entries ↔
      (i < c.graph.nodeCount ∧ i ∈ s.completedOK) ∧ s.engine.stepOutputs[idxKey i]? = some out := by
    intro out
    simp only [hentries, List.mem_filterMap, Option.map_eq_some_iff, Prod.mk.injEq,
      DepGraph.mem_sorted]
    constructor
    · rintro ⟨j, hj, out', hout, hji, rfl⟩
      obtain rfl : j = i := by exact_mod_cast hji
      exact ⟨hj, hout⟩
    · rintro ⟨hi, hout⟩
      exact ⟨i, hi, out, hout, rfl, rfl⟩
  by_cases hi : i < c.graph.nodeCount ∧ i ∈ s.completedOK
  · rw [if_pos hi]
    cases hout : s.engine.stepOutputs[idxKey i]? with
    | none =>
      rw [GoMap.getElem?_assignAll_of_notMem]
      · simp
      · intro hkey
        obtain ⟨⟨k, out⟩, he, rfl⟩ := mem_map.mp hkey
        rw [((hmem out).mp he).2] at hout
        cases hout
    | some out =>
      apply GoMap.getElem?_assignAll_of_mem ((hmem out).mpr ⟨hi, hout⟩)
      intro w hw
      rw [((hmem w).mp hw).2] at hout
      exact Option.some.inj hout
  · rw [if_neg hi, GoMap.getElem?_assignAll_of_notMem]
    · simp
    · intro hkey
      obtain ⟨⟨k, out⟩, he, rfl⟩ := mem_map.mp hkey
      exact hi ((hmem out).mp he).1

/-! ## Within a run -/

/-- The completed steps have outputs and were dispatched in this run; every checkpoint records
completed steps, and later ones record what earlier ones do. -/
structure Checkpointed (c : DAGConfig) (s : Sched) : Prop where
  completed_mem : ∀ i ∈ s.completedOK, i ∈ s.dispatchSeq
  completed_output : ∀ i ∈ s.completedOK, (s.engine.stepOutputs[idxKey i]?).isSome = true
  recorded : ∀ cp ∈ s.checkpoints, ∀ i, Records cp i → i ∈ s.completedOK
  grow : s.checkpoints.Pairwise fun cp cp' => ∀ i, Records cp i → Records cp' i
  written : ∀ cp ∈ s.checkpoints, c.statePath ≠ [] ∧ cp.dagMode = true ∧
    cp.stepNames = c.wf.steps.map (fun step => step.name) ∧ ∃ i < c.wf.steps.length, Records cp i

variable {idx : ℕ}

theorem output_writeBack {output : Str}
    (h : i = idx ∨ (s.engine.stepOutputs[idxKey i]?).isSome = true) :
    ((s.writeBack c idx output).engine.stepOutputs[idxKey i]?).isSome = true := by
  simp only [writeBack, ExpressionEngine.getElem?_setStepOutput_idx]
  split
  · rfl
  · rename_i hne
    exact h.resolve_left fun heq => hne (by rw [heq])

variable (h : s.Checkpointed c)

include h

private theorem Checkpointed.congr (hcompleted : s'.completedOK = s.completedOK)
    (hcheckpoints : s'.checkpoints = s.checkpoints) (hseq : s.dispatchSeq ⊆ s'.dispatchSeq)
    (houtput : ∀ i ∈ s.completedOK, (s'.engine.stepOutputs[idxKey i]?).isSome = true) :
    s'.Checkpointed c where
  completed_mem i hi := hseq (h.completed_mem i (hcompleted ▸ hi))
  completed_output i hi := houtput i (hcompleted ▸ hi)
  recorded cp hcp i hi := by
    rw [hcompleted]
    exact h.recorded cp (hcheckpoints ▸ hcp) i hi
  grow := by
    rw [hcheckpoints]
    exact h.grow
  written cp hcp := h.written cp (hcheckpoints ▸ hcp)

private theorem Checkpointed.insert (hidx : idx ∈ s.dispatchSeq)
    (houtput : (s.engine.stepOutputs[idxKey idx]?).isSome = true) :
    Checkpointed c { s with completedOK := insert idx s.completedOK } :=
  { h with
    completed_mem := (forall_mem_insert _ _ _).mpr ⟨hidx, h.completed_mem⟩
    completed_output := (forall_mem_insert _ _ _).mpr ⟨houtput, h.completed_output⟩
    recorded cp hcp i hi := mem_insert_of_mem (h.recorded cp hcp i hi) }

theorem Checkpointed.finalize (hidx : idx ∈ s.dispatchSeq) (output : Str) :
    Checkpointed c (s.finalize c idx output) := by
  have hwritten : Checkpointed c (s.writeBack c idx output) :=
    h.congr rfl rfl (List.Subset.refl _) fun i hi =>
      output_writeBack (.inr (h.completed_output i hi))
  have hinsert := hwritten.insert hidx (output_writeBack (.inl rfl))
  exact hinsert.congr rfl rfl (List.Subset.refl _) hinsert.completed_output

/-- A checkpoint that is written records exactly the completed steps. -/
theorem Checkpointed.saveCheckpointState (hn : c.graph.nodeCount = c.wf.steps.length)
    (hlt : ∀ i ∈ s.dispatchSeq, i < c.graph.nodeCount) (hne : s.completedOK.Nonempty)
    (disk : Option Time) : Checkpointed c (s.saveCheckpointState c disk) := by
  unfold Sched.saveCheckpointState
  split
  · exact h
  rename_i hpath
  split
  · exact h
  rename_i now
  have hrecords : ∀ i, Records (s.checkpointState c now) i ↔ i ∈ s.completedOK := by
    intro i
    rw [Records, getElem?_checkpointState]
    constructor
    · intro hi
      by_contra hnot
      simp [hnot] at hi
    · intro hi
      rw [if_pos ⟨hlt i (h.completed_mem i hi), hi⟩]
      exact h.completed_output i hi
  refine ⟨h.completed_mem, h.completed_output, ?_, ?_, ?_⟩
  · refine forall_mem_append.mpr ⟨h.recorded, forall_mem_singleton.mpr ?_⟩
    exact fun i => (hrecords i).mp
  · apply pairwise_append.mpr
    refine ⟨h.grow, pairwise_singleton _ _, ?_⟩
    intro cp hcp cp' hcp' i hi
    rw [List.mem_singleton.mp hcp']
    exact (hrecords i).mpr (h.recorded cp hcp i hi)
  · obtain ⟨i, hi⟩ := hne
    refine forall_mem_append.mpr ⟨h.written, forall_mem_singleton.mpr ?_⟩
    exact ⟨hpath, rfl, rfl, i, hn ▸ hlt i (h.completed_mem i hi), (hrecords i).mpr hi⟩

theorem Checkpointed.settle (hn : c.graph.nodeCount = c.wf.steps.length)
    (hlt : ∀ i ∈ s.dispatchSeq, i < c.graph.nodeCount) (hidx : idx ∈ s.dispatchSeq)
    (houtput : (s.engine.stepOutputs[idxKey idx]?).isSome = true) (o : Outcome)
    (disk : Option Time) : Checkpointed c (s.settle c idx o disk) := by
  have hsame : ∀ pending queue first, Checkpointed c { s with
      pending := pending, readyQueue := queue, firstAbortErr := first } :=
    fun _ _ _ => h.congr rfl rfl (List.Subset.refl _) h.completed_output
  rcases settle_cases (c := c) s idx o disk with ⟨-, -, heq⟩ | ⟨-, heq⟩ | ⟨-, -, heq⟩
  · rw [heq]
    exact hsame _ _ _
  · rwa [heq]
  · obtain ⟨pending, queue, hcredit⟩ := propagateOnce_eq (c := c) s idx
    rw [heq, hcredit]
    unfold Sched.complete
    split
    · exact ((hsame pending queue s.firstAbortErr).insert hidx houtput).saveCheckpointState hn hlt
        ⟨idx, mem_insert_self _ _⟩ disk
    · exact hsame _ _ _

omit h

/-- Every move keeps what is known of the checkpoints. -/
theorem Checkpointed.move (hn : c.graph.nodeCount = c.wf.steps.length) (hinv : s.Inv c)
    (h : s.Checkpointed c) {a : Action} (hmove : Move c s a s') : s'.Checkpointed c := by
  have hkeep := h.completed_output
  cases hmove with
  | @dispatch idx rest _ _ hqueue =>
    have hentered (ps : PreparedStep) : Checkpointed c (s.enter idx rest ps) :=
      h.congr rfl rfl (subset_append_left _ _) hkeep
    rcases dispatchOne_cases (c := c) s idx rest with ⟨-, heq⟩ | ⟨-, -, heq⟩ | ⟨-, heq⟩ <;> rw [heq]
    · exact hentered _
    · exact (hentered _).finalize (List.mem_append_right _ (List.mem_singleton.mpr rfl)) []
    · exact h.congr rfl rfl (subset_append_left _ _) hkeep
  | @receive res _ hidx =>
    have hkept : Checkpointed c (s.keep res) := h.congr rfl rfl (List.Subset.refl _) hkeep
    rcases receive_cases (c := c) s res with ⟨-, -, heq⟩ | ⟨-, heq⟩ <;> rw [heq]
    · exact hkept.finalize (mem_of_mem_drop (hinv.workers.flight_mem _ hidx)) _
    · exact hkept
  | @process idx ps disk hturn =>
    have hrecorded : Checkpointed c (s.recordResult c idx ps (s.outcome c idx ps)) :=
      h.congr rfl rfl (List.Subset.refl _) fun i hi => output_writeBack (.inr (hkeep i hi))
    apply hrecorded.settle hn
    · exact fun i hi => (hinv.queued.within i (mem_append_left _ hi)).1
    · exact mem_of_getElem? hturn.next
    · exact output_writeBack (.inl rfl)
  | signal | round | finish | dispatched | arrived =>
    exact h.congr rfl rfl (List.Subset.refl _) hkeep

end Sched

/-! ## Across runs -/

/-- The state that a run loads when `last` is the last checkpoint that was written. -/
def loadedFrom (last : Option WorkflowState) : Option WorkflowState :=
  (loadCheckpoint (last.map WorkflowState.marshalIndent)).toOption

variable {cp : WorkflowState}

theorem loadedFrom_some (hfits : cp.marshalIndent.length ≤ maxFileSize) :
    loadedFrom (some cp) = some cp.clean := by
  rw [loadedFrom, map_some, loadCheckpoint_marshalIndent, if_neg (not_lt.mpr hfits)]
  rfl

/-- A run of the workflow in some world, from the last checkpoint up to any point. -/
def RunFrom (c : DAGConfig) (last : Option WorkflowState) (s : Sched) : Prop :=
  ∃ world actions, (startDAG { c with world := world } (loadedFrom last)).run
    { c with world := world } actions = some s

/-- A sequence of runs, each from the last checkpoint that was written before it. -/
def ResumedRuns (c : DAGConfig) : Option WorkflowState → List Sched → Prop
  | _, [] => True
  | last, s :: rest => RunFrom c last s ∧ ResumedRuns c (s.checkpoints.getLast?.or last) rest

/-- Every checkpoint records what the ones before it record, and no run dispatches a step that a
checkpoint of an earlier run records. -/
structure CheckpointsGrow (runs : List Sched) : Prop where
  recorded : (runs.flatMap fun s => s.checkpoints).Pairwise fun cp cp' =>
    ∀ i, Records cp i → Records cp' i
  never_again : runs.Pairwise fun s s' =>
    ∀ cp ∈ s.checkpoints, ∀ i, Records cp i → i ∉ s'.dispatchSeq

variable {state : WorkflowState}

theorem records_clean :
    Records state.clean i ↔ Records state i := by
  unfold Records WorkflowState.clean
  cases state.stepOutputs with
  | none => simp
  | some m => simp [cleanIntMap, Std.ExtTreeMap.getElem?_map]

variable {c : DAGConfig}

theorem mem_restoredEntries {e : ℕ × Str} :
    e ∈ restoredEntries c state ↔
      e.1 < c.wf.steps.length ∧ (state.stepOutputs.getD ∅)[(e.1 : ℤ)]? = some e.2 := by
  obtain ⟨i, out⟩ := e
  have hentry : ∀ k : ℤ, (k, out) ∈ c.world.rangeOutputs (state.stepOutputs.getD ∅) ↔
      (state.stepOutputs.getD ∅)[k]? = some out := fun k => by
    rw [(c.world.rangeOutputs_perm _).mem_iff, Std.ExtTreeMap.mem_toList_iff_getElem?_eq_some]
  simp only [restoredEntries, List.mem_map, List.mem_filter, decide_eq_true_eq, Prod.mk.injEq]
  constructor
  · rintro ⟨⟨k, out'⟩, ⟨hmem, hnonneg, hlt⟩, rfl, rfl⟩
    rw [Int.toNat_of_nonneg hnonneg]
    exact ⟨by dsimp only at hlt ⊢; omega, (hentry k).mp hmem⟩
  · rintro ⟨hlt, hout⟩
    exact ⟨((i : ℤ), out), ⟨(hentry i).mpr hout, by simp, by simpa using hlt⟩, by simp, rfl⟩

theorem mem_restoredSteps :
    i ∈ restoredSteps c state ↔ i < c.wf.steps.length ∧ Records state i := by
  rw [restoredSteps, List.mem_toFinset, List.mem_map]
  constructor
  · rintro ⟨e, he, rfl⟩
    obtain ⟨hlt, hout⟩ := mem_restoredEntries.mp he
    exact ⟨hlt, by rw [Records, hout]; rfl⟩
  · rintro ⟨hlt, hrec⟩
    obtain ⟨out, hout⟩ := isSome_iff_exists.mp hrec
    exact ⟨(i, out), mem_restoredEntries.mpr ⟨hlt, hout⟩, rfl⟩

/-- A checkpoint that the next run accepts, and that records a step. -/
structure Accepted (c : DAGConfig) (cp : WorkflowState) : Prop where
  statePath : c.statePath ≠ []
  dagMode : cp.dagMode = true
  stepNames : cp.stepNames = c.wf.steps.map fun step => step.name
  records : ∃ i < c.wf.steps.length, Records cp i
  fits : cp.marshalIndent.length ≤ maxFileSize

variable {last : Option WorkflowState}

section

variable {c : DAGConfig} (hnames : ∀ step ∈ c.wf.steps, ValidUtf8 step.name)

include hnames

private theorem clean_stepNames (h : Accepted c cp) :
    cp.clean.stepNames = c.wf.steps.map fun step => step.name := by
  simp only [WorkflowState.clean, h.stepNames, List.map_map]
  apply List.map_congr_left
  intro step hstep
  exact (hnames step hstep).coerce_eq

/-- A run from an accepted checkpoint resumes exactly the steps that it records. -/
theorem mem_resumed_startDAG (h : Accepted c cp) (world : World) (i : ℕ) :
    i ∈ (startDAG { c with world := world } (loadedFrom (some cp))).resumed ↔
      i < c.wf.steps.length ∧ Records cp i := by
  have haccept : c.statePath ≠ [] ∧ cp.clean.dagMode = true ∧
      dagCheckpointCompatible cp.clean c.wf = true :=
    ⟨h.statePath, h.dagMode, by simp [dagCheckpointCompatible, clean_stepNames hnames h]⟩
  rw [loadedFrom_some h.fits]
  simp only [startDAG, if_pos haccept]
  obtain ⟨engine, resolver, lastOutput, allResults, heq⟩ :=
    resumeFrom_eq { c with world := world } (newDAGScheduler { c with world := world }) cp.clean
  obtain ⟨pending, queue, happly⟩ := Sched.applyResumed_eq (c := { c with world := world })
    { newDAGScheduler { c with world := world } with engine := engine, resolver := resolver }
    (restoredSteps { c with world := world } cp.clean)
  rw [heq, happly, mem_restoredSteps, records_clean]

/-- What a run leaves: it resumed exactly the steps of the last checkpoint, dispatched none of
them, and its own checkpoints record dispatched steps. -/
structure RunSpec (c : DAGConfig) (last : Option WorkflowState) (s : Sched) : Prop where
  inv : s.Inv c
  checkpointed : s.Checkpointed c
  resumed : ∀ i, i ∈ s.resumed ↔ ∃ cp ∈ last, i < c.wf.steps.length ∧ Records cp i

omit hnames in
theorem Sched.Inv.ofWorld {world : World} (h : s.Inv { c with world := world })
    (hcp : s.Checkpointed { c with world := world }) : s.Inv c ∧ s.Checkpointed c :=
  ⟨{ h with }, { hcp with }⟩

omit hnames in
theorem checkpointed_startDAG (c : DAGConfig) (loaded : Option WorkflowState) :
    (startDAG c loaded).Checkpointed c := by
  have hempty : ∀ s : Sched, s.completedOK = ∅ → s.checkpoints = [] → s.Checkpointed c := by
    intro s hcompleted hcheckpoints
    constructor
    all_goals simp [hcompleted, hcheckpoints]
  obtain ⟨engine, resolver, resumed, pending, queue, lastOutput, allResults, heq⟩ :=
    startDAG_eq c loaded
  rw [heq]
  exact hempty _ rfl rfl

/-- All that is used of one run in a sequence of runs. -/
theorem RunFrom.spec (hgraph : buildDepGraph c.wf.steps = .ok c.graph)
    (hlast : ∀ cp ∈ last, Accepted c cp) (h : RunFrom c last s) : RunSpec c last s := by
  obtain ⟨world, actions, hrun⟩ := h
  obtain ⟨hg, hn⟩ := wellFormed_of_buildDepGraph hgraph
  have hboth : s.Inv { c with world := world } ∧ s.Checkpointed { c with world := world } ∧
      s.resumed = (startDAG { c with world := world } (loadedFrom last)).resumed := by
    refine Runs.invariant
      (P := fun t => t.Inv { c with world := world } ∧ t.Checkpointed { c with world := world } ∧
        t.resumed = (startDAG { c with world := world } (loadedFrom last)).resumed) ?_ ?_ hrun
    · rintro t a t' ⟨hinv, hcp, hres⟩ hstep
      have hmove := Sched.move_of_step _ hstep
      exact ⟨hinv.move hg.toEdgesWithin hmove, hcp.move hn hinv hmove, hmove.resumed.trans hres⟩
    · exact ⟨inv_startDAG (c := { c with world := world }) hg.toEdgesWithin hn _,
        checkpointed_startDAG _ _, rfl⟩
  obtain ⟨hinv, hcp, hresumed⟩ := hboth
  refine ⟨(hinv.ofWorld hcp).1, (hinv.ofWorld hcp).2, ?_⟩
  intro i
  rw [hresumed]
  cases last with
  | none => simp [loadedFrom, loadCheckpoint, Except.toOption, startDAG, newDAGScheduler]
  | some cp => simpa using mem_resumed_startDAG hnames (hlast cp rfl) world i

end

section

variable {c : DAGConfig} {last : Option WorkflowState} {s : Sched}

theorem RunSpec.accepted (h : RunSpec c last s)
    (hfits : ∀ cp ∈ s.checkpoints, cp.marshalIndent.length ≤ maxFileSize) :
    ∀ cp ∈ s.checkpoints, Accepted c cp := by
  intro cp hcp
  obtain ⟨hpath, hmode, hstepNames, hrecords⟩ := h.checkpointed.written cp hcp
  exact ⟨hpath, hmode, hstepNames, hrecords, hfits cp hcp⟩

theorem RunSpec.notMem_dispatchSeq (h : RunSpec c last s)
    (hn : c.graph.nodeCount = c.wf.steps.length) (hcp : cp ∈ last)
    (hi : Records cp i) : i ∉ s.dispatchSeq := by
  intro hmem
  obtain ⟨hlt, hR⟩ := h.inv.queued.within i (mem_append_left _ hmem)
  exact hR ((h.resumed i).mpr ⟨cp, hcp, hn ▸ hlt, hi⟩)

theorem RunSpec.notRecords (h : RunSpec c last s) (hi : i ∈ s.resumed)
    (hcp : cp ∈ s.checkpoints) : ¬ Records cp i := by
  intro hrec
  have hmem := h.checkpointed.completed_mem i (h.checkpointed.recorded cp hcp i hrec)
  exact h.inv.not_resumed hmem hi

end

private theorem accepted_or (hspec : RunSpec c last s) (hlast : ∀ cp ∈ last, Accepted c cp)
    (hfits : ∀ cp ∈ s.checkpoints, cp.marshalIndent.length ≤ maxFileSize) :
    ∀ cp ∈ s.checkpoints.getLast?.or last, Accepted c cp := by
  intro cp hcp
  rcases or_eq_some_iff.mp hcp with hcp | ⟨-, hcp⟩
  · exact hspec.accepted hfits cp (mem_of_getLast? hcp)
  · exact hlast cp hcp

variable {runs : List Sched}

section

variable {c : DAGConfig} (hnames : ∀ step ∈ c.wf.steps, ValidUtf8 step.name)
  (hgraph : buildDepGraph c.wf.steps = .ok c.graph)

include hnames hgraph

/-- Where only runs without resumed steps write checkpoints, none is written after an accepted
one, and the steps it records are not dispatched any more. -/
private theorem quiet_after (hcp : Accepted c cp) (hruns : ResumedRuns c (some cp) runs)
    (hquiet : ∀ s ∈ runs, s.checkpoints ≠ [] → s.resumed = ∅) :
    ∀ s ∈ runs, s.checkpoints = [] ∧ ∀ i, Records cp i → i ∉ s.dispatchSeq := by
  induction runs with
  | nil => simp
  | cons s rest ih =>
    obtain ⟨hrun, hrest⟩ := hruns
    have hspec := hrun.spec hnames hgraph (by simpa using hcp)
    have hnone : s.checkpoints = [] := by
      by_contra hne
      obtain ⟨i, hlt, hi⟩ := hcp.records
      have hmem := (hspec.resumed i).mpr ⟨cp, rfl, hlt, hi⟩
      rw [hquiet s mem_cons_self hne] at hmem
      cases hmem
    rw [hnone] at hrest
    refine forall_mem_cons.mpr ⟨⟨hnone, fun i hi => ?_⟩, ih hrest (forall_mem_cons.mp hquiet).2⟩
    exact hspec.notMem_dispatchSeq (wellFormed_of_buildDepGraph hgraph).2 rfl hi

/-- Checkpoints grow if no run that has resumed steps writes one. -/
private theorem grow_of_quiet (hruns : ResumedRuns c none runs)
    (hfits : ∀ s ∈ runs, ∀ cp ∈ s.checkpoints, cp.marshalIndent.length ≤ maxFileSize)
    (hquiet : ∀ s ∈ runs, s.checkpoints ≠ [] → s.resumed = ∅) : CheckpointsGrow runs := by
  induction runs with
  | nil => exact ⟨List.Pairwise.nil, List.Pairwise.nil⟩
  | cons s rest ih =>
    obtain ⟨hrun, hrest⟩ := hruns
    have hspec := hrun.spec hnames hgraph (by simp)
    have hquiet' := (forall_mem_cons.mp hquiet).2
    cases hlast : s.checkpoints.getLast? with
    | none =>
      -- the run wrote nothing, and the next one starts afresh
      have hnone : s.checkpoints = [] := getLast?_eq_none_iff.mp hlast
      rw [hlast] at hrest
      obtain ⟨hrecorded, hnever⟩ := ih hrest (forall_mem_cons.mp hfits).2 hquiet'
      refine ⟨by simpa [hnone] using hrecorded, pairwise_cons.mpr ⟨?_, hnever⟩⟩
      simp [hnone]
    | some cp =>
      rw [hlast] at hrest
      have hmem := mem_of_getLast? hlast
      have hcp := hspec.accepted (hfits s mem_cons_self) cp hmem
      have hafter := quiet_after hnames hgraph hcp hrest hquiet'
      -- what any checkpoint of the run records, its last one does
      have hle : ∀ cp' ∈ s.checkpoints, ∀ i, Records cp' i → Records cp i := by
        intro cp' hcp' i hi
        obtain ⟨front, hfront⟩ := getLast?_eq_some_iff.mp hlast
        have hgrow := hspec.checkpointed.grow
        rw [hfront] at hgrow hcp'
        rcases mem_append.mp hcp' with hcp' | hcp'
        · exact (List.pairwise_append.mp hgrow).2.2 cp' hcp' cp (List.mem_singleton.mpr rfl) i hi
        · exact List.mem_singleton.mp hcp' ▸ hi
      have hempty : (rest.flatMap fun s => s.checkpoints) = [] := by
        simp only [flatMap_eq_nil_iff]
        exact fun t ht => (hafter t ht).1
      constructor
      · rw [flatMap_cons, hempty, append_nil]
        exact hspec.checkpointed.grow
      · refine pairwise_cons.mpr ⟨?_, ?_⟩
        · exact fun t ht cp' hcp' i hi => (hafter t ht).2 i (hle cp' hcp' i hi)
        · apply List.Pairwise.imp_of_mem (R := fun _ _ => True) _ (pairwise_of_forall (by simp))
          intro t t' ht _ _ cp' hcp'
          rw [(hafter t ht).1] at hcp'
          cases hcp'

private theorem quiet_of_grow
    (hlast : ∀ cp ∈ last, Accepted c cp) (hruns : ResumedRuns c last runs)
    (hfits : ∀ s ∈ runs, ∀ cp ∈ s.checkpoints, cp.marshalIndent.length ≤ maxFileSize)
    (hgrow : (last.toList ++ runs.flatMap fun s => s.checkpoints).Pairwise fun cp cp' =>
      ∀ i, Records cp i → Records cp' i) :
    ∀ s ∈ runs, s.checkpoints ≠ [] → s.resumed = ∅ := by
  induction runs generalizing last with
  | nil => simp
  | cons s rest ih =>
    obtain ⟨hrun, hrest⟩ := hruns
    have hspec := hrun.spec hnames hgraph hlast
    rw [flatMap_cons] at hgrow
    refine forall_mem_cons.mpr ⟨?_, ?_⟩
    · intro hne
      obtain ⟨cp', hcp'⟩ := exists_mem_of_ne_nil _ hne
      rw [eq_empty_iff_forall_notMem]
      intro i hi
      obtain ⟨cp, hcp, -, hrec⟩ := (hspec.resumed i).mp hi
      have hpair := (pairwise_append.mp hgrow).2.2 cp (by simpa using hcp) cp'
        (mem_append_left _ hcp')
      exact hspec.notRecords hi hcp' (hpair i hrec)
    · refine ih (accepted_or hspec hlast (hfits s mem_cons_self)) hrest
        (forall_mem_cons.mp hfits).2 ?_
      -- the last checkpoint is one of those before
      have hsub : ((s.checkpoints.getLast?.or last).toList ++ rest.flatMap fun s => s.checkpoints)
          |>.Sublist (last.toList ++ (s.checkpoints ++ rest.flatMap fun s => s.checkpoints)) := by
        rw [← append_assoc]
        apply List.Sublist.append_right
        cases hl : s.checkpoints.getLast? with
        | none => simp
        | some cp =>
          obtain ⟨front, hfront⟩ := getLast?_eq_some_iff.mp hl
          rw [hfront, ← append_assoc]
          exact sublist_append_right _ _
      exact hgrow.sublist hsub

/-- Over any sequence of crashes and resumes, the checkpoints grow and recorded steps are not
dispatched again exactly if no run that resumed a step writes a checkpoint. -/
theorem checkpointsGrow_iff {runs : List Sched} (hruns : ResumedRuns c none runs)
    (hfits : ∀ s ∈ runs, ∀ cp ∈ s.checkpoints, cp.marshalIndent.length ≤ maxFileSize) :
    CheckpointsGrow runs ↔ ∀ s ∈ runs, s.checkpoints ≠ [] → s.resumed = ∅ := by
  constructor
  · intro h
    exact quiet_of_grow hnames hgraph (by simp) hruns hfits (by simpa using h.recorded)
  · exact grow_of_quiet hnames hgraph hruns hfits

end

/-- A step, and a second one that waits for it. -/
def chainSteps : List WorkflowStep :=
  [{ node := str "a" }, { node := str "b", dependsOn := [str "1"] }]

def chainConfig : DAGConfig := sampleConfig echoWorld chainSteps []

/-- A step is dispatched, its result arrives, and the scheduler goes on for some time. -/
def chainRound (idx ticks : ℕ) : List Action :=
  List.replicate 3 (.tick (some Time.zero)) ++
    .receive ⟨idx, str "x", none⟩ :: List.replicate ticks (.tick (some Time.zero))

private theorem chainConfig_names : ∀ step ∈ chainConfig.wf.steps, ValidUtf8 step.name := by
  decide

/-- A run that writes a checkpoint after each of the two steps. -/
theorem checkpointsGrow_chain :
    ∃ s, (startDAG chainConfig none).run chainConfig (chainRound 0 4 ++ chainRound 1 4) = some s ∧
      s.checkpoints.length = 2 ∧ CheckpointsGrow [s] := by
  obtain ⟨s, hs, hlen, hfits, hresumed⟩ :
      ∃ s ∈ (startDAG chainConfig none).run chainConfig (chainRound 0 4 ++ chainRound 1 4),
        s.checkpoints.length = 2 ∧
        (∀ cp ∈ s.checkpoints, cp.marshalIndent.length ≤ maxFileSize) ∧ s.resumed = ∅ := by
    decide +kernel
  have hruns : ResumedRuns chainConfig none [s] := ⟨⟨echoWorld, _, hs⟩, trivial⟩
  exact ⟨s, hs, hlen, (checkpointsGrow_iff chainConfig_names
    (buildDepGraph_sampleConfig (by decide)) hruns (by simpa using hfits)).mpr
    (by simpa using fun _ => hresumed)⟩

/-- The second run resumes the first step, and its checkpoint has the second step only. -/
theorem not_checkpointsGrow_resumed_chain :
    ¬ ∀ (c : DAGConfig) (runs : List Sched), buildDepGraph c.wf.steps = .ok c.graph →
      ResumedRuns c none runs → CheckpointsGrow runs := by
  intro h
  obtain ⟨s, hs, cp, hcp, hrec, hfits, s', hs', cp', hcp', hlost⟩ :
      ∃ s ∈ (startDAG chainConfig none).run chainConfig (chainRound 0 5),
        ∃ cp ∈ s.checkpoints.getLast?, Records cp 0 ∧ cp.marshalIndent.length ≤ maxFileSize ∧
          ∃ s' ∈ (startDAG chainConfig (some cp.clean)).run chainConfig (chainRound 1 4),
            ∃ cp' ∈ s'.checkpoints, ¬ Records cp' 0 := by
    decide +kernel
  have hruns : ResumedRuns chainConfig none [s, s'] := by
    refine ⟨⟨echoWorld, chainRound 0 5, hs⟩, ⟨echoWorld, chainRound 1 4, ?_⟩, trivial⟩
    rw [hcp, some_or, loadedFrom_some hfits]
    exact hs'
  have hgrow := (h chainConfig _ (buildDepGraph_sampleConfig (by decide)) hruns).recorded
  simp only [flatMap_cons, flatMap_nil, append_nil, pairwise_append] at hgrow
  exact hlost (hgrow.2.2 cp (mem_of_getLast? hcp) cp' hcp' 0 hrec)

end Workflow
