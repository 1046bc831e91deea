import Aflare.Workflow.IdempotentTrigger
import Aflare.Workflow.Sequential

/-!
# Shutdown and the status of a run

Both executors look at the shutdown flag before they start a step and stop without an error when it
is set. The two places that keep books on runs, the idempotency ledger and the metadata of a resumed
run, take the absence of an error for completion.

The branches of an `if` are run by the executors again, each call with its own checks of the flag,
so that a run is a call for the steps of the workflow together with the calls for the branches that
were taken. No other compound step looks at the flag. -/

namespace Workflow

open Go List

/-! ## The books -/

/-- The error of a run, as the caller of the executor sees it. -/
def SeqConfig.Result.err : SeqConfig.Result → Option Str
  | .completed _ => none
  | .failed err => some err
  | .paused err => some err

/-- The status that `ResumeWorkflowWith` leaves in the metadata of a run. -/
def resumeStatus : SeqConfig.Result → Str
  | .completed _ => str "completed"
  | .failed _ => str "failed"
  | .paused _ => str "paused"

/-- The run is recorded as completed in the ledger, or in the metadata. -/
def MarkedCompleted (r : SeqConfig.Result) : Prop :=
  idempotencyStatus r.err = idempotencyStatusCompleted ∨ resumeStatus r = str "completed"
  deriving Decidable

/-- The result of `executeWorkflowDAG`. -/
def Sched.ended (c : DAGConfig) (s : Sched) : SeqConfig.Result :=
  match s.result c with
  | .ok out => .completed out
  | .error err => .failed err

theorem MarkedCompleted.eq_completed {r : SeqConfig.Result} (h : MarkedCompleted r) :
    ∃ out, r = .completed out := by
  have hfailed : idempotencyStatusFailed ≠ idempotencyStatusCompleted := by decide
  cases r with
  | completed out => exact ⟨out, rfl⟩
  | failed err =>
    exact absurd (h.resolve_left hfailed) (show str "failed" ≠ str "completed" by decide)
  | paused err =>
    exact absurd (h.resolve_left hfailed) (show str "paused" ≠ str "completed" by decide)

/-! ## The sequential executor -/

namespace SeqConfig

variable (c : SeqConfig) (shutdown : ℕ → Bool)

/-- The flag is not set at any of the checks that the loop makes before a step. -/
def Undisturbed : ℕ → ℕ → SeqState → Prop
  | 0, _, _ => True
  | left + 1, i, s =>
    shutdown i = false ∧ ∀ s', c.nextState i s = some s' → Undisturbed left (i + 1) s'

variable {c shutdown}

/-- A loop that ends without an error has handled all of its steps exactly if it was not
disturbed. -/
theorem length_states_eq_iff {left i : ℕ} {s : SeqState} {out : Str}
    (h : (c.executeSteps shutdown left i s).result = .completed out) :
    (c.executeSteps shutdown left i s).states.length = left ↔
      c.Undisturbed shutdown left i s := by
  induction left generalizing i s with
  | zero => simp [executeSteps, Undisturbed]
  | succ left ih =>
    simp only [executeSteps] at h ⊢
    by_cases hflag : shutdown i = true
    · simp [hflag, Undisturbed]
    · simp only [hflag, Bool.false_eq_true, if_false] at h ⊢
      cases hinput : c.stepInput i s with
      | error err => simp [hinput] at h
      | ok input =>
        simp only [hinput] at h ⊢
        cases hhandle : c.handleStep c.world.executeStep i input s with
        | next t saved =>
          simp only [hhandle] at h ⊢
          have hnext : c.nextState i s = some t :=
            nextState_eq_some_iff.mpr ⟨input, hinput, saved, hhandle⟩
          rw [length_cons, Nat.add_right_cancel_iff, ih h, Undisturbed]
          simp [hflag, hnext]
        | failed err | paused t err => simp [hhandle] at h

end SeqConfig

/-! ## The scheduler -/

namespace Sched

variable {c : DAGConfig} {s s' : Sched}

/-- A check of the flag with steps waiting does not find it set, unless the run is aborted. -/
def Unseen (s : Sched) : Action → Prop
  | .tick _ => s.phase = .dispatch → s.readyQueue ≠ [] → s.aborted = false → s.shutdown = false
  | _ => True

variable {i idx : ℕ}

theorem mem_readyQueue_propagateDeps (h : i ∈ s.readyQueue) :
    i ∈ (s.propagateDeps c idx).readyQueue := by
  simp only [propagateDeps, foldl_credit (c.graph.nodup_sorted _)]
  exact mem_append_left _ h

theorem mem_readyQueue_propagateOnce (h : i ∈ s.readyQueue) :
    i ∈ (s.propagateOnce c idx).readyQueue := by
  unfold propagateOnce
  split
  · exact h
  · exact mem_readyQueue_propagateDeps h

variable {i : ℕ}

theorem settle_keeps_waiting (h : s.aborted = true ∨ i ∈ s.readyQueue) (idx : ℕ)
    (o : Outcome) (disk : Option Time) :
    (s.settle c idx o disk).aborted = true ∨ i ∈ (s.settle c idx o disk).readyQueue := by
  rcases settle_cases (c := c) s idx o disk with ⟨-, herr, heq⟩ | ⟨hab, heq⟩ | ⟨hab, -, heq⟩
  · exact .inl (by rw [heq]; exact herr)
  · exact .inl (by rw [heq]; exact hab)
  · obtain ⟨completed, checkpoints, hcomplete, -⟩ :=
      complete_eq (c := c) (s.propagateOnce c idx) idx o disk
    rw [heq, hcomplete]
    exact .inr (mem_readyQueue_propagateOnce (h.resolve_left (by simp [hab])))

variable {a : Action}

/-- A step that waits goes on to wait once the flag is set, unless the run is aborted. -/
theorem Move.keeps_waiting (hmove : Move c s a s') (hflag : s.shutdown = true)
    (hi : s.aborted = true ∨ i ∈ s.readyQueue) :
    s'.shutdown = true ∧ (s'.aborted = true ∨ i ∈ s'.readyQueue) := by
  cases hmove with
  | signal => exact ⟨rfl, hi⟩
  | round | finish | dispatched | arrived => exact ⟨hflag, hi⟩
  | dispatch _ _ _ hflag' =>
    rw [hflag] at hflag'
    cases hflag'
  | @receive res =>
    refine ⟨(receive_progress _ _).2.2.2.1.trans hflag, ?_⟩
    rcases receive_cases (c := c) s res with ⟨-, -, heq⟩ | ⟨-, heq⟩ <;> rw [heq]
    · exact hi.imp id fun h => mem_readyQueue_propagateDeps h
    · exact hi
  | process =>
    refine ⟨(processStep_progress _ _ _ _).2.2.2.1.trans hflag, ?_⟩
    exact settle_keeps_waiting (s := s.recordResult c _ _ _) hi _ _ _

/-- A run whose checks never find the flag set with steps waiting ends with no step waiting. -/
theorem Inv.queue_nil_of_unseen (h : s.Inv c) (hdone : s.phase = .done → s.readyQueue = [])
    (hseen : s.Unseen a) (hmove : Move c s a s') : s'.phase = .done → s'.readyQueue = [] := by
  cases hmove with
  | signal => exact hdone
  | round => exact fun hp => by cases hp
  | finish _ _ hqueue => exact fun _ => hqueue
  | dispatch hphase =>
    intro hp
    rw [(dispatchOne_progress _ _ _).1, hphase] at hp
    cases hp
  | dispatched hphase hstop =>
    intro _
    change s.readyQueue = []
    by_contra hqueue
    rcases hstop with hstop | hstop | hstop
    · exact hqueue hstop
    · exact hqueue (h.aborted_queue hstop)
    · have hab : s.aborted = false := by
        by_contra hab
        exact hqueue (h.aborted_queue (by simpa using hab))
      rw [hseen hphase hqueue hab] at hstop
      cases hstop
  | receive =>
    intro hp
    rw [(receive_progress _ _).1] at hp
    cases hp
  | arrived => exact fun hp => by cases hp
  | process =>
    intro hp
    rw [(processStep_progress _ _ _ _).1] at hp
    cases hp

variable {actions : List Action}

theorem waiting_of_seen (hflag : s.shutdown = true) (hi : i ∈ s.readyQueue)
    (hrun : s.run c actions = some s') (hab : s'.aborted = false) : i ∈ s'.readyQueue := by
  have hkept : s'.shutdown = true ∧ (s'.aborted = true ∨ i ∈ s'.readyQueue) :=
    Runs.invariant (P := fun t => t.shutdown = true ∧ (t.aborted = true ∨ i ∈ t.readyQueue))
      (fun t a t' ht hstep => (move_of_step c hstep).keeps_waiting ht.1 ht.2) ⟨hflag, .inr hi⟩ hrun
  exact hkept.2.resolve_left (by simp [hab])

/-- A run that ends with no step waiting never found the flag set with steps waiting. -/
theorem guarded_of_queue_nil (hrun : s.run c actions = some s') (hab : s'.aborted = false)
    (hqueue : s'.readyQueue = []) : Runs.Guarded (step c) Unseen s actions := by
  induction actions generalizing s with
  | nil => trivial
  | cons a actions ih =>
    obtain ⟨t, ht, hrest⟩ := Runs.run_cons.mp hrun
    refine (Runs.guarded_cons ht).mpr ⟨?_, ih hrest⟩
    cases a with
    | receive res | signalShutdown => trivial
    | tick disk =>
      intro _ hne _
      by_contra hflag
      obtain ⟨i, hi⟩ := exists_mem_of_ne_nil _ hne
      have hwaits := waiting_of_seen (by simpa using hflag) hi hrun hab
      rw [hqueue] at hwaits
      cases hwaits

/-- A run that ends without abort has come to every step exactly if it never found the flag set with
steps waiting. -/
theorem covered_iff_guarded (hgraph : buildDepGraph c.wf.steps = .ok c.graph)
    (loaded : Option WorkflowState) (hrun : (startDAG c loaded).run c actions = some s)
    (hphase : s.phase = .done) (hab : s.aborted = false) :
    (∀ i < c.wf.steps.length, i ∈ s.resumed ∨ i ∈ s.processed) ↔
      Runs.Guarded (step c) Unseen (startDAG c loaded) actions := by
  obtain ⟨hg, hn⟩ := wellFormed_of_buildDepGraph hgraph
  have hstart := inv_startDAG hg.toEdgesWithin hn loaded
  have hmove : ∀ t a t', Inv c t → t.step c a = some t' → Inv c t' := fun t a t' h hstep =>
    h.move hg.toEdgesWithin (move_of_step c hstep)
  have hinv : Inv c s := Runs.invariant hmove hstart hrun
  constructor
  · intro hcovered
    refine guarded_of_queue_nil hrun hab ?_
    -- a waiting step is neither resumed nor dispatched
    rw [eq_nil_iff_forall_not_mem]
    intro i hi
    obtain ⟨hlt, hfresh⟩ := hinv.queued.within i (mem_append_right _ hi)
    rcases hcovered i (hn ▸ hlt) with hres | hproc
    · exact hfresh hres
    · exact hinv.queued.notMem_seq hi (mem_of_mem_take hproc)
  · intro hguard
    have hqueue : s.readyQueue = [] := by
      have hboth : Inv c s ∧ (s.phase = .done → s.readyQueue = []) :=
        hguard.invariant (I := fun t => Inv c t ∧ (t.phase = .done → t.readyQueue = []))
          (fun t a t' ht hseen hstep => ⟨hmove t a t' ht.1 hstep,
            ht.1.queue_nil_of_unseen ht.2 hseen (move_of_step c hstep)⟩)
          ⟨hstart, fun hp => by rw [(startDAG_idle c loaded).2.2] at hp; cases hp⟩ hrun
      exact hboth.2 hphase
    obtain ⟨hprocessed, hall⟩ := hinv.completed_of_queue_nil hg hphase hab hqueue
    intro i hi
    by_cases hres : i ∈ s.resumed
    · exact .inl hres
    · right
      rw [hprocessed]
      exact hall i (hn ▸ hi) hres

theorem aborted_of_marked (h : MarkedCompleted (s.ended c)) : s.aborted = false := by
  obtain ⟨out, hout⟩ := h.eq_completed
  simp only [ended, result] at hout
  cases hab : s.firstAbortErr with
  | none => simp [aborted, hab]
  | some err => simp [hab] at hout

end Sched

/-! ## Runs with branches -/

/-- A call of an executor: the loop from a step on, with what its checks of the flag see, or a run
of the scheduler. -/
inductive Level
  | loop (c : SeqConfig) (shutdown : ℕ → Bool) (i : ℕ) (s : SeqState)
  | graph (c : DAGConfig) (loaded : Option WorkflowState) (actions : List Action) (s : Sched)

namespace Level

def steps : Level → List WorkflowStep
  | loop c _ _ _ => c.wf.steps
  | graph c _ _ _ => c.wf.steps

/-- What the loop of a sequential call does. -/
def execution (c : SeqConfig) (shutdown : ℕ → Bool) (i : ℕ) (s : SeqState) : SeqConfig.Execution :=
  c.executeSteps shutdown (c.wf.steps.length - i) i s

def result : Level → SeqConfig.Result
  | loop c shutdown i s => (execution c shutdown i s).result
  | graph c _ _ s => s.ended c

/-- The call starts at one of its steps, or is a run of the scheduler to its end. -/
def Ran : Level → Prop
  | loop c _ i _ => i ≤ c.wf.steps.length
  | graph c loaded actions s => buildDepGraph c.wf.steps = .ok c.graph ∧
      (startDAG c loaded).run c actions = some s ∧ s.phase = .done

/-- Every step was executed, skipped or restored from a checkpoint. -/
def Covered : Level → Prop
  | loop c shutdown i s => i + (execution c shutdown i s).states.length = c.wf.steps.length
  | graph c _ _ s => ∀ i < c.wf.steps.length, i ∈ s.resumed ∨ i ∈ s.processed

/-- No check of the flag finds it set with steps left. -/
def Undisturbed : Level → Prop
  | loop c shutdown i s => c.Undisturbed shutdown (c.wf.steps.length - i) i s
  | graph c loaded actions _ => Runs.Guarded (Sched.step c) Sched.Unseen (startDAG c loaded) actions

/-- The call runs a branch of the `if` of a step from its beginning. -/
def RunsBranch (l : Level) (step : WorkflowStep) : Prop :=
  (∃ cfg, step.ifConfig = some cfg ∧ (l.steps = cfg.thenSteps ∨ l.steps = cfg.elseSteps)) ∧
    match l with
    | loop c _ i s => i = 0 ∧ s = c.initial
    | graph _ loaded _ _ => loaded = none

/-- An `if` among the steps of the call that has succeeded has the output of a call for one of its
branches. -/
def Answered (branches : List Level) : Level → Prop
  | loop c shutdown i s => ∀ k input (t : SeqState) out,
      (execution c shutdown i s).inputs[k]? = some input →
      (s :: (execution c shutdown i s).states)[k]? = some t →
      (c.wf.step (i + k)).compoundKind = some .ifBranch →
      c.compound .ifBranch (c.wf.step (i + k)) input t.engine = .ok out →
      ∃ b ∈ branches, b.RunsBranch (c.wf.step (i + k)) ∧ b.result = .completed out
  | graph c _ actions _ => ∀ res, .receive res ∈ actions → res.err = none →
      (c.wf.step res.idx).compoundKind = some .ifBranch →
      ∃ b ∈ branches, b.RunsBranch (c.wf.step res.idx) ∧ b.result = .completed res.output

/-- A call that ends without an error has come to all of its steps exactly if it was not
disturbed. -/
theorem covered_iff_undisturbed {l : Level} (hran : l.Ran) (hmarked : MarkedCompleted l.result) :
    l.Covered ↔ l.Undisturbed := by
  cases l with
  | loop c shutdown i s =>
    obtain ⟨out, hout⟩ := hmarked.eq_completed
    have hi : i ≤ c.wf.steps.length := hran
    simp only [Covered, Undisturbed, ← SeqConfig.length_states_eq_iff hout, execution]
    omega
  | graph c loaded actions s =>
    obtain ⟨hgraph, hrun, hphase⟩ := hran
    exact Sched.covered_iff_guarded hgraph loaded hrun hphase (Sched.aborted_of_marked hmarked)

end Level

/-- A run of a workflow: the call for its steps and the calls for the branches that were taken, each
of an `if` at some depth inside a step of one of the calls. -/
structure NestedRun where
  root : Level
  branches : List Level
  ran : ∀ l ∈ root :: branches, l.Ran
  answered : ∀ l ∈ root :: branches, l.Answered branches
  taken : ∀ b ∈ branches, ∃ l ∈ root :: branches, ∃ step ∈ l.steps, ∃ inner,
    Relation.ReflTransGen (fun outer inner => inner ∈ outer.subSteps) step inner ∧
      b.RunsBranch inner

namespace NestedRun

/-- The run is marked as completed, and no branch of it has ended with an error. -/
def Completed (r : NestedRun) : Prop :=
  MarkedCompleted r.root.result ∧ ∀ b ∈ r.branches, MarkedCompleted b.result

/-- The run has come to every step of the workflow and of the branches that were taken. -/
def Covered (r : NestedRun) : Prop := ∀ l ∈ r.root :: r.branches, l.Covered

end NestedRun

/-- A run that is marked as completed has come to all of its steps (executed, skipped or restored),
those of its branches included, exactly if at no check a call found the shutdown flag set with steps
of its own left. -/
theorem marked_complete_iff {r : NestedRun} (h : r.Completed) :
    r.Covered ↔ ∀ l ∈ r.root :: r.branches, l.Undisturbed := by
  have hmarked : ∀ l ∈ r.root :: r.branches, MarkedCompleted l.result := forall_mem_cons.mpr h
  exact forall₂_congr fun l hl => Level.covered_iff_undisturbed (r.ran l hl) (hmarked l hl)

def twoSteps : List WorkflowStep := [{ node := str "a" }, { node := str "b" }]

/-- A step, and an `if` with two steps in its branch. -/
def branchSteps : List WorkflowStep :=
  [{ node := str "a" }, { node := [], ifConfig := some ⟨[], twoSteps, []⟩ }]

/-- A sequential call for some steps, whose checks find the flag set from some step on. -/
def stoppedLoop (steps : List WorkflowStep) (stop : ℕ) : Level :=
  let c : SeqConfig := ⟨nodeWorld, ⟨str "sample", ∅, steps, []⟩, [], fun _ _ _ _ => .ok []⟩
  .loop c (fun i => stop ≤ i) 0 c.initial

/-- The run of the workflow whose branch finds the flag set from some step on. -/
def branchRun (stop : ℕ) (hresult : (stoppedLoop twoSteps stop).result = .completed []) :
    NestedRun where
  root := stoppedLoop branchSteps 2
  branches := [stoppedLoop twoSteps stop]
  ran := by simp [Level.Ran, stoppedLoop]
  answered := by
    refine forall_mem_cons.mpr ⟨?_, forall_mem_singleton.mpr ?_⟩
    · rintro (_ | _ | k) input t out _ _ hkind hout
      · cases hkind
      · cases hout
        exact ⟨_, mem_singleton_self _, ⟨⟨_, rfl, .inl rfl⟩, rfl, rfl⟩, hresult⟩
      · cases hkind
    · rintro (_ | _ | k) input t out _ _ hkind _ <;> cases hkind
  taken := forall_mem_singleton.mpr
    ⟨_, mem_cons_self, _, mem_cons_of_mem _ mem_cons_self, _, .refl, ⟨_, rfl, .inl rfl⟩, rfl, rfl⟩

/-- A flag that is set after the branch has come to its last step. -/
theorem marked_complete_late :
    (branchRun 2 (by decide)).Covered := by
  have h : (branchRun 2 (by decide)).Completed :=
    ⟨by decide, forall_mem_singleton.mpr (by decide)⟩
  refine (marked_complete_iff h).mpr (forall_mem_cons.mpr ⟨?_, forall_mem_singleton.mpr ?_⟩)
  · exact ⟨rfl, fun _ _ => ⟨rfl, fun _ _ => trivial⟩⟩
  · exact ⟨rfl, fun _ _ => ⟨rfl, fun _ _ => trivial⟩⟩

/-- A call without branches is a run. -/
def singleRun (root : Level) (hran : root.Ran) (hplain : root.Answered []) : NestedRun where
  root := root
  branches := []
  ran := forall_mem_singleton.mpr hran
  answered := forall_mem_singleton.mpr hplain
  taken := by simp

/-- A flag that is set before the first step of a sequential run or of a run of the scheduler, or
between the two steps of a branch: the run is marked as completed and has not come to all of its
steps. -/
theorem not_marked_complete_shutdown :
    (∃ r : NestedRun, r.Completed ∧ r.root = stoppedLoop twoSteps 0 ∧ ¬ r.root.Covered) ∧
    (∃ (r : NestedRun) (s : Sched), r.Completed ∧ ¬ r.root.Covered ∧
      r.root = .graph (sampleConfig echoWorld twoSteps []) none
        [.signalShutdown, .tick none, .tick none] s) ∧
    ∃ r : NestedRun, r.Completed ∧ r.root.Covered ∧ r.branches = [stoppedLoop twoSteps 1] ∧
      ¬ r.Covered := by
  refine ⟨?_, ?_, ?_⟩
  · have hplain : (stoppedLoop twoSteps 0).Answered [] := by
      rintro (_ | _ | k) input t out _ _ hkind _ <;> cases hkind
    have hmarked : MarkedCompleted (stoppedLoop twoSteps 0).result := by decide
    exact ⟨singleRun _ (Nat.zero_le _) hplain, ⟨hmarked, forall_mem_nil _⟩, rfl,
      fun h => absurd (show 0 = 2 from h) (by decide)⟩
  · obtain ⟨s, hs, hdone, hprocessed, hresumed, hmarked⟩ :
        ∃ s ∈ (startDAG (sampleConfig echoWorld twoSteps []) none).run
          (sampleConfig echoWorld twoSteps []) [.signalShutdown, .tick none, .tick none],
          s.phase = .done ∧ 0 ∉ s.processed ∧ 0 ∉ s.resumed ∧
            MarkedCompleted (s.ended (sampleConfig echoWorld twoSteps [])) := by
      decide
    refine ⟨singleRun (.graph _ none _ s)
      ⟨buildDepGraph_sampleConfig (by decide), hs, hdone⟩ (by simp [Level.Answered]), s,
      ⟨hmarked, forall_mem_nil _⟩, fun h => ?_, rfl⟩
    exact (h 0 (by decide)).elim hresumed hprocessed
  · refine ⟨branchRun 1 (by decide), ⟨by decide, ?_⟩, ?_, rfl, fun h => ?_⟩
    · exact forall_mem_singleton.mpr (by decide)
    · exact show 2 = 2 from rfl
    · exact absurd (show 1 = 2 from h _ (mem_cons_of_mem _ mem_cons_self)) (by decide)

end Workflow
