import Aflare.Workflow.Checkpoint
import Aflare.Workflow.Sequential
import Aflare.Workflow.WalManager

/-!
# Resuming a sequential run

After every completed step the executor saves its state, to the write-ahead log or to a checkpoint
file. A process that is started on what an earlier one left behind goes on after the last saved
step. Here processes run, crash and are paused in any order, and each is followed by a new one.

A checkpoint holds the outputs of the steps by index only, and restoring one gives each of them the
name that its step has in the workflow. What was stored under another name, or under a name that two
steps share, is not what it was.
-/

namespace Workflow

open Go List Finset

/-! ## Restoring a saved state -/

def clampStep (idx : ℤ) (totalSteps : ℕ) : ℕ :=
  if idx < 0 then 0 else if totalSteps < idx then totalSteps else idx.toNat

variable (wf : WorkflowDef)

/-- The name that `RestoreState` gives to an output. -/
def WorkflowDef.nameAt (i : ℤ) : Str := ((wf.stepAt i).map fun s => s.name).getD []

/-- The loop of `RestoreState` over the saved outputs. -/
def restoreOutputs (e : ExpressionEngine) (outputs : List (ℤ × Str)) : ExpressionEngine :=
  outputs.foldl (fun e o => e.setStepOutput o.1 (wf.nameAt o.1) o.2) e

def restoreState (w : World) (wf : WorkflowDef) (state : WorkflowState) (e : ExpressionEngine) :
    SeqState :=
  ⟨(restoreOutputs wf e (w.rangeOutputs (state.stepOutputs.getD ∅))).setVariables
    (state.vars.getD ∅), state.data⟩

/-! ## Processes -/

/-- What a process leaves on disk: the checkpoint file, or the file of the log with the options it
is opened with. -/
inductive Disk
  | json (file : Option Str)
  | wal (opts : WALOptions) (file : Str)

/-- Where a process saves its state. -/
inductive Store
  | json (file : Option Str)
  | wal (m : WALStateManager)

/-- What is on disk after a crash that leaves the given number of bytes of the log. -/
def Store.crashed (store : Store) (kept : ℕ) : Disk :=
  match store with
  | .json file => .json file
  | .wal m => .wal m.wal.opts (m.wal.log.take kept)

/-- The time of a save, and the failure of its write if there is one. -/
structure Write where
  now : Time
  fault : Option (Str × Bool)

/-- A process: the next step, the state, where it is saved, and the step after which a save is
still to be done. -/
structure Proc where
  idx : ℕ
  state : SeqState
  store : Store
  unsaved : Option ℕ

/-- What can happen to a process: it completes a step; it saves its state; the node of the next step
fails this time and the process pauses; it crashes, and the given number of bytes of the log is
left. -/
inductive SeqAction
  | step
  | save (write : Write)
  | pause (output err : Str) (write : Write)
  | crash (kept : ℕ)

/-- The action does not end the process. -/
def SeqAction.Quiet : SeqAction → Prop
  | .step => True
  | .save _ => True
  | .pause _ _ _ => False
  | .crash _ => False

namespace SeqConfig

variable (c : SeqConfig)

/-- A process that goes on after a saved state. -/
def resume (state : WorkflowState) (store : Store) : Proc where
  idx := clampStep (state.stepIndex + 1) c.wf.steps.length
  state := restoreState c.world c.wf state c.initial.engine
  store := store
  unsaved := none

/-- A process that starts at the first step. -/
def fresh (store : Store) : Proc := ⟨0, c.initial, store, none⟩

/-- `initResumeState`. It fails where loading the log panics. -/
def initResumeState : Disk → Option Proc
  | .json file =>
    match loadCheckpoint file with
    | .ok state => some (c.resume state (.json file))
    | .error _ => some (c.fresh (.json file))
  | .wal opts file =>
    match loadStateWAL file with
    | none => none
    | some (some state) =>
      some (c.resume state (.wal (newWALStateManager (newWAL opts file) c.wf (some state))))
    | some none => some (c.fresh (.wal (newWALStateManager (newWAL opts file) c.wf none)))

/-- `saveCP`; errors are only logged. -/
def saveCP (store : Store) (stepIndex : ℤ) (s : SeqState) (write : Write) : Store :=
  match store with
  | .wal m => .wal (m.save ⟨stepIndex, s.data, s.engine, write.now, write.fault⟩).1
  | .json file =>
    match write.fault with
    | some _ => .json file
    | none =>
      .json (some (saveCurrentState c.wf stepIndex s.data s.engine write.now).marshalIndent)

theorem exists_saveCP_json (file : Option Str) (k : ℤ) (s : SeqState) (write : Write) :
    ∃ file', c.saveCP (.json file) k s write = .json file' := by
  simp only [saveCP]
  split
  · exact ⟨_, rfl⟩
  · exact ⟨_, rfl⟩

/-- What `handleStepFailure` leaves on disk when step `i` pauses in state `s`: the log is closed,
and without a log the state is saved as the one after the step before. -/
def pausedDisk (store : Store) (i : ℕ) (s : SeqState) (write : Write) : Disk :=
  match store with
  | .wal m => .wal m.wal.opts m.wal.flush.file
  | .json file => if i = 0 then .json file else (c.saveCP (.json file) (i - 1) s write).crashed 0

/-- What an action does to a process. -/
def procStep (p : Proc) : SeqAction → Option Proc
  | .step =>
    if p.unsaved.isNone ∧ p.idx < c.wf.steps.length then
      match c.stepInput p.idx p.state with
      | .error _ => none
      | .ok input =>
        match c.handleStep c.world.executeStep p.idx input p.state with
        | .next s saved =>
          some
            { p with idx := p.idx + 1, state := s, unsaved := if saved then some p.idx else none }
        | _ => none
    else none
  | .save write =>
    match p.unsaved with
    | none => none
    | some i => some { p with store := c.saveCP p.store i p.state write, unsaved := none }
  | .pause output err write =>
    if p.unsaved.isNone ∧ p.idx < c.wf.steps.length then
      match c.stepInput p.idx p.state with
      | .error _ => none
      | .ok input =>
        match c.handleStep (fun _ _ _ => (output, some err)) p.idx input p.state with
        | .paused s _ => c.initResumeState (c.pausedDisk p.store p.idx s write)
        | _ => none
    else none
  | .crash kept => c.initResumeState (p.store.crashed kept)

end SeqConfig

/-! ## Engines that a checkpoint restores -/

/-- The name under which the outputs of a step are stored, if it is one. -/
def storedName (name : Str) : Option Str := if storesName name then some name else none

/-- No two steps store their outputs under one name. -/
def DistinctNames : Prop :=
  ∀ i < wf.steps.length, ∀ j < wf.steps.length, storesName (wf.step i).name = true →
    (wf.step i).name = (wf.step j).name → i = j

variable {e : ExpressionEngine}

theorem setStepOutput_of_storedName {i : ℤ} {a b output : Str} (h : storedName a = storedName b) :
    e.setStepOutput i a output = e.setStepOutput i b output := by
  grind [storedName, ExpressionEngine.setStepOutput]

variable {wf : WorkflowDef}

theorem DistinctNames.unambiguous (h : DistinctNames wf) (key : Str) : Unambiguous wf key := by
  rintro j j' ⟨hj, hkey⟩ ⟨hj', hkey'⟩
  rcases hkey with rfl | ⟨hstores, rfl⟩
  · rcases hkey' with heq | ⟨-, heq⟩
    · exact_mod_cast idxKey_injective heq
    · exact absurd heq (idxKey_ne_nameKey _ _)
  · rcases hkey' with heq | ⟨-, heq⟩
    · exact absurd heq.symm (idxKey_ne_nameKey _ _)
    · exact h j hj j' hj' hstores (nameKey_injective heq)

variable {i : ℕ}

namespace EngineHolds

variable {wf : WorkflowDef} {out : ℕ → Str} {D : Finset ℕ} {e e' : ExpressionEngine}

theorem eq (hnames : DistinctNames wf) (h : EngineHolds wf out D e) (h' : EngineHolds wf out D e') :
    e = e' := by
  have houts : e.stepOutputs = e'.stepOutputs := by
    apply Std.ExtTreeMap.ext_getElem?
    intro key
    by_cases hw : ∃ j ∈ D, Writes wf j key
    · obtain ⟨j, hj, hwrites⟩ := hw
      rw [h.written key j hj hwrites (hnames.unambiguous key),
        h'.written key j hj hwrites (hnames.unambiguous key)]
    · have hnone : ∀ j ∈ D, ¬ Writes wf j key := fun j hj hwrites => hw ⟨j, hj, hwrites⟩
      rw [h.unwritten key hnone, h'.unwritten key hnone]
  have hvars : e.vars = e'.vars := h.vars.trans h'.vars.symm
  have hloop : e.loopVars = e'.loopVars := h.loopVars.trans h'.loopVars.symm
  cases e
  cases e'
  simp_all

theorem wellKeyed (h : EngineHolds wf out D e) : e.WellKeyed := by
  intro key v hv
  by_contra hnot
  have hnone : ∀ j ∈ D, ¬ Writes wf j key := by
    rintro j - ⟨-, rfl | ⟨-, rfl⟩⟩
    · exact hnot (.inl ⟨j, rfl⟩)
    · exact hnot (.inr ⟨_, rfl⟩)
  rw [h.unwritten key hnone] at hv
  cases hv

theorem saved (hnames : DistinctNames wf) (h : EngineHolds wf out D e)
    (hD : ∀ j ∈ D, j < wf.steps.length) {k : ℤ} {v : Str} :
    (saveStepOutputs e.stepOutputs)[k]? = some v ↔ ∃ j ∈ D, k = (j : ℤ) ∧ v = out j := by
  rw [getElem?_saveStepOutputs h.wellKeyed]
  constructor
  · intro hv
    by_contra hnot
    have hnone : ∀ j ∈ D, ¬ Writes wf j (idxKey k) := by
      rintro j hj ⟨hlt, hkey | ⟨-, hkey⟩⟩
      · obtain rfl := idxKey_injective hkey
        rw [h.written _ j hj ⟨hlt, .inl rfl⟩ (hnames.unambiguous _)] at hv
        exact hnot ⟨j, hj, rfl, (Option.some.inj hv).symm⟩
      · exact idxKey_ne_nameKey _ _ hkey
    rw [h.unwritten _ hnone] at hv
    cases hv
  · rintro ⟨j, hj, rfl, rfl⟩
    exact h.written _ j hj ⟨hD j hj, .inl rfl⟩ (hnames.unambiguous _)

end EngineHolds

theorem nameAt_natCast {j : ℕ} (hj : j < wf.steps.length) : wf.nameAt j = (wf.step j).name := by
  simp [WorkflowDef.nameAt, WorkflowDef.stepAt, WorkflowDef.step, getElem?_eq_getElem hj]

/-- Restoring outputs one after the other gives an engine that holds them. -/
theorem holds_restoreOutputs {out : ℕ → Str}
    {entries : List (ℤ × Str)} {D : Finset ℕ} (hD : ∀ j ∈ D, j < wf.steps.length)
    (hentries : ∀ o ∈ entries, ∃ j ∈ D, o.1 = (j : ℤ) ∧ o.2 = out j) :
    EngineHolds wf out (D.filter fun j : ℕ => ∃ o ∈ entries, o.1 = (j : ℤ))
      (restoreOutputs wf { newExpressionEngine with vars := wf.vars } entries) := by
  -- the outputs restored so far are those of a front of the list
  induction entries using List.reverseRecOn with
  | nil => simpa [restoreOutputs] using EngineHolds.new wf out
  | append_singleton front o ih =>
    obtain ⟨j, hj, hidx, hout⟩ := hentries o (by simp)
    have hfront := ih fun o ho => hentries o (mem_append_left _ ho)
    have hlast := hfront.insert (hD j hj)
    have hset : (D.filter fun k : ℕ => ∃ o' ∈ front ++ [o], o'.1 = (k : ℤ)) =
        insert j (D.filter fun k : ℕ => ∃ o' ∈ front, o'.1 = (k : ℤ)) := by
      ext k
      simp only [Finset.mem_filter, Finset.mem_insert, List.mem_append, List.mem_singleton]
      constructor
      · rintro ⟨hk, o', ho' | rfl, heq⟩
        · exact .inr ⟨hk, o', ho', heq⟩
        · exact .inl (by exact_mod_cast heq.symm.trans hidx)
      · rintro (rfl | ⟨hk, o', ho', heq⟩)
        · exact ⟨hj, o, .inr rfl, hidx⟩
        · exact ⟨hk, o', .inl ho', heq⟩
    rw [hset, restoreOutputs, foldl_append]
    simp only [foldl_cons, foldl_nil, hidx, hout, nameAt_natCast (hD j hj)]
    exact hlast

variable (c : SeqConfig)

theorem initial_engine :
    c.initial.engine = { newExpressionEngine with vars := c.wf.vars } := by
  simp [SeqConfig.initial, ExpressionEngine.setVariables, newExpressionEngine]

variable {state : WorkflowState}

/-- A saved engine is restored exactly, in whatever order the saved outputs come. -/
theorem restoreState_saved {c : SeqConfig} (hnames : DistinctNames c.wf) {out : ℕ → Str}
    {D : Finset ℕ} (h : EngineHolds c.wf out D e) (hD : ∀ j ∈ D, j < c.wf.steps.length)
    (houts : state.stepOutputs.getD ∅ = saveStepOutputs e.stepOutputs)
    (hvars : state.vars.getD ∅ = e.vars) :
    restoreState c.world c.wf state c.initial.engine = ⟨e, state.data⟩ := by
  have hmem (o : ℤ × Str) : o ∈ c.world.rangeOutputs (saveStepOutputs e.stepOutputs) ↔
      ∃ j ∈ D, o.1 = (j : ℤ) ∧ o.2 = out j := by
    rw [(c.world.rangeOutputs_perm _).mem_iff, Std.ExtTreeMap.mem_toList_iff_getElem?_eq_some,
      h.saved hnames hD]
  have hrestored := holds_restoreOutputs hD fun o ho => (hmem o).mp ho
  have hall : (D.filter fun j : ℕ =>
      ∃ o ∈ c.world.rangeOutputs (saveStepOutputs e.stepOutputs), o.1 = (j : ℤ)) = D := by
    apply filter_true_of_mem
    intro j hj
    exact ⟨(j, out j), (hmem _).mpr ⟨j, hj, rfl, rfl⟩, rfl⟩
  rw [hall] at hrestored
  have heq := hrestored.eq hnames h
  have hsame : e.setVariables e.vars = e := by
    simp [ExpressionEngine.setVariables, GoMap.assignAll_eq_union (List.Perm.refl _)]
  rw [restoreState, houts, hvars, initial_engine, heq, hsame]

/-! ## Rounds of the loop -/

variable {input : Str}

theorem applyErrorRecovery_output {w : World} {step : WorkflowStep} {output execErr err : Str}
    (h : (applyErrorRecovery w step output execErr e input).abortErr = some err) :
    (applyErrorRecovery w step output execErr e input).output = output := by
  unfold applyErrorRecovery at h ⊢
  repeat' split
  all_goals simp_all

variable {saved : Bool}

namespace SeqConfig

variable {c : SeqConfig} {i : ℕ} {run : NodeRun} {input : Str} {s s' : SeqState}

/-- A round that goes on stores an output of its step, unless the step is skipped. -/
theorem handleStep_next (h : c.handleStep run i input s = .next s' saved) :
    (saved = true ∧ ∃ output, s'.engine = s.engine.setStepOutput i (c.wf.step i).name output) ∨
      (saved = false ∧ (c.wf.step i).compoundKind = none ∧
        evaluateCondition c.world s.engine (c.wf.step i).condition input = .ok false ∧
        s' = ⟨s.engine.setStepOutput i (c.wf.step i).node [], s.data⟩) := by
  simp only [handleStep] at h
  split at h
  · simp only [handleCompoundStep] at h
    split at h
    · cases h
    · cases h
      exact .inl ⟨rfl, _, rfl⟩
  · rename_i hkind
    split at h
    · cases h
    · rename_i hcondition
      cases h
      exact .inr ⟨rfl, hkind, hcondition, rfl⟩
    · simp only [executeRegularStep, handleStepFailure] at h
      split at h
      · cases h
      · split at h
        · cases h
        · split at h
          · cases h
            exact .inl ⟨rfl, _, rfl⟩
          · split at h
            · cases h
              exact .inl ⟨rfl, _, rfl⟩
            · split at h <;> cases h

/-- A round whose node fails pauses a step that is not compound and whose condition holds, with the
output of the node stored. -/
theorem handleStep_paused {output err err' : Str}
    (h : c.handleStep (fun _ _ _ => (output, some err)) i input s = .paused s' err') :
    (c.wf.step i).compoundKind = none ∧
      evaluateCondition c.world s.engine (c.wf.step i).condition input = .ok true ∧
      s' = ⟨s.engine.setStepOutput i (c.wf.step i).name output, input⟩ := by
  simp only [handleStep] at h
  split at h
  · simp only [handleCompoundStep] at h
    split at h <;> cases h
  · rename_i hkind
    split at h
    · cases h
    · cases h
    · rename_i hcondition
      refine ⟨hkind, hcondition, ?_⟩
      simp only [executeRegularStep, handleStepFailure] at h
      split at h
      · cases h
      · split at h
        · cases h
        · split at h
          · cases h
          · rename_i habort
            rw [applyErrorRecovery_output habort] at h
            split at h
            · cases h
              rfl
            · cases h

end SeqConfig

/-! ## After a pause -/

/-- No template of step `i` refers to its own output. -/
def SelfFree (wf : WorkflowDef) (i : ℕ) : Prop :=
  ∀ ref ∈ stepRefs (wf.step i), ∀ key ∈ refKeys ref, ¬ Writes wf i key

theorem SelfFree.agreeOn (h : SelfFree wf i) (hi : i < wf.steps.length)
    (e : ExpressionEngine) (output : Str) :
    ExpressionEngine.AgreeOn (stepRefs (wf.step i))
      (e.setStepOutput i (wf.step i).name output) e :=
  .of_keys rfl rfl fun ref href key hkey => by
    rw [EngineHolds.getElem?_setStepOutput hi, if_neg (h ref href key hkey)]

/-- What a process finds in `s` that goes on at step `i` after a pause, where the undisturbed run
has `u`: the data is already the input of the step, and the output of its failed node is stored. -/
structure AfterPause (c : SeqConfig) (i : ℕ) (u s : SeqState) : Prop where
  lt : i < c.wf.steps.length
  plain : (c.wf.step i).compoundKind = none
  passes : evaluateCondition c.world u.engine (c.wf.step i).condition s.data = .ok true
  input : c.stepInput i u = .ok s.data
  again : c.stepInput i ⟨u.engine, s.data⟩ = .ok s.data
  engine : ∃ output, s.engine = u.engine.setStepOutput i (c.wf.step i).name output
  selfFree : SelfFree c.wf i

namespace AfterPause

variable {c : SeqConfig} {i : ℕ} {u s : SeqState} (h : AfterPause c i u s)

include h

theorem agreeOn : ExpressionEngine.AgreeOn (stepRefs (c.wf.step i)) s.engine u.engine := by
  obtain ⟨output, hengine⟩ := h.engine
  rw [hengine]
  exact h.selfFree.agreeOn h.lt u.engine output

theorem setStepOutput (output : Str) :
    s.engine.setStepOutput i (c.wf.step i).name output =
      u.engine.setStepOutput i (c.wf.step i).name output := by
  obtain ⟨failed, hengine⟩ := h.engine
  rw [hengine, ExpressionEngine.setStepOutput_setStepOutput]

theorem stepInput : c.stepInput i s = .ok s.data := by
  have hagree : resolveStepInput c.world s.engine (c.wf.step i).input s.data =
      resolveStepInput c.world u.engine (c.wf.step i).input s.data :=
    resolveStepInput_congr (h.agreeOn.mono (by simp [stepRefs]))
  have hagain := h.again
  simp only [SeqConfig.stepInput, hagree] at hagain ⊢
  exact hagain

/-- The step that paused is handled as the undisturbed run handles it. -/
theorem handleStep (run : NodeRun) : c.handleStep run i s.data s = c.handleStep run i s.data u := by
  have hcondition : evaluateCondition c.world s.engine (c.wf.step i).condition s.data =
      evaluateCondition c.world u.engine (c.wf.step i).condition s.data :=
    evaluateCondition_congr (h.agreeOn.mono (by simp [stepRefs]))
  have hparams : s.engine.evaluateParams c.world (c.wf.step i).params s.data =
      u.engine.evaluateParams c.world (c.wf.step i).params s.data := by
    apply ExpressionEngine.evaluateParams_congr
    apply h.agreeOn.mono
    intro ref href
    simp [stepRefs, WorkflowStep.isCompound_eq_false h.plain, href]
  have hrecovery (output err : Str) :
      applyErrorRecovery c.world (c.wf.step i) output err s.engine s.data =
        applyErrorRecovery c.world (c.wf.step i) output err u.engine s.data :=
    applyErrorRecovery_congr (h.agreeOn.mono (subset_append_right _ _))
  simp only [SeqConfig.handleStep, h.plain, hcondition, h.passes, SeqConfig.executeRegularStep,
    hparams, hrecovery, h.setStepOutput]

theorem nextState : c.nextState i s = c.nextState i u := by
  simp only [SeqConfig.nextState, h.stepInput, h.input, h.handleStep]

theorem executeFrom : c.executeFrom i s = c.executeFrom i u := by
  apply SeqConfig.executeFrom_congr h.lt (h.stepInput.trans h.input.symm)
  intro input hinput
  obtain rfl := Except.ok.inj (h.input.symm.trans hinput)
  exact h.handleStep _

omit h

end AfterPause

/-! ## Safe runs -/

/-- A crash leaves whole records of the log, or is the last thing that ends a process. -/
def Proc.SafeCrash (p : Proc) (kept : ℕ) (rest : List SeqAction) : Prop :=
  match p.store with
  | .json _ => True
  | .wal m => (∃ rs k, m.wal.Holds rs ∧ kept = (walFrames (rs.take k)).length) ∨ ∀ a ∈ rest, a.Quiet

namespace SeqConfig

variable (c : SeqConfig)

/-- A step that its condition skips has its output stored as if under its name. -/
def SafeStep (p : Proc) : Prop :=
  (c.wf.step p.idx).compoundKind = none → ∀ input, c.stepInput p.idx p.state = .ok input →
    evaluateCondition c.world p.state.engine (c.wf.step p.idx).condition input = .ok false →
      storedName (c.wf.step p.idx).node = storedName (c.wf.step p.idx).name

/-- What is written holds valid UTF-8; a log moreover takes it, and can be read with it. -/
def SafeSave (store : Store) (stepIndex : ℤ) (s : SeqState) (write : Write) : Prop :=
  match store with
  | .json _ =>
    write.fault = none → (saveCurrentState c.wf stepIndex s.data s.engine write.now).Clean
  | .wal m =>
    write.fault = none ∧ (saveCurrentState c.wf stepIndex s.data s.engine write.now).Clean ∧
      FitsCap m ⟨stepIndex, s.data, s.engine, write.now, write.fault⟩

/-- A pause that is saved to a checkpoint file: the step does not refer to itself, and its override
makes of its input that input again. -/
def SafePause (p : Proc) (output : Str) (write : Write) : Prop :=
  match p.store with
  | .wal _ => True
  | .json _ => p.idx = 0 ∨ SelfFree c.wf p.idx ∧ ∀ input, c.stepInput p.idx p.state = .ok input →
      c.stepInput p.idx ⟨p.state.engine, input⟩ = .ok input ∧
        c.SafeSave p.store (p.idx - 1)
          ⟨p.state.engine.setStepOutput p.idx (c.wf.step p.idx).name output, input⟩ write

/-- What an action must meet, given those that come after it. -/
def SafeAction (p : Proc) (rest : List SeqAction) : SeqAction → Prop
  | .step => c.SafeStep p
  | .save write => ∀ i ∈ p.unsaved, c.SafeSave p.store i p.state write
  | .pause output _ write => c.SafePause p output write
  | .crash kept => p.SafeCrash kept rest

/-- All actions of a run meet what they must. -/
def SafeRun : Proc → List SeqAction → Prop
  | _, [] => True
  | p, a :: rest => c.SafeAction p rest a ∧ ∀ p' ∈ c.procStep p a, SafeRun p' rest

end SeqConfig

/-! ## What a process finds -/

/-- The state of a process at step `i` is that of the undisturbed run, or follows a pause. -/
structure Sound (c : SeqConfig) (i : ℕ) (s : SeqState) : Prop where
  le : i ≤ c.wf.steps.length
  engine : ∃ out D, (∀ j ∈ D, j < c.wf.steps.length) ∧ EngineHolds c.wf out D s.engine
  tracks : ∃ u, c.stateAt i = some u ∧ (s = u ∨ AfterPause c i u s)

/-- The state was saved where a process was sound, and nothing of it is lost. -/
structure SavedFrom (c : SeqConfig) (state : WorkflowState) (i : ℕ) (s : SeqState) : Prop where
  sound : Sound c i s
  index : state.stepIndex + 1 = i
  data : state.data = s.data
  outputs : state.stepOutputs = some (saveStepOutputs s.engine.stepOutputs)
  vars : state.vars = some s.engine.vars

namespace Sound

variable {c : SeqConfig} {i : ℕ} {s s' : SeqState}

theorem initial (c : SeqConfig) : Sound c 0 c.initial where
  le := Nat.zero_le _
  engine := ⟨fun _ => [], ∅, by simp, by rw [initial_engine]; exact EngineHolds.new _ _⟩
  tracks := ⟨_, rfl, .inl rfl⟩

theorem executeFrom (h : Sound c i s) : c.executeFrom i s = (c.executeFrom 0 c.initial).drop i := by
  obtain ⟨u, hu, rfl | hpause⟩ := h.tracks
  · exact SeqConfig.executeFrom_stateAt h.le hu
  · rw [hpause.executeFrom]
    exact SeqConfig.executeFrom_stateAt h.le hu

theorem nextState (h : Sound c i s) (hnext : c.nextState i s = some s') :
    c.stateAt (i + 1) = some s' := by
  obtain ⟨u, hu, rfl | hpause⟩ := h.tracks
  · rw [SeqConfig.stateAt, hu]
    exact hnext
  · rw [SeqConfig.stateAt, hu]
    exact hpause.nextState.symm.trans hnext

theorem engine_setStepOutput (h : Sound c i s) (hi : i < c.wf.steps.length) (output : Str) :
    ∃ out D, (∀ j ∈ D, j < c.wf.steps.length) ∧
      EngineHolds c.wf out D (s.engine.setStepOutput i (c.wf.step i).name output) := by
  obtain ⟨out, D, hD, hholds⟩ := h.engine
  refine ⟨_, _, ?_, hholds.update hi output⟩
  intro j hj
  rcases mem_insert.mp hj with rfl | hj
  · exact hi
  · exact hD j hj

end Sound

namespace SavedFrom

variable {c : SeqConfig} {state : WorkflowState} {i : ℕ} {s : SeqState}

theorem resume (hnames : DistinctNames c.wf) (h : SavedFrom c state i s) (store : Store) :
    c.resume state store = ⟨i, s, store, none⟩ := by
  obtain ⟨out, D, hD, hholds⟩ := h.sound.engine
  have hclamp : clampStep (state.stepIndex + 1) c.wf.steps.length = i := by
    have hle := h.sound.le
    rw [h.index, clampStep, if_neg (by omega), if_neg (by omega)]
    rfl
  have hrestore := restoreState_saved hnames hholds hD
    (show state.stepOutputs.getD ∅ = _ by rw [h.outputs]; rfl)
    (show state.vars.getD ∅ = _ by rw [h.vars]; rfl)
  rw [SeqConfig.resume, hclamp, hrestore, h.data]

theorem saveCurrentState (hsound : Sound c i s) {k : ℤ} (hk : k + 1 = i) (now : Time) :
    SavedFrom c (saveCurrentState c.wf k s.data s.engine now) i s :=
  ⟨hsound, hk, rfl, rfl, rfl⟩

theorem clean (h : SavedFrom c state i s) (hclean : state.Clean) : SavedFrom c state.clean i s := by
  obtain ⟨hdata, houts, hvars⟩ := hclean
  rw [h.outputs] at houts
  rw [h.vars] at hvars
  refine ⟨h.sound, h.index, ?_, ?_, ?_⟩
  · exact hdata.coerce_eq.trans h.data
  · rw [WorkflowState.clean, h.outputs]
    exact congrArg some houts.cleanIntMap_eq
  · rw [WorkflowState.clean, h.vars]
    exact congrArg some hvars.cleanStringMap_eq

end SavedFrom

/-! ## What is persistent -/

/-- Recovery finds nothing, or a state that a process can go on from. -/
def Resumable (latest : Option WorkflowState) : Prop :=
  ∀ state ∈ latest, ∃ i s, SavedFrom c state i s

/-- Every front of the records recovers. -/
def Chronicle (rs : List WALRecord) : Prop :=
  ∀ front, front <+: rs →
    ∃ latest, loadRecords (front.map WALRecord.clean) = some latest ∧ Resumable c latest

/-- The engine has all that the state has. -/
structure Extends (e : ExpressionEngine) (state : WorkflowState) : Prop where
  outputs : ∀ k : ℤ, e.stepOutputs[idxKey k]? = none → state.logged.outputs[k]? = none
  vars : state.logged.vars = e.vars

/-- The log recovers wherever it is cut off, and the manager remembers what it recovers to. -/
structure WalSound (c : SeqConfig) (e : ExpressionEngine) (m : WALStateManager) : Prop where
  wf : m.wf = c.wf
  records : ∃ rs, m.wal.Holds rs ∧ Chronicle c rs ∧ ∀ p ∈ m.persisted, Extends e p ∧
    ∃ s, loadRecords (rs.map WALRecord.clean) = some (some s) ∧
      s.stepOutputs = some p.logged.outputs ∧ s.vars = some p.logged.vars

/-- What is persistent recovers. -/
def StoreSound (e : ExpressionEngine) : Store → Prop
  | .json file => ∀ state, loadCheckpoint file = .ok state → ∃ i s, SavedFrom c state i s
  | .wal m => WalSound c e m

/-- What is on disk recovers. -/
def DiskSound : Disk → Prop
  | .json file => ∀ state, loadCheckpoint file = .ok state → ∃ i s, SavedFrom c state i s
  | .wal _ file => ∃ rs, file = walFrames rs ∧
      (∀ r ∈ rs, r.marshal.length ≤ walMaxRecordSize) ∧ Chronicle c rs

theorem Extends.setStepOutput (h : Extends e state)
    (i : ℤ) (name output : Str) : Extends (e.setStepOutput i name output) state where
  outputs := by
    intro k hk
    rw [ExpressionEngine.getElem?_setStepOutput_idx] at hk
    split at hk
    · cases hk
    · exact h.outputs k hk
  vars := h.vars

variable {s : SeqState}

theorem SavedFrom.extends {c : SeqConfig} (h : SavedFrom c state i s) : Extends s.engine state where
  outputs := by
    intro k hk
    obtain ⟨out, D, -, hholds⟩ := h.sound.engine
    rw [WorkflowState.logged, h.outputs]
    exact (getElem?_saveStepOutputs hholds.wellKeyed k).trans hk
  vars := by
    rw [WorkflowState.logged, h.vars]
    rfl

theorem Extends.bridges {state cur : WorkflowState} (h : Extends e state)
    (hcur : Extends e cur) (hkeys : ∀ k : ℤ, cur.logged.outputs[k]? = e.stepOutputs[idxKey k]?) :
    Bridges state.logged.outputs state.logged.outputs cur.logged.outputs ∧
      Bridges state.logged.vars state.logged.vars cur.logged.vars := by
  constructor
  · intro k
    refine ⟨fun hnone => h.outputs k ?_, id⟩
    rw [← hkeys k]
    exact hnone
  · intro k
    rw [h.vars, hcur.vars]
    exact ⟨id, id⟩

/-! ## What an action keeps -/

variable {write : Write} {store : Store}

section Actions

variable {c : SeqConfig} {p p' : Proc}

/-- A sound process with sound persistent state. -/
structure ProcSound (c : SeqConfig) (p : Proc) : Prop where
  sound : Sound c p.idx p.state
  store : StoreSound c p.state.engine p.store
  unsaved : ∀ i ∈ p.unsaved, p.idx = i + 1

/-- A safe save to a log. -/
theorem WalSound.save {m : WALStateManager} (h : WalSound c s.engine m) (hsound : Sound c (i + 1) s)
    (hsafe : c.SafeSave (.wal m) i s write) :
    StoreSound c s.engine (c.saveCP (.wal m) i s write) := by
  obtain ⟨rs, hrs, hchronicle, hpersisted⟩ := h.records
  obtain ⟨hfault, hclean, hfits⟩ := hsafe
  obtain ⟨latest, hlatest, hresumable⟩ := hchronicle rs prefix_rfl
  set call : SaveCall := ⟨i, s.data, s.engine, write.now, write.fault⟩
  have hstate : call.state m.wf = saveCurrentState c.wf i s.data s.engine write.now := by
    rw [SaveCall.state, h.wf]
  have hsaved : SavedFrom c (call.state m.wf) (i + 1) s := by
    rw [hstate]
    exact .saveCurrentState hsound rfl _
  -- the log holds what the manager remembers, so that the difference restores the state
  obtain ⟨logged, hmaps, hlogged⟩ : ∃ logged, HoldsMaps logged latest ∧
      ∀ q ∈ m.persisted, logged = q.logged := by
    cases latest with
    | none =>
      refine ⟨⟨∅, ∅⟩, rfl, fun q hq => ?_⟩
      obtain ⟨-, t, ht, -⟩ := hpersisted q hq
      cases hlatest.symm.trans ht
    | some t =>
      obtain ⟨j, t', ht'⟩ := hresumable t rfl
      refine ⟨t.logged, ⟨by rw [WorkflowState.logged, ht'.outputs]; rfl,
        by rw [WorkflowState.logged, ht'.vars]; rfl⟩, fun q hq => ?_⟩
      obtain ⟨-, t₂, ht₂, houts, hvars⟩ := hpersisted q hq
      obtain rfl : t = t₂ := Option.some.inj (Option.some.inj (hlatest.symm.trans ht₂))
      rw [WorkflowState.logged, houts, hvars]
      rfl
  have hrestores : Restores logged m call := by
    intro q hq
    obtain ⟨hextends, -⟩ := hpersisted q hq
    rw [hlogged q hq]
    obtain ⟨out, D, -, hholds⟩ := hsound.engine
    exact hextends.bridges hsaved.extends (getElem?_saveStepOutputs hholds.wellKeyed)
  obtain ⟨w, rs', hsave, hholds, hloads, hfronts⟩ :=
    save_loads hrs hlatest hmaps hfault (by rw [hstate]; exact hclean) hfits hrestores
  have hstore : c.saveCP (.wal m) i s write = .wal ⟨w, m.wf, some (call.state m.wf)⟩ := by
    simp only [SeqConfig.saveCP]
    rw [show m.save ⟨i, s.data, s.engine, write.now, write.fault⟩ = _ from hsave]
  rw [hstore]
  obtain ⟨t, ht, hdata, hindex, houts, hvars⟩ := hloads
  refine ⟨h.wf, rs', hholds, ?_, ?_⟩
  · intro front hfront
    rcases hfronts front hfront with hold | rfl
    · exact hchronicle front hold
    · refine ⟨some t, ht, fun t' ht' => ?_⟩
      cases ht'
      refine ⟨i + 1, s, hsound, ?_, hdata, houts, hvars⟩
      rw [hindex]
      exact hsaved.index
  · intro q hq
    cases hq
    exact ⟨hsaved.extends, t, ht, houts, hvars⟩

theorem StoreSound.saveJson {file : Option Str} (h : StoreSound c e (.json file)) {k : ℤ}
    (hsound : Sound c i s) (hk : k + 1 = i) (hsafe : c.SafeSave (.json file) k s write) :
    StoreSound c e (c.saveCP (.json file) k s write) := by
  simp only [SeqConfig.saveCP]
  cases hfault : write.fault with
  | some fault => exact h
  | none =>
    intro state hload
    rw [loadCheckpoint_marshalIndent] at hload
    split at hload
    · cases hload
    · cases hload
      exact ⟨i, s, (SavedFrom.saveCurrentState hsound hk _).clean (hsafe hfault)⟩

theorem StoreSound.save (h : StoreSound c s.engine store) (hsound : Sound c (i + 1) s)
    (hsafe : c.SafeSave store i s write) : StoreSound c s.engine (c.saveCP store i s write) := by
  cases store with
  | wal m => exact WalSound.save h hsound hsafe
  | json file => exact h.saveJson hsound rfl hsafe

/-- A process that is started on a log goes on from what recovery finds there. -/
theorem exists_sound_of_load (hnames : DistinctNames c.wf) {opts : WALOptions} {file : Str}
    {latest : Option WorkflowState} (hload : loadStateWAL file = some latest)
    (hlatest : Resumable c latest) (hstart : c.initResumeState (.wal opts file) = some p) :
    ∃ i s, Sound c i s ∧ (∀ state ∈ latest, SavedFrom c state i s) ∧
      p = ⟨i, s, .wal (newWALStateManager (newWAL opts file) c.wf latest), none⟩ := by
  cases latest with
  | none =>
    simp only [SeqConfig.initResumeState, hload, Option.some.injEq] at hstart
    exact ⟨0, c.initial, Sound.initial c, by simp, hstart.symm⟩
  | some state =>
    obtain ⟨i, s, hsaved⟩ := hlatest state rfl
    simp only [SeqConfig.initResumeState, hload, hsaved.resume hnames, Option.some.injEq] at hstart
    refine ⟨i, s, hsaved.sound, ?_, hstart.symm⟩
    intro state' hstate'
    cases hstate'
    exact hsaved

/-- A process that is started on sound persistent state is sound. -/
theorem ProcSound.start (hnames : DistinctNames c.wf) {disk : Disk} (h : DiskSound c disk)
    (hstart : c.initResumeState disk = some p) : ProcSound c p := by
  cases disk with
  | json file =>
    simp only [SeqConfig.initResumeState] at hstart
    cases hload : loadCheckpoint file with
    | error err =>
      rw [hload] at hstart
      cases hstart
      exact ⟨Sound.initial c, h, by simp [SeqConfig.fresh]⟩
    | ok state =>
      obtain ⟨i, s, hsaved⟩ := h state hload
      simp only [hload, hsaved.resume hnames] at hstart
      cases hstart
      exact ⟨hsaved.sound, h, by simp⟩
  | wal opts file =>
    obtain ⟨rs, rfl, hfits, hchronicle⟩ := h
    obtain ⟨latest, hlatest, hresumable⟩ := hchronicle rs prefix_rfl
    have hload : loadStateWAL (walFrames rs) = some latest := by
      rw [loadStateWAL, replayWAL_walFrames hfits]
      exact hlatest
    obtain ⟨i, s, hsound, hsaved, rfl⟩ := exists_sound_of_load hnames hload hresumable hstart
    have hholds : (newWAL opts (walFrames rs)).Holds rs := ⟨by simp [WAL.log, newWAL], hfits⟩
    refine ⟨hsound, ⟨rfl, rs, hholds, hchronicle, ?_⟩, by simp⟩
    intro q (hq : latest = some q)
    have hfrom := hsaved q hq
    refine ⟨hfrom.extends, q, ?_, ?_, ?_⟩
    · rw [hlatest, hq]
    · rw [WorkflowState.logged, hfrom.outputs]
      rfl
    · rw [WorkflowState.logged, hfrom.vars]
      rfl

theorem procStep_step_eq_some (h : c.procStep p .step = some p') :
    p.idx < c.wf.steps.length ∧ ∃ input s saved, c.stepInput p.idx p.state = .ok input ∧
      c.handleStep c.world.executeStep p.idx input p.state = .next s saved ∧
      p' =
        { p with idx := p.idx + 1, state := s, unsaved := if saved then some p.idx else none } := by
  grind [SeqConfig.procStep]

theorem exists_setStepOutput (hsafe : c.SafeStep p) (hinput : c.stepInput p.idx p.state = .ok input)
    (hhandle : c.handleStep c.world.executeStep p.idx input p.state = .next s saved) :
    ∃ output, s.engine = p.state.engine.setStepOutput p.idx (c.wf.step p.idx).name output := by
  rcases SeqConfig.handleStep_next hhandle with ⟨-, hstored⟩ | ⟨-, hkind, hcondition, rfl⟩
  · exact hstored
  · exact ⟨[], setStepOutput_of_storedName (hsafe hkind input hinput hcondition)⟩

theorem Sound.procStep (h : Sound c p.idx p.state) (hsafe : c.SafeStep p)
    (hstep : c.procStep p .step = some p') : Sound c p'.idx p'.state := by
  obtain ⟨hlt, input, s, saved, hinput, hhandle, rfl⟩ := procStep_step_eq_some hstep
  refine ⟨hlt, ?_, s, ?_, .inl rfl⟩
  · obtain ⟨output, hengine⟩ := exists_setStepOutput hsafe hinput hhandle
    obtain ⟨out, D, hD, hholds⟩ := h.engine_setStepOutput hlt output
    refine ⟨out, D, hD, ?_⟩
    rw [← hengine] at hholds
    exact hholds
  · exact h.nextState (SeqConfig.nextState_eq_some_iff.mpr ⟨input, hinput, saved, hhandle⟩)

/-- A step of a process keeps what it has saved sound. -/
theorem ProcSound.step (h : ProcSound c p) (hsafe : c.SafeStep p)
    (hstep : c.procStep p .step = some p') : ProcSound c p' := by
  refine ⟨h.sound.procStep hsafe hstep, ?_, ?_⟩
  · obtain ⟨hlt, input, s, saved, hinput, hhandle, rfl⟩ := procStep_step_eq_some hstep
    obtain ⟨output, hengine⟩ := exists_setStepOutput hsafe hinput hhandle
    have hstore := h.store
    show StoreSound c s.engine p.store
    cases hkind : p.store with
    | json file =>
      rw [hkind] at hstore
      exact hstore
    | wal m =>
      rw [hkind] at hstore
      obtain ⟨rs, hrs, hchronicle, hpersisted⟩ := hstore.records
      refine ⟨hstore.wf, rs, hrs, hchronicle, fun q hq => ?_⟩
      obtain ⟨hextends, hloaded⟩ := hpersisted q hq
      rw [hengine]
      exact ⟨hextends.setStepOutput _ _ _, hloaded⟩
  · obtain ⟨hlt, input, s, saved, hinput, hhandle, rfl⟩ := procStep_step_eq_some hstep
    intro i hi
    cases saved with
    | false => cases hi
    | true =>
      cases hi
      rfl

theorem ProcSound.save (h : ProcSound c p)
    (hsafe : ∀ i ∈ p.unsaved, c.SafeSave p.store i p.state write)
    (hstep : c.procStep p (.save write) = some p') : ProcSound c p' := by
  simp only [SeqConfig.procStep] at hstep
  split at hstep
  · cases hstep
  · rename_i i hi
    cases hstep
    have hidx := h.unsaved i hi
    have hsound := h.sound
    refine ⟨hsound, ?_, by simp⟩
    rw [hidx] at hsound
    exact h.store.save hsound (hsafe i hi)

/-- What is left on disk by a pause. -/
theorem ProcSound.pausedDisk (h : ProcSound c p) {output err err' : Str}
    (hsafe : c.SafePause p output write) (hlt : p.idx < c.wf.steps.length)
    (hinput : c.stepInput p.idx p.state = .ok input)
    (hhandle : c.handleStep (fun _ _ _ => (output, some err)) p.idx input p.state =
      .paused s err') : DiskSound c (c.pausedDisk p.store p.idx s write) := by
  have hstore := h.store
  cases hkind : p.store with
  | wal m =>
    rw [hkind] at hstore
    obtain ⟨rs, hrs, hchronicle, -⟩ := hstore.records
    exact ⟨rs, hrs.log_eq, hrs.fits, hchronicle⟩
  | json file =>
    rw [hkind] at hstore
    simp only [SeqConfig.SafePause, hkind] at hsafe
    simp only [SeqConfig.pausedDisk]
    split
    · exact hstore
    · rename_i hpos
      obtain ⟨hself, hagain⟩ := hsafe.resolve_left hpos
      obtain ⟨hagain, hsave⟩ := hagain input hinput
      obtain ⟨hplain, hpasses, rfl⟩ := SeqConfig.handleStep_paused hhandle
      -- the process that goes on finds the state of the undisturbed run, as it is after a pause
      have hsound : Sound c p.idx
          ⟨p.state.engine.setStepOutput p.idx (c.wf.step p.idx).name output, input⟩ := by
        refine ⟨h.sound.le, h.sound.engine_setStepOutput hlt output, ?_⟩
        obtain ⟨u, hu, rfl | hpause⟩ := h.sound.tracks
        · exact ⟨_, hu, .inr ⟨hlt, hplain, hpasses, hinput, hagain, ⟨output, rfl⟩, hself⟩⟩
        · obtain rfl : p.state.data = input := Except.ok.inj (hpause.stepInput.symm.trans hinput)
          exact ⟨u, hu, .inr ⟨hlt, hplain, hpause.passes, hpause.input, hpause.again,
            ⟨output, hpause.setStepOutput output⟩, hself⟩⟩
      have hstored := StoreSound.saveJson hstore hsound (k := (p.idx : ℤ) - 1) (by omega) hsave
      obtain ⟨file', hfile'⟩ := c.exists_saveCP_json file ((p.idx : ℤ) - 1)
        ⟨p.state.engine.setStepOutput p.idx (c.wf.step p.idx).name output, input⟩ write
      rw [hfile'] at hstored ⊢
      exact hstored

/-- What is left on disk by a crash that leaves whole records. -/
theorem StoreSound.crashed (h : StoreSound c e store)
    {kept : ℕ} (hwhole : ∀ m, store = .wal m →
      ∃ rs k, m.wal.Holds rs ∧ kept = (walFrames (rs.take k)).length) :
    DiskSound c (store.crashed kept) := by
  cases store with
  | json file => exact h
  | wal m =>
    obtain ⟨rs, hrs, hchronicle, -⟩ := h.records
    obtain ⟨rs', k, hrs', rfl⟩ := hwhole m rfl
    have hkept : m.wal.log.take (walFrames (rs'.take k)).length = walFrames (rs'.take k) := by
      rw [hrs'.log_eq]
      nth_rewrite 2 [← take_append_drop k rs']
      rw [walFrames_append, take_left]
    -- both lists of records are read from the same bytes
    have hsame : rs'.map WALRecord.clean = rs.map WALRecord.clean := by
      rw [← hrs'.replay_file, ← hrs.replay_file]
    refine ⟨rs'.take k, hkept, fun r hr => hrs'.fits r (mem_of_mem_take hr), ?_⟩
    intro front hfront
    obtain ⟨latest, hlatest, hresumable⟩ := hchronicle (rs.take front.length) <| take_prefix _ _
    refine ⟨latest, ?_, hresumable⟩
    have hfront' : front = rs'.take front.length :=
      prefix_iff_eq_take.mp <| hfront.trans <| take_prefix _ _
    rw [hfront', map_take, hsame, ← map_take]
    exact hlatest

/-- After a crash a process is sound, also if a record of the log is torn. -/
theorem StoreSound.sound_crash (hnames : DistinctNames c.wf) (h : StoreSound c e store) {kept : ℕ}
    (hstart : c.initResumeState (store.crashed kept) = some p) : Sound c p.idx p.state := by
  cases store with
  | json file => exact (ProcSound.start hnames (show DiskSound c (.json file) from h) hstart).sound
  | wal m =>
    obtain ⟨rs, hrs, hchronicle, -⟩ := h.records
    obtain ⟨k, hreplay⟩ := replayWAL_take hrs.fits kept
    obtain ⟨latest, hlatest, hresumable⟩ := hchronicle (rs.take k) <| take_prefix _ _
    have hload : loadStateWAL (m.wal.log.take kept) = some latest := by
      rw [loadStateWAL, hrs.log_eq, hreplay]
      exact hlatest
    obtain ⟨i, s, hsound, -, rfl⟩ := exists_sound_of_load hnames hload hresumable hstart
    exact hsound

theorem ProcSound.pause (hnames : DistinctNames c.wf) (h : ProcSound c p) {output err : Str}
    (hsafe : c.SafePause p output write)
    (hstep : c.procStep p (.pause output err write) = some p') : ProcSound c p' := by
  simp only [SeqConfig.procStep] at hstep
  split at hstep
  · rename_i hnext
    split at hstep
    · cases hstep
    · rename_i input hinput
      split at hstep
      · rename_i s err' hhandle
        exact .start hnames (h.pausedDisk hsafe hnext.2 hinput hhandle) hstep
      · cases hstep
  · cases hstep

/-! ## Safe runs are undisturbed -/

/-- Without a further end of a process, its state stays sound whatever happens to its store. -/
theorem Sound.quiet_run {actions : List SeqAction} (h : Sound c p.idx p.state)
    (hquiet : ∀ a ∈ actions, a.Quiet) (hsafe : c.SafeRun p actions)
    (hrun : Runs.run c.procStep p actions = some p') : Sound c p'.idx p'.state := by
  induction actions generalizing p with
  | nil =>
    cases hrun
    exact h
  | cons a actions ih =>
    obtain ⟨q, hq, hrun⟩ := Runs.run_cons.mp hrun
    obtain ⟨haction, hrest⟩ := hsafe
    refine ih ?_ (forall_mem_of_forall_mem_cons hquiet) (hrest q hq) hrun
    cases a with
    | step => exact h.procStep haction hq
    | save write =>
      simp only [SeqConfig.procStep] at hq
      split at hq
      · cases hq
      · cases hq
        exact h
    | pause output err write | crash kept => exact (hquiet _ mem_cons_self).elim

/-- A run of a process ends in a sound state. -/
theorem ProcSound.run (hnames : DistinctNames c.wf) {actions : List SeqAction}
    (h : ProcSound c p) (hsafe : c.SafeRun p actions)
    (hrun : Runs.run c.procStep p actions = some p') : Sound c p'.idx p'.state := by
  induction actions generalizing p with
  | nil =>
    cases hrun
    exact h.sound
  | cons a actions ih =>
    obtain ⟨q, hq, hrun'⟩ := Runs.run_cons.mp hrun
    obtain ⟨haction, hrest⟩ := hsafe
    have hsafe' := hrest q hq
    cases a with
    | step => exact ih (h.step haction hq) hsafe' hrun'
    | save write => exact ih (h.save haction hq) hsafe' hrun'
    | pause output err write => exact ih (h.pause hnames haction hq) hsafe' hrun'
    | crash kept =>
      by_cases hwhole : ∀ m, p.store = .wal m →
          ∃ rs k, m.wal.Holds rs ∧ kept = (walFrames (rs.take k)).length
      · exact ih (.start hnames (h.store.crashed hwhole) hq) hsafe' hrun'
      · -- the log is torn, and this was the last crash
        obtain ⟨m, hm, hnot⟩ := not_forall₂.mp hwhole
        have haction : p.SafeCrash kept actions := haction
        simp only [Proc.SafeCrash, hm] at haction
        exact (h.store.sound_crash hnames hq).quiet_run (haction.resolve_left hnot) hsafe' hrun'

end Actions

/-- Nothing is persistent yet. -/
def Disk.Empty : Disk → Prop
  | .json file => file = none
  | .wal _ file => file = []

theorem DiskSound.of_empty {c : SeqConfig} {disk : Disk} (h : disk.Empty) : DiskSound c disk := by
  cases disk with
  | json file =>
    obtain rfl : file = none := h
    intro state hload
    cases hload
  | wal opts file =>
    refine ⟨[], h, by simp, ?_⟩
    intro front hfront
    obtain rfl := prefix_nil.mp hfront
    exact ⟨none, rfl, by simp [Resumable]⟩

/-- In a safe run, after any number of crashes and pauses, the process goes on from where it is as
the undisturbed run does: every step that is left gets the same input and leaves the same outputs
and variables, and the result is the same. -/
theorem resumed_execution_eq {c : SeqConfig} (hnames : DistinctNames c.wf) {disk : Disk}
    (hempty : disk.Empty) {p₀ p : Proc} {actions : List SeqAction}
    (hstart : c.initResumeState disk = some p₀) (hsafe : c.SafeRun p₀ actions)
    (hrun : Runs.run c.procStep p₀ actions = some p) :
    c.executeFrom p.idx p.state = (c.executeFrom 0 c.initial).drop p.idx ∧
      ∃ u, c.stateAt p.idx = some u ∧ (p.state = u ∨ AfterPause c p.idx u p.state) := by
  have hsound := (ProcSound.start hnames (.of_empty hempty) hstart).run hnames hsafe hrun
  exact ⟨hsound.executeFrom, hsound.tracks⟩

/-! ## Samples -/

/-- A run of the given steps, none of them compound. -/
def seqSample (steps : List WorkflowStep) : SeqConfig where
  world := nodeWorld
  wf := ⟨str "w", ∅, steps, []⟩
  initialData := str "x"
  compound _ _ _ _ := .error []

/-- A write at a fixed time that succeeds. -/
def sampleWrite : Write := ⟨Time.zero, none⟩

def namedSteps : SeqConfig :=
  seqSample [{ node := str "echo", name := str "a" }, { node := str "echo", name := str "b" }]

/-- The state of `namedSteps` after its first step. -/
def namedState : SeqState :=
  ⟨namedSteps.initial.engine.setStepOutput 0 (str "a") (str "x"), str "x"⟩

private theorem step_namedSteps : namedSteps.procStep (namedSteps.fresh (.json none)) .step =
    some ⟨1, namedState, .json none, some 0⟩ := by
  rfl

private theorem safeRun_namedSteps :
    namedSteps.SafeRun (namedSteps.fresh (.json none)) [.step, .save sampleWrite, .crash 0] := by
  refine ⟨?_, fun p hp => ?_⟩
  · -- the first step has no condition
    intro _ input _ hcondition
    cases hcondition
  · obtain rfl := Option.some.inj (step_namedSteps.symm.trans hp)
    refine ⟨?_, fun p hp => ?_⟩
    · intro i hi _
      cases hi
      exact .of_coerced (by decide) (by decide) (by decide)
    · cases hp
      exact ⟨trivial, fun _ _ => trivial⟩

/-- After a crash between two steps the second one is run as if nothing had happened. -/
theorem resumed_execution_eq_named :
    ∃ p, Runs.run namedSteps.procStep (namedSteps.fresh (.json none))
        [.step, .save sampleWrite, .crash 0] = some p ∧ p.idx = 1 ∧
      namedSteps.executeFrom p.idx p.state =
        (namedSteps.executeFrom 0 namedSteps.initial).drop p.idx := by
  have hnames : DistinctNames namedSteps.wf := by
    unfold DistinctNames
    decide
  have hempty : Disk.Empty (.json none) := rfl
  obtain ⟨p, hrun, hidx⟩ : ∃ p ∈ Runs.run namedSteps.procStep (namedSteps.fresh (.json none))
      [.step, .save sampleWrite, .crash 0], p.idx = 1 := by
    decide +kernel
  exact ⟨p, hrun, hidx, (resumed_execution_eq hnames hempty rfl safeRun_namedSteps hrun).1⟩

/-- A named step that is skipped, a step, and a step that refers to the skipped one. -/
def skippedStep : SeqConfig :=
  seqSample [{ node := str "echo", name := str "b", condition := str "false" },
    { node := str "echo" },
    { node := str "echo", input := some [str "\x7b\x7bstep.b\x7d\x7d"] }]

/-- A reference to a named step that was skipped fails in an undisturbed run, where the output is
stored under the name of the node, and is resolved after a crash. -/
theorem not_resumed_execution_eq_skipped :
    ¬ ∀ (c : SeqConfig) (disk : Disk) (p₀ p : Proc) (actions : List SeqAction),
      DistinctNames c.wf → disk.Empty → c.initResumeState disk = some p₀ →
        Runs.run c.procStep p₀ actions = some p →
          c.executeFrom p.idx p.state = (c.executeFrom 0 c.initial).drop p.idx := by
  intro h
  have hnames : DistinctNames skippedStep.wf := by
    unfold DistinctNames
    decide
  obtain ⟨p, hrun, hresult⟩ : ∃ p ∈ Runs.run skippedStep.procStep (skippedStep.fresh (.json none))
      [.step, .step, .save sampleWrite, .crash 0],
      (skippedStep.executeFrom p.idx p.state).result ≠
        ((skippedStep.executeFrom 0 skippedStep.initial).drop p.idx).result := by
    decide +kernel
  exact hresult (congrArg SeqConfig.Execution.result (h skippedStep (.json none) _ p _ hnames rfl
    rfl hrun))

end Workflow
