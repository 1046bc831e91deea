import Aflare.Workflow.WalRecovery

/-!
# The state manager of the log

`WALStateManager` appends one record for each saved state: a full snapshot first, then deltas
against the state it remembers. The remembered state is replaced before the append, whether or not
the append succeeds.
-/

namespace Workflow

open Go List

/-- The manager: the log, the workflow, and the state it remembers as the last one persisted. -/
structure WALStateManager where
  wal : WAL
  wf : WorkflowDef
  persisted : Option WorkflowState

def newWALStateManager (wal : WAL) (wf : WorkflowDef) (resumed : Option WorkflowState) :
    WALStateManager :=
  ⟨wal, wf, resumed⟩

def diffStepOutputs (prev cur : Option (GoMap ℤ Str)) : Option (GoMap ℤ Str) :=
  some (GoMap.diff (prev.getD ∅) (cur.getD ∅))

def diffVariables (prev cur : StringMap) : StringMap := some (GoMap.diff (prev.getD ∅) (cur.getD ∅))

/-- A call of `Save`. If its append fails without writing anything, `fault` is the error, and
whether the sequence number was rolled back. -/
structure SaveCall where
  stepIndex : ℤ
  data : Str
  engine : ExpressionEngine
  now : Time
  fault : Option (Str × Bool)

/-- The state that a call saves. -/
def SaveCall.state (c : SaveCall) (wf : WorkflowDef) : WorkflowState :=
  saveCurrentState wf c.stepIndex c.data c.engine c.now

/-- The step with a given index, if there is one. -/
def WorkflowDef.stepAt (wf : WorkflowDef) (i : ℤ) : Option WorkflowStep :=
  if 0 ≤ i then wf.steps[i.toNat]? else none

namespace WALStateManager

/-- The record of a call: a full snapshot when nothing is remembered, otherwise a delta against the
remembered state. -/
def record (m : WALStateManager) (c : SaveCall) : WALRecord :=
  let state := c.state m.wf
  { seq := 0
    stepIndex := state.stepIndex
    stepName := ((m.wf.stepAt c.stepIndex).map fun s => s.name).getD []
    nodeName := ((m.wf.stepAt c.stepIndex).map fun s => s.node).getD []
    data := state.data
    stepOutputs :=
      match m.persisted with
      | none => state.stepOutputs
      | some p => diffStepOutputs p.stepOutputs state.stepOutputs
    vars :=
      match m.persisted with
      | none => state.vars
      | some p => diffVariables p.vars state.vars
    timestamp := c.now
    isDelta := m.persisted.isSome }

/-- The append of a call, which may fail without writing. -/
def appendRecord (m : WALStateManager) (c : SaveCall) : WAL × Except Str Unit :=
  match c.fault with
  | some (e, rolledBack) =>
    (if rolledBack then m.wal else { m.wal with seq := m.wal.seq + 1 }, .error e)
  | none =>
    match m.wal.append (m.record c) c.now with
    | .error e => (m.wal, .error e)
    | .ok w => (w, .ok ())

/-- `Save`. The remembered state is replaced before the append. -/
def save (m : WALStateManager) (c : SaveCall) : WALStateManager × Except Str Unit :=
  let remembered := some (c.state m.wf)
  match m.appendRecord c with
  | (w, .error e) => (⟨w, m.wf, remembered⟩, .error e)
  | (w, .ok ()) =>
    match w.maybeCompact with
    | .error e => (⟨w, m.wf, remembered⟩, .error e)
    | .ok w' => (⟨w', m.wf, remembered⟩, .ok ())

end WALStateManager

/-! ## Faithful runs -/

/-- Recovery of the log gives the data, step index, step outputs and variables of `state`. -/
def Recovers (w : WAL) (state : WorkflowState) : Prop :=
  ∃ s, loadStateWAL w.flush.file = some (some s) ∧ s.data = state.data ∧
    s.stepIndex = state.stepIndex ∧ s.stepOutputs.getD ∅ = state.stepOutputs.getD ∅ ∧
    s.vars.getD ∅ = state.vars.getD ∅

/-- After every save that returns no error, recovery gives the saved state. -/
def Faithful : WALStateManager → List SaveCall → Prop
  | _, [] => True
  | m, c :: cs =>
    ((m.save c).2 = .ok () → Recovers (m.save c).1.wal (c.state m.wf)) ∧ Faithful (m.save c).1 cs

/-- The step outputs and variables that a log holds. -/
structure Logged where
  outputs : GoMap ℤ Str
  vars : GoMap Str Str

def WorkflowState.logged (s : WorkflowState) : Logged := ⟨s.stepOutputs.getD ∅, s.vars.getD ∅⟩

/-- The difference from `prev` to `cur` is enough to get from `base` to `cur`: `base` has no entry
that `cur` lacks, and where `prev` already agrees with `cur`, so does `base`. -/
def Bridges {K V : Type} [Ord K] [Std.TransOrd K] (base prev cur : GoMap K V) : Prop :=
  ∀ k : K, (cur[k]? = none → base[k]? = none) ∧ (prev[k]? = cur[k]? → base[k]? = cur[k]?)

/-- The texts of a state are valid UTF-8. -/
def WorkflowState.Clean (s : WorkflowState) : Prop :=
  ValidUtf8 s.data ∧ CleanIntMap (s.stepOutputs.getD ∅) ∧ CleanStringMap (s.vars.getD ∅)

theorem WorkflowState.Clean.of_coerced {s : WorkflowState} (hdata : coerce s.data = s.data)
    (houts : cleanIntMap (s.stepOutputs.getD ∅) = s.stepOutputs.getD ∅)
    (hvars : cleanStringMap (s.vars.getD ∅) = s.vars.getD ∅) : s.Clean := by
  refine ⟨coerce_eq_self_iff.mp hdata, ?_, ?_⟩
  · rw [← houts]
    exact cleanIntMap_clean _
  · rw [← hvars]
    exact cleanStringMap_clean _

/-- The record of a call and the snapshot of the compaction that it triggers are within the
reader's cap. -/
def FitsCap (m : WALStateManager) (c : SaveCall) : Prop :=
  (WAL.stamp m.wal.seq (m.record c) c.now).marshal.length ≤ walMaxRecordSize ∧
    ∀ w, m.wal.append (m.record c) c.now = .ok w →
      w.opts.compactionThreshold ≤ w.bytesSinceCompaction →
        ∀ snap ∈ mergeRecords (replayWAL w.flush.file), snap.marshal.length ≤ walMaxRecordSize

/-- A call restores its state from the logged one: the manager remembers nothing, so that the
record is a full snapshot, or the difference from the remembered state bridges the logged one. -/
def Restores (logged : Logged) (m : WALStateManager) (c : SaveCall) : Prop :=
  ∀ p ∈ m.persisted,
    Bridges logged.outputs (p.stepOutputs.getD ∅) ((c.state m.wf).stepOutputs.getD ∅) ∧
      Bridges logged.vars (p.vars.getD ∅) ((c.state m.wf).vars.getD ∅)

/-- Every call whose append does not fail saves valid UTF-8, stays within the reader's cap and
restores its state from what the log holds at that point. -/
def SafeRun : Logged → WALStateManager → List SaveCall → Prop
  | _, _, [] => True
  | logged, m, c :: cs =>
    if c.fault.isSome then SafeRun logged (m.save c).1 cs
    else
      (c.state m.wf).Clean ∧ FitsCap m c ∧ Restores logged m c ∧
        SafeRun (c.state m.wf).logged (m.save c).1 cs

/-- What recovery loads holds the maps `logged`: nothing at all for empty maps, otherwise a state
that has both maps. -/
def HoldsMaps (logged : Logged) : Option WorkflowState → Prop
  | none => logged = ⟨∅, ∅⟩
  | some s => s.stepOutputs = some logged.outputs ∧ s.vars = some logged.vars

/-- The log of the manager holds readable records that load to the maps `logged`. -/
def Attached (logged : Logged) (w : WAL) : Prop :=
  ∃ rs, w.Holds rs ∧ ∃ latest, loadRecords (rs.map WALRecord.clean) = some latest ∧
    HoldsMaps logged latest

/-! ## A safe save -/

/-- The log holds readable records that load to the data, step index and maps of `state`. -/
def LoadsTo (w : WAL) (state : WorkflowState) : Prop :=
  ∃ rs, w.Holds rs ∧ ∃ s, loadRecords (rs.map WALRecord.clean) = some (some s) ∧
    s.data = state.data ∧ s.stepIndex = state.stepIndex ∧
    s.stepOutputs = some state.logged.outputs ∧ s.vars = some state.logged.vars

variable {state : WorkflowState} {w : WAL}

theorem LoadsTo.attached (h : LoadsTo w state) : Attached state.logged w := by
  obtain ⟨rs, hrs, s, hs, -, -, houts, hvars⟩ := h
  exact ⟨rs, hrs, some s, hs, houts, hvars⟩

theorem LoadsTo.recovers (h : LoadsTo w state) : Recovers w state := by
  obtain ⟨rs, hrs, s, hs, hdata, hindex, houts, hvars⟩ := h
  refine ⟨s, ?_, hdata, hindex, by rw [houts]; rfl, by rw [hvars]; rfl⟩
  rw [loadStateWAL, hrs.replay_file]
  exact hs

variable {K V : Type}

private theorem eq_some_of_agrees [Ord K] [Std.TransOrd K]
    {m m' : Option (GoMap K V)} {x : GoMap K V} (hx : m = some x)
    (hget : m.getD ∅ = m'.getD ∅) (hsome : m.isSome = true → m'.isSome = true) : m' = some x := by
  subst hx
  cases m' with
  | none => simp at hsome
  | some y =>
    rw [show x = y from hget]

/-- The records load to the data, step index and maps of `state`. -/
def Loads (rs : List WALRecord) (state : WorkflowState) : Prop :=
  ∃ s, loadRecords (rs.map WALRecord.clean) = some (some s) ∧
    s.data = state.data ∧ s.stepIndex = state.stepIndex ∧
    s.stepOutputs = some state.logged.outputs ∧ s.vars = some state.logged.vars

variable {rs : List WALRecord}

/-- Compaction keeps what the log loads to, in one record. -/
theorem Loads.maybeCompact
    (h : Loads rs state) (hrs : w.Holds rs)
    (hsnap : w.opts.compactionThreshold ≤ w.bytesSinceCompaction →
      ∀ snap ∈ mergeRecords (replayWAL w.flush.file), snap.marshal.length ≤ walMaxRecordSize) :
    ∃ w' rs', w.maybeCompact = .ok w' ∧ w'.Holds rs' ∧ Loads rs' state ∧
      (rs' = rs ∨ rs'.length ≤ 1) := by
  unfold WAL.maybeCompact
  split
  · rename_i hthreshold
    obtain ⟨s, hs, hdata, hindex, houts, hvars⟩ := h
    have hfits := hsnap hthreshold
    rw [hrs.replay_file, ← snapshotOf] at hfits
    have hcap : walMaxRecordSize ≤ maxUint32 := by decide
    obtain ⟨w', hw'⟩ := hrs.compact_ok_iff.mpr fun m hm => (hfits m hm).trans hcap
    have hload := loadRecords_snapshotOf rs []
    rw [append_nil] at hload
    have hagree := mergeRecords_agrees hs
    rw [← snapshotOf] at hagree
    refine ⟨w', _, hw', hrs.compact hw' hfits, ?_, .inr ?_⟩
    · cases hm : snapshotOf rs with
      | none =>
        rw [hm] at hagree
        exact hagree.elim
      | some m =>
        rw [hm] at hagree hload
        have hagree : Agrees s (stateOfRecord m) := hagree
        refine ⟨stateOfRecord m, hload, ?_, ?_, ?_, ?_⟩
        · rw [← hagree.data, hdata]
        · rw [← hagree.stepIndex, hindex]
        · exact eq_some_of_agrees houts hagree.stepOutputs hagree.outputs_some
        · exact eq_some_of_agrees hvars hagree.vars hagree.vars_some
    · cases snapshotOf rs <;> simp
  · exact ⟨w, rs, rfl, hrs, h, .inl rfl⟩

private theorem clean_diff {K : Type} [Ord K] [Std.TransOrd K] [Std.LawfulEqOrd K]
    {P : K → Str → Prop} {prev cur : GoMap K Str} (h : cur.Forall P) :
    (GoMap.diff prev cur).Forall P := by
  intro k v hv
  rw [GoMap.getElem?_diff] at hv
  split at hv
  · cases hv
  · exact h k v hv

private theorem rangeAssign_some [Ord K] [Std.TransOrd K] [Std.LawfulEqOrd K]
    (m d : GoMap K V) : rangeAssign (some m) (some d) = some (some (m ∪ d)) :=
  rangeAssign_eq_some_iff.mpr ⟨.inr rfl, rfl, rfl⟩

variable {m : WALStateManager} {c : SaveCall}

private theorem clean_record_snapshot (hclean : (c.state m.wf).Clean)
    (hpersisted : m.persisted = none) : let r := (WAL.stamp m.wal.seq (m.record c) c.now).clean
    r.isDelta = false ∧ r.data = (c.state m.wf).data ∧
      r.stepOutputs = some (c.state m.wf).logged.outputs ∧
      r.vars = some (c.state m.wf).logged.vars := by
  obtain ⟨hdata, houts, hvars⟩ := hclean
  simp only [WALRecord.clean, WAL.stamp, WALStateManager.record, hpersisted]
  exact ⟨rfl, hdata.coerce_eq, congrArg some houts.cleanIntMap_eq,
    congrArg some hvars.cleanStringMap_eq⟩

private theorem clean_record_delta {p : WorkflowState} (hclean : (c.state m.wf).Clean)
    (hpersisted : m.persisted = some p) : let r := (WAL.stamp m.wal.seq (m.record c) c.now).clean
    r.isDelta = true ∧ r.data = (c.state m.wf).data ∧
      r.stepOutputs = some (GoMap.diff (p.stepOutputs.getD ∅) (c.state m.wf).logged.outputs) ∧
      r.vars = some (GoMap.diff (p.vars.getD ∅) (c.state m.wf).logged.vars) := by
  obtain ⟨hdata, houts, hvars⟩ := hclean
  simp only [WALRecord.clean, WAL.stamp, WALStateManager.record, hpersisted]
  have houts' : CleanIntMap (GoMap.diff (p.stepOutputs.getD ∅) _) := clean_diff houts
  have hvars' : CleanStringMap (GoMap.diff (p.vars.getD ∅) _) := clean_diff hvars
  exact ⟨rfl, hdata.coerce_eq, congrArg some houts'.cleanIntMap_eq,
    congrArg some hvars'.cleanStringMap_eq⟩

variable {logged : Logged} {latest : Option WorkflowState}

/-- The record that is appended loads to the saved state. -/
private theorem loadRecord_record (hlatest : HoldsMaps logged latest)
    (hclean : (c.state m.wf).Clean) (hrestores : Restores logged m c) :
    ∃ s, loadRecord latest (WAL.stamp m.wal.seq (m.record c) c.now).clean = some (some s) ∧
      s.data = (c.state m.wf).data ∧ s.stepIndex = (c.state m.wf).stepIndex ∧
      s.stepOutputs = some (c.state m.wf).logged.outputs ∧
      s.vars = some (c.state m.wf).logged.vars := by
  cases hp : m.persisted with
  | none =>
    obtain ⟨hdelta, hdata, houts, hvars⟩ := clean_record_snapshot hclean hp
    exact ⟨_, loadRecord_snapshot latest hdelta, hdata, rfl, houts, hvars⟩
  | some p =>
    obtain ⟨hdelta, hdata, houts, hvars⟩ := clean_record_delta hclean hp
    obtain ⟨hbridgeOuts, hbridgeVars⟩ := hrestores p hp
    have hunionOuts := GoMap.union_diff_eq_iff.mpr hbridgeOuts
    have hunionVars := GoMap.union_diff_eq_iff.mpr hbridgeVars
    cases latest with
    | none =>
      -- the first record of a log stands for the state even when it is a delta
      rw [show logged = ⟨∅, ∅⟩ from hlatest] at hunionOuts hunionVars
      rw [GoMap.empty_union] at hunionOuts hunionVars
      refine ⟨_, rfl, hdata, rfl, ?_, ?_⟩
      · exact houts.trans (congrArg some hunionOuts)
      · exact hvars.trans (congrArg some hunionVars)
    | some s =>
      refine ⟨_, (loadRecord_delta_eq_some_iff hdelta).mpr ⟨_, _, ?_, ?_, rfl⟩, hdata, rfl, rfl,
        rfl⟩
      · rw [hlatest.1, houts, rangeAssign_some]
        exact congrArg (some ∘ some) hunionOuts
      · rw [hlatest.2, hvars, rangeAssign_some]
        exact congrArg (some ∘ some) hunionVars

/-- A save within the reader's cap adds its record to what the log holds, and compaction has only
to be looked at on the log with that record. -/
theorem save_append (hrs : m.wal.Holds rs) (hfault : c.fault = none) (hfits : FitsCap m c) :
    ∃ w, m.wal.append (m.record c) c.now = .ok w ∧
      w.Holds (rs ++ [WAL.stamp m.wal.seq (m.record c) c.now]) ∧
      ∀ w', w.maybeCompact = .ok w' →
        m.save c = (⟨w', m.wf, some (c.state m.wf)⟩, .ok ()) := by
  have hcap : walMaxRecordSize ≤ maxUint32 := by decide
  obtain ⟨w, hw⟩ := m.wal.exists_append_ok (hfits.1.trans hcap)
  refine ⟨w, hw, hrs.append hw hfits.1, ?_⟩
  intro w' hw'
  simp only [WALStateManager.save, WALStateManager.appendRecord, hfault, hw, hw']

/-- A safe save succeeds and leaves records that load to the saved state; a front of them is a front
of the records before, or all of them. -/
theorem save_loads (hrs : m.wal.Holds rs)
    (hlatest : loadRecords (rs.map WALRecord.clean) = some latest) (hmaps : HoldsMaps logged latest)
    (hfault : c.fault = none) (hclean : (c.state m.wf).Clean) (hfits : FitsCap m c)
    (hrestores : Restores logged m c) :
    ∃ w rs', m.save c = (⟨w, m.wf, some (c.state m.wf)⟩, .ok ()) ∧ w.Holds rs' ∧
      Loads rs' (c.state m.wf) ∧ ∀ front, front <+: rs' → front <+: rs ∨ front = rs' := by
  obtain ⟨s, hload, hs⟩ := loadRecord_record hmaps hclean hrestores
  obtain ⟨w, hw, hholds, hsave⟩ := save_append hrs hfault hfits
  have hloads : Loads (rs ++ [WAL.stamp m.wal.seq (m.record c) c.now]) (c.state m.wf) := by
    refine ⟨s, ?_, hs⟩
    rw [map_append, loadRecords, foldlM_append, ← loadRecords, hlatest]
    simpa using hload
  obtain ⟨w', rs', hw', hholds', hloads', hrecords⟩ := hloads.maybeCompact hholds (hfits.2 w hw)
  refine ⟨w', rs', hsave w' hw', hholds', hloads', ?_⟩
  intro front hfront
  rcases hrecords with rfl | hone
  · rcases prefix_concat_iff.mp hfront with rfl | hfront
    · exact .inr rfl
    · exact .inl hfront
  · -- a compacted log has no front but the empty one and itself
    cases front with
    | nil => exact .inl nil_prefix
    | cons r front =>
      have hlen := hfront.length_le
      rw [length_cons] at hlen
      refine .inr (hfront.eq_of_length ?_)
      rw [length_cons]
      omega

theorem save_loadsTo (hattached : Attached logged m.wal) (hfault : c.fault = none)
    (hclean : (c.state m.wf).Clean) (hfits : FitsCap m c) (hrestores : Restores logged m c) :
    (m.save c).2 = .ok () ∧ LoadsTo (m.save c).1.wal (c.state m.wf) := by
  obtain ⟨rs, hrs, latest, hlatest, hmaps⟩ := hattached
  obtain ⟨w, rs', hsave, hholds, hloads, -⟩ :=
    save_loads hrs hlatest hmaps hfault hclean hfits hrestores
  rw [hsave]
  exact ⟨rfl, rs', hholds, hloads⟩

theorem save_fault (hattached : Attached logged m.wal) (hfault : c.fault.isSome = true) :
    (m.save c).2 ≠ .ok () ∧ Attached logged (m.save c).1.wal := by
  obtain ⟨⟨e, rolledBack⟩, hfault⟩ := Option.isSome_iff_exists.mp hfault
  simp only [WALStateManager.save, WALStateManager.appendRecord, hfault]
  refine ⟨by simp, ?_⟩
  cases rolledBack with
  | true => exact hattached
  | false =>
    obtain ⟨rs, hrs, hrest⟩ := hattached
    exact ⟨rs, ⟨hrs.log_eq, hrs.fits⟩, hrest⟩

/-- In a safe run every save that succeeds is recovered. -/
theorem faithful_of_safeRun {logged : Logged} {m : WALStateManager} {calls : List SaveCall}
    (hattached : Attached logged m.wal) (hsafe : SafeRun logged m calls) : Faithful m calls := by
  induction calls generalizing logged m with
  | nil => trivial
  | cons c cs ih =>
    rw [SafeRun] at hsafe
    split at hsafe
    · rename_i hfault
      obtain ⟨herr, hkeep⟩ := save_fault hattached hfault
      exact ⟨fun hok => absurd hok herr, ih hkeep hsafe⟩
    · rename_i hfault
      obtain ⟨hclean, hfits, hrestores, hrest⟩ := hsafe
      have hnone : c.fault = none := by simpa using hfault
      obtain ⟨-, hloads⟩ := save_loadsTo hattached hnone hclean hfits hrestores
      exact ⟨fun _ => hloads.recovers, ih hloads.attached hrest⟩

def freshManager : WALStateManager := newWALStateManager (newWAL ⟨0, false⟩ []) ⟨[], ∅, [], []⟩ none

/-- A call that saves the given step outputs, with an append that fails or not. -/
def sampleCall (outputs : List (ℤ × Str)) (fails : Bool) : SaveCall where
  stepIndex := outputs.length
  data := []
  engine := outputs.foldl (fun e o => e.setStepOutput o.1 [] o.2) newExpressionEngine
  now := Time.zero
  fault := if fails then some (str "wal: write record", true) else none

theorem attached_freshManager : Attached ⟨∅, ∅⟩ freshManager.wal :=
  ⟨[], ⟨rfl, by simp⟩, none, rfl, rfl⟩

private theorem sampleCall_fits
    (hlen : (WAL.stamp m.wal.seq (m.record c) c.now).marshal.length ≤ walMaxRecordSize)
    (hthreshold : ∀ w ∈ (m.wal.append (m.record c) c.now).toOption,
      ¬ w.opts.compactionThreshold ≤ w.bytesSinceCompaction) : FitsCap m c := by
  refine ⟨hlen, fun w hw hle => absurd hle (hthreshold w ?_)⟩
  rw [hw]
  rfl

/-- A failed save does no harm when the next one writes what it would have written. -/
theorem faithful_rewritten_output :
    Faithful freshManager
      [sampleCall [(0, str "a")] false, sampleCall [(0, str "a"), (1, str "b")] true,
        sampleCall [(0, str "a"), (1, str "c")] false] := by
  apply faithful_of_safeRun attached_freshManager
  refine ⟨.of_coerced (by decide) (by decide) (by decide),
    sampleCall_fits (by decide +kernel) (by decide +kernel), fun p hp =>
      absurd hp (by simp [freshManager, newWALStateManager]), ?_⟩
  refine ⟨.of_coerced (by decide) (by decide) (by decide),
    sampleCall_fits (by decide +kernel) (by decide +kernel), ?_, trivial⟩
  intro p hp
  obtain rfl := Option.some.inj hp
  exact ⟨GoMap.union_diff_eq_iff.mp (by decide +kernel),
    GoMap.union_diff_eq_iff.mp (by decide)⟩

/-- A step output that was first saved by a failed call is missing from the log after the next
call, which returns no error. -/
theorem not_faithful_after_failed_append : ¬ ∀ calls, Faithful freshManager calls := by
  intro h
  obtain ⟨-, hsecond, -⟩ := h [sampleCall [(0, str "a")] true, sampleCall [(0, str "a")] false]
  set m := (freshManager.save (sampleCall [(0, str "a")] true)).1
  set c := sampleCall [(0, str "a")] false
  -- the failed call left the log empty but is remembered, so that the second record is a delta
  have hthreshold : ∀ w ∈ (m.wal.append (m.record c) c.now).toOption,
      ¬ w.opts.compactionThreshold ≤ w.bytesSinceCompaction := by decide +kernel
  have hfits : FitsCap m c := sampleCall_fits (by decide +kernel) hthreshold
  have hempty : m.wal.Holds [] := ⟨rfl, by simp⟩
  obtain ⟨w, hw, hholds, hsave⟩ := save_append hempty rfl hfits
  have hcompact : w.maybeCompact = .ok w := if_neg (hthreshold w (by rw [hw]; rfl))
  rw [hsave w hcompact] at hsecond
  obtain ⟨s, hload, -, -, houts, -⟩ := hsecond rfl
  rw [loadStateWAL, hholds.replay_file] at hload
  have hs : stateOfRecord (WAL.stamp m.wal.seq (m.record c) c.now).clean = s :=
    Option.some.inj (Option.some.inj hload)
  rw [← hs] at houts
  revert houts
  decide +kernel

end Workflow
