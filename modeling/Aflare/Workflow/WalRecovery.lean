import Aflare.Lib.Simulation
import Aflare.Workflow.State
import Aflare.Workflow.Wal

/-!
# Recovery and compaction of the log

`LoadStateWAL` folds the records of a log into a state, and `Compact` folds them into a single
snapshot record. The two folds are written separately in the program and treat absent maps
differently: the loader assigns into whatever map the running state has, while the compactor makes
a missing map first.
-/

namespace Workflow

open Go List Option

/-! ## Loading -/

/-- Assign the entries of `d` into `m`, where `none` is a nil map. Assigning an entry into a nil
map panics; that is the outer `none`. -/
def rangeAssign {K V : Type} [Ord K] [Std.TransOrd K] (m d : Option (GoMap K V)) :
    Option (Option (GoMap K V)) :=
  if (d.getD ∅).isEmpty then some m else m.map fun m => some (m ∪ d.getD ∅)

/-- The state a full snapshot stands for. -/
def stateOfRecord (r : WALRecord) : WorkflowState where
  workflowName := []
  stepIndex := r.stepIndex
  data := r.data
  stepOutputs := r.stepOutputs
  vars := r.vars
  savedAt := r.timestamp
  dagMode := false
  stepNames := []

/-- One record of `LoadStateWAL`: a snapshot, or the first record, replaces the state, and a delta
is merged into it. -/
def loadRecord (latest : Option WorkflowState) (r : WALRecord) : Option (Option WorkflowState) :=
  match latest with
  | none => some (some (stateOfRecord r))
  | some s =>
    if r.isDelta then do
      let outputs ← rangeAssign s.stepOutputs r.stepOutputs
      let vars ← rangeAssign s.vars r.vars
      some (some { s with
        stepOutputs := outputs
        vars := vars
        stepIndex := r.stepIndex
        data := r.data
        savedAt := r.timestamp })
    else some (some (stateOfRecord r))

variable (rs : List WALRecord)

/-- `LoadStateWAL` on the records of a log. -/
def loadRecords : Option (Option WorkflowState) := rs.foldlM loadRecord none

/-- `LoadStateWAL` on a file. -/
def loadStateWAL (file : Str) : Option (Option WorkflowState) := loadRecords (replayWAL file)

/-! ## Compaction -/

/-- One record of `Compact`: as in the loader, but missing maps are made. -/
def mergeRecord (merged : Option WALRecord) (r : WALRecord) : Option WALRecord :=
  match merged with
  | none => some { r with isDelta := false }
  | some m =>
    if r.isDelta then
      some { m with
        stepOutputs := some (m.stepOutputs.getD ∅ ∪ r.stepOutputs.getD ∅)
        vars := some (m.vars.getD ∅ ∪ r.vars.getD ∅)
        stepIndex := r.stepIndex
        stepName := r.stepName
        nodeName := r.nodeName
        data := r.data
        timestamp := r.timestamp
        seq := r.seq }
    else some { r with isDelta := false }

/-- The snapshot that stands for a list of records; `none` for the empty list. -/
def mergeRecords : Option WALRecord := rs.foldl mergeRecord none

/-- `Compact`: the file becomes the frame of the merged snapshot, or empty if there is none. -/
def WAL.compact (w : WAL) : Except Str WAL :=
  let w := w.flush
  match mergeRecords (replayWAL w.file) with
  | none => .ok { w with file := [], bytesSinceCompaction := 0 }
  | some m =>
    let data := m.marshal
    match walFrameLen data.length with
    | .error e => .error (str "wal: compact: " ++ e)
    | .ok _ => .ok { w with file := walFrame m, bytesSinceCompaction := 0, seq := m.seq }

variable (w : WAL)

def WAL.maybeCompact : Except Str WAL :=
  if w.opts.compactionThreshold ≤ w.bytesSinceCompaction then w.compact else .ok w

/-! ## Logs that load -/

/-- No delta brings step outputs or variables to a running state that lacks the map. The two
arguments are the maps of the running state, as far as they are nil or not. -/
def NilSafeFrom : Bool → Bool → List WALRecord → Prop
  | _, _, [] => True
  | outputs, vars, r :: rs =>
    if r.isDelta then
      (r.stepOutputs.getD ∅ = ∅ ∨ outputs = true) ∧ (r.vars.getD ∅ = ∅ ∨ vars = true) ∧
        NilSafeFrom outputs vars rs
    else NilSafeFrom r.stepOutputs.isSome r.vars.isSome rs

/-- No delta brings entries to a running state that lacks the map; the first record sets the state
whether it is marked as a delta or not. -/
def NilSafe : List WALRecord → Prop
  | [] => True
  | r :: rs => NilSafeFrom r.stepOutputs.isSome r.vars.isSome rs

variable {K V : Type}

/-- An assignment fails if there is something to assign and no map. -/
theorem rangeAssign_eq_some_iff [Ord K] [Std.TransOrd K] [Std.LawfulEqOrd K]
    {m d m' : Option (GoMap K V)} :
    rangeAssign m d = some m' ↔
      (d.getD ∅ = ∅ ∨ m.isSome = true) ∧ m'.isSome = m.isSome ∧
        m'.getD ∅ = m.getD ∅ ∪ d.getD ∅ := by
  unfold rangeAssign
  by_cases hd : d.getD ∅ = ∅
  · have hempty : (d.getD ∅).isEmpty = true := by simp [hd]
    rw [if_pos hempty]
    constructor
    · intro h
      cases h
      simp [hd]
    · rintro ⟨-, hsome, hget⟩
      rw [hd, GoMap.union_empty] at hget
      cases m <;> cases m' <;> simp_all
  · have hempty : ¬ (d.getD ∅).isEmpty = true := by simpa using hd
    rw [if_neg hempty]
    cases m with
    | none => simp [hd]
    | some m =>
      cases m' with
      | none => simp
      | some m' =>
        simp only [map_some, Option.some.injEq, isSome_some, or_true, true_and, getD_some]
        exact eq_comm

variable {r : WALRecord}

theorem loadRecord_delta_eq_some_iff {s : WorkflowState} {latest : Option WorkflowState}
    (hdelta : r.isDelta = true) :
    loadRecord (some s) r = some latest ↔
      ∃ outputs vars, rangeAssign s.stepOutputs r.stepOutputs = some outputs ∧
        rangeAssign s.vars r.vars = some vars ∧
        latest = some { s with
          stepOutputs := outputs
          vars := vars
          stepIndex := r.stepIndex
          data := r.data
          savedAt := r.timestamp } := by
  simp only [loadRecord, hdelta, if_true]
  cases rangeAssign s.stepOutputs r.stepOutputs with
  | none => simp
  | some outputs =>
    cases rangeAssign s.vars r.vars with
    | none => simp
    | some vars => simp [eq_comm]

theorem loadRecord_snapshot (latest : Option WorkflowState)
    (hdelta : r.isDelta = false) : loadRecord latest r = some (some (stateOfRecord r)) := by
  cases latest with
  | none => rfl
  | some s => simp [loadRecord, hdelta]

private theorem rangeAssign_isSome_iff [Ord K] [Std.TransOrd K] [Std.LawfulEqOrd K]
    {m d : Option (GoMap K V)} :
    (∃ m', rangeAssign m d = some m') ↔ d.getD ∅ = ∅ ∨ m.isSome = true := by
  constructor
  · rintro ⟨m', h⟩
    exact (rangeAssign_eq_some_iff.mp h).1
  · intro h
    cases m with
    | none =>
      have hd : d.getD ∅ = ∅ := by simpa using h
      exact ⟨none, rangeAssign_eq_some_iff.mpr ⟨h, rfl, by simp [hd]⟩⟩
    | some m =>
      exact ⟨some (m ∪ d.getD ∅), rangeAssign_eq_some_iff.mpr ⟨h, rfl, rfl⟩⟩

private theorem loads_from_iff {s : WorkflowState} (rs : List WALRecord) :
    (∃ s', rs.foldlM loadRecord (some s) = some s') ↔
      NilSafeFrom s.stepOutputs.isSome s.vars.isSome rs := by
  induction rs generalizing s with
  | nil => simp [NilSafeFrom]
  | cons r rs ih =>
    rw [foldlM_cons, NilSafeFrom]
    by_cases hdelta : r.isDelta = true
    · rw [if_pos hdelta, ← rangeAssign_isSome_iff, ← rangeAssign_isSome_iff]
      constructor
      · rintro ⟨s', h⟩
        obtain ⟨latest, hload, hrest⟩ := bind_eq_some_iff.mp h
        obtain ⟨outputs, vars, houts, hvars, rfl⟩ := (loadRecord_delta_eq_some_iff hdelta).mp hload
        have hsafe := ih.mp ⟨s', hrest⟩
        rw [(rangeAssign_eq_some_iff.mp houts).2.1, (rangeAssign_eq_some_iff.mp hvars).2.1] at hsafe
        exact ⟨⟨outputs, houts⟩, ⟨vars, hvars⟩, hsafe⟩
      · rintro ⟨⟨outputs, houts⟩, ⟨vars, hvars⟩, hsafe⟩
        have hload := (loadRecord_delta_eq_some_iff hdelta).mpr ⟨outputs, vars, houts, hvars, rfl⟩
        rw [← (rangeAssign_eq_some_iff.mp houts).2.1, ← (rangeAssign_eq_some_iff.mp hvars).2.1]
          at hsafe
        rw [hload]
        exact ih.mpr hsafe
    · rw [if_neg hdelta, loadRecord_snapshot _ (by simpa using hdelta)]
      exact ih

theorem loads_iff_nilSafe : (∃ s, loadRecords rs = some s) ↔ NilSafe rs := by
  cases rs with
  | nil => simp [loadRecords, NilSafe]
  | cons r rs => exact loads_from_iff rs

/-! ## The two folds agree -/

/-- Two states that hold the same data, where the first lacks no map that the second lacks. -/
structure Agrees (s s' : WorkflowState) : Prop where
  stepIndex : s.stepIndex = s'.stepIndex
  data : s.data = s'.data
  savedAt : s.savedAt = s'.savedAt
  stepOutputs : s.stepOutputs.getD ∅ = s'.stepOutputs.getD ∅
  vars : s.vars.getD ∅ = s'.vars.getD ∅
  outputs_some : s.stepOutputs.isSome = true → s'.stepOutputs.isSome = true
  vars_some : s.vars.isSome = true → s'.vars.isSome = true

/-- Agreement of the results of two recoveries. -/
def AgreesOpt : Option WorkflowState → Option WorkflowState → Prop
  | none, none => True
  | some s, some s' => Agrees s s'
  | _, _ => False

theorem Agrees.refl (s : WorkflowState) : Agrees s s := ⟨rfl, rfl, rfl, rfl, rfl, id, id⟩

private theorem rangeAssign_agrees [Ord K] [Std.TransOrd K] [Std.LawfulEqOrd K]
    {m m₁ d out : Option (GoMap K V)} (hget : m.getD ∅ = m₁.getD ∅)
    (hsome : m.isSome = true → m₁.isSome = true) (h : rangeAssign m d = some out) :
    ∃ out₁, rangeAssign m₁ d = some out₁ ∧ out.getD ∅ = out₁.getD ∅ ∧
      (out.isSome = true → out₁.isSome = true) := by
  obtain ⟨hsafe, hout, hunion⟩ := rangeAssign_eq_some_iff.mp h
  obtain ⟨out₁, h₁⟩ := rangeAssign_isSome_iff.mpr (hsafe.imp_right hsome)
  obtain ⟨-, hout₁, hunion₁⟩ := rangeAssign_eq_some_iff.mp h₁
  refine ⟨out₁, h₁, ?_, ?_⟩
  · rw [hunion, hunion₁, hget]
  · rw [hout, hout₁]
    exact hsome

/-- A record that the loader accepts in one state it accepts in an agreeing one. -/
theorem loadRecord_agrees {a a' b : Option WorkflowState} (hab : AgreesOpt a b)
    (h : loadRecord a r = some a') : ∃ b', loadRecord b r = some b' ∧ AgreesOpt a' b' := by
  match a, b, hab with
  | none, none, _ =>
    cases h
    exact ⟨_, rfl, Agrees.refl _⟩
  | some s, some s', hab =>
    have hab : Agrees s s' := hab
    by_cases hdelta : r.isDelta = true
    · obtain ⟨outputs, vars, houts, hvars, rfl⟩ := (loadRecord_delta_eq_some_iff hdelta).mp h
      obtain ⟨outputs', houts', hog, hos⟩ :=
        rangeAssign_agrees hab.stepOutputs hab.outputs_some houts
      obtain ⟨vars', hvars', hvg, hvs⟩ := rangeAssign_agrees hab.vars hab.vars_some hvars
      refine ⟨_, (loadRecord_delta_eq_some_iff hdelta).mpr
        ⟨outputs', vars', houts', hvars', rfl⟩, ?_⟩
      exact ⟨rfl, rfl, rfl, hog, hvg, hos, hvs⟩
    · have hsnap : r.isDelta = false := by simpa using hdelta
      rw [loadRecord_snapshot _ hsnap] at h
      cases h
      exact ⟨_, loadRecord_snapshot _ hsnap, Agrees.refl _⟩

/-- The compactor follows the loader as long as the loader does not panic. -/
theorem mergeRecord_agrees {a a' : Option WorkflowState} {m : Option WALRecord}
    (hab : AgreesOpt a (m.map stateOfRecord)) (h : loadRecord a r = some a') :
    AgreesOpt a' ((mergeRecord m r).map stateOfRecord) := by
  match a, m, hab with
  | none, none, _ =>
    cases h
    exact Agrees.refl _
  | some s, some m, hab =>
    have hab : Agrees s (stateOfRecord m) := hab
    by_cases hdelta : r.isDelta = true
    · obtain ⟨outputs, vars, houts, hvars, rfl⟩ := (loadRecord_delta_eq_some_iff hdelta).mp h
      obtain ⟨-, -, hog⟩ := rangeAssign_eq_some_iff.mp houts
      obtain ⟨-, -, hvg⟩ := rangeAssign_eq_some_iff.mp hvars
      simp only [mergeRecord, hdelta, if_true, map_some]
      refine ⟨rfl, rfl, rfl, ?_, ?_, fun _ => rfl, fun _ => rfl⟩
      · rw [hog, hab.stepOutputs]
        rfl
      · rw [hvg, hab.vars]
        rfl
    · have hsnap : r.isDelta = false := by simpa using hdelta
      rw [loadRecord_snapshot _ hsnap] at h
      cases h
      simp only [mergeRecord, hsnap]
      exact Agrees.refl _

variable {rs : List WALRecord}

theorem mergeRecords_agrees {s : Option WorkflowState}
    (h : loadRecords rs = some s) : AgreesOpt s ((mergeRecords rs).map stateOfRecord) := by
  have hstart : AgreesOpt none (Option.map stateOfRecord none) := trivial
  exact Simulation.foldlM_simulates_foldl (f := loadRecord) (g := mergeRecord)
    (R := fun a m => AgreesOpt a (m.map stateOfRecord)) mergeRecord_agrees hstart h

/-! ## The snapshot of a compaction -/

theorem mergeRecords_append_singleton (rs : List WALRecord) (r : WALRecord) :
    mergeRecords (rs ++ [r]) = mergeRecord (mergeRecords rs) r := by
  simp [mergeRecords]

theorem seq_mergeRecords {m : WALRecord} (h : mergeRecords rs = some m) :
    ∃ r, rs.getLast? = some r ∧ m.seq = r.seq := by
  induction rs using List.reverseRecOn with
  | nil => simp [mergeRecords] at h
  | append_singleton rs r ih =>
    refine ⟨r, by simp, ?_⟩
    rw [mergeRecords_append_singleton] at h
    cases hm : mergeRecords rs with
    | none =>
      rw [hm] at h
      cases h
      rfl
    | some m₁ =>
      rw [hm] at h
      simp only [mergeRecord] at h
      split at h <;> (obtain rfl := Option.some.inj h; rfl)

private theorem clean_getD {K : Type} [Ord K] [Std.TransOrd K] [Std.LawfulEqOrd K]
    {P : K → Str → Prop} {m : Option (GoMap K Str)} (h : ∀ x ∈ m, GoMap.Forall P x) :
    GoMap.Forall P (m.getD ∅) := by
  cases m with
  | none => exact GoMap.Forall.empty
  | some m => exact h m rfl

/-- The snapshot of clean records is clean. -/
theorem mergeRecords_clean (hrs : ∀ r ∈ rs, r.Clean) : ∀ m ∈ mergeRecords rs, m.Clean := by
  refine foldlRecOn (motive := fun m => ∀ x ∈ m, WALRecord.Clean x) rs mergeRecord (by simp) ?_
  intro m hm r hr x hx
  have hclean := hrs r hr
  cases m with
  | none =>
    cases hx
    exact { hclean with }
  | some m =>
    have hm := hm m rfl
    simp only [mergeRecord] at hx
    split at hx
    · cases hx
      refine ⟨hclean.stepName, hclean.nodeName, hclean.data, ?_, ?_⟩
      · intro y hy
        cases hy
        exact (clean_getD hm.stepOutputs).union (clean_getD hclean.stepOutputs)
      · intro y hy
        cases hy
        exact (clean_getD hm.vars).union (clean_getD hclean.vars)
    · cases hx
      exact { hclean with }

/-! ## Logs of readable records -/

/-- The log holds exactly these records, all within the reader's cap. -/
structure WAL.Holds (w : WAL) (rs : List WALRecord) : Prop where
  log_eq : w.log = walFrames rs
  fits : ∀ r ∈ rs, r.marshal.length ≤ walMaxRecordSize

/-- The snapshot that compaction writes for these records. -/
def snapshotOf (rs : List WALRecord) : Option WALRecord := mergeRecords (rs.map WALRecord.clean)

theorem walFrames_append (rs rs' : List WALRecord) :
    walFrames (rs ++ rs') = walFrames rs ++ walFrames rs' := by
  simp [walFrames, Frames.frames]

variable (hfits : ∀ r ∈ rs, r.marshal.length ≤ walMaxRecordSize)

include hfits

theorem replayWAL_append (rest : Str) :
    replayWAL (walFrames rs ++ rest) = rs.map WALRecord.clean ++ replayWAL rest :=
  Frames.replay_append (by decide)
    (fun r hr => ⟨r.marshal_ne_nil, hfits r hr, r.unmarshal_marshal⟩) rest

theorem replayWAL_walFrames : replayWAL (walFrames rs) = rs.map WALRecord.clean := by
  have hreplay := replayWAL_append hfits []
  rw [append_nil] at hreplay
  rw [hreplay]
  simp [replayWAL]

theorem replayWAL_take (n : ℕ) :
    ∃ k, replayWAL ((walFrames rs).take n) = (rs.take k).map WALRecord.clean := by
  obtain ⟨k, -, -, hreplay⟩ := Frames.replay_take (by decide)
    (fun r hr => ⟨r.marshal_ne_nil, hfits r hr, r.unmarshal_marshal⟩) n
  exact ⟨k, hreplay⟩

omit hfits

theorem clean_snapshotOf (rs : List WALRecord) : ∀ m ∈ snapshotOf rs, m.Clean :=
  mergeRecords_clean fun r hr => by
    obtain ⟨q, -, rfl⟩ := mem_map.mp hr
    exact q.clean_clean

theorem walFrames_singleton (r : WALRecord) : walFrames [r] = walFrame r := by
  simp [walFrames, Frames.frames, walFrame]

variable {now : Time}

namespace WAL.Holds

variable {w w' : WAL} {rs : List WALRecord}

theorem replay_file (h : w.Holds rs) : replayWAL w.flush.file = rs.map WALRecord.clean := by
  rw [file_flush, h.log_eq, replayWAL_walFrames h.fits]

theorem append (h : w.Holds rs) (happend : w.append r now = .ok w')
    (hfit : (stamp w.seq r now).marshal.length ≤ walMaxRecordSize) :
    w'.Holds (rs ++ [stamp w.seq r now]) where
  log_eq := by
    rw [(append_ok happend).2.1, h.log_eq, walFrames_append, walFrames_singleton]
  fits := forall_mem_append.mpr ⟨h.fits, forall_mem_singleton.mpr hfit⟩

theorem compact_ok_iff (h : w.Holds rs) :
    (∃ w', w.compact = .ok w') ↔ ∀ m ∈ snapshotOf rs, m.marshal.length ≤ maxUint32 := by
  simp only [WAL.compact, h.replay_file, ← snapshotOf.eq_def]
  cases hm : snapshotOf rs with
  | none => simp
  | some m =>
    have hlen : (∃ n, walFrameLen m.marshal.length = .ok n) ↔ m.marshal.length ≤ maxUint32 := by
      simp [walFrameLen_eq_ok]
    cases hn : walFrameLen m.marshal.length with
    | error e | ok n => simpa [hn] using hlen

/-- A compacted log has one snapshot of its records. -/
theorem compact_ok (h : w.Holds rs) (hcompact : w.compact = .ok w') :
    w'.log = walFrames (snapshotOf rs).toList ∧
      w'.seq = ((snapshotOf rs).map WALRecord.seq).getD w.seq := by
  simp only [WAL.compact, h.replay_file, ← snapshotOf.eq_def] at hcompact
  cases hm : snapshotOf rs with
  | none =>
    rw [hm] at hcompact
    cases hcompact
    exact ⟨rfl, rfl⟩
  | some m =>
    rw [hm] at hcompact
    cases hn : walFrameLen m.marshal.length with
    | error e => simp [hn] at hcompact
    | ok n =>
      simp only [hn] at hcompact
      cases hcompact
      refine ⟨?_, rfl⟩
      rw [toList_some, walFrames_singleton]
      simp [log, flush]

theorem compact (h : w.Holds rs) (hcompact : w.compact = .ok w')
    (hsnap : ∀ m ∈ snapshotOf rs, m.marshal.length ≤ walMaxRecordSize) :
    w'.Holds (snapshotOf rs).toList :=
  ⟨(h.compact_ok hcompact).1, fun r hr => hsnap r (mem_toList.mp hr)⟩

end WAL.Holds

theorem loadRecords_snapshotOf (rs zs : List WALRecord) :
    loadRecords (((snapshotOf rs).toList ++ zs).map WALRecord.clean) =
      (zs.map WALRecord.clean).foldlM loadRecord ((snapshotOf rs).map stateOfRecord) := by
  cases hm : snapshotOf rs with
  | none => rfl
  | some m =>
    have hclean := (clean_snapshotOf rs m hm).clean_eq
    rw [toList_some, map_append, map_singleton, hclean]
    rfl

/-- An open log that holds some records and whose next sequence number continues that of the last
record. -/
structure OpenLog where
  wal : WAL
  records : List WALRecord
  holds : wal.Holds records
  seq_last : ∀ r ∈ records.getLast?, r.seq = wal.seq

namespace OpenLog

/-- A fresh log. -/
def fresh (opts : WALOptions) : OpenLog where
  wal := newWAL opts []
  records := []
  holds := ⟨rfl, by simp⟩
  seq_last := by simp

/-- The log after an append that succeeds and stays within the reader's cap. -/
def append (l : OpenLog) {r : WALRecord} {now : Time} {w : WAL} (h : l.wal.append r now = .ok w)
    (hfit : (WAL.stamp l.wal.seq r now).marshal.length ≤ walMaxRecordSize) : OpenLog where
  wal := w
  records := l.records ++ [WAL.stamp l.wal.seq r now]
  holds := l.holds.append h hfit
  seq_last := by
    intro q hq
    obtain rfl : WAL.stamp l.wal.seq r now = q := by simpa using hq
    exact (WAL.append_ok h).2.2.symm

theorem seq_compact (l : OpenLog) {w' : WAL} (h : l.wal.compact = .ok w') : w'.seq = l.wal.seq := by
  rw [(l.holds.compact_ok h).2]
  cases hm : snapshotOf l.records with
  | none => rfl
  | some m =>
    obtain ⟨r, hr, hseq⟩ := seq_mergeRecords hm
    rw [getLast?_map, map_eq_some_iff] at hr
    obtain ⟨q, hq, rfl⟩ := hr
    rw [map_some, getD_some, hseq]
    exact l.seq_last q hq

end OpenLog

/-! ## Compaction is invisible -/

/-- The same result of recovery. An absent map and an empty one are the same, as Go reads them. -/
def SameState : Option WorkflowState → Option WorkflowState → Prop
  | none, none => True
  | some s, some s' =>
    s.stepIndex = s'.stepIndex ∧ s.data = s'.data ∧ s.savedAt = s'.savedAt ∧
      s.stepOutputs.getD ∅ = s'.stepOutputs.getD ∅ ∧ s.vars.getD ∅ = s'.vars.getD ∅
  | _, _ => False

theorem AgreesOpt.sameState {a b : Option WorkflowState} (h : AgreesOpt a b) : SameState a b := by
  match a, b, h with
  | none, none, _ => trivial
  | some s, some s', h => exact ⟨h.stepIndex, h.data, h.savedAt, h.stepOutputs, h.vars⟩

/-- Recovery returns normally and gives the same state before and after a compaction, and also
after further appends to the compacted and to the uncompacted log. -/
def CompactionInvisible (ys : List (WALRecord × Time)) : Prop :=
  ∃ w' s s', w.compact = .ok w' ∧ loadStateWAL w.flush.file = some s ∧
    loadStateWAL w'.flush.file = some s' ∧ SameState s s' ∧
    ∃ v v' t t', w.appendAll ys = .ok v ∧ w'.appendAll ys = .ok v' ∧
      loadStateWAL v.flush.file = some t ∧ loadStateWAL v'.flush.file = some t' ∧ SameState t t'

private theorem nilSafeFrom_map_clean (outputs vars : Bool) (rs : List WALRecord) :
    NilSafeFrom outputs vars (rs.map WALRecord.clean) ↔ NilSafeFrom outputs vars rs := by
  have hint (m : Option (GoMap ℤ Str)) :
      (m.map cleanIntMap).getD ∅ = ∅ ↔ m.getD ∅ = ∅ := by
    cases m <;> simp
  have hstr (m : StringMap) :
      (m.map cleanStringMap).getD ∅ = ∅ ↔ m.getD ∅ = ∅ := by
    cases m <;> simp
  induction rs generalizing outputs vars with
  | nil => rfl
  | cons r rs ih =>
    simp only [map_cons, NilSafeFrom, ih, WALRecord.clean, hint, hstr, isSome_map]

private theorem nilSafe_map_clean (rs : List WALRecord) :
    NilSafe (rs.map WALRecord.clean) ↔ NilSafe rs := by
  cases rs with
  | nil => rfl
  | cons r rs =>
    simp only [map_cons, NilSafe, nilSafeFrom_map_clean]
    simp only [WALRecord.clean, isSome_map]

theorem WAL.exists_append_ok
    (h : (stamp w.seq r now).marshal.length ≤ maxUint32) : ∃ w', w.append r now = .ok w' := by
  have hlen := walFrameLen_eq_ok.mpr ⟨rfl, h⟩
  simp only [append, hlen]
  exact ⟨_, rfl⟩

variable {ys : List (WALRecord × Time)}

theorem WAL.exists_appendAll_ok
    (h : ∀ r ∈ stampAll w.seq ys, r.marshal.length ≤ maxUint32) : ∃ v, w.appendAll ys = .ok v := by
  induction ys generalizing w with
  | nil => exact ⟨w, rfl⟩
  | cons p ys ih =>
    obtain ⟨r, now⟩ := p
    obtain ⟨w₁, hw₁⟩ := w.exists_append_ok (h (stamp w.seq r now) mem_cons_self)
    obtain ⟨v, hv⟩ := ih w₁ (by
      rw [(append_ok hw₁).2.2]
      exact (forall_mem_of_forall_mem_cons h))
    exact ⟨v, bind_eq_ok.mpr ⟨w₁, hw₁, hv⟩⟩

private theorem load_appended {w v : WAL} (h : w.Holds rs) (hv : w.appendAll ys = .ok v)
    (hys : ∀ r ∈ WAL.stampAll w.seq ys, r.marshal.length ≤ walMaxRecordSize) :
    loadStateWAL v.flush.file =
      loadRecords ((rs ++ WAL.stampAll w.seq ys).map WALRecord.clean) := by
  rw [WAL.file_flush, (WAL.appendAll_ok hv).2, h.log_eq, loadStateWAL, replayWAL_append h.fits,
    replayWAL_walFrames hys, map_append]

/-- Compaction is invisible exactly when no delta, in the log or among the further records, brings
entries to a running state without the map, and the snapshot is within the reader's cap. -/
theorem compactionInvisible_iff (l : OpenLog) (ys : List (WALRecord × Time))
    (hys : ∀ r ∈ WAL.stampAll l.wal.seq ys, r.marshal.length ≤ walMaxRecordSize) :
    CompactionInvisible l.wal ys ↔
      NilSafe (l.records ++ WAL.stampAll l.wal.seq ys) ∧
        ∀ m ∈ snapshotOf l.records, m.marshal.length ≤ walMaxRecordSize := by
  have hcap : walMaxRecordSize ≤ maxUint32 := by decide
  constructor
  · rintro ⟨w', s, s', hcompact, hload, hload', hsame, v, v', t, t', hv, -, ht, -, -⟩
    constructor
    · -- the uncompacted log with the further records loads
      rw [load_appended l.holds hv hys] at ht
      exact (nilSafe_map_clean _).mp ((loads_iff_nilSafe _).mp ⟨t, ht⟩)
    · -- a larger snapshot would be unreadable, and recovery would find no record
      intro m hm
      by_contra hlarge
      have hmax := l.holds.compact_ok_iff.mp ⟨w', hcompact⟩ m hm
      have hsnap : snapshotOf l.records = some m := hm
      have hnone : loadStateWAL w'.flush.file = some none := by
        have hread := Frames.readFrame_frame_of_lt checksumIEEE walMaxRecordSize
          (show m.marshal.length < 2 ^ 32 by simp only [maxUint32] at hmax; omega)
          (Nat.lt_of_not_le hlarge) []
        rw [append_nil] at hread
        have hempty : replayWAL (walFrame m) = [] := Frames.replay_of_readFrame_none _ _ _ hread
        rw [WAL.file_flush, (l.holds.compact_ok hcompact).1, hsnap, toList_some,
          walFrames_singleton, loadStateWAL, hempty]
        rfl
      obtain rfl : none = s' := Option.some.inj (hnone.symm.trans hload')
      rw [loadStateWAL, l.holds.replay_file] at hload
      have hagree := mergeRecords_agrees hload
      rw [← snapshotOf, hsnap] at hagree
      cases s with
      | none => exact hagree
      | some s => exact hsame
  · rintro ⟨hsafe, hsnap⟩
    obtain ⟨t, ht⟩ := (loads_iff_nilSafe _).mpr ((nilSafe_map_clean _).mpr hsafe)
    have hsplit := ht
    rw [map_append, loadRecords, foldlM_append] at hsplit
    obtain ⟨s, hs, hst⟩ := bind_eq_some_iff.mp hsplit
    have hagree := mergeRecords_agrees hs
    obtain ⟨t', ht', hagree'⟩ := Simulation.foldlM_simulates loadRecord_agrees hagree hst
    -- both logs take the further records, under the same sequence numbers
    obtain ⟨w', hw'⟩ := l.holds.compact_ok_iff.mpr fun m hm => (hsnap m hm).trans hcap
    have hseq := l.seq_compact hw'
    have hholds := l.holds.compact hw' hsnap
    have hfits : ∀ r ∈ WAL.stampAll l.wal.seq ys, r.marshal.length ≤ maxUint32 := fun r hr =>
      (hys r hr).trans hcap
    obtain ⟨v, hv⟩ := l.wal.exists_appendAll_ok hfits
    obtain ⟨v', hv'⟩ := w'.exists_appendAll_ok (by rwa [hseq])
    refine ⟨w', s, (snapshotOf l.records).map stateOfRecord, hw', ?_, ?_, hagree.sameState,
      v, v', t, t', hv, hv', ?_, ?_, hagree'.sameState⟩
    · rw [loadStateWAL, l.holds.replay_file]
      exact hs
    · have hload := loadRecords_snapshotOf l.records []
      rw [append_nil] at hload
      rw [loadStateWAL, hholds.replay_file, hload]
      rfl
    · rw [load_appended l.holds hv hys]
      exact ht
    · rw [load_appended hholds hv' (by rwa [hseq]), hseq, loadRecords_snapshotOf]
      exact ht'

/-! ## Concrete logs -/

theorem holds_walFrames (seq : ℤ) (hfits : ∀ r ∈ rs, r.marshal.length ≤ walMaxRecordSize) :
    WAL.Holds { newWAL ⟨0, false⟩ [] with file := walFrames rs, seq := seq } rs where
  log_eq := by simp [WAL.log, newWAL]
  fits := hfits

/-- A snapshot with one output and a delta with another one. -/
def sampleRecords : List WALRecord :=
  [{ WALRecord.zero with seq := 1, stepOutputs := some {(0, str "a")}, vars := some ∅ },
    { WALRecord.zero with seq := 2, stepOutputs := some {(1, str "b")}, isDelta := true }]

theorem holds_sampleRecords :
    WAL.Holds { newWAL ⟨0, false⟩ [] with file := walFrames sampleRecords, seq := 2 }
      sampleRecords := by
  apply holds_walFrames
  intro r hr
  rcases mem_pair.mp hr with rfl | rfl <;> decide +kernel

theorem seq_sampleRecords : ∀ r ∈ sampleRecords.getLast?, r.seq = 2 := by
  simp [sampleRecords]

def sampleLog : OpenLog where
  wal := { newWAL ⟨0, false⟩ [] with file := walFrames sampleRecords, seq := 2 }
  records := sampleRecords
  holds := holds_sampleRecords
  seq_last := seq_sampleRecords

/-- A log of a snapshot and a delta is compacted without a trace, and takes a further delta. -/
theorem compactionInvisible_sampleLog :
    CompactionInvisible sampleLog.wal
      [({ WALRecord.zero with stepOutputs := some {(2, str "c")}, isDelta := true },
        Time.zero)] := by
  refine (compactionInvisible_iff sampleLog _ ?_).mpr ⟨?_, ?_⟩
  · intro r hr
    obtain rfl := mem_singleton.mp hr
    decide +kernel
  · simp [sampleLog, sampleRecords, WAL.stampAll, WAL.stamp, NilSafe, NilSafeFrom, WALRecord.zero]
  · have hall : ((snapshotOf sampleLog.records).all fun m =>
        m.marshal.length ≤ walMaxRecordSize) = true := by
      decide +kernel
    intro m hm
    simpa [show snapshotOf sampleLog.records = some m from hm] using hall

/-- A snapshot without maps and a delta with an output. -/
def nilMapRecords : List WALRecord :=
  [{ WALRecord.zero with seq := 1 },
    { WALRecord.zero with seq := 2, stepOutputs := some {(0, str "a")}, isDelta := true }]

theorem holds_nilMapRecords :
    WAL.Holds { newWAL ⟨0, false⟩ [] with file := walFrames nilMapRecords, seq := 2 }
      nilMapRecords := by
  apply holds_walFrames
  intro r hr
  rcases mem_pair.mp hr with rfl | rfl <;> decide +kernel

theorem seq_nilMapRecords : ∀ r ∈ nilMapRecords.getLast?, r.seq = 2 := by
  simp [nilMapRecords]

def nilMapLog : OpenLog where
  wal := { newWAL ⟨0, false⟩ [] with file := walFrames nilMapRecords, seq := 2 }
  records := nilMapRecords
  holds := holds_nilMapRecords
  seq_last := seq_nilMapRecords

/-- The loader panics on a snapshot without maps that is followed by a delta, while the compactor
merges the two. -/
theorem not_compactionInvisible_nilMap :
    ¬ ∀ (l : OpenLog) (ys : List (WALRecord × Time)),
      (∀ r ∈ WAL.stampAll l.wal.seq ys, r.marshal.length ≤ walMaxRecordSize) →
        CompactionInvisible l.wal ys := by
  intro hclaim
  obtain ⟨w', s, s', -, hload, -⟩ := hclaim nilMapLog [] (by simp [WAL.stampAll])
  rw [loadStateWAL, nilMapLog.holds.replay_file] at hload
  have hsafe := (nilSafe_map_clean _).mp ((loads_iff_nilSafe _).mp ⟨s, hload⟩)
  simp [nilMapLog, nilMapRecords, NilSafe, NilSafeFrom, WALRecord.zero] at hsafe

end Workflow
