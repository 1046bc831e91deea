import Aflare.Workflow.Checkpoint
import Aflare.Go.JsonSize

/-!
# Checkpoint files and crashes

`saveCheckpoint` writes a temporary file, syncs it and renames it over the checkpoint, then syncs
the directory. Any of these operations may fail, and the process or the machine may crash before or
after any of them. A rename is atomic, but a crash of the machine may undo it as long as the
directory has not been synced; the bytes of a file that was not synced are lost in such a crash.

What a crash cannot do is leave a half-written checkpoint. What is left are two cases in which `nil`
is returned for a state that is not found again: a state that is too large for the loader, and a
failed sync of the directory, which is ignored.
-/

namespace Workflow

open Go List

/-- The texts of a state are valid UTF-8. -/
structure WorkflowState.ValidTexts (s : WorkflowState) : Prop where
  workflowName : ValidUtf8 s.workflowName
  data : ValidUtf8 s.data
  stepOutputs : ∀ m ∈ s.stepOutputs, CleanIntMap m
  vars : ∀ m ∈ s.vars, CleanStringMap m
  stepNames : ∀ n ∈ s.stepNames, ValidUtf8 n

variable {s : WorkflowState}

theorem WorkflowState.ValidTexts.clean_eq (h : s.ValidTexts) : s.clean = s := by
  obtain ⟨name, index, data, outputs, vars, time, mode, names⟩ := s
  have houtputs : outputs.map cleanIntMap = outputs := by
    cases outputs with
    | none => rfl
    | some m => rw [Option.map_some, (h.stepOutputs m rfl).cleanIntMap_eq]
  have hvars : vars.map cleanStringMap = vars := by
    cases vars with
    | none => rfl
    | some m => rw [Option.map_some, (h.vars m rfl).cleanStringMap_eq]
  have hnames : names.map coerce = names := by
    conv_rhs => rw [← map_id names]
    exact map_congr_left fun n hn => (h.stepNames n hn).coerce_eq
  simp only [WorkflowState.clean, houtputs, hvars, hnames, h.workflowName.coerce_eq,
    h.data.coerce_eq]

variable {path : Str} {r : Disk × Option Stop}

namespace CheckpointFile

/-! ## Files, faults and crashes -/

/-- The filesystem operations of `saveCheckpoint` and `WriteFileAtomic`, in their order. -/
inductive SaveOp
  | mkdirAll
  | createTemp
  | write
  | sync
  | close
  | chmod
  | rename
  | openDir
  | syncDir
  | closeDir
  deriving DecidableEq

/-- A file, and whether its bytes are on disk. -/
structure File where
  bytes : Str
  synced : Bool
  deriving DecidableEq

/-- The file under the checkpoint path. -/
structure Disk where
  /-- The file that the synced directory names. -/
  durable : Option File
  /-- The files that have been renamed to the path since, in this order. -/
  pending : List File
  /-- The temporary file of the running call. -/
  temp : Option File
  deriving DecidableEq

/-- A crash ends the process only, or the machine: then the last `undone` renames that are not
synced are undone, and a file that is not synced holds `garbage`. -/
inductive Crash
  | process
  | machine (undone : ℕ) (garbage : Str)
  deriving DecidableEq

/-- What happens at an operation. -/
inductive Fault
  | fine
  | error
  /-- A crash before or after the operation takes effect. -/
  | crash (after : Bool) (how : Crash)
  deriving DecidableEq

/-- Why a call does not return `nil`. -/
inductive Stop
  | failed (op : SaveOp)
  | crashed (how : Crash)
  deriving DecidableEq

/-- The faults that a call meets. -/
structure Faults where
  at_ : SaveOp → Fault
  /-- The bytes that a write leaves when it is interrupted. -/
  written : ℕ

/-- A file after the machine has crashed. -/
def File.afterCrash (garbage : Str) (f : File) : File :=
  if f.synced then f else ⟨garbage, true⟩

namespace Disk

def start (file : Option Str) : Disk := ⟨file.map (⟨·, true⟩), [], none⟩

variable (d : Disk)

/-- The file that the path names. -/
def named : Option File := d.pending.getLast?.or d.durable

/-- The temporary file is moved over the path. -/
def rename : Disk := { d with pending := d.pending ++ d.temp.toList, temp := none }

def syncDir : Disk := { d with durable := d.named, pending := [] }

/-- The disk as the next process finds it. -/
def afterCrash : Crash → Disk
  | .process => { d with temp := none }
  | .machine undone garbage =>
    let kept := { d with pending := d.pending.take (d.pending.length - undone) }
    ⟨kept.named.map (File.afterCrash garbage), [], none⟩

end Disk

/-! ## Saving and loading -/

variable (f : Faults)

/-- An operation: `effect` is what it does, `cut` what it leaves when it does not complete. -/
def attempt (op : SaveOp) (effect cut : Disk → Disk) (d : Disk) : Disk × Option Stop :=
  match f.at_ op with
  | .fine => (effect d, none)
  | .error => (cut d, some (.failed op))
  | .crash true how => (effect d, some (.crashed how))
  | .crash false how => (cut d, some (.crashed how))

/-- Go on unless the call has stopped. -/
def andThen : Disk × Option Stop → (Disk → Disk × Option Stop) → Disk × Option Stop
  | (d, none), g => g d
  | (d, some stop), _ => (d, some stop)

/-- The first half of `WriteFileAtomic`: the temporary file. -/
def writeTemp (data : Str) (d : Disk) : Disk × Option Stop :=
  andThen (attempt f .createTemp (fun d => { d with temp := some ⟨[], false⟩ }) id d) fun d =>
  andThen (attempt f .write (fun d => { d with temp := some ⟨data, false⟩ })
    (fun d => { d with temp := some ⟨data.take f.written, false⟩ }) d) fun d =>
  andThen (attempt f .sync (fun d => { d with temp := some ⟨data, true⟩ }) id d) fun d =>
  andThen (attempt f .close id id d) fun d => attempt f .chmod id id d

/-- The end of `WriteFileAtomic`: an error of the directory is ignored. -/
def syncDirectory (d : Disk) : Disk × Option Stop :=
  match f.at_ .openDir with
  | .error => (d, none)
  | .crash _ how => (d, some (.crashed how))
  | .fine =>
    let d' := if f.at_ .syncDir = .error then (d, none) else attempt f .syncDir Disk.syncDir id d
    andThen d' fun d =>
      match f.at_ .closeDir with
      | .crash _ how => (d, some (.crashed how))
      | _ => (d, none)

/-- `WriteFileAtomic`, up to the removal of the temporary file. -/
def writeFileAtomic (data : Str) (d : Disk) : Disk × Option Stop :=
  andThen (writeTemp f data d) fun d =>
  andThen (attempt f .rename Disk.rename id d) (syncDirectory f)

/-- The temporary file is removed when the call fails; a crash leaves what it leaves. -/
def finish : Disk × Option Stop → Disk × Option Stop
  | (d, none) => (d, none)
  | (d, some (.failed op)) => ({ d with temp := none }, some (.failed op))
  | (d, some (.crashed how)) => (d.afterCrash how, some (.crashed how))

/-- `saveCheckpoint`; it returns `nil` if it does not stop. -/
def saveCheckpoint (path : Str) (f : Faults) (s : WorkflowState) (d : Disk) : Disk × Option Stop :=
  if path = [] then (d, none)
  else finish (andThen (attempt f .mkdirAll id id d) (writeFileAtomic f s.marshalIndent))

/-- `loadCheckpoint`; for the empty path it returns neither a state nor an error. -/
def loadCheckpointAt (path : Str) (d : Disk) : Except LoadError (Option WorkflowState) :=
  if path = [] then .ok none else (loadCheckpoint (d.named.map File.bytes)).map some

structure Call where
  state : WorkflowState
  faults : Faults

/-- A sequence of calls, with the state and the end of each. -/
def saveAll (path : Str) : Disk → List Call → Disk × List (WorkflowState × Option Stop)
  | d, [] => (d, [])
  | d, c :: cs =>
    let r := saveCheckpoint path c.faults c.state d
    let rest := saveAll path r.1 cs
    (rest.1, (c.state, r.2) :: rest.2)

/-- The state `s` is that of the last call that returned `nil`, or of a call after it. -/
def Expected (results : List (WorkflowState × Option Stop)) (s : WorkflowState) : Prop :=
  ∃ before last after, results = before ++ last :: after ∧ last.2 = none ∧
    (∀ r ∈ after, r.2 ≠ none) ∧ s ∈ (last :: after).map Prod.fst

/-- If some call returned `nil`, an expected state is loaded. -/
def Survives (path : Str) (d : Disk) (calls : List Call) : Prop :=
  (∃ r ∈ (saveAll path d calls).2, r.2 = none) →
    ∃ s, loadCheckpointAt path (saveAll path d calls).1 = .ok (some s) ∧
      Expected (saveAll path d calls).2 s

variable (dirFails : Bool)

/-- The directory can be opened and synced, unless `dirFails`. -/
def Faults.Permitted (f : Faults) : Prop :=
  dirFails = false → f.at_ .openDir ≠ .error ∧ f.at_ .syncDir ≠ .error

/-! ## What a call does -/

/-- The checkpoint file of a state. -/
def fileOf (s : WorkflowState) : File := ⟨s.marshalIndent, true⟩

variable (f : Faults)

/-- The temporary file is complete and synced, or the call has stopped before it touched the
path. -/
theorem writeTemp_cases (data : Str) (d : Disk) :
    writeTemp f data d = ({ d with temp := some ⟨data, true⟩ }, none) ∨
      ∃ temp stop, writeTemp f data d = ({ d with temp := temp }, some stop) := by
  unfold writeTemp attempt
  -- the first operation that is not fine ends the call
  rcases f.at_ .createTemp with _ | _ | ⟨_ | _, how⟩ <;> try exact .inr ⟨_, _, rfl⟩
  rcases f.at_ .write with _ | _ | ⟨_ | _, how⟩ <;> try exact .inr ⟨_, _, rfl⟩
  rcases f.at_ .sync with _ | _ | ⟨_ | _, how⟩ <;> try exact .inr ⟨_, _, rfl⟩
  rcases f.at_ .close with _ | _ | ⟨_ | _, how⟩ <;> try exact .inr ⟨_, _, rfl⟩
  rcases f.at_ .chmod with _ | _ | ⟨_ | _, how⟩ <;> try exact .inr ⟨_, _, rfl⟩
  exact .inl rfl

/-- The file has been renamed to the path. -/
def Disk.put (d : Disk) (f : File) : Disk := { d with pending := d.pending ++ [f], temp := none }

@[simp] theorem Disk.named_put (d : Disk) (f : File) : (d.put f).named = some f := by
  simp [Disk.put, Disk.named]

@[simp] theorem Disk.named_syncDir (d : Disk) : d.syncDir.named = d.named := by
  simp [Disk.syncDir, Disk.named]

/-- After the rename the call returns `nil`, with or without the directory synced, or it crashes. -/
theorem syncDirectory_cases (d : Disk) :
    syncDirectory f d = (d.syncDir, none) ∨
      (syncDirectory f d = (d, none) ∧ (f.at_ .openDir = .error ∨ f.at_ .syncDir = .error)) ∨
      ∃ how d', syncDirectory f d = (d', some (.crashed how)) ∧ (d' = d ∨ d' = d.syncDir) := by
  unfold syncDirectory attempt
  rcases f.at_ .openDir with _ | _ | ⟨after, how⟩
  case error => exact .inr (.inl ⟨rfl, .inl rfl⟩)
  case crash => exact .inr (.inr ⟨how, d, rfl, .inl rfl⟩)
  case fine =>
    rcases f.at_ .syncDir with _ | _ | ⟨_ | _, how⟩
    case fine =>
      rcases f.at_ .closeDir with _ | _ | ⟨_, how⟩
      case crash => exact .inr (.inr ⟨how, _, rfl, .inr rfl⟩)
      all_goals exact .inl rfl
    case error =>
      rcases f.at_ .closeDir with _ | _ | ⟨_, how⟩
      case crash => exact .inr (.inr ⟨how, _, rfl, .inl rfl⟩)
      all_goals exact .inr (.inl ⟨rfl, .inr rfl⟩)
    case crash.false => exact .inr (.inr ⟨how, _, rfl, .inl rfl⟩)
    case crash.true => exact .inr (.inr ⟨how, _, rfl, .inr rfl⟩)

/-- How a call may end. -/
inductive Saved (f : Faults) (new : File) (d : Disk) : Disk × Option Stop → Prop
  | synced : Saved f new d ((d.put new).syncDir, none)
  | unsynced (h : f.at_ .openDir = .error ∨ f.at_ .syncDir = .error) :
      Saved f new d (d.put new, none)
  | failed (op : SaveOp) : Saved f new d ({ d with temp := none }, some (.failed op))
  | crashed (d' : Disk) (how : Crash)
      (h : (∃ temp, d' = { d with temp := temp }) ∨ d' = d.put new ∨ d' = (d.put new).syncDir) :
      Saved f new d (d'.afterCrash how, some (.crashed how))

theorem saved_stop (new : File) (d : Disk) (temp : Option File) (stop : Stop) :
    Saved f new d (finish ({ d with temp := temp }, some stop)) := by
  cases stop with
  | failed op => exact .failed op
  | crashed how => exact .crashed _ how (.inl ⟨temp, rfl⟩)

/-- An atomic write ends in one of four ways, whatever fails in it. -/
theorem saved_writeFileAtomic (data : Str) (d : Disk) :
    Saved f ⟨data, true⟩ d (finish (writeFileAtomic f data d)) := by
  unfold writeFileAtomic
  rcases writeTemp_cases f data d with htemp | ⟨temp, stop, htemp⟩
  · rw [htemp]
    have hrename : ({ d with temp := some ⟨data, true⟩ } : Disk).rename = d.put ⟨data, true⟩ := rfl
    simp only [andThen, attempt, hrename]
    rcases f.at_ .rename with _ | _ | ⟨_ | _, how⟩
    case error => exact saved_stop f _ d _ (.failed .rename)
    case crash.false => exact saved_stop f _ d _ (.crashed how)
    case crash.true => exact .crashed _ how (.inr (.inl rfl))
    case fine =>
      change Saved f ⟨data, true⟩ d (finish (syncDirectory f (d.put ⟨data, true⟩)))
      rcases syncDirectory_cases f (d.put ⟨data, true⟩) with h | ⟨h, hdir⟩ | ⟨how, d', h, hd'⟩
      · rw [h]
        exact .synced
      · rw [h]
        exact .unsynced hdir
      · rw [h]
        exact .crashed d' how (.inr hd')
  · rw [htemp]
    exact saved_stop f _ d temp stop

theorem saveCheckpoint_cases (hpath : path ≠ []) (f : Faults) (s : WorkflowState)
    (d : Disk) : Saved f (fileOf s) d (saveCheckpoint path f s d) := by
  rw [saveCheckpoint, if_neg hpath]
  unfold attempt
  rcases f.at_ .mkdirAll with _ | _ | ⟨_ | _, how⟩
  case fine => exact saved_writeFileAtomic f s.marshalIndent d
  case error => exact saved_stop f _ d d.temp (.failed .mkdirAll)
  all_goals exact saved_stop f _ d d.temp (.crashed how)

/-! ## The disk holds expected states -/

variable {d : Disk}

namespace Disk

/-- Whatever a crash undoes, the path names the file of a state in `A`. -/
structure Keeps (A : Set WorkflowState) (d : Disk) : Prop where
  durable : ∃ s ∈ A, d.durable = some (fileOf s)
  pending : ∀ f ∈ d.pending, ∃ s ∈ A, f = fileOf s

namespace Keeps

variable {A B : Set WorkflowState} {d : Disk} (h : d.Keeps A)

include h

theorem mono (hsub : A ⊆ B) : d.Keeps B where
  durable := h.durable.imp fun _ hs => ⟨hsub hs.1, hs.2⟩
  pending f hf := (h.pending f hf).imp fun _ hs => ⟨hsub hs.1, hs.2⟩

theorem named : ∃ s ∈ A, d.named = some (fileOf s) := by
  cases hlast : d.pending.getLast? with
  | none => simpa [Disk.named, hlast] using h.durable
  | some f =>
    obtain ⟨s, hs, rfl⟩ := h.pending f (mem_of_getLast? hlast)
    exact ⟨s, hs, by simp [Disk.named, hlast]⟩

theorem put (hs : s ∈ A) : (d.put (fileOf s)).Keeps A where
  durable := h.durable
  pending := forall_mem_append.mpr ⟨h.pending, forall_mem_singleton.mpr ⟨s, hs, rfl⟩⟩

theorem syncDir : d.syncDir.Keeps A where
  durable := h.named
  pending _ hf := absurd hf not_mem_nil

/-- The files were synced before they were renamed, so a crash of the machine leaves one of them
as it is. -/
theorem afterCrash (how : Crash) : (d.afterCrash how).Keeps A := by
  cases how with
  | process => exact ⟨h.durable, h.pending⟩
  | machine undone garbage =>
    have hkept :
        ({ d with pending := d.pending.take (d.pending.length - undone) } : Disk).Keeps A :=
      ⟨h.durable, fun f hf => h.pending f (mem_of_mem_take hf)⟩
    obtain ⟨s, hs, hnamed⟩ := hkept.named
    refine ⟨⟨s, hs, ?_⟩, fun f hf => absurd hf not_mem_nil⟩
    simp only [Disk.afterCrash, hnamed, Option.map_some]
    rfl

theorem save {f : Faults} (hr : Saved f (fileOf s) d r) : r.1.Keeps (insert s A) := by
  have hold : d.Keeps (insert s A) := h.mono (Set.subset_insert s A)
  have hput := hold.put (Set.mem_insert s A)
  cases hr with
  | synced => exact hput.syncDir
  | unsynced => exact hput
  | failed => exact ⟨hold.durable, hold.pending⟩
  | crashed d' how hd' =>
    apply afterCrash
    rcases hd' with ⟨temp, rfl⟩ | rfl | rfl
    · exact ⟨hold.durable, hold.pending⟩
    · exact hput
    · exact hput.syncDir

omit h

end Keeps

theorem keeps_of_nil {f : Faults}
    (hr : Saved f (fileOf s) d r) (hnil : r.2 = none) (hf : f.Permitted false) : r.1.Keeps {s} := by
  cases hr with
  | synced =>
    refine ⟨⟨s, rfl, ?_⟩, fun f hf => absurd hf not_mem_nil⟩
    exact named_put d (fileOf s)
  | unsynced h =>
    obtain ⟨hopen, hsync⟩ := hf rfl
    exact absurd h (not_or.mpr ⟨hopen, hsync⟩)
  | failed | crashed => cases hnil

end Disk

theorem Saved.named_of_nil {f : Faults} {new : File}
    (h : Saved f new d r) (hnil : r.2 = none) : r.1.named = some new := by
  cases h with
  | synced => rw [Disk.named_syncDir, Disk.named_put]
  | unsynced => exact Disk.named_put d new
  | failed | crashed => cases hnil

/-! ## Sequences of calls -/

theorem saveAll_append (path : Str) (d : Disk) (cs cs' : List Call) :
    saveAll path d (cs ++ cs') =
      ((saveAll path (saveAll path d cs).1 cs').1,
        (saveAll path d cs).2 ++ (saveAll path (saveAll path d cs).1 cs').2) := by
  induction cs generalizing d with
  | nil => rfl
  | cons c cs ih =>
    rw [cons_append, saveAll, ih]
    rfl

theorem saveAll_snoc (path : Str) (d : Disk) (cs : List Call) (c : Call) :
    saveAll path d (cs ++ [c]) =
      ((saveCheckpoint path c.faults c.state (saveAll path d cs).1).1,
        (saveAll path d cs).2 ++
          [(c.state, (saveCheckpoint path c.faults c.state (saveAll path d cs).1).2)]) :=
  saveAll_append path d cs [c]

theorem saveAll_states (path : Str) (d : Disk) (cs : List Call) :
    (saveAll path d cs).2.map Prod.fst = cs.map Call.state := by
  induction cs generalizing d with
  | nil => rfl
  | cons c cs ih => rw [saveAll, map_cons, map_cons, ih]

namespace Expected

variable {results : List (WorkflowState × Option Stop)} {s t : WorkflowState}

theorem of_nil : Expected (results ++ [(s, none)]) s :=
  ⟨results, (s, none), [], rfl, rfl, by simp, by simp⟩

theorem snoc (h : Expected results t) (stop : Stop) : Expected (results ++ [(s, some stop)]) t := by
  obtain ⟨before, last, after, rfl, hlast, hafter, ht⟩ := h
  refine ⟨before, last, after ++ [(s, some stop)], by simp, hlast, ?_, ?_⟩
  · exact forall_mem_append.mpr ⟨hafter, by simp⟩
  · rw [← cons_append, map_append]
    exact mem_append_left _ ht

theorem interrupted (h : Expected results t) (stop : Stop) :
    Expected (results ++ [(s, some stop)]) s := by
  obtain ⟨before, last, after, hresults, hlast, hafter, -⟩ := h.snoc (s := s) stop
  refine ⟨before, last, after, hresults, hlast, hafter, ?_⟩
  -- the last entry is not the one that returned nil, so it is after it
  have hend : (last :: after).getLast? = some (s, some stop) := by
    rw [← getLast?_append_of_ne_nil before (cons_ne_nil last after), ← hresults]
    exact getLast?_concat
  exact mem_map.mpr ⟨_, mem_of_getLast? hend, rfl⟩

theorem mem_states (h : Expected results s) : s ∈ results.map Prod.fst := by
  obtain ⟨before, last, after, rfl, -, -, hs⟩ := h
  rw [map_append]
  exact mem_append_right _ hs

end Expected

variable (hpath : path ≠ [])

include hpath

/-- Once a call has returned `nil`, the disk holds expected states only. -/
theorem keeps_saveAll (d : Disk) {calls : List Call}
    (hcalls : ∀ c ∈ calls, c.faults.Permitted false)
    (hnil : ∃ r ∈ (saveAll path d calls).2, r.2 = none) :
    (saveAll path d calls).1.Keeps {t | Expected (saveAll path d calls).2 t} := by
  -- along the calls: one that returns nil starts anew, any other adds its own state
  induction calls using List.reverseRecOn with
  | nil =>
    obtain ⟨r, hr, -⟩ := hnil
    cases hr
  | append_singleton cs c ih =>
    have hsaved := saveCheckpoint_cases hpath c.faults c.state (saveAll path d cs).1
    rw [saveAll_snoc] at hnil ⊢
    cases hend : (saveCheckpoint path c.faults c.state (saveAll path d cs).1).2 with
    | none =>
      have hkeeps := Disk.keeps_of_nil hsaved hend (hcalls c (by simp))
      apply hkeeps.mono
      rintro t rfl
      exact Expected.of_nil
    | some stop =>
      rw [hend] at hnil
      have hbefore : ∃ r ∈ (saveAll path d cs).2, r.2 = none := by
        obtain ⟨r, hr, hrnil⟩ := hnil
        rcases mem_append.mp hr with hr | hr
        · exact ⟨r, hr, hrnil⟩
        · rw [mem_singleton.mp hr] at hrnil
          cases hrnil
      have hkeeps := ih (fun c hc => hcalls c (mem_append_left _ hc)) hbefore
      obtain ⟨u, hu, -⟩ := hkeeps.durable
      apply (hkeeps.save hsaved).mono
      rintro t (rfl | ht)
      · exact hu.interrupted stop
      · exact ht.snoc stop

/-! ## Loading -/

theorem loadCheckpointAt_fileOf (hnamed : d.named = some (fileOf s)) :
    loadCheckpointAt path d =
      if s.marshalIndent.length > maxFileSize then .error .tooLarge else .ok (some s.clean) := by
  rw [loadCheckpointAt, if_neg hpath, hnamed, Option.map_some, fileOf, loadCheckpoint_marshalIndent]
  split <;> rfl

theorem loadCheckpointAt_of_fits (hnamed : d.named = some (fileOf s)) (hvalid : s.ValidTexts)
    (hfits : s.marshalIndent.length ≤ maxFileSize) : loadCheckpointAt path d = .ok (some s) := by
  rw [loadCheckpointAt_fileOf hpath hnamed, if_neg (Nat.not_lt.mpr hfits), hvalid.clean_eq]

theorem survives_of_fits (d : Disk) {calls : List Call} (hvalid : ∀ c ∈ calls, c.state.ValidTexts)
    (hfits : ∀ c ∈ calls, c.state.marshalIndent.length ≤ maxFileSize)
    (hcalls : ∀ c ∈ calls, c.faults.Permitted false) : Survives path d calls := by
  intro hnil
  obtain ⟨s, hs, hnamed⟩ := (keeps_saveAll hpath d hcalls hnil).named
  have hmem := Expected.mem_states hs
  rw [saveAll_states] at hmem
  obtain ⟨c, hc, rfl⟩ := mem_map.mp hmem
  exact ⟨c.state, loadCheckpointAt_of_fits hpath hnamed (hvalid c hc) (hfits c hc), hs⟩

theorem survives_singleton (d : Disk) {c : Call} (hvalid : c.state.ValidTexts)
    (hfits : c.state.marshalIndent.length ≤ maxFileSize) : Survives path d [c] := by
  rintro ⟨r, hr, hnil⟩
  obtain rfl := mem_singleton.mp hr
  have hnamed := (saveCheckpoint_cases hpath c.faults c.state d).named_of_nil hnil
  refine ⟨c.state, loadCheckpointAt_of_fits hpath hnamed hvalid hfits, [], _, [], rfl, hnil, ?_, ?_⟩
  · simp
  · simp

/-! ## Faults that lose a state -/

def Faults.none : Faults := ⟨fun _ => .fine, 0⟩

/-- The given fault at one operation. -/
def Faults.only (op : SaveOp) (fault : Fault) : Faults :=
  ⟨fun op' => if op' = op then fault else .fine, 0⟩

theorem saveCheckpoint_none (s : WorkflowState) (d : Disk) :
    saveCheckpoint path .none s d = ((d.put (fileOf s)).syncDir, Option.none) := by
  rw [saveCheckpoint, if_neg hpath]
  rfl

theorem named_saveAll_refused (d : Disk) (states : List WorkflowState) :
    (saveAll path d (states.map fun s => ⟨s, .only .createTemp .error⟩)).1.named = d.named := by
  induction states generalizing d with
  | nil => rfl
  | cons s states ih =>
    rw [map_cons, saveAll]
    refine (ih _).trans ?_
    rw [saveCheckpoint, if_neg hpath]
    rfl

/-- A state that is too large is saved without an error, and is not loaded again. -/
theorem not_survives_of_tooLarge (d : Disk) (earlier later : List WorkflowState)
    (hlarge : maxFileSize < s.marshalIndent.length) :
    ¬ Survives path d (earlier.map (⟨·, .none⟩) ++
      ⟨s, .none⟩ :: later.map fun s => ⟨s, .only .createTemp .error⟩) := by
  intro hsurvives
  rw [Survives, saveAll_append, saveAll, saveCheckpoint_none hpath] at hsurvives
  obtain ⟨t, hload, -⟩ := hsurvives ⟨(s, Option.none), by simp, rfl⟩
  have hnamed : (saveAll path (Disk.syncDir (Disk.put
      (saveAll path d (earlier.map (⟨·, .none⟩))).1 (fileOf s)))
      (later.map fun s => ⟨s, .only .createTemp .error⟩)).1.named = some (fileOf s) := by
    rw [named_saveAll_refused hpath, Disk.named_syncDir, Disk.named_put]
  rw [loadCheckpointAt_fileOf hpath hnamed, if_pos hlarge] at hload
  cases hload

/-- A first checkpoint whose directory could not be synced is gone after a crash. -/
theorem not_survives_of_unsynced (s t : WorkflowState) (later : List WorkflowState) :
    ¬ Survives path (.start Option.none) (⟨s, .only .openDir .error⟩ ::
      ⟨t, .only .createTemp (.crash false (.machine 1 []))⟩ ::
        later.map fun s => ⟨s, .only .createTemp .error⟩) := by
  intro hsurvives
  have hfirst : saveCheckpoint path (.only .openDir .error) s (.start Option.none) =
      ((Disk.start Option.none).put (fileOf s), Option.none) := by
    rw [saveCheckpoint, if_neg hpath]
    rfl
  have hsecond : saveCheckpoint path (.only .createTemp (.crash false (.machine 1 []))) t
      ((Disk.start Option.none).put (fileOf s)) =
        (.start Option.none, some (.crashed (.machine 1 []))) := by
    rw [saveCheckpoint, if_neg hpath]
    rfl
  rw [Survives, saveAll, hfirst, saveAll, hsecond] at hsurvives
  obtain ⟨u, hload, -⟩ := hsurvives ⟨(s, Option.none), by simp, rfl⟩
  have hnamed := named_saveAll_refused hpath (.start Option.none) later
  rw [loadCheckpointAt, if_neg hpath, hnamed] at hload
  cases hload

omit hpath

theorem not_survives_of_empty_path (d : Disk) (s : WorkflowState) (later : List WorkflowState) :
    ¬ Survives [] d ((s :: later).map (⟨·, .none⟩)) := by
  intro hsurvives
  obtain ⟨t, hload, -⟩ := hsurvives ⟨(s, Option.none), mem_cons_self, rfl⟩
  cases hload

theorem Faults.permitted_none : Faults.none.Permitted dirFails := fun _ => ⟨nofun, nofun⟩

theorem Faults.permitted_createTemp (fault : Fault) :
    (Faults.only .createTemp fault).Permitted dirFails :=
  fun _ => ⟨nofun, nofun⟩

/-! ## Which states survive -/

/-- A state whose data is a run of one letter. -/
def letterState (n : ℕ) : WorkflowState := { WorkflowState.zero with data := List.replicate n 97 }

theorem validTexts_letterState (n : ℕ) : (letterState n).ValidTexts where
  workflowName := (by decide : ValidUtf8 [])
  data := (plain_replicate (by decide) n).validUtf8
  stepOutputs _ hm := nomatch hm
  vars _ hm := nomatch hm
  stepNames _ hm := nomatch hm

theorem length_letterState (n : ℕ) :
    (letterState n).marshalIndent.length = (letterState 0).marshalIndent.length + n := by
  have hletters := Value.length_render_obj_letters .indented 0 (str "data")
    ((letterState 0).members.take 2) ((letterState 0).members.drop 3) (b := 97) (by decide) n
  exact hletters

end CheckpointFile

end Workflow
