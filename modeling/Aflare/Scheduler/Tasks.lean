import Aflare.Go.Maps
import Aflare.Lib.Runs
import Aflare.Scheduler.Cron

/-!
# Scheduled tasks

The scheduler keeps the time of the next run of every task. A tick collects the tasks whose time has
come and dispatches them one after the other; after each dispatch the time of the next run is
searched for, from a minute after the tick on. Tasks may be added and removed at any moment, also
between the dispatches of a tick. A search that does not end is made with the lock held, so that the
scheduler stands still.

The search begins behind the minute after the tick, and it may pass over minutes (`Unhindered`). A
schedule with two minutes in a row therefore loses the second one.
-/

namespace Scheduler

open Go Runs List

/-! ## The scheduler -/

/-- `Task`, without its body. The times are those of `nextRunTime`, in minutes, and of a tick. -/
structure Task where
  schedule : CronSchedule
  nextRun : ℤ
  lastRun : Option ℤ

/-- The tasks, the dispatches that the tick under way has still to make, and those made so far, each
with the time of the tick. The lock is held for good once a search for the next run does not end. -/
structure State where
  tasks : GoMap Str Task
  pending : List (Str × ℤ)
  log : List (Str × ℤ)
  stuck : Bool

def new : State := ⟨∅, [], [], false⟩

inductive Action
  | addTask (id expr : Str) (now : ℤ)
  | removeTask (id : Str)
  | tick (now : ℤ) (tasksToRun : List Str)
  | dispatch
  deriving DecidableEq

/-- Why a task is not added. -/
inductive AddError
  | invalidExpr (err : CronError)
  | alreadyExists (id : Str)

variable (loc : Location)

def addTask (σ : State) (id expr : Str) (now : ℤ) : Except AddError State :=
  match parseCronExpr expr with
  | .error err => .error (.invalidExpr err)
  | .ok schedule =>
    match σ.tasks[id]? with
    | some _ => .error (.alreadyExists id)
    | none =>
      match nextRunTime loc schedule now with
      | some nextRun => .ok { σ with tasks := σ.tasks.insert id ⟨schedule, nextRun, none⟩ }
      | none => .ok { σ with stuck := true }

/-- The tasks whose time has come. -/
def dueIds (tasks : GoMap Str Task) (now : ℤ) : List Str :=
  (tasks.toList.filter fun e => e.2.nextRun * minuteNanos ≤ now).map Prod.fst

/-- A dispatch of `checkAndRunTasks`: the body of the task is started, then the lock is taken and
the next run searched for. -/
def dispatch (σ : State) (id : Str) (now : ℤ) (rest : List (Str × ℤ)) : State :=
  let σ := { σ with log := σ.log ++ [(id, now)], pending := rest }
  if σ.stuck then { σ with pending := [] }
  else
    match σ.tasks[id]? with
    | none => σ
    | some task =>
      match nextRunTime loc task.schedule (now + minuteNanos) with
      | some nextRun =>
        { σ with tasks := σ.tasks.insert id { task with nextRun := nextRun, lastRun := some now } }
      | none => { σ with pending := [], stuck := true }

/-- One step. A tick collects its tasks in any order, and only when the dispatches of the one before
are made. -/
def step (σ : State) : Action → Option State
  | .addTask id expr now =>
    if σ.stuck then some σ
    else
      match addTask loc σ id expr now with
      | .ok σ' => some σ'
      | .error _ => some σ
  | .removeTask id => if σ.stuck then some σ else some { σ with tasks := σ.tasks.erase id }
  | .tick now tasksToRun =>
    if σ.stuck then some σ
    else if σ.pending = [] ∧ tasksToRun.Perm (dueIds σ.tasks now) then
      some { σ with pending := tasksToRun.map (·, now) }
    else none
  | .dispatch =>
    match σ.pending with
    | [] => none
    | (id, now) :: rest => some (dispatch loc σ id now rest)

/-- What a step of a scheduler that is not stuck does. -/
inductive Moves (σ : State) : Action → State → Prop
  | refused {id expr : Str} {now : ℤ}
      (hwhy : ∀ s, parseCronExpr expr = .ok s → σ.tasks[id]? ≠ none) :
      Moves σ (.addTask id expr now) σ
  | added {id expr : Str} {now nextRun : ℤ} {s : CronSchedule}
      (hparse : parseCronExpr expr = .ok s) (hnew : σ.tasks[id]? = none)
      (hnext : nextRunTime loc s now = some nextRun) :
      Moves σ (.addTask id expr now) { σ with tasks := σ.tasks.insert id ⟨s, nextRun, none⟩ }
  | addHangs {id expr : Str} {now : ℤ} {s : CronSchedule}
      (hparse : parseCronExpr expr = .ok s) (hnew : σ.tasks[id]? = none)
      (hnext : nextRunTime loc s now = none) :
      Moves σ (.addTask id expr now) { σ with stuck := true }
  | removed {id : Str} : Moves σ (.removeTask id) { σ with tasks := σ.tasks.erase id }
  | ticked {now : ℤ} {tasksToRun : List Str} (hidle : σ.pending = [])
      (hdue : tasksToRun.Perm (dueIds σ.tasks now)) :
      Moves σ (.tick now tasksToRun) { σ with pending := tasksToRun.map (·, now) }
  | gone {id : Str} {now : ℤ} {rest : List (Str × ℤ)}
      (hpending : σ.pending = (id, now) :: rest) (hnone : σ.tasks[id]? = none) :
      Moves σ .dispatch { σ with log := σ.log ++ [(id, now)], pending := rest }
  | dispatched {id : Str} {now nextRun : ℤ} {rest : List (Str × ℤ)} {task : Task}
      (hpending : σ.pending = (id, now) :: rest) (htask : σ.tasks[id]? = some task)
      (hnext : nextRunTime loc task.schedule (now + minuteNanos) = some nextRun) :
      Moves σ .dispatch { σ with
        log := σ.log ++ [(id, now)]
        pending := rest
        tasks := σ.tasks.insert id { task with nextRun := nextRun, lastRun := some now } }
  | dispatchHangs {id : Str} {now : ℤ} {rest : List (Str × ℤ)} {task : Task}
      (hpending : σ.pending = (id, now) :: rest) (htask : σ.tasks[id]? = some task)
      (hnext : nextRunTime loc task.schedule (now + minuteNanos) = none) :
      Moves σ .dispatch { σ with log := σ.log ++ [(id, now)], pending := [], stuck := true }

variable {loc} {σ σ' : State} {a : Action} {id : Str} {now : ℤ}

theorem moves_of_step (hrunning : σ.stuck = false) (h : step loc σ a = some σ') :
    Moves loc σ a σ' := by
  cases a with
  | dispatch =>
    obtain ⟨id, now, rest, hpending⟩ : ∃ id now rest, σ.pending = (id, now) :: rest := by
      grind [step]
    cases htask : σ.tasks[id]? with
    | none => grind [step, dispatch, Moves.gone]
    | some task =>
      cases hnext : nextRunTime loc task.schedule (now + minuteNanos) with
      | none => grind [step, dispatch, Moves.dispatchHangs]
      | some nextRun => grind [step, dispatch, Moves.dispatched]
  | _ => grind [step, addTask, Moves]

/-! ## A scheduler that does not stop -/

variable (loc) in
/-- The schedule of a task that is added has a minute. -/
def Occurs : Action → Prop
  | .addTask _ expr _ => ∀ s, parseCronExpr expr = .ok s → ∃ m, Matches loc s m
  | _ => True

variable (loc) in
/-- The scheduler is not stuck, and the schedules of its tasks have minutes. -/
structure Healthy (σ : State) : Prop where
  running : σ.stuck = false
  occurs : ∀ (id : Str) (task : Task), σ.tasks[id]? = some task → ∃ m, Matches loc task.schedule m

theorem healthy_new : Healthy loc new := by
  refine ⟨rfl, fun id task h => ?_⟩
  simp [new] at h

variable {task : Task}

theorem Healthy.nextRunTime_ne_none (h : Healthy loc σ) (hfixed : loc.Fixed)
    (htask : σ.tasks[id]? = some task) (start : ℤ) :
    nextRunTime loc task.schedule start ≠ none := by
  obtain ⟨m, hm⟩ := h.occurs id task htask
  exact fun hnone => (nextRunTime_eq_none_iff hfixed start).mp hnone m hm

theorem Healthy.insert (h : Healthy loc σ) (hoccurs : ∃ m, Matches loc task.schedule m)
    {pending log : List (Str × ℤ)} : Healthy loc ⟨σ.tasks.insert id task, pending, log, σ.stuck⟩ :=
  ⟨h.running, GoMap.Forall.insert h.occurs hoccurs⟩

theorem Healthy.step (hfixed : loc.Fixed) (h : Healthy loc σ) (hoccurs : Occurs loc a)
    (hstep : Scheduler.step loc σ a = some σ') : Healthy loc σ' := by
  cases moves_of_step h.running hstep with
  | refused => exact h
  | added hparse hnew hnext => exact h.insert (hoccurs _ hparse)
  | addHangs hparse hnew hnext =>
    obtain ⟨m, hm⟩ := hoccurs _ hparse
    exact absurd hm ((nextRunTime_eq_none_iff hfixed _).mp hnext m)
  | removed => exact ⟨h.running, GoMap.Forall.erase h.occurs _⟩
  | ticked | gone => exact ⟨h.running, h.occurs⟩
  | dispatched hpending htask hnext =>
    obtain ⟨m, hm⟩ := h.occurs _ _ htask
    refine h.insert ?_
    exact ⟨m, hm⟩
  | dispatchHangs hpending htask hnext => exact absurd hnext (h.nextRunTime_ne_none hfixed htask _)

/-! ## Dispatches and ticks -/

/-- The minutes in which a task was dispatched. -/
def minutes (id : Str) (log : List (Str × ℤ)) : List ℤ :=
  log.filterMap fun e => if e.1 = id then some (minuteOf e.2) else none

@[simp] theorem minutes_append (log more : List (Str × ℤ)) :
    minutes id (log ++ more) = minutes id log ++ minutes id more :=
  filterMap_append

theorem minutes_eq_nil {log : List (Str × ℤ)} (h : id ∉ log.map Prod.fst) :
    minutes id log = [] := by
  rw [minutes, filterMap_eq_nil_iff]
  intro e he
  have hne : e.1 ≠ id := by
    rintro rfl
    exact h (mem_map_of_mem he)
  exact if_neg hne

theorem count_minutes_tick {ids : List Str} (hnodup : ids.Nodup) (m : ℤ) :
    (minutes id (ids.map (·, now))).count m = if id ∈ ids ∧ m = minuteOf now then 1 else 0 := by
  induction ids with
  | nil => simp [minutes]
  | cons i ids ih =>
    obtain ⟨hnotMem, hnodup⟩ := nodup_cons.mp hnodup
    have hrest := ih hnodup
    by_cases hi : i = id
    · subst hi
      simp only [hnotMem, false_and, if_false] at hrest
      simp only [map_cons, minutes, filterMap_cons, if_true] at hrest ⊢
      rw [count_cons, hrest]
      simp [beq_iff_eq, eq_comm (a := m)]
    · simp only [map_cons, minutes, filterMap_cons, hi, if_false] at hrest ⊢
      rw [hrest]
      simp [Ne.symm hi]

theorem map_fst_tick (ids : List Str) (now : ℤ) : (ids.map (·, now)).map Prod.fst = ids := by
  rw [map_map]
  exact map_id ids

theorem mem_dueIds {tasks : GoMap Str Task} :
    id ∈ dueIds tasks now ↔ ∃ task, tasks[id]? = some task ∧ task.nextRun ≤ minuteOf now := by
  have hdue : ∀ task : Task, task.nextRun * minuteNanos ≤ now ↔ task.nextRun ≤ minuteOf now :=
    fun task => (Int.le_ediv_iff_mul_le (by decide)).symm
  simp [dueIds, Std.ExtTreeMap.mem_toList_iff_getElem?_eq_some, hdue]

theorem nodup_dueIds (tasks : GoMap Str Task) (now : ℤ) : (dueIds tasks now).Nodup := by
  have hkeys := Std.ExtTreeMap.distinct_keys_toList (t := tasks)
  rw [dueIds, List.Nodup, pairwise_map]
  refine (hkeys.filter _).imp fun hne heq => hne ?_
  simp [heq]

/-- The times of the ticks of a run. -/
def ticks (actions : List Action) : List ℤ :=
  actions.filterMap fun
    | .tick now _ => some now
    | _ => none

theorem ticks_cons (a : Action) (actions : List Action) :
    ticks (a :: actions) = ticks [a] ++ ticks actions :=
  filterMap_append (l := [a])

/-- The minute that ticks have reached. -/
def reached (last : ℤ) (times : List ℤ) :
    ℤ := times.foldl (fun last t => max last (minuteOf t)) last

variable {times : List ℤ}

theorem le_reached_iff {last m : ℤ} :
    m ≤ reached last times ↔ m ≤ last ∨ ∃ t ∈ times, m ≤ minuteOf t := by
  induction times generalizing last with
  | nil => simp [reached]
  | cons t times ih =>
    rw [reached, foldl_cons, ← reached, ih, le_max_iff]
    simp [or_assoc]

/-- From a minute on, ticks arrive in order and at least once in every minute up to the last one. -/
def InEveryMinute (last : ℤ) (times : List ℤ) : Prop :=
  times.Pairwise (· ≤ ·) ∧
    ∀ m, last < m → (∃ t ∈ times, m ≤ minuteOf t) → ∃ t ∈ times, minuteOf t = m

theorem minuteOf_le {t t' : ℤ} (h : t ≤ t') : minuteOf t ≤ minuteOf t' :=
  Int.ediv_le_ediv (by decide) h

variable {last t : ℤ}

theorem InEveryMinute.le (h : InEveryMinute last (t :: times)) : minuteOf t ≤ last + 1 := by
  by_contra hlt
  obtain ⟨hsorted, hevery⟩ := h
  obtain ⟨t', ht', hminute⟩ := hevery (last + 1) (by omega) ⟨t, mem_cons_self, by omega⟩
  rcases mem_cons.mp ht' with rfl | hmem
  · omega
  · have hle := minuteOf_le ((pairwise_cons.mp hsorted).1 t' hmem)
    omega

theorem InEveryMinute.tail (h : InEveryMinute last (t :: times)) :
    InEveryMinute (max last (minuteOf t)) times := by
  obtain ⟨hsorted, hevery⟩ := h
  refine ⟨(pairwise_cons.mp hsorted).2, fun m hlt ⟨t', ht', hle⟩ => ?_⟩
  obtain ⟨t'', ht'', hminute⟩ := hevery m (by omega) ⟨t', mem_cons_of_mem t ht', hle⟩
  rcases mem_cons.mp ht'' with rfl | hmem
  · omega
  · exact ⟨t'', hmem, hminute⟩

variable {actions : List Action}

theorem InEveryMinute.cons {last : ℤ} (h : InEveryMinute last (ticks (a :: actions))) :
    (∀ t ∈ ticks [a], minuteOf t ≤ last + 1) ∧
      InEveryMinute (reached last (ticks [a])) (ticks actions) := by
  cases a with
  | tick now _ =>
    refine ⟨fun t ht => ?_, h.tail⟩
    obtain rfl : t = now := mem_singleton.mp ht
    exact h.le
  | addTask | removeTask | dispatch => exact ⟨fun t ht => absurd ht not_mem_nil, h⟩

/-! ## A task from its adding on -/

variable (loc) in
/-- No minute of the schedule of a task is passed over: when the task is added, none of the
dispatches that are pending has its name, and the start of the search cuts off nothing; after each
of its dispatches the next minute is not one of the schedule, and the start of the search cuts off
nothing. -/
def Fits (id : Str) (σ : State) : Action → Prop
  | .addTask id' expr now =>
    match parseCronExpr expr with
    | .error _ => True
    | .ok s => id' = id → σ.tasks[id]? = none →
        id ∉ σ.pending.map Prod.fst ∧ Unhindered s (loc.civil (minuteOf now + 1))
  | .dispatch =>
    match σ.pending with
    | [] => True
    | (id', now) :: _ =>
      match σ.tasks[id']? with
      | none => True
      | some task => id' = id → ¬ Matches loc task.schedule (minuteOf now + 1) ∧
          Unhindered task.schedule (loc.civil (minuteOf now + 2))
  | _ => True

instance : DecidablePred (Fits loc id σ)
  | .addTask id' expr now =>
    match h : parseCronExpr expr with
    | .error _ => .isTrue (by simp only [Fits, h])
    | .ok s =>
      decidable_of_iff (id' = id → σ.tasks[id]? = none →
        id ∉ σ.pending.map Prod.fst ∧ Unhindered s (loc.civil (minuteOf now + 1)))
        (by simp only [Fits, h])
  | .removeTask _ => .isTrue trivial
  | .tick _ _ => .isTrue trivial
  | .dispatch =>
    match hpending : σ.pending with
    | [] => .isTrue (by simp only [Fits, hpending])
    | (id', now) :: _ =>
      match htask : σ.tasks[id']? with
      | none => .isTrue (by simp only [Fits, hpending, htask])
      | some task =>
        decidable_of_iff (id' = id → ¬ Matches loc task.schedule (minuteOf now + 1) ∧
          Unhindered task.schedule (loc.civil (minuteOf now + 2)))
          (by simp only [Fits, hpending, htask])

variable {s : CronSchedule}

theorem Fits.add {expr : Str} (h : Fits loc id σ (.addTask id expr now))
    (hparse : parseCronExpr expr = .ok s) (hnew : σ.tasks[id]? = none) :
    id ∉ σ.pending.map Prod.fst ∧ Unhindered s (loc.civil (minuteOf now + 1)) := by
  simp only [Fits, hparse] at h
  exact h trivial hnew

variable {rest : List (Str × ℤ)}

theorem Fits.dispatch (h : Fits loc id σ .dispatch)
    (hpending : σ.pending = (id, now) :: rest) (htask : σ.tasks[id]? = some task) :
    ¬ Matches loc task.schedule (minuteOf now + 1) ∧
      Unhindered task.schedule (loc.civil (minuteOf now + 2)) := by
  simp only [Fits, hpending, htask] at h
  exact h trivial

variable (loc) in
/-- The first minute of the schedule after a minute. -/
def IsNext (s : CronSchedule) (last r : ℤ) : Prop :=
  last < r ∧ Matches loc s r ∧ ∀ x, last < x → x < r → ¬ Matches loc s x

theorem isNext_of_nextRunTime (hfixed : loc.Fixed) {start r : ℤ}
    (hfree : Unhindered s (loc.civil (minuteOf start + 1))) (h : nextRunTime loc s start = some r) :
    IsNext loc s (minuteOf start) r := by
  have hfinds := finds_years hfixed 401 (s := s) (t := minuteOf start + 1) rfl
  rw [show yearLoop loc s _ _ _ = _ from h] at hfinds
  obtain ⟨hentry, hclear⟩ := clear_start_iff hfixed hfinds.2.2.1 (t := minuteOf start + 1)
  obtain ⟨hle, -, hmatches, hfirst⟩ := hfinds.extend hentry (hclear.mpr hfree.cutsNothing)
  exact ⟨by omega, hmatches, fun x hlt => hfirst x (by omega)⟩

variable (loc) in
/-- What is known of a task with a schedule that was added in the minute `first`, when there were
`start` dispatches, after ticks up to the minute `last`. The dispatches that are pending are counted
with those that are made. -/
structure Tracks (id : Str) (s : CronSchedule) (first last : ℤ) (start : ℕ) (σ : State) : Prop where
  first_le : first ≤ last
  start_le : start ≤ σ.log.length
  nodup : (σ.pending.map Prod.fst).Nodup
  pending : ∀ now, (id, now) ∈ σ.pending → minuteOf now = last
  task : ∃ task, σ.tasks[id]? = some task ∧ task.schedule = s ∧
    (id ∉ σ.pending.map Prod.fst → IsNext loc s last task.nextRun)
  count : ∀ m, (minutes id ((σ.log ++ σ.pending).drop start)).count m =
    if first < m ∧ m ≤ last ∧ Matches loc s m then 1 else 0

namespace Tracks

variable {s : CronSchedule} {first last : ℤ} {start : ℕ} {tasks : GoMap Str Task}
  (h : Tracks loc id s first last start σ)

include h

theorem congr_tasks (htasks : tasks[id]? = σ.tasks[id]?) :
    Tracks loc id s first last start { σ with tasks := tasks } where
  __ := h
  task := by
    rw [htasks]
    exact h.task

theorem move {id' : Str}
    (hpending : σ.pending = (id', now) :: rest)
    (htask : ∃ task, tasks[id]? = some task ∧ task.schedule = s ∧
      (id ∉ rest.map Prod.fst → IsNext loc s last task.nextRun)) :
    Tracks loc id s first last start
      { σ with log := σ.log ++ [(id', now)], pending := rest, tasks := tasks } := by
  obtain ⟨hfirst, hstart, hnodup, hnow, -, hcount⟩ := h
  rw [hpending] at hnodup hnow hcount
  refine ⟨hfirst, ?_, (nodup_cons.mp hnodup).2,
    fun now' hmem => hnow now' (mem_cons_of_mem _ hmem), htask, ?_⟩
  · rw [length_append]
    omega
  · rw [append_assoc]
    exact hcount

/-- A tick makes the task pending if its minute matches. -/
theorem tick (hidle : σ.pending = []) {tasksToRun : List Str}
    (hdue : tasksToRun.Perm (dueIds σ.tasks now)) (hle : minuteOf now ≤ last + 1) :
    Tracks loc id s first (max last (minuteOf now)) start
      { σ with pending := tasksToRun.map (·, now) } := by
  obtain ⟨hfirst, hstart, -, -, ⟨task, htask, hschedule, hnext⟩, hcount⟩ := h
  obtain ⟨hlast, hmatches, hnone⟩ := hnext (by simp [hidle])
  have hnodup : tasksToRun.Nodup := hdue.nodup_iff.mpr (nodup_dueIds _ _)
  have hmem : id ∈ tasksToRun ↔ task.nextRun ≤ minuteOf now := by
    rw [hdue.mem_iff, mem_dueIds, htask]
    simp
  rw [hidle, append_nil] at hcount
  refine ⟨by omega, hstart, by rwa [map_fst_tick], ?_, ⟨task, htask, hschedule, ?_⟩, ?_⟩
  · intro now' hmem'
    obtain ⟨i, hi, heq⟩ := mem_map.mp hmem'
    obtain ⟨rfl, rfl⟩ := Prod.mk.inj heq
    have hdueNow := hmem.mp hi
    omega
  · -- the time has not come, so nothing is left out up to the tick
    intro hnotMem
    rw [map_fst_tick, hmem] at hnotMem
    exact ⟨by omega, hmatches, fun x hlt => hnone x (by omega)⟩
  · intro m
    rw [drop_append_of_le_length hstart, minutes_append, count_append, hcount,
      count_minutes_tick hnodup]
    rcases le_or_gt m last with hm | hm
    · have hnot : ¬ (id ∈ tasksToRun ∧ m = minuteOf now) := by
        rw [hmem]
        omega
      simp only [if_neg hnot, hm, le_max_of_le_left hm, add_zero]
    · -- the only new minute is that of the tick, and it is in the schedule if the task is due
      have hiff : (id ∈ tasksToRun ∧ m = minuteOf now) ↔
          (first < m ∧ m ≤ max last (minuteOf now) ∧ Matches loc s m) := by
        rw [hmem]
        constructor
        · rintro ⟨hdueNow, rfl⟩
          have hnow : task.nextRun = minuteOf now := by omega
          exact ⟨by omega, le_max_right _ _, hnow ▸ hmatches⟩
        · rintro ⟨-, hle', hm'⟩
          have hnow : m = minuteOf now := by omega
          refine ⟨?_, hnow⟩
          by_contra hlt
          exact hnone m hm (by omega) hm'
      rw [if_neg fun hold => absurd hold.2.1 (not_le.mpr hm), zero_add]
      exact if_congr hiff rfl rfl

omit h

/-- Every action keeps track of the task, up to the last tick. -/
theorem step (hfixed : loc.Fixed) (h : Tracks loc id s first last start σ)
    (hhealthy : Healthy loc σ) (hoccurs : Occurs loc a) (hfits : Fits loc id σ a)
    (hkeep : a ≠ .removeTask id) (htick : ∀ t ∈ ticks [a], minuteOf t ≤ last + 1)
    (hstep : Scheduler.step loc σ a = some σ') :
    Tracks loc id s first (reached last (ticks [a])) start σ' := by
  cases moves_of_step hhealthy.running hstep with
  | refused => exact h
  | @added id' _ _ _ _ hparse hnew hnext =>
    have hne : id' ≠ id := by
      rintro rfl
      obtain ⟨task, htask, -⟩ := h.task
      exact absurd (htask.symm.trans hnew) (by simp)
    exact h.congr_tasks (by simp [Std.ExtTreeMap.getElem?_insert, hne])
  | addHangs hparse hnew hnext =>
    obtain ⟨m, hm⟩ := hoccurs _ hparse
    exact absurd hm ((nextRunTime_eq_none_iff hfixed _).mp hnext m)
  | @removed id' =>
    have hne : id' ≠ id := fun heq => hkeep (heq ▸ rfl)
    exact h.congr_tasks (by simp [Std.ExtTreeMap.getElem?_erase, hne])
  | ticked hidle hdue => exact h.tick hidle hdue (htick _ (by simp [ticks]))
  | @gone id' now rest hpending hnone =>
    obtain ⟨task, htask, hschedule, hisNext⟩ := h.task
    have hne : id ≠ id' := by
      rintro rfl
      exact absurd (htask.symm.trans hnone) (by simp)
    refine h.move hpending ⟨task, htask, hschedule, fun hnot => hisNext ?_⟩
    simpa [hpending, hne] using hnot
  | @dispatched id' now nextRun rest task' hpending htask' hnext =>
    obtain ⟨task, htask, hschedule, hisNext⟩ := h.task
    by_cases hid : id' = id
    · subst hid
      obtain rfl := Option.some.inj (htask.symm.trans htask')
      have hlast : minuteOf now = last := h.pending now (by simp [hpending])
      refine h.move hpending ⟨_, Std.ExtTreeMap.getElem?_insert_self, hschedule, fun _ => ?_⟩
      -- the search leaves out the minute after the tick, which is not one of the schedule
      obtain ⟨hskipped, hfree⟩ := hfits.dispatch hpending htask
      have hstart : minuteOf (now + minuteNanos) = last + 1 := by
        rw [minuteOf, Int.add_ediv_of_dvd_right (dvd_refl _), ← minuteOf, hlast]
        rfl
      rw [hschedule] at hnext hskipped hfree
      rw [hlast] at hskipped hfree
      obtain ⟨hlt, hmatches, hnone⟩ :=
        isNext_of_nextRunTime hfixed (by rwa [hstart, add_assoc]) hnext
      rw [hstart] at hlt hnone
      refine ⟨(Int.lt_succ last).trans hlt, hmatches, fun x hx hxlt => ?_⟩
      rcases eq_or_lt_of_le (Int.add_one_le_of_lt hx) with rfl | hx
      · exact hskipped
      · exact hnone x hx hxlt
    · refine h.move hpending ⟨task, ?_, hschedule, fun hnot => hisNext ?_⟩
      · simpa [Std.ExtTreeMap.getElem?_insert, hid] using htask
      · simpa [hpending, Ne.symm hid] using hnot
  | dispatchHangs hpending htask hnext =>
    exact absurd hnext (hhealthy.nextRunTime_ne_none hfixed htask _)

/-- A run with a tick in every minute keeps track of the task. -/
theorem run (hfixed : loc.Fixed) (h : Tracks loc id s first last start σ)
    (hhealthy : Healthy loc σ) (hoccurs : ∀ a ∈ actions, Occurs loc a)
    (hfits : Guarded (Scheduler.step loc) (Fits loc id) σ actions)
    (hkeep : .removeTask id ∉ actions) (hticks : InEveryMinute last (ticks actions))
    (hrun : Runs.run (Scheduler.step loc) σ actions = some σ') :
    Healthy loc σ' ∧ Tracks loc id s first (reached last (ticks actions)) start σ' := by
  induction actions generalizing σ last with
  | nil =>
    cases hrun
    exact ⟨hhealthy, h⟩
  | cons a actions ih =>
    obtain ⟨τ, hstep, hrun⟩ := run_cons.mp hrun
    obtain ⟨hfit, hfits⟩ := (guarded_cons hstep).mp hfits
    obtain ⟨hne, hkeep⟩ := not_or.mp (mt mem_cons.mpr hkeep)
    obtain ⟨htick, hticks⟩ := hticks.cons
    have hreached : reached last (ticks (a :: actions)) =
        reached (reached last (ticks [a])) (ticks actions) := by
      rw [ticks_cons, reached, foldl_append]
      rfl
    rw [hreached]
    obtain ⟨hoccur, hoccurs⟩ := forall_mem_cons.mp hoccurs
    exact ih (h.step hfixed hhealthy hoccur hfit (Ne.symm hne) htick hstep)
      (hhealthy.step hfixed hoccur hstep) hoccurs hfits hkeep hticks hrun

theorem of_add {nextRun : ℤ} (hpending : id ∉ σ.pending.map Prod.fst)
    (hnodup : (σ.pending.map Prod.fst).Nodup) (hnext : IsNext loc s last nextRun) :
    Tracks loc id s last last σ.log.length
      { σ with tasks := σ.tasks.insert id ⟨s, nextRun, none⟩ } where
  first_le := Int.le_refl last
  start_le := Nat.le_refl _
  nodup := hnodup
  pending := fun now hmem => absurd (mem_map_of_mem hmem) hpending
  task := ⟨_, Std.ExtTreeMap.getElem?_insert_self, rfl, fun _ => hnext⟩
  count := fun m => by
    rw [drop_left, minutes_eq_nil hpending, count_nil, if_neg]
    rintro ⟨hlt, hle, -⟩
    omega

end Tracks

theorem nodup_pending_of_step (h : (σ.pending.map Prod.fst).Nodup) (hstep : step loc σ a = some σ')
    (hrunning : σ.stuck = false) : (σ'.pending.map Prod.fst).Nodup := by
  have hrest : ∀ {id : Str} {now : ℤ} {rest : List (Str × ℤ)},
      σ.pending = (id, now) :: rest → (rest.map Prod.fst).Nodup := by
    intro id now rest hpending
    rw [hpending] at h
    exact (nodup_cons.mp h).2
  cases moves_of_step hrunning hstep with
  | refused | added | addHangs | removed => exact h
  | ticked hidle hdue =>
    rw [map_fst_tick]
    exact hdue.nodup_iff.mpr (nodup_dueIds _ _)
  | gone hpending | dispatched hpending => exact hrest hpending
  | dispatchHangs => exact nodup_nil

/-- A task with an accepted schedule is dispatched exactly once in every minute of the schedule
after that of its adding, as far as the ticks have come, and in no other minute. -/
theorem cron_fires (hfixed : loc.Fixed) {expr : Str} {s : CronSchedule} {now : ℤ}
    {before after : List Action} {σ₀ σ : State} (hparse : parseCronExpr expr = .ok s)
    (hbefore : Runs.run (step loc) new before = some σ₀) (hnew : σ₀.tasks[id]? = none)
    (hrun : Runs.run (step loc) σ₀ (.addTask id expr now :: after) = some σ)
    (hkeep : .removeTask id ∉ after) (hticks : InEveryMinute (minuteOf now) (ticks after))
    (hoccurs : ∀ a ∈ before ++ .addTask id expr now :: after, Occurs loc a)
    (hfits : Guarded (step loc) (Fits loc id) σ₀ (.addTask id expr now :: after)) :
    σ.stuck = false ∧ (σ.pending = [] → ∀ m,
      (minutes id (σ.log.drop σ₀.log.length)).count m =
        if minuteOf now < m ∧ (∃ t ∈ ticks after, m ≤ minuteOf t) ∧ Matches loc s m then 1
        else 0) := by
  obtain ⟨hoccursBefore, hoccurs⟩ := forall_mem_append.mp hoccurs
  obtain ⟨hoccur, hoccurs⟩ := forall_mem_cons.mp hoccurs
  obtain ⟨hhealthy, hnodup⟩ : Healthy loc σ₀ ∧ (σ₀.pending.map Prod.fst).Nodup := by
    refine (guarded_of_forall fun a ha _ => hoccursBefore a ha).invariant
      (I := fun σ => Healthy loc σ ∧ (σ.pending.map Prod.fst).Nodup) ?_
      ⟨healthy_new, nodup_nil⟩ hbefore
    rintro σ a σ' ⟨hhealthy, hnodup⟩ hoccur hstep
    exact ⟨hhealthy.step hfixed hoccur hstep, nodup_pending_of_step hnodup hstep hhealthy.running⟩
  obtain ⟨σ₁, hadd, hrun⟩ := run_cons.mp hrun
  obtain ⟨hfit, hfits⟩ := (guarded_cons hadd).mp hfits
  obtain ⟨hpending, hfree⟩ := hfit.add hparse hnew
  have hhealthy₁ := hhealthy.step hfixed hoccur hadd
  have htracks : Tracks loc id s (minuteOf now) (minuteOf now) σ₀.log.length σ₁ := by
    cases moves_of_step hhealthy.running hadd with
    | refused hwhy => exact absurd hnew (hwhy s hparse)
    | added hparse' _ hnext =>
      obtain rfl := Except.ok.inj (hparse.symm.trans hparse')
      exact .of_add hpending hnodup (isNext_of_nextRunTime hfixed hfree hnext)
    | addHangs => exact absurd hhealthy₁.running (by simp)
  obtain ⟨hhealthy', htracks'⟩ := htracks.run hfixed hhealthy₁ hoccurs hfits hkeep hticks hrun
  refine ⟨hhealthy'.running, fun hidle m => ?_⟩
  have hcount := htracks'.count m
  rw [hidle, append_nil] at hcount
  rw [hcount]
  refine if_congr ?_ rfl rfl
  rw [le_reached_iff]
  constructor
  · rintro ⟨hlt, hle | hreached, hm⟩
    · omega
    · exact ⟨hlt, hreached, hm⟩
  · rintro ⟨hlt, hreached, hm⟩
    exact ⟨hlt, .inr hreached, hm⟩

/-- The schedule of `1 0 * * *`, every day at a minute past midnight. -/
def pastMidnight : CronSchedule :=
  ⟨[1], [0], (List.range' 1 31).map Nat.cast, (List.range' 1 12).map Nat.cast,
    (List.range 7).map Nat.cast⟩

/-- Two minutes of ticks, the first of which finds the task due. -/
def twoMinutes : List Action :=
  [.tick (1 * minuteNanos) [str "job"], .dispatch, .tick (2 * minuteNanos) []]

theorem inEveryMinute_two (n : ℤ) :
    InEveryMinute n [(n + 1) * minuteNanos, (n + 2) * minuteNanos] := by
  have hminute : ∀ k : ℤ, minuteOf (k * minuteNanos) = k := by
    intro k
    exact Int.mul_ediv_cancel k (by decide)
  refine ⟨by simp [minuteNanos], fun m hlt ⟨t, ht, hle⟩ => ?_⟩
  have hle : m ≤ n + 2 := by
    rcases mem_cons.mp ht with rfl | ht
    · rw [hminute] at hle
      omega
    · rwa [mem_singleton.mp ht, hminute] at hle
  obtain rfl | rfl : m = n + 1 ∨ m = n + 2 := by omega
  · exact ⟨_, mem_cons_self, hminute _⟩
  · exact ⟨_, mem_cons_of_mem _ mem_cons_self, hminute _⟩

theorem cron_fires_pastMidnight : ∃ σ : State,
    Runs.run (step .utc) new (.addTask (str "job") (str "1 0 * * *") 0 :: twoMinutes) = some σ ∧
      minutes (str "job") σ.log = [1] ∧ σ.stuck = false ∧
      ∀ m, (minutes (str "job") σ.log).count m =
        if 0 < m ∧ (∃ t ∈ ticks twoMinutes, m ≤ minuteOf t) ∧ Matches .utc pastMidnight m then 1
        else 0 := by
  have hparse : parseCronExpr (str "1 0 * * *") = .ok pastMidnight := by decide
  obtain ⟨σ, hrun, hidle, hminutes⟩ : ∃ σ : State,
      Runs.run (step .utc) new (.addTask (str "job") (str "1 0 * * *") 0 :: twoMinutes) = some σ ∧
        σ.pending = [] ∧ minutes (str "job") σ.log = [1] :=
    ⟨_, rfl, by decide, by decide⟩
  have hoccurs : ∀ a ∈ [] ++ .addTask (str "job") (str "1 0 * * *") 0 :: twoMinutes,
      Occurs .utc a := by
    simp only [nil_append, twoMinutes, forall_mem_cons]
    refine ⟨fun s hs => ⟨1, ?_⟩, trivial, trivial, trivial, forall_mem_nil _⟩
    obtain rfl := Except.ok.inj (hparse.symm.trans hs)
    decide
  obtain ⟨hrunning, hcount⟩ := cron_fires Location.fixed_utc hparse
    (show Runs.run (step .utc) new [] = some new from rfl) (by decide) hrun (by decide)
    (inEveryMinute_two 0) hoccurs (by decide)
  exact ⟨σ, hrun, hminutes, hrunning, hcount hidle⟩

/-- The schedule of a minute or all minutes and an hour or all hours of every day. -/
def everyDay (minute hour : List ℤ) : CronSchedule := { pastMidnight with minute, hour }

/-- A task for every minute is not dispatched in the minute after a dispatch. A task for one o'clock
that is added two minutes before is not dispatched at one o'clock. -/
theorem not_cron_fires :
    (parseCronExpr (str "* * * * *") =
        .ok (everyDay ((List.range 60).map Nat.cast) ((List.range 24).map Nat.cast)) ∧
      InEveryMinute 0 (ticks twoMinutes) ∧
      Matches .utc (everyDay ((List.range 60).map Nat.cast) ((List.range 24).map Nat.cast)) 2 ∧
      (Runs.run (step .utc) new (.addTask (str "job") (str "* * * * *") 0 :: twoMinutes)).map
        (fun σ => (σ.pending, minutes (str "job") σ.log)) = some ([], [1])) ∧
    parseCronExpr (str "0 1 * * *") = .ok (everyDay [0] [1]) ∧
      InEveryMinute 58 [(58 + 1) * minuteNanos, (58 + 2) * minuteNanos] ∧
      Matches .utc (everyDay [0] [1]) 60 ∧
      (Runs.run (step .utc) new [.addTask (str "job") (str "0 1 * * *") (58 * minuteNanos),
        .tick ((58 + 1) * minuteNanos) [], .tick ((58 + 2) * minuteNanos) []]).map
        (fun σ => (σ.pending, minutes (str "job") σ.log)) = some ([], []) := by
  refine ⟨⟨?_, inEveryMinute_two 0, ?_, ?_⟩, ?_, inEveryMinute_two 58, ?_, ?_⟩ <;> decide +kernel

end Scheduler
