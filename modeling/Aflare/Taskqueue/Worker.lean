import Aflare.Taskqueue.Queue

/-!
# The worker of the task queue

`Run` calls `Dequeue` in a loop, while any number of goroutines call `Enqueue`, and the handlers of
the tasks call `Done` and `Failed`. The calls take the lock of the queue; `Dequeue` gives it back
when it finds no task and then waits for the signal of an `Enqueue`. The channel of the signal has
one slot, and a signal that finds it full is thrown away.

A step takes the lock, runs the part of a method that holds it, sends or receives a signal, or gives
the lock back. There is no cancellation.
-/

namespace Taskqueue

open Go Runs List Option

/-- The calls of the producers and the handlers. -/
inductive Op (τ : Type)
  | enqueue (t : τ) (now : ℤ)
  | done (t : τ) (now : ℤ)
  | failed (t : τ) (errMsg : Str) (now : ℤ)
  deriving DecidableEq

variable {τ : Type}

/-- The call with the order in which its range runs. -/
def Op.call (order : List Str) : Op τ → Call τ
  | .enqueue t now => .enqueue t now
  | .done t now => .done t now order
  | .failed t errMsg now => .failed t errMsg now order

/-- Where a caller is: outside, in front of the lock, behind it, in front of the `select` of
`Enqueue`, or about to unlock. -/
inductive CallerStage (τ : Type)
  | idle
  | entering (op : Op τ)
  | locked (op : Op τ)
  | appended (op : Op τ)
  | leaving (op : Op τ)
  deriving DecidableEq

/-- Where the worker is in `Dequeue`: in front of the lock, behind it, about to unlock with a task
or without one, or in the `select`. -/
inductive WorkerStage (τ : Type)
  | top
  | checking
  | taken (t : τ)
  | foundEmpty
  | parked
  deriving DecidableEq

/-- The queue with its lock and its signal, the callers, the worker, the tasks that the worker got
from `Dequeue`, and the tasks that a full queue dropped. -/
structure Machine (ι τ : Type) where
  calls : State τ
  locked : Bool
  notEmpty : Bool
  caller : ι → CallerStage τ
  worker : WorkerStage τ
  returned : List τ
  dropped : List τ

inductive Action (ι τ : Type)
  | call (k : ι) (op : Op τ)
  | lock (k : ι)
  | body (k : ι) (order : List Str)
  | signal (k : ι)
  | unlock (k : ι)
  | workerLock
  | workerCheck (now : ℤ)
  | workerUnlock
  | workerReceive

def Action.isWorker {ι τ : Type} : Action ι τ → Bool
  | .workerLock => true
  | .workerCheck _ => true
  | .workerUnlock => true
  | .workerReceive => true
  | .call _ _ => false
  | .lock _ => false
  | .body _ _ => false
  | .signal _ => false
  | .unlock _ => false

/-- The call of a caller that is not outside. -/
def CallerStage.op {τ : Type} : CallerStage τ → Option (Op τ)
  | .idle => none
  | .entering op => some op
  | .locked op => some op
  | .appended op => some op
  | .leaving op => some op

/-- The caller has the lock. -/
def CallerStage.Holds : CallerStage τ → Prop
  | .idle => False
  | .entering _ => False
  | .locked _ => True
  | .appended _ => True
  | .leaving _ => True

/-- The worker has the lock. -/
def WorkerStage.Holds : WorkerStage τ → Prop
  | .top => False
  | .checking => True
  | .taken _ => True
  | .foundEmpty => True
  | .parked => False

/-- How many steps the worker is away from handing out the first task of the queue, at most. -/
def WorkerStage.distance : WorkerStage τ → ℕ
  | .checking => 2
  | .top => 3
  | .taken _ => 4
  | .parked => 4
  | .foundEmpty => 5

/-- The task that the worker has taken and not returned yet. -/
def WorkerStage.inHand : WorkerStage τ → List τ
  | .taken t => [t]
  | _ => []

/-- The worker has seen an empty queue and has received no signal since. -/
def WorkerStage.Resting (w : WorkerStage τ) : Prop := w = .foundEmpty ∨ w = .parked

namespace Machine

variable {ι τ : Type} [DecidableEq ι] [DecidableEq τ] (heap : τ → Task) (maxSize : ℤ)

def start : Machine ι τ :=
  ⟨Taskqueue.start heap maxSize, false, false, fun _ => .idle, .top, [], []⟩

def setCaller (σ : Machine ι τ) (k : ι) (stage : CallerStage τ) : Machine ι τ :=
  { σ with caller := Function.update σ.caller k stage }

/-- Where the body of a method ends: `Enqueue` signals if it has appended its task. -/
def afterBody (σ : State τ) : Op τ → CallerStage τ
  | .enqueue t now =>
    if σ.q.isDuplicate t then .leaving (.enqueue t now) else .appended (.enqueue t now)
  | .done t now => .leaving (.done t now)
  | .failed t errMsg now => .leaving (.failed t errMsg now)

/-- The task that a call drops. -/
def droppedBy (σ : State τ) : Op τ → List τ
  | .enqueue t _ => if σ.q.isDuplicate t = false ∧ σ.q.IsFull then σ.q.queue.take 1 else []
  | .done _ _ => []
  | .failed _ _ _ => []

def step (σ : Machine ι τ) : Action ι τ → Option (Machine ι τ)
  | .call k op => if σ.caller k = .idle then some (σ.setCaller k (.entering op)) else none
  | .lock k =>
    match σ.caller k with
    | .entering op =>
      if σ.locked then none else some { σ.setCaller k (.locked op) with locked := true }
    | _ => none
  | .body k order =>
    match σ.caller k with
    | .locked op =>
      match Taskqueue.step σ.calls (op.call order) with
      | none => none
      | some calls =>
        some { σ.setCaller k (afterBody σ.calls op) with
          calls := calls
          dropped := σ.dropped ++ droppedBy σ.calls op }
    | _ => none
  -- `select` with a default: the slot is full afterwards in both cases
  | .signal k =>
    match σ.caller k with
    | .appended op => some { σ.setCaller k (.leaving op) with notEmpty := true }
    | _ => none
  | .unlock k =>
    match σ.caller k with
    | .leaving _ => some { σ.setCaller k .idle with locked := false }
    | _ => none
  | .workerLock =>
    if σ.worker = .top ∧ σ.locked = false then some { σ with worker := .checking, locked := true }
    else none
  | .workerCheck now =>
    if σ.worker = .checking then
      match σ.calls.q.queue with
      | [] => some { σ with worker := .foundEmpty }
      | t :: _ =>
        match Taskqueue.step σ.calls (.dequeue now) with
        | none => none
        | some calls => some { σ with calls := calls, worker := .taken t }
    else none
  | .workerUnlock =>
    match σ.worker with
    | .taken t => some { σ with worker := .top, locked := false, returned := σ.returned ++ [t] }
    | .foundEmpty => some { σ with worker := .parked, locked := false }
    | _ => none
  | .workerReceive =>
    if σ.worker = .parked ∧ σ.notEmpty = true then
      some { σ with worker := .top, notEmpty := false }
    else none

inductive Moves (σ : Machine ι τ) : Action ι τ → Machine ι τ → Prop
  | call {k : ι} {op : Op τ} (hstage : σ.caller k = .idle) :
      Moves σ (.call k op) (σ.setCaller k (.entering op))
  | lock {k : ι} {op : Op τ} (hstage : σ.caller k = .entering op) (hfree : σ.locked = false) :
      Moves σ (.lock k) { σ.setCaller k (.locked op) with locked := true }
  | body {k : ι} {order : List Str} {op : Op τ} {calls : State τ}
      (hstage : σ.caller k = .locked op)
      (hcalls : Taskqueue.step σ.calls (op.call order) = some calls) :
      Moves σ (.body k order) { σ.setCaller k (afterBody σ.calls op) with
        calls := calls
        dropped := σ.dropped ++ droppedBy σ.calls op }
  | signal {k : ι} {op : Op τ} (hstage : σ.caller k = .appended op) :
      Moves σ (.signal k) { σ.setCaller k (.leaving op) with notEmpty := true }
  | unlock {k : ι} {op : Op τ} (hstage : σ.caller k = .leaving op) :
      Moves σ (.unlock k) { σ.setCaller k .idle with locked := false }
  | workerLock (hstage : σ.worker = .top) (hfree : σ.locked = false) :
      Moves σ .workerLock { σ with worker := .checking, locked := true }
  | workerEmpty {now : ℤ} (hstage : σ.worker = .checking) (hqueue : σ.calls.q.queue = []) :
      Moves σ (.workerCheck now) { σ with worker := .foundEmpty }
  | workerTake {now : ℤ} {t : τ} {rest : List τ} {calls : State τ} (hstage : σ.worker = .checking)
      (hqueue : σ.calls.q.queue = t :: rest)
      (hcalls : Taskqueue.step σ.calls (.dequeue now) = some calls) :
      Moves σ (.workerCheck now) { σ with calls := calls, worker := .taken t }
  | workerReturn {t : τ} (hstage : σ.worker = .taken t) :
      Moves σ .workerUnlock
        { σ with worker := .top, locked := false, returned := σ.returned ++ [t] }
  | workerPark (hstage : σ.worker = .foundEmpty) :
      Moves σ .workerUnlock { σ with worker := .parked, locked := false }
  | workerReceive (hstage : σ.worker = .parked) (hsignal : σ.notEmpty = true) :
      Moves σ .workerReceive { σ with worker := .top, notEmpty := false }

variable {σ σ' : Machine ι τ} {a : Action ι τ} {t : τ}

theorem moves_of_step (h : step σ a = some σ') : Moves σ a σ' := by
  cases a <;> grind [step, Moves]

/-! ## The signal -/

omit [DecidableEq τ] in
theorem exists_caller_setCaller {P : CallerStage τ → Prop} {k : ι} {stage : CallerStage τ}
    (hk : ¬ P (σ.caller k)) (h : ∃ j, P (σ.caller j)) :
    ∃ j, P ((σ.setCaller k stage).caller j) := by
  obtain ⟨j, hj⟩ := h
  have hjk : j ≠ k := by
    rintro rfl
    exact hk hj
  exact ⟨j, by simpa only [setCaller, Function.update_of_ne hjk] using hj⟩

/-- The caller is in front of the `select` of `Enqueue`. -/
def Announcing (stage : CallerStage τ) : Prop := ∃ t now, stage = .appended (.enqueue t now)

variable {order : List Str} {op : Op τ}

omit [DecidableEq ι] in
theorem afterBody_cases {calls : State τ}
    (h : Taskqueue.step σ.calls (op.call order) = some calls) :
    Announcing (afterBody σ.calls op) ∨ calls.q.queue = σ.calls.q.queue := by
  cases op with
  | enqueue t now =>
    cases h
    cases hnew : σ.calls.q.isDuplicate t with
    | true => exact .inr (by simp [Queue.enqueue, hnew])
    | false => exact .inl ⟨t, now, by simp [afterBody, hnew]⟩
  | done t now | failed t errMsg now =>
    obtain ⟨-, rfl⟩ := ite_some_none_eq_some.mp h
    exact .inr Queue.queue_finish

/-- While the worker rests on an empty check, a task in the queue has left a signal, or its
`Enqueue` is about to send one. -/
def Signalled (σ : Machine ι τ) : Prop :=
  σ.worker.Resting → σ.calls.q.queue ≠ [] → σ.notEmpty = true ∨ ∃ k, Announcing (σ.caller k)

/-- A worker does not wait in vain: no signal for a queued task is lost. -/
theorem Signalled.step (h : Signalled σ) (hstep : step σ a = some σ') : Signalled σ' := by
  cases moves_of_step hstep with
  | call hstage | lock hstage | unlock hstage =>
    refine fun hrest hqueue => (h hrest hqueue).imp id (exists_caller_setCaller ?_)
    simp [Announcing, hstage]
  | @body k order op calls hstage hcalls =>
    intro hrest hqueue
    -- a task is only ever appended by a call that signals next
    obtain happended | hsame := afterBody_cases hcalls
    · exact .inr ⟨k, by simpa [setCaller] using happended⟩
    · refine (h hrest (hsame ▸ hqueue)).imp id (exists_caller_setCaller ?_)
      simp [Announcing, hstage]
  | signal hstage => exact fun _ _ => .inl rfl
  | workerEmpty hstage hqueue => exact fun _ hne => (hne hqueue).elim
  | workerLock | workerTake | workerReturn | workerReceive =>
    exact fun hrest => by simp [WorkerStage.Resting] at hrest
  | workerPark hstage => exact fun _ => h (.inl hstage)

/-- A lock that is taken is held by someone. -/
def LockHeld (σ : Machine ι τ) : Prop := σ.locked = true → σ.worker.Holds ∨ ∃ k, (σ.caller k).Holds

theorem LockHeld.step (h : LockHeld σ) (hstep : step σ a = some σ') : LockHeld σ' := by
  cases moves_of_step hstep with
  | call hstage =>
    refine fun hlocked => (h hlocked).imp id (exists_caller_setCaller ?_)
    simp [CallerStage.Holds, hstage]
  | @lock k op | @signal k op => exact fun _ => .inr ⟨k, by simp [setCaller, CallerStage.Holds]⟩
  | @body k order op =>
    have hholds : (afterBody σ.calls op).Holds := by
      cases op with
      | enqueue t now =>
        simp only [afterBody]
        split <;> trivial
      | done | failed => trivial
    exact fun _ => .inr ⟨k, by simpa [setCaller] using hholds⟩
  | workerLock | workerEmpty | workerTake => exact fun _ => .inl trivial
  | unlock | workerReturn | workerPark => exact fun hlocked => by cases hlocked
  | workerReceive hstage =>
    intro hlocked
    refine (h hlocked).imp (fun hholds => ?_) id
    simp [WorkerStage.Holds, hstage] at hholds

section Run

variable {heap : τ → Task} {maxSize : ℤ} {actions : List (Action ι τ)}

theorem signalled_of_run (hrun : run step (start heap maxSize) actions = some σ) : Signalled σ :=
  Runs.invariant (fun _ _ _ h hstep => h.step hstep) (fun _ hqueue => (hqueue rfl).elim) hrun

theorem lockHeld_of_run (hrun : run step (start heap maxSize) actions = some σ) : LockHeld σ :=
  Runs.invariant (fun _ _ _ h hstep => h.step hstep) (fun hlocked => by cases hlocked) hrun

end Run

theorem exists_step_of_holds {k : ι} (h : (σ.caller k).Holds) :
    ∃ a, (step σ a).isSome ∧ ∀ j op, a ≠ .call j op := by
  cases hstage : σ.caller k with
  | idle | entering op => simp [CallerStage.Holds, hstage] at h
  | locked op =>
    refine ⟨.body k σ.calls.q.statuses.keys, ?_, by simp⟩
    cases op <;> simp [step, hstage, Op.call, Taskqueue.step]
  | appended op => exact ⟨.signal k, by simp [step, hstage], by simp⟩
  | leaving op => exact ⟨.unlock k, by simp [step, hstage], by simp⟩

/-- Nobody waits for ever while there is a task. -/
theorem exists_step (hsignalled : Signalled σ) (hheld : LockHeld σ)
    (hqueue : σ.calls.q.queue ≠ []) :
    ∃ a, (step σ a).isSome ∧ ∀ k op, a ≠ .call k op := by
  cases hstage : σ.worker with
  | top =>
    cases hlocked : σ.locked with
    | false => exact ⟨.workerLock, by simp [step, hstage, hlocked], by simp⟩
    | true =>
      obtain hholds | ⟨k, hk⟩ := hheld hlocked
      · simp [WorkerStage.Holds, hstage] at hholds
      · exact exists_step_of_holds hk
  | checking =>
    obtain ⟨t, rest, hqueue⟩ := exists_cons_of_ne_nil hqueue
    refine ⟨.workerCheck 0, ?_, by simp⟩
    simp [step, hstage, hqueue, Taskqueue.step, Queue.dequeue]
  | taken t | foundEmpty => exact ⟨.workerUnlock, by simp [step, hstage], by simp⟩
  | parked =>
    obtain hsignal | ⟨k, t, now, hk⟩ := hsignalled (.inr hstage) hqueue
    · exact ⟨.workerReceive, by simp [step, hstage, hsignal], by simp⟩
    · exact exists_step_of_holds (k := k) (by simp [CallerStage.Holds, hk])

/-! ## The way of a task -/

/-- The worker hands out the task within `n` of its steps: it has it, or gets to its place. -/
def Due (σ : Machine ι τ) (t : τ) (n : ℕ) : Prop :=
  σ.worker = .taken t ∧ 1 ≤ n ∨
    t ∈ σ.calls.q.queue ∧ 3 * σ.calls.q.queue.idxOf t + σ.worker.distance ≤ n

variable {n : ℕ}

omit [DecidableEq ι] in
theorem Due.pos (h : Due σ t n) : 0 < n := by
  obtain ⟨-, hn⟩ | ⟨-, hn⟩ := h
  · exact hn
  · have hdistance : 0 < σ.worker.distance := by
      cases σ.worker <;> simp [WorkerStage.distance]
    omega

/-- A call drops a task or lets it move up. -/
theorem mem_queue_of_call {ρ ρ' : State τ}
    (h : Taskqueue.step ρ (op.call order) = some ρ') (ht : t ∈ ρ.q.queue) :
    droppedBy ρ op = [t] ∨ t ∈ ρ'.q.queue ∧ ρ'.q.queue.idxOf t ≤ ρ.q.queue.idxOf t := by
  cases op with
  | enqueue s now =>
    cases h
    cases hnew : ρ.q.isDuplicate s with
    | true => exact .inr (by simp [Queue.enqueue, hnew, ht])
    | false =>
      simp only [Queue.enqueue, hnew, Queue.push, droppedBy]
      obtain ⟨heq, hfull⟩ | ⟨hfull, dropped, rest, hqueue, heq⟩ := ρ.q.makeRoom_cases
      · right
        simp [heq, idxOf_append_of_mem ht, ht, Queue.setTask]
      · rw [hqueue] at ht ⊢
        obtain rfl | ht := mem_cons.mp ht
        · exact .inl (by simp [hfull])
        · by_cases hd : dropped = t
          · exact .inl (by simp [hfull, hd])
          · right
            simp [heq, idxOf_append_of_mem ht, ht, Queue.setTask, idxOf_cons_ne _ hd]
  | done s now =>
    obtain ⟨-, rfl⟩ := ite_some_none_eq_some.mp h
    exact .inr (by simp [Queue.done, Queue.queue_finish, ht])
  | failed s errMsg now =>
    obtain ⟨-, rfl⟩ := ite_some_none_eq_some.mp h
    exact .inr (by simp [Queue.failed, Queue.queue_finish, ht])

theorem Due.caller_step (h : Due σ t n) (hstep : step σ a = some σ')
    (ha : a.isWorker = false) : Due σ' t n ∨ σ'.dropped = σ.dropped ++ [t] := by
  cases moves_of_step hstep with
  | @body k order op calls hstage hcalls =>
    obtain htaken | ⟨ht, hn⟩ := h
    · exact .inl (.inl htaken)
    · obtain hdropped | ⟨ht', hidx⟩ := mem_queue_of_call hcalls ht
      · exact .inr (congrArg (σ.dropped ++ ·) hdropped)
      · refine .inl (.inr ⟨ht', ?_⟩)
        have hworker : σ.worker.distance = (σ.setCaller k (afterBody σ.calls op)).worker.distance :=
          rfl
        dsimp only at hn ⊢
        omega
  | call | lock | signal | unlock => exact .inl h
  | workerLock | workerEmpty | workerTake | workerReturn | workerPark | workerReceive => cases ha

/-- A step of the worker brings a task nearer, or returns it. -/
theorem Due.worker_step (h : Due σ t (n + 1)) (hstep : step σ a = some σ')
    (ha : a.isWorker = true) : Due σ' t n ∨ σ'.returned = σ.returned ++ [t] := by
  cases moves_of_step hstep with
  | workerLock hstage | workerPark hstage | workerReceive hstage =>
    simp only [Due, hstage, WorkerStage.distance, reduceCtorEq, false_and, false_or] at h ⊢
    exact .inl ⟨h.1, by omega⟩
  | workerEmpty hstage hqueue => simp [Due, hstage, hqueue] at h
  | @workerTake now s rest calls hstage hqueue hcalls =>
    simp only [Taskqueue.step, Queue.dequeue, hqueue] at hcalls
    cases hcalls
    simp only [Due, hstage, hqueue, WorkerStage.distance, reduceCtorEq, false_and, false_or] at h
    obtain ⟨ht, hn⟩ := h
    refine .inl ?_
    by_cases hst : s = t
    · exact .inl ⟨by rw [hst], by omega⟩
    · obtain rfl | ht := mem_cons.mp ht
      · exact (hst rfl).elim
      · rw [idxOf_cons_ne _ hst] at hn
        refine .inr ⟨ht, ?_⟩
        simp only [Queue.handOut, WorkerStage.distance]
        omega
  | @workerReturn s hstage =>
    obtain ⟨htaken, -⟩ | ⟨ht, hn⟩ := h
    · obtain rfl : s = t := by simpa [hstage] using htaken
      exact .inr rfl
    · rw [hstage] at hn
      exact .inl (.inr ⟨ht, Nat.le_of_succ_le_succ hn⟩)
  | call | lock | body | signal | unlock => cases ha

/-- What happened to a task between two states. -/
def Settled (σ σ' : Machine ι τ) (t : τ) : Prop :=
  (∃ more, σ'.returned = σ.returned ++ more ∧ t ∈ more) ∨
    ∃ more, σ'.dropped = σ.dropped ++ more ∧ t ∈ more

theorem grows_of_step (hstep : step σ a = some σ') :
    σ.returned <+: σ'.returned ∧ σ.dropped <+: σ'.dropped := by
  cases moves_of_step hstep with
  | body => exact ⟨prefix_refl _, prefix_append ..⟩
  | workerReturn => exact ⟨prefix_append .., prefix_refl _⟩
  | call | lock | signal | unlock | workerLock | workerEmpty | workerTake | workerPark
  | workerReceive => exact ⟨prefix_refl _, prefix_refl _⟩

theorem grows_of_run (hrun : run step σ actions = some σ') :
    σ.returned <+: σ'.returned ∧ σ.dropped <+: σ'.dropped := by
  refine Runs.invariant (P := fun ρ => σ.returned <+: ρ.returned ∧ σ.dropped <+: ρ.dropped) ?_
    ⟨prefix_refl _, prefix_refl _⟩ hrun
  intro ρ a ρ' h hstep
  obtain ⟨hreturned, hdropped⟩ := grows_of_step hstep
  exact ⟨h.1.trans hreturned, h.2.trans hdropped⟩

/-- Enough steps of the worker settle a task. -/
theorem Due.settled (h : Due σ t n) (hrun : run step σ actions = some σ')
    (hn : n ≤ actions.countP Action.isWorker) : Settled σ σ' t := by
  induction actions generalizing σ n with
  | nil =>
    have hpos := h.pos
    simp only [countP_nil] at hn
    omega
  | cons a actions ih =>
    obtain ⟨ρ, hstep, hrun⟩ := run_cons.mp hrun
    obtain ⟨⟨r, hr⟩, d, hd⟩ := grows_of_step hstep
    obtain ⟨⟨r', hr'⟩, d', hd'⟩ := grows_of_run hrun
    -- what is settled later on is settled from here
    have hlater : Settled ρ σ' t → Settled σ σ' t := by
      rintro (⟨more, hmore, ht⟩ | ⟨more, hmore, ht⟩)
      · exact .inl ⟨r ++ more, by rw [hmore, ← hr, append_assoc], mem_append_right _ ht⟩
      · exact .inr ⟨d ++ more, by rw [hmore, ← hd, append_assoc], mem_append_right _ ht⟩
    cases ha : a.isWorker with
    | false =>
      rw [countP_cons_of_neg (by simp [ha])] at hn
      obtain hdue | hdropped := h.caller_step hstep ha
      · exact hlater (ih hdue hrun hn)
      · exact .inr ⟨t :: d', by rw [← hd', hdropped, append_assoc]; rfl, mem_cons_self⟩
    | true =>
      rw [countP_cons_of_pos ha] at hn
      obtain ⟨m, rfl⟩ := Nat.exists_eq_succ_of_ne_zero h.pos.ne'
      obtain hdue | hreturned := h.worker_step hstep ha
      · exact hlater (ih hdue hrun (Nat.le_of_succ_le_succ hn))
      · exact .inl ⟨t :: r', by rw [← hr', hreturned, append_assoc]; rfl, mem_cons_self⟩

/-- In every state that is reached, the worker is not parked without a signal while a task waits and
no `Enqueue` is in progress; while a task waits, the worker or a call in progress can take a step;
and a task of the queue is handed out when the worker has taken `3 * i + 5` steps, where `i` is its
place, unless a full queue dropped it. -/
theorem no_lost_wakeup {actions : List (Action ι τ)}
    (hrun : run step (start heap maxSize) actions = some σ) :
    (¬ (σ.calls.q.queue ≠ [] ∧ σ.notEmpty = false ∧ σ.worker = .parked ∧
      ∀ k t now, (σ.caller k).op ≠ some (.enqueue t now))) ∧
    (σ.calls.q.queue ≠ [] → ∃ a, (step σ a).isSome ∧ ∀ k op, a ≠ .call k op) ∧
    ∀ t ∈ σ.calls.q.queue, ∀ more σ', run step σ more = some σ' →
      3 * σ.calls.q.queue.idxOf t + 5 ≤ more.countP Action.isWorker → Settled σ σ' t := by
  have hsignalled := signalled_of_run hrun
  refine ⟨?_, fun hqueue => exists_step hsignalled (lockHeld_of_run hrun) hqueue, ?_⟩
  · rintro ⟨hqueue, hempty, hparked, hnone⟩
    obtain hsignal | ⟨k, t, now, hk⟩ := hsignalled (.inr hparked) hqueue
    · rw [hempty] at hsignal
      exact Bool.false_ne_true hsignal
    · exact hnone k t now (by rw [hk]; rfl)
  · intro t ht more σ' hmore hn
    have hdistance : σ.worker.distance ≤ 5 := by
      cases σ.worker <;> simp [WorkerStage.distance]
    exact Due.settled (.inr ⟨ht, by omega⟩) hmore hn

/-- The worker has found the queue empty and waits when the first task arrives. -/
theorem no_lost_wakeup_parked : ∃ σ : Machine Bool Bool,
    run step (start twoTasks 0) [.workerLock, .workerCheck 0, .workerUnlock,
      .call false (.enqueue false 1), .lock false, .body false [], .signal false, .unlock false] =
        some σ ∧
    ¬ (σ.calls.q.queue ≠ [] ∧ σ.notEmpty = false ∧ σ.worker = .parked ∧
      ∀ k t now, (σ.caller k).op ≠ some (.enqueue t now)) := by
  obtain ⟨σ, hrun⟩ := isSome_iff_exists.mp (show (run step (start twoTasks 0)
    [.workerLock, .workerCheck 0, .workerUnlock, .call false (.enqueue false 1), .lock false,
      .body false [], .signal false, .unlock false] : Option (Machine Bool Bool)).isSome by
      decide)
  exact ⟨σ, hrun, (no_lost_wakeup twoTasks 0 hrun).1⟩

/-! ## Where the tasks are -/

/-- The tasks that the worker returned, has in its hand, or finds in the queue. -/
def kept (σ : Machine ι τ) : List τ := σ.returned ++ σ.worker.inHand ++ σ.calls.q.queue

omit [DecidableEq ι] in
/-- What a call drops was in front of the queue, and what it accepts comes to its end. -/
theorem queue_of_call {ρ ρ' : State τ} (h : Taskqueue.step ρ (op.call order) = some ρ') :
    ∃ new, ρ'.accepted = ρ.accepted ++ new ∧ droppedBy ρ op ++ ρ'.q.queue = ρ.q.queue ++ new := by
  cases op with
  | enqueue t now =>
    cases h
    cases hnew : ρ.q.isDuplicate t with
    | true => exact ⟨[], by simp [Queue.enqueue, hnew, droppedBy]⟩
    | false =>
      refine ⟨[t], by simp, ?_⟩
      simp only [Queue.enqueue, hnew, Queue.push, droppedBy]
      obtain ⟨heq, hfull⟩ | ⟨hfull, dropped, rest, hqueue, heq⟩ := ρ.q.makeRoom_cases
      · simp [heq, hfull]
      · simp [heq, hfull, hqueue]
  | done | failed =>
    obtain ⟨-, rfl⟩ := ite_some_none_eq_some.mp h
    exact ⟨[], by simp, by simp [droppedBy, Queue.done, Queue.failed, Queue.queue_finish]⟩

/-- Every accepted task was dropped or kept, and those that were kept are in their order. -/
def Conserved (σ : Machine ι τ) : Prop :=
  σ.calls.accepted.Perm (σ.dropped ++ σ.kept) ∧ σ.kept.Sublist σ.calls.accepted

/-- A step neither loses nor doubles a task. -/
theorem Conserved.step (h : Conserved σ) (hstep : step σ a = some σ') : Conserved σ' := by
  cases moves_of_step hstep with
  | @body k order op calls hstage hcalls =>
    obtain ⟨new, haccepted, hqueue⟩ := queue_of_call hcalls
    have hkept : σ.kept ++ new =
        σ.returned ++ σ.worker.inHand ++ (droppedBy σ.calls op ++ calls.q.queue) := by
      rw [hqueue, kept, append_assoc]
    obtain ⟨hplaces, hinOrder⟩ := And.intro (h.1.append_right new) (h.2.append_right new)
    rw [append_assoc, hkept] at hplaces
    rw [hkept] at hinOrder
    rw [Conserved, haccepted]
    refine ⟨?_, ((sublist_append_right ..).append_left _).trans hinOrder⟩
    have hmoved := hplaces.trans ((perm_append_comm_assoc ..).append_left σ.dropped)
    rwa [← append_assoc] at hmoved
  | @workerTake now t rest calls hstage hqueue hcalls =>
    simp only [Taskqueue.step, Queue.dequeue, hqueue] at hcalls
    cases hcalls
    simpa [Conserved, kept, WorkerStage.inHand, hstage, hqueue, Queue.handOut] using h
  | workerLock hstage | workerEmpty hstage | workerReturn hstage | workerPark hstage
  | workerReceive hstage => simpa [Conserved, kept, WorkerStage.inHand, hstage] using h
  | call | lock | signal | unlock => exact h

/-- In every interleaving of the producers, the handlers and the worker, each accepted task is in
exactly one place: dropped by a full queue, returned by `Dequeue`, in the hand of the worker, or in
the queue. Those that are not dropped come in the order in which they were accepted. -/
theorem tasks_conserved {actions : List (Action ι τ)}
    (hrun : run step (start heap maxSize) actions = some σ) :
    σ.calls.accepted.Perm (σ.dropped ++ σ.kept) ∧ σ.kept.Sublist σ.calls.accepted :=
  Runs.invariant (P := Conserved) (fun _ _ _ h hstep => h.step hstep) ⟨.refl _, .refl _⟩ hrun

/-- Two calls of `Enqueue`, one after the other. -/
def enqueueTwice : List (Action Bool Bool) :=
  [.call true (.enqueue false 0), .lock true, .body true [], .signal true, .unlock true,
    .call true (.enqueue true 1), .lock true, .body true []]

/-- A queue for one task drops the first one. -/
theorem tasks_conserved_full : ∃ σ ∈ run step (start twoTasks 1) enqueueTwice,
    σ.dropped = [false] ∧ σ.calls.accepted.Perm (σ.dropped ++ σ.kept) := by
  obtain ⟨σ, hrun, hdropped⟩ : ∃ σ ∈ run step (start twoTasks 1) enqueueTwice,
    σ.dropped = [false] := by decide
  exact ⟨σ, hrun, hdropped, (tasks_conserved twoTasks 1 hrun).1⟩

end Machine

end Taskqueue
