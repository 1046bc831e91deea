import Aflare.Go.Maps
import Aflare.Go.Strings
import Aflare.Lib.Runs

/-!
# The task queue

`Enqueue` appends a task unless a task with its id is queued or running, and drops the oldest task
when the queue is full. `Dequeue` hands out the first task, which is running until `Done` or
`Failed` is called for its id. The status of a task is kept in the task, and a table leads from its
id to it.

Tasks are shared between the queue, the table and the callers, so they are pointers into a heap
here. A call of `Dequeue` on an empty queue waits until it is cancelled, and changes nothing. -/

namespace Taskqueue

open Go Runs List

/-- `TaskStatus`; `unset` is the empty string. -/
inductive TaskStatus
  | unset
  | pending
  | running
  | done
  | failed
  deriving DecidableEq

/-- `Task`, without what the queue does not read. Times are in nanoseconds. -/
structure Task where
  id : Str
  createdAt : ℤ
  status : TaskStatus
  error : Str
  startedAt : ℤ
  doneAt : ℤ

/-- The number of statuses that are kept. -/
def maxStatusEntries : ℕ := 10000

/-- `Queue`, with the tasks that the pointers `τ` point to. -/
structure Queue (τ : Type) where
  heap : τ → Task
  queue : List τ
  active : GoMap Str Bool
  statuses : GoMap Str τ
  maxSize : ℤ

namespace Queue

variable {τ : Type}

def new (heap : τ → Task) (maxSize : ℤ) : Queue τ := ⟨heap, [], ∅, ∅, maxSize⟩

variable (q : Queue τ) (t : τ)

def idOf : Str := (q.heap t).id

/-- The check for duplicates: the id is active or queued. -/
def isDuplicate : Bool := q.active.getD (q.idOf t) false || q.queue.any fun s => q.idOf s = q.idOf t

/-- The queue has a capacity and is at it. -/
def IsFull : Prop := 0 < q.maxSize ∧ q.maxSize ≤ q.queue.length
  deriving Decidable

/-- The oldest task of a full queue is dropped. -/
def makeRoom : Queue τ :=
  if q.IsFull then
    match q.queue with
    | [] => q
    | dropped :: rest => { q with queue := rest, statuses := q.statuses.erase (q.idOf dropped) }
  else q

variable (taskID : Str)

def status : TaskStatus :=
  match q.statuses[taskID]? with
  | some t => (q.heap t).status
  | none => .unset

/-- One round of `pruneStatuses`: the entry goes if its task is finished. -/
def pruneEntry (heap : τ → Task) (statuses : GoMap Str τ) (id : Str) : GoMap Str τ :=
  match statuses[id]? with
  | some t =>
    if (heap t).status = .done ∨ (heap t).status = .failed then statuses.erase id else statuses
  | none => statuses

/-- The loop of `pruneStatuses` over the table, in the order of the range. -/
def pruneLoop (heap : τ → Task) : List Str → GoMap Str τ → GoMap Str τ
  | [], statuses => statuses
  | id :: order, statuses =>
    let statuses := pruneEntry heap statuses id
    if statuses.size ≤ maxStatusEntries then statuses else pruneLoop heap order statuses

def pruneStatuses (order : List Str) : Queue τ :=
  if q.statuses.size ≤ maxStatusEntries then q
  else { q with statuses := pruneLoop q.heap order q.statuses }

variable [DecidableEq τ]

def setTask (task : Task) : Queue τ := { q with heap := Function.update q.heap t task }

/-- A task is appended, with its initial status. -/
def push (now : ℤ) : Queue τ :=
  { q.setTask t { q.heap t with status := .pending, createdAt := now } with
    statuses := q.statuses.insert (q.idOf t) t
    queue := q.queue ++ [t] }

/-- `Enqueue`, which returns nil in every case; the signal is left to the worker's model. -/
def enqueue (now : ℤ) : Queue τ :=
  if q.isDuplicate t then q else q.makeRoom.push t now

/-- The first task is taken and marked as running. -/
def handOut (rest : List τ) (now : ℤ) : Queue τ :=
  { q.setTask t { q.heap t with status := .running, startedAt := now } with
    queue := rest
    active := q.active.insert (q.idOf t) true }

/-- `Dequeue`, where there is a task. -/
def dequeue (now : ℤ) : Option (τ × Queue τ) :=
  match q.queue with
  | [] => none
  | t :: rest => some (t, q.handOut t rest now)

/-- What `Done` and `Failed` have in common: the id is not active any more, and the task that the
table has for it is marked. -/
def finish (mark : Task → Task) (order : List Str) : Queue τ :=
  let q := { q with active := q.active.erase taskID }
  let q :=
    match q.statuses[taskID]? with
    | some t => q.setTask t (mark (q.heap t))
    | none => q
  q.pruneStatuses order

def done (now : ℤ) (order : List Str) : Queue τ :=
  q.finish taskID (fun t => { t with status := .done, doneAt := now }) order

def failed (taskID errMsg : Str) (now : ℤ) (order : List Str) : Queue τ :=
  q.finish taskID (fun t => { t with status := .failed, error := errMsg, doneAt := now }) order

end Queue

/-! ## Calls -/

/-- The calls, with the time and the order of a range where they need one. `Done` and `Failed` are
called with the id of a task. -/
inductive Call (τ : Type)
  | enqueue (t : τ) (now : ℤ)
  | dequeue (now : ℤ)
  | done (t : τ) (now : ℤ) (order : List Str)
  | failed (t : τ) (errMsg : Str) (now : ℤ) (order : List Str)

/-- A queue, and what its callers have seen: the tasks that `Enqueue` accepted, those that `Dequeue`
returned, both in their order, and those of the latter that are not finished. -/
structure State (τ : Type) where
  q : Queue τ
  accepted : List τ
  handed : List τ
  unfinished : List τ

variable {τ : Type} [DecidableEq τ]

def start (heap : τ → Task) (maxSize : ℤ) : State τ := ⟨.new heap maxSize, [], [], []⟩

variable (σ : State τ)

def step : Call τ → Option (State τ)
  | .enqueue t now =>
    some { σ with
      q := σ.q.enqueue t now
      accepted := if σ.q.isDuplicate t then σ.accepted else σ.accepted ++ [t] }
  | .dequeue now =>
    match σ.q.dequeue now with
    | none => some σ
    | some (t, q) =>
      some { σ with q := q, handed := σ.handed ++ [t], unfinished := σ.unfinished ++ [t] }
  | .done t now order =>
    if order.Perm σ.q.statuses.keys then
      some { σ with q := σ.q.done (σ.q.idOf t) now order, unfinished := σ.unfinished.erase t }
    else none
  | .failed t errMsg now order =>
    if order.Perm σ.q.statuses.keys then
      some { σ with
        q := σ.q.failed (σ.q.idOf t) errMsg now order, unfinished := σ.unfinished.erase t }
    else none

/-- `Done` and `Failed` are called for tasks that were handed out and are not finished. -/
def Finishes : Call τ → Prop
  | .done t _ _ => t ∈ σ.unfinished
  | .failed t _ _ _ => t ∈ σ.unfinished
  | .enqueue _ _ => True
  | .dequeue _ => True

instance (σ : State τ) : DecidablePred (Finishes σ)
  | .done t _ _ => inferInstanceAs (Decidable (t ∈ σ.unfinished))
  | .failed t _ _ _ => inferInstanceAs (Decidable (t ∈ σ.unfinished))
  | .enqueue _ _ => .isTrue trivial
  | .dequeue _ => .isTrue trivial

/-- A task is not accepted by a full queue. -/
def HasRoom : Call τ → Prop
  | .enqueue t _ => σ.q.isDuplicate t = true ∨ ¬ σ.q.IsFull
  | .dequeue _ => True
  | .done _ _ _ => True
  | .failed _ _ _ _ => True

omit [DecidableEq τ] in
instance (σ : State τ) : DecidablePred (HasRoom σ)
  | .enqueue _ _ => inferInstanceAs (Decidable (_ ∨ ¬ _))
  | .dequeue _ => .isTrue trivial
  | .done _ _ _ => .isTrue trivial
  | .failed _ _ _ _ => .isTrue trivial

/-! ## What the methods keep -/

variable {heap : τ → Task} {order : List Str}

namespace Queue

variable {q : Queue τ} {s t : τ} {id : Str}

/-- The table leads from the id of a task to it, and it has the given status. -/
def Tracked (q : Queue τ) (t : τ) (status : TaskStatus) : Prop :=
  q.statuses[q.idOf t]? = some t ∧ (q.heap t).status = status

omit [DecidableEq τ] in
@[simp] theorem isDuplicate_eq_false_iff : q.isDuplicate t = false ↔
    q.active.getD (q.idOf t) false = false ∧ q.idOf t ∉ q.queue.map q.idOf := by
  simp only [isDuplicate, Bool.or_eq_false_iff, any_eq_false, decide_eq_true_eq, mem_map,
    not_exists, not_and]

variable {task : Task}

theorem idOf_setTask (h : task.id = q.idOf t) : (q.setTask t task).idOf = q.idOf := by
  funext s
  by_cases hs : s = t
  · subst hs
    simpa [idOf, setTask] using h
  · simp [idOf, setTask, hs]

theorem heap_setTask_of_ne (h : s ≠ t) : (q.setTask t task).heap s = q.heap s :=
  Function.update_of_ne h ..

omit [DecidableEq τ] in
theorem makeRoom_cases : q.makeRoom = q ∧ ¬ q.IsFull ∨ q.IsFull ∧ ∃ dropped rest,
    q.queue = dropped :: rest ∧
    q.makeRoom = { q with queue := rest, statuses := q.statuses.erase (q.idOf dropped) } := by
  by_cases hfull : q.IsFull
  · right
    cases hqueue : q.queue with
    | nil =>
      have hlen := hfull.2
      have hpos := hfull.1
      simp only [hqueue, length_nil] at hlen
      omega
    | cons dropped rest => exact ⟨hfull, dropped, rest, rfl, by simp [makeRoom, hfull, hqueue]⟩
  · exact .inl ⟨if_neg hfull, hfull⟩

@[simp] theorem idOf_push (now : ℤ) : (q.push t now).idOf = q.idOf := idOf_setTask rfl

omit [DecidableEq τ] in
@[simp] theorem idOf_makeRoom : q.makeRoom.idOf = q.idOf := by
  obtain ⟨heq, -⟩ | ⟨-, _, _, -, heq⟩ := q.makeRoom_cases
  · rw [heq]
  · rw [heq]
    rfl

variable {statuses : GoMap Str τ}

omit [DecidableEq τ] in
theorem getElem?_pruneEntry (key : Str)
    (h : statuses[id]? = some t) (hdone : (heap t).status ≠ .done)
    (hfailed : (heap t).status ≠ .failed) : (pruneEntry heap statuses key)[id]? = some t := by
  grind [pruneEntry]

omit [DecidableEq τ] in
theorem getElem?_pruneLoop (h : statuses[id]? = some t) (hdone : (heap t).status ≠ .done)
    (hfailed : (heap t).status ≠ .failed) : (pruneLoop heap order statuses)[id]? = some t := by
  induction order generalizing statuses with
  | nil => exact h
  | cons key order ih =>
    have hkept := getElem?_pruneEntry key h hdone hfailed
    simp only [pruneLoop]
    split
    · exact hkept
    · exact ih hkept

omit [DecidableEq τ] in
theorem getElem?_pruneStatuses (h : q.statuses[id]? = some t) (hdone : (q.heap t).status ≠ .done)
    (hfailed : (q.heap t).status ≠ .failed) : (q.pruneStatuses order).statuses[id]? = some t := by
  rw [pruneStatuses]
  split
  · exact h
  · exact getElem?_pruneLoop h hdone hfailed

section Finish

variable {mark : Task → Task} {order : List Str}

omit [DecidableEq τ] in
theorem pruneStatuses_frame : (q.pruneStatuses order).heap = q.heap ∧
    (q.pruneStatuses order).queue = q.queue ∧ (q.pruneStatuses order).active = q.active := by
  rw [pruneStatuses]
  split <;> exact ⟨rfl, rfl, rfl⟩

theorem finish_of_tracked (h : q.statuses[id]? = some t) : q.finish id mark order =
    ({ q with active := q.active.erase id }.setTask t (mark (q.heap t))).pruneStatuses order := by
  simp only [finish, h]

theorem queue_finish : (q.finish id mark order).queue = q.queue := by
  simp only [finish, pruneStatuses_frame]
  split <;> rfl

theorem active_finish : (q.finish id mark order).active = q.active.erase id := by
  simp only [finish, pruneStatuses_frame]
  split <;> rfl

theorem idOf_finish (hmark : ∀ task, (mark task).id = task.id) :
    (q.finish id mark order).idOf = q.idOf := by
  cases h : q.statuses[id]? with
  | none =>
    funext s
    simp [idOf, finish, h, pruneStatuses_frame]
  | some t =>
    rw [finish_of_tracked h]
    funext s
    rw [idOf, pruneStatuses_frame.1]
    exact congrFun (idOf_setTask (q := { q with active := q.active.erase id }) (hmark _)) s

theorem Tracked.finish {status : TaskStatus} (h : q.Tracked s status) (hdone : status ≠ .done)
    (hfailed : status ≠ .failed) (hid : q.Tracked t .running) (hne : q.idOf s ≠ q.idOf t)
    (hmark : ∀ task, (mark task).id = task.id) :
    (q.finish (q.idOf t) mark order).Tracked s status := by
  have hst : s ≠ t := fun heq => hne (congrArg q.idOf heq)
  rw [Tracked, idOf_finish hmark, finish_of_tracked hid.1]
  have hheap : ({ q with active := q.active.erase (q.idOf t) }.setTask t (mark (q.heap t))).heap s =
      q.heap s := Function.update_of_ne hst ..
  refine ⟨getElem?_pruneStatuses h.1 ?_ ?_, ?_⟩
  · rwa [hheap, h.2]
  · rwa [hheap, h.2]
  · rw [pruneStatuses_frame.1, hheap, h.2]

end Finish

end Queue

/-! ## The invariant -/

variable {σ σ' : State τ} {c : Call τ} {t : τ} {now : ℤ}

/-- Waiting and running tasks have ids of their own, the running ones are those marked as active,
tasks come and go in one order, and every task has the status that its place gives it. -/
structure Inv (σ : State τ) : Prop where
  distinct : ((σ.q.queue ++ σ.unfinished).map σ.q.idOf).Nodup
  active : ∀ id, σ.q.active.getD id false = true ↔ id ∈ σ.unfinished.map σ.q.idOf
  inOrder : (σ.handed ++ σ.q.queue).Sublist σ.accepted
  pending : ∀ t ∈ σ.q.queue, σ.q.Tracked t .pending
  running : ∀ t ∈ σ.unfinished, σ.q.Tracked t .running

namespace Inv

omit [DecidableEq τ] in
theorem start (heap : τ → Task) (maxSize : ℤ) : Inv (start heap maxSize) where
  distinct := nodup_nil
  active := fun id => by simp [Taskqueue.start, Queue.new]
  inOrder := List.Sublist.refl _
  pending := fun _ h => by cases h
  running := fun _ h => by cases h

omit [DecidableEq τ] in
theorem makeRoom (h : Inv σ) : Inv { σ with q := σ.q.makeRoom } := by
  obtain ⟨heq, -⟩ | ⟨-, dropped, rest, hqueue, heq⟩ := σ.q.makeRoom_cases
  · rw [heq]
    exact h
  rw [heq]
  have hdistinct := h.distinct
  rw [hqueue, cons_append, map_cons, nodup_cons] at hdistinct
  -- the entry that goes is not the one of another task
  have htracked : ∀ t ∈ rest ++ σ.unfinished, ∀ status, σ.q.Tracked t status →
      Queue.Tracked { σ.q with
        queue := rest, statuses := σ.q.statuses.erase (σ.q.idOf dropped) } t status := by
    intro t ht status hstatus
    have hne : σ.q.idOf dropped ≠ σ.q.idOf t := fun hid => hdistinct.1 (hid ▸ mem_map_of_mem ht)
    refine ⟨?_, hstatus.2⟩
    refine (Std.ExtTreeMap.getElem?_erase).trans ((if_neg ?_).trans hstatus.1)
    exact fun heq => hne (Std.LawfulEqOrd.eq_of_compare heq)
  refine ⟨hdistinct.2, h.active, ?_, fun t ht => ?_, fun t ht => ?_⟩
  · refine List.Sublist.trans ?_ h.inOrder
    rw [hqueue]
    exact List.Sublist.append_left (sublist_cons_self ..) _
  · exact htracked t (mem_append_left _ ht) _ (h.pending t (hqueue ▸ mem_cons_of_mem _ ht))
  · exact htracked t (mem_append_right _ ht) _ (h.running t ht)

theorem push (h : Inv σ) (hnew : σ.q.isDuplicate t = false) :
    Inv { σ with q := σ.q.push t now, accepted := σ.accepted ++ [t] } := by
  obtain ⟨hactive, hqueued⟩ := Queue.isDuplicate_eq_false_iff.mp hnew
  have hrunning : σ.q.idOf t ∉ σ.unfinished.map σ.q.idOf := by
    rw [← h.active, hactive]
    exact Bool.false_ne_true
  have htracked : ∀ s, σ.q.idOf s ≠ σ.q.idOf t → ∀ status, σ.q.Tracked s status →
      (σ.q.push t now).Tracked s status := by
    intro s hne status hstatus
    have hst : s ≠ t := fun heq => hne (congrArg σ.q.idOf heq)
    rw [Queue.Tracked, Queue.idOf_push]
    refine ⟨?_, ?_⟩
    · refine (Std.ExtTreeMap.getElem?_insert).trans ((if_neg ?_).trans hstatus.1)
      simpa using hne.symm
    · exact (congrArg Task.status (Queue.heap_setTask_of_ne hst)).trans hstatus.2
  refine ⟨?_, ?_, ?_, fun s hs => ?_, fun s hs => ?_⟩
  · -- the new task stands between the queue and the running tasks
    have hperm : (σ.q.queue ++ [t] ++ σ.unfinished).Perm (t :: (σ.q.queue ++ σ.unfinished)) := by
      simp [perm_middle]
    have hnodup : ((t :: (σ.q.queue ++ σ.unfinished)).map σ.q.idOf).Nodup := by
      rw [map_cons, nodup_cons, map_append, mem_append, not_or, ← map_append]
      exact ⟨⟨hqueued, hrunning⟩, h.distinct⟩
    simp only [Queue.idOf_push]
    exact (hperm.map _).nodup_iff.mpr hnodup
  · simp only [Queue.idOf_push]
    exact h.active
  · exact (append_assoc ..) ▸ h.inOrder.append (List.Sublist.refl [t])
  · obtain hs | hs := mem_append.mp hs
    · exact htracked s (fun heq => hqueued (heq ▸ mem_map_of_mem hs)) _ (h.pending s hs)
    · obtain rfl := mem_singleton.mp hs
      rw [Queue.Tracked, Queue.idOf_push]
      simp [Queue.push, Queue.setTask, Queue.idOf]
  · exact htracked s (fun heq => hrunning (heq ▸ mem_map_of_mem hs)) _ (h.running s hs)

theorem enqueue (h : Inv σ) : Inv { σ with
    q := σ.q.enqueue t now
    accepted := if σ.q.isDuplicate t then σ.accepted else σ.accepted ++ [t] } := by
  rw [Queue.enqueue]
  cases hnew : σ.q.isDuplicate t with
  | true => exact h
  | false =>
    refine h.makeRoom.push ?_
    -- what was not there is not there after a task is dropped
    obtain ⟨hactive, hqueued⟩ := Queue.isDuplicate_eq_false_iff.mp hnew
    rw [Queue.isDuplicate_eq_false_iff, Queue.idOf_makeRoom]
    obtain ⟨heq, -⟩ | ⟨-, dropped, rest, hqueue, heq⟩ := σ.q.makeRoom_cases
    · rw [heq]
      exact ⟨hactive, hqueued⟩
    · rw [heq]
      refine ⟨hactive, fun hmem => hqueued ?_⟩
      rw [hqueue]
      exact mem_cons_of_mem _ hmem

/-- The first task of the queue becomes a running one. -/
theorem handOut (h : Inv σ) {rest : List τ} (hqueue : σ.q.queue = t :: rest) : Inv { σ with
    q := σ.q.handOut t rest now
    handed := σ.handed ++ [t]
    unfinished := σ.unfinished ++ [t] } := by
  have hid : (σ.q.handOut t rest now).idOf = σ.q.idOf := Queue.idOf_setTask rfl
  have hdistinct := h.distinct
  rw [hqueue, cons_append, map_cons, nodup_cons] at hdistinct
  have htracked : ∀ s ∈ rest ++ σ.unfinished, ∀ status, σ.q.Tracked s status →
      (σ.q.handOut t rest now).Tracked s status := by
    intro s hs status hstatus
    have hst : s ≠ t := by
      rintro rfl
      exact hdistinct.1 (mem_map_of_mem hs)
    rw [Queue.Tracked, hid]
    exact ⟨hstatus.1, (congrArg Task.status (Queue.heap_setTask_of_ne hst)).trans hstatus.2⟩
  refine ⟨?_, fun id => ?_, ?_, fun s hs => ?_, fun s hs => ?_⟩
  · have hperm : (rest ++ (σ.unfinished ++ [t])).Perm (t :: (rest ++ σ.unfinished)) := by
      rw [← append_assoc]
      exact perm_append_singleton ..
    rw [hid]
    exact (hperm.map _).nodup_iff.mpr (nodup_cons.mpr hdistinct)
  · rw [hid, map_append, mem_append, ← h.active, map_singleton, mem_singleton,
      Queue.handOut, Std.ExtTreeMap.getD_insert]
    split
    · next heq => simp [Std.LawfulEqOrd.eq_of_compare heq]
    · next hne => exact (or_iff_left fun heq : id = σ.q.idOf t => hne (by simp [heq])).symm
  · have hinOrder := h.inOrder
    rw [hqueue] at hinOrder
    simpa [Queue.handOut] using hinOrder
  · exact htracked s (mem_append_left _ hs) _ (h.pending s (hqueue ▸ mem_cons_of_mem _ hs))
  · obtain hs | hs := mem_append.mp hs
    · exact htracked s (mem_append_right _ hs) _ (h.running s hs)
    · obtain rfl := mem_singleton.mp hs
      rw [Queue.Tracked, hid]
      refine ⟨(h.pending s (hqueue ▸ mem_cons_self)).1, ?_⟩
      simp [Queue.handOut, Queue.setTask]

/-- Only the finished task stops running. -/
theorem finish (h : Inv σ) {mark : Task → Task}
    (hmark : ∀ task, (mark task).id = task.id) (ht : t ∈ σ.unfinished) : Inv { σ with
      q := σ.q.finish (σ.q.idOf t) mark order, unfinished := σ.unfinished.erase t } := by
  have hid : (σ.q.finish (σ.q.idOf t) mark order).idOf = σ.q.idOf := Queue.idOf_finish hmark
  have hperm := (perm_cons_erase ht).map σ.q.idOf
  have hdistinct : ((t :: (σ.q.queue ++ σ.unfinished.erase t)).map σ.q.idOf).Nodup := by
    refine (List.Perm.map _ ?_).nodup_iff.mpr h.distinct
    exact perm_middle.symm.trans ((perm_cons_erase ht).symm.append_left _)
  rw [map_cons, nodup_cons] at hdistinct
  have htracked : ∀ s ∈ σ.q.queue ++ σ.unfinished.erase t, ∀ status, status ≠ .done →
      status ≠ .failed → σ.q.Tracked s status →
      (σ.q.finish (σ.q.idOf t) mark order).Tracked s status := by
    intro s hs status hdone hfailed hstatus
    refine hstatus.finish hdone hfailed (h.running t ht) (fun heq => ?_) hmark
    exact hdistinct.1 (heq ▸ mem_map_of_mem hs)
  refine ⟨?_, fun id => ?_, ?_, fun s hs => ?_, fun s hs => ?_⟩
  · rw [hid, Queue.queue_finish]
    exact hdistinct.2
  · rw [hid, Queue.active_finish, Std.ExtTreeMap.getD_erase]
    split
    · next heq =>
      obtain rfl := Std.LawfulEqOrd.eq_of_compare heq
      simp only [Bool.false_eq_true, false_iff]
      exact fun hmem => hdistinct.1 (map_append ▸ mem_append_right _ hmem)
    · next hne =>
      rw [h.active, hperm.mem_iff, map_cons, mem_cons]
      exact or_iff_right fun heq : id = σ.q.idOf t => hne (by simp [heq])
  · rw [Queue.queue_finish]
    exact h.inOrder
  · rw [Queue.queue_finish] at hs
    exact htracked s (mem_append_left _ hs) _ (by decide) (by decide) (h.pending s hs)
  · exact htracked s (mem_append_right _ hs) _ (by decide) (by decide)
      (h.running s (mem_of_mem_erase hs))

/-- Every call keeps the invariant if only running tasks are finished. -/
theorem step (h : Inv σ) (hfinishes : Finishes σ c) (hstep : step σ c = some σ') : Inv σ' := by
  cases c with
  | enqueue t now =>
    cases hstep
    exact h.enqueue
  | dequeue now =>
    cases hqueue : σ.q.queue with
    | nil =>
      obtain rfl : σ = σ' := by simpa [Taskqueue.step, Queue.dequeue, hqueue] using hstep
      exact h
    | cons t rest =>
      simp only [Taskqueue.step, Queue.dequeue, hqueue] at hstep
      cases hstep
      exact h.handOut hqueue
  | done t now order | failed t errMsg now order =>
    obtain ⟨-, rfl⟩ := Option.ite_some_none_eq_some.mp hstep
    exact h.finish (fun _ => rfl) hfinishes

end Inv

variable {calls : List (Call τ)} {maxSize : ℤ}

theorem Inv.run (hfinishes : Guarded Taskqueue.step Finishes (Taskqueue.start heap maxSize) calls)
    (hrun : run Taskqueue.step (Taskqueue.start heap maxSize) calls = some σ) : Inv σ :=
  hfinishes.invariant (fun _ _ _ h hc hs => h.step hc hs) (Inv.start heap maxSize) hrun

/-! ## What becomes of the accepted tasks -/

/-- A call with room leaves every task where it was in the order. -/
theorem kept_of_hasRoom (hroom : HasRoom σ c) (hstep : step σ c = some σ') :
    ∃ new, σ'.handed ++ σ'.q.queue = σ.handed ++ σ.q.queue ++ new ∧
      σ'.accepted = σ.accepted ++ new := by
  cases c with
  | enqueue t now =>
    cases hstep
    cases hnew : σ.q.isDuplicate t with
    | true => exact ⟨[], by simp [Queue.enqueue, hnew]⟩
    | false =>
      have hfull : ¬ σ.q.IsFull := hroom.resolve_left (by simp [hnew])
      refine ⟨[t], ?_, by simp⟩
      simp [Queue.enqueue, hnew, Queue.makeRoom, hfull, Queue.push]
  | dequeue now =>
    cases hqueue : σ.q.queue with
    | nil =>
      obtain rfl : σ = σ' := by simpa [step, Queue.dequeue, hqueue] using hstep
      exact ⟨[], by simp [hqueue]⟩
    | cons t rest =>
      simp only [step, Queue.dequeue, hqueue] at hstep
      cases hstep
      exact ⟨[], by simp [Queue.handOut]⟩
  | done t now order =>
    obtain ⟨-, rfl⟩ := Option.ite_some_none_eq_some.mp hstep
    exact ⟨[], by simp [Queue.done, Queue.queue_finish]⟩
  | failed t errMsg now order =>
    obtain ⟨-, rfl⟩ := Option.ite_some_none_eq_some.mp hstep
    exact ⟨[], by simp [Queue.failed, Queue.queue_finish]⟩

theorem length_of_not_hasRoom (hroom : ¬ HasRoom σ c) (hstep : step σ c = some σ') :
    (σ'.handed ++ σ'.q.queue).length = (σ.handed ++ σ.q.queue).length ∧
      σ'.accepted.length = σ.accepted.length + 1 := by
  cases c with
  | enqueue t now =>
    obtain ⟨hnew, hfull⟩ := not_or.mp hroom
    cases hstep
    obtain ⟨-, hnot⟩ | ⟨-, dropped, rest, hqueue, heq⟩ := σ.q.makeRoom_cases
    · exact (hfull hnot).elim
    · simp [Queue.enqueue, hnew, heq, Queue.push, hqueue]
  | dequeue now | done t now order | failed t errMsg now order => exact (hroom trivial).elim

theorem kept_of_guarded (hroom : Guarded step HasRoom (start heap maxSize) calls)
    (hrun : run step (start heap maxSize) calls = some σ) : σ.handed ++ σ.q.queue = σ.accepted := by
  refine hroom.invariant (I := fun σ => σ.handed ++ σ.q.queue = σ.accepted) ?_ rfl hrun
  intro σ c σ' hkept hroom hstep
  obtain ⟨new, hqueue, haccepted⟩ := kept_of_hasRoom hroom hstep
  rw [hqueue, haccepted, hkept]

theorem length_lt_of_run
    (h : (σ.handed ++ σ.q.queue).length < σ.accepted.length) (hrun : run step σ calls = some σ') :
    (σ'.handed ++ σ'.q.queue).length < σ'.accepted.length := by
  refine Runs.invariant (P := fun σ => (σ.handed ++ σ.q.queue).length < σ.accepted.length)
    (fun σ c σ' hlt hstep => ?_) h hrun
  by_cases hroom : HasRoom σ c
  · obtain ⟨new, hqueue, haccepted⟩ := kept_of_hasRoom hroom hstep
    simp only [hqueue, haccepted, length_append] at hlt ⊢
    omega
  · obtain ⟨hqueue, haccepted⟩ := length_of_not_hasRoom hroom hstep
    omega

theorem length_lt_of_not_guarded (h : σ.handed ++ σ.q.queue = σ.accepted)
    (hroom : ¬ Guarded step HasRoom σ calls) (hrun : run step σ calls = some σ') :
    (σ'.handed ++ σ'.q.queue).length < σ'.accepted.length := by
  induction calls generalizing σ with
  | nil => exact (hroom trivial).elim
  | cons c calls ih =>
    obtain ⟨ρ, hstep, hrun⟩ := run_cons.mp hrun
    rw [guarded_cons hstep, not_and_or] at hroom
    by_cases hc : HasRoom σ c
    · obtain ⟨new, hqueue, haccepted⟩ := kept_of_hasRoom hc hstep
      exact ih (by rw [hqueue, haccepted, h]) (hroom.resolve_left (not_not_intro hc)) hrun
    · obtain ⟨hqueue, haccepted⟩ := length_of_not_hasRoom hc hstep
      refine length_lt_of_run ?_ hrun
      rw [hqueue, haccepted, h]
      exact Nat.lt_succ_self _

/-- Enough calls of `Dequeue` hand out the whole queue. -/
theorem run_dequeue {times : List ℤ} (h : σ.q.queue.length ≤ times.length) :
    ∃ σ', run step σ (times.map .dequeue) = some σ' ∧ σ'.handed = σ.handed ++ σ.q.queue ∧
      σ'.accepted = σ.accepted := by
  induction times generalizing σ with
  | nil =>
    have hqueue : σ.q.queue = [] := eq_nil_of_length_eq_zero (Nat.le_zero.mp h)
    exact ⟨σ, rfl, by simp [hqueue], rfl⟩
  | cons now times ih =>
    cases hqueue : σ.q.queue with
    | nil =>
      obtain ⟨σ', hrun, hhanded, haccepted⟩ := @ih σ (by simp [hqueue])
      refine ⟨σ', run_cons.mpr ⟨σ, by simp [step, Queue.dequeue, hqueue], hrun⟩, ?_, haccepted⟩
      rw [hhanded, hqueue]
    | cons t rest =>
      rw [hqueue] at h
      obtain ⟨σ', hrun, hhanded, haccepted⟩ := @ih { σ with
        q := σ.q.handOut t rest now
        handed := σ.handed ++ [t]
        unfinished := σ.unfinished ++ [t] } (Nat.le_of_succ_le_succ h)
      refine ⟨σ', run_cons.mpr ⟨_, by simp only [step, Queue.dequeue, hqueue], hrun⟩, ?_, haccepted⟩
      rw [hhanded]
      simp [Queue.handOut]

/-- Once `Dequeue` has been called often enough, the tasks that were handed out are those that were
accepted, in the same order. -/
def Delivered (σ : State τ) : Prop :=
  ∀ times : List ℤ, σ.q.queue.length ≤ times.length →
    ∃ σ', run step σ (times.map .dequeue) = some σ' ∧ σ'.handed = σ'.accepted

theorem delivered_iff : Delivered σ ↔ σ.handed ++ σ.q.queue = σ.accepted := by
  constructor
  · intro h
    obtain ⟨σ', hrun, heq⟩ := h (List.replicate σ.q.queue.length 0) (by simp)
    obtain ⟨ρ, hrun', hhanded, haccepted⟩ := @run_dequeue _ _ σ
      (List.replicate σ.q.queue.length 0) (by simp)
    obtain rfl : σ' = ρ := Option.some.inj (hrun.symm.trans hrun')
    rw [← hhanded, ← haccepted, heq]
  · intro h times htimes
    obtain ⟨σ', hrun, hhanded, haccepted⟩ := run_dequeue htimes
    exact ⟨σ', hrun, by rw [hhanded, haccepted, h]⟩

/-- For every sequence of calls in which only running tasks are finished: the accepted tasks are all
handed out by enough calls of `Dequeue`, in their order, and no two running tasks share an id, iff
no task was accepted by a full queue. -/
theorem tasks_delivered_iff (heap : τ → Task) (maxSize : ℤ) {calls : List (Call τ)} {σ : State τ}
    (hfinishes : Guarded step Finishes (start heap maxSize) calls)
    (hrun : run step (start heap maxSize) calls = some σ) :
    (Delivered σ ∧ σ.handed.Sublist σ.accepted ∧ (σ.unfinished.map σ.q.idOf).Nodup) ↔
      Guarded step HasRoom (start heap maxSize) calls := by
  have hinv := Inv.run hfinishes hrun
  constructor
  · rintro ⟨hdelivered, -, -⟩
    by_contra hroom
    have hlt := length_lt_of_not_guarded rfl hroom hrun
    rw [delivered_iff.mp hdelivered] at hlt
    exact lt_irrefl _ hlt
  · intro hroom
    refine ⟨delivered_iff.mpr (kept_of_guarded hroom hrun), ?_, ?_⟩
    · exact (sublist_append_left ..).trans hinv.inOrder
    · have hdistinct := hinv.distinct
      rw [map_append] at hdistinct
      exact hdistinct.of_append_right

/-- After every such sequence of calls, whatever the table of statuses was pruned of, it has the
tasks in the queue as pending and those handed out and not finished as running. -/
theorem statuses_current (heap : τ → Task) (maxSize : ℤ) {calls : List (Call τ)} {σ : State τ}
    (hfinishes : Guarded step Finishes (start heap maxSize) calls)
    (hrun : run step (start heap maxSize) calls = some σ) :
    (∀ t ∈ σ.q.queue, σ.q.status (σ.q.idOf t) = .pending) ∧
      ∀ t ∈ σ.unfinished, σ.q.status (σ.q.idOf t) = .running := by
  have hinv := Inv.run hfinishes hrun
  have hstatus : ∀ t status, σ.q.Tracked t status → σ.q.status (σ.q.idOf t) = status := by
    rintro t status ⟨hentry, heq⟩
    simp only [Queue.status, hentry, heq]
  exact ⟨fun t ht => hstatus t _ (hinv.pending t ht), fun t ht => hstatus t _ (hinv.running t ht)⟩

/-- Two tasks, with the ids `a` and `b`. -/
def twoTasks (t : Bool) : Task := ⟨if t then [98] else [97], 0, .unset, [], 0, 0⟩

/-- A queue for one task that is emptied in time: both tasks are handed out. -/
theorem tasks_delivered_inTurn : ∃ σ, run step (start twoTasks 1)
      [.enqueue false 1, .dequeue 2, .enqueue true 3, .done false 4 [[97], [98]]] = some σ ∧
    (Delivered σ ∧ σ.handed.Sublist σ.accepted ∧ (σ.unfinished.map σ.q.idOf).Nodup) := by
  obtain ⟨σ, hrun⟩ := Option.isSome_iff_exists.mp (show (run step (start twoTasks 1)
    [.enqueue false 1, .dequeue 2, .enqueue true 3, .done false 4 [[97], [98]]]).isSome by
      decide)
  exact ⟨σ, hrun, (tasks_delivered_iff twoTasks 1 (by decide) hrun).mpr (by decide)⟩

/-- One task is running, the other waits. -/
theorem statuses_current_inTurn : ∃ σ, run step (start twoTasks 1)
      [.enqueue false 1, .dequeue 2, .enqueue true 3] = some σ ∧ σ.q.queue = [true] ∧
    ∀ t ∈ σ.q.queue, σ.q.status (σ.q.idOf t) = .pending := by
  obtain ⟨σ, hrun, hqueue⟩ : ∃ σ ∈ run step (start twoTasks 1)
      [.enqueue false 1, .dequeue 2, .enqueue true 3], σ.q.queue = [true] := by decide
  exact ⟨σ, hrun, hqueue, (statuses_current twoTasks 1 (by decide) hrun).1⟩

/-- The queue for one task is full when the second one arrives: `Enqueue` accepts it, and the first
one is never handed out. -/
theorem not_tasks_delivered : (run step (start twoTasks 1)
      [.enqueue false 1, .enqueue true 2, .dequeue 3, .dequeue 4]).map
        (fun σ => (σ.accepted, σ.handed, σ.q.queue)) = some ([false, true], [true], []) := by
  decide

end Taskqueue
