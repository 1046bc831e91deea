import Mathlib
import Aflare.Lib.Runs

/-!
# Work done by several threads

Two ways to compute a function at every position of a list with several threads. In a *pool* a fixed
number of workers takes the items from a bounded queue and stores each result at the position of its
item. In a *gathering* a thread is started for every position as soon as a semaphore has a free
slot, and sends its result through a channel to the thread that has started it.

The two are step functions, so a run is one interleaving of their threads. No run can go on forever,
none gets stuck before it is finished, and all finished runs have the same results.
-/

namespace WorkPool

open List

variable {α β : Type*}

/-! ## A pool of workers -/

/-- What a worker of a pool does. -/
inductive Worker (α : Type*)
  | idle
  | busy (idx : ℕ) (item : α)
  | gone

instance Worker.decidableEqGone : (w : Worker α) → Decidable (w = .gone)
  | .gone => .isTrue rfl
  | .idle => .isFalse nofun
  | .busy _ _ => .isFalse nofun

/-- The steps that a worker has before it. -/
def Worker.weight : Worker α → ℕ
  | .idle => 1
  | .busy _ _ => 2
  | .gone => 0

structure Job (α β : Type*) where
  items : List α
  compute : ℕ → α → β
  /-- What stands at a position for which no result was stored. -/
  blank : β
  /-- The number of items that the queue holds. -/
  capacity : ℕ
  /-- Whether the producer waits when the queue is full; otherwise it leaves the item out. -/
  blocking : Bool

structure Pool (α β : Type*) where
  submitted : ℕ
  queue : List (ℕ × α)
  closed : Bool
  workers : List (Worker α)
  results : List β

/-- The steps of the producer and, by their number, of the workers. -/
inductive PoolAction
  | submit
  | close
  | take (w : ℕ)
  | finish (w : ℕ)
  | leave (w : ℕ)

namespace Job

variable (j : Job α β)

/-- A pool of idle workers before the first item. -/
def start (workers : ℕ) : Pool α β where
  submitted := 0
  queue := []
  closed := false
  workers := List.replicate workers .idle
  results := List.replicate j.items.length j.blank

variable (s : Pool α β)

/-- The producer hands in the next item. -/
def submit : Option (Pool α β) :=
  match j.items[s.submitted]? with
  | none => none
  | some item =>
    if s.queue.length < j.capacity then
      some { s with submitted := s.submitted + 1, queue := s.queue ++ [(s.submitted, item)] }
    else if j.blocking then none
    else
      some { s with
        submitted := s.submitted + 1
        results := s.results.set s.submitted j.blank }

/-- One step of a pool; `none` if the thread has to wait. -/
def step : PoolAction → Option (Pool α β)
  | .submit => j.submit s
  | .close =>
    if s.submitted = j.items.length ∧ s.closed = false then some { s with closed := true } else none
  | .take w =>
    match s.workers[w]?, s.queue with
    | some .idle, (idx, item) :: queue =>
      some { s with workers := s.workers.set w (.busy idx item), queue := queue }
    | _, _ => none
  | .finish w =>
    match s.workers[w]? with
    | some (.busy idx item) =>
      some { s with
        workers := s.workers.set w .idle
        results := s.results.set idx (j.compute idx item) }
    | _ => none
  | .leave w =>
    match s.workers[w]?, s.queue, s.closed with
    | some .idle, [], true => some { s with workers := s.workers.set w .gone }
    | _, _, _ => none

/-- The queue is closed and all workers have gone. -/
def Finished : Prop := s.closed = true ∧ ∀ w ∈ s.workers, w = .gone
  deriving Decidable

/-- The results that every finished run has. -/
def computed : List β := j.items.mapIdx j.compute

/-! ### What a step does -/

/-- The steps of a pool whose producer waits, with what each of them needs. -/
inductive Moves (s : Pool α β) : Pool α β → Prop
  | submit (item : α) (hitem : j.items[s.submitted]? = some item)
      (hroom : s.queue.length < j.capacity) :
      Moves s
        { s with submitted := s.submitted + 1, queue := s.queue ++ [(s.submitted, item)] }
  | close (hall : s.submitted = j.items.length) (hopen : s.closed = false) :
      Moves s { s with closed := true }
  | take (w idx : ℕ) (item : α) (queue : List (ℕ × α)) (hidle : s.workers[w]? = some .idle)
      (hqueue : s.queue = (idx, item) :: queue) :
      Moves s { s with workers := s.workers.set w (.busy idx item), queue := queue }
  | finish (w idx : ℕ) (item : α) (hbusy : s.workers[w]? = some (.busy idx item)) :
      Moves s
        { s with workers := s.workers.set w .idle
                 results := s.results.set idx (j.compute idx item) }
  | leave (w : ℕ) (hidle : s.workers[w]? = some .idle) (hqueue : s.queue = [])
      (hclosed : s.closed = true) :
      Moves s { s with workers := s.workers.set w .gone }

variable {j} {s s' : Pool α β}

theorem moves_of_step (hblocking : j.blocking = true) {a : PoolAction} (h : j.step s a = some s') :
    j.Moves s s' := by
  cases a <;> grind [step, submit, Moves]

theorem Moves.exists_step (h : j.Moves s s') : ∃ a, j.step s a = some s' := by
  cases h with
  | submit item hitem hroom => exact ⟨.submit, by simp only [step, Job.submit, hitem, if_pos hroom]⟩
  | close hall hopen => exact ⟨.close, by rw [step, if_pos ⟨hall, hopen⟩]⟩
  | take w idx item queue hidle hqueue => exact ⟨.take w, by simp only [step, hidle, hqueue]⟩
  | finish w idx item hbusy => exact ⟨.finish w, by simp only [step, hbusy]⟩
  | leave w hidle hqueue hclosed =>
    exact ⟨.leave w, by simp only [step, hidle, hqueue, hclosed]⟩

/-! ### The invariant -/

variable (j) in
/-- Every item that was handed in is in the queue, at a worker or computed, and what the queue and
the workers hold are items at their positions. -/
structure Inv (s : Pool α β) : Prop where
  submitted_le : s.submitted ≤ j.items.length
  submitted_of_closed : s.closed = true → s.submitted = j.items.length
  length_results : s.results.length = j.items.length
  queued : ∀ p ∈ s.queue, j.items[p.1]? = some p.2
  busy : ∀ (w idx : ℕ) (item : α), s.workers[w]? = some (.busy idx item) → j.items[idx]? = some item
  gone : ∀ w : ℕ, s.workers[w]? = some .gone → s.closed = true ∧ s.queue = []
  accounted : ∀ idx item, j.items[idx]? = some item → idx < s.submitted →
    (idx, item) ∈ s.queue ∨ (∃ w : ℕ, s.workers[w]? = some (.busy idx item)) ∨
      s.results[idx]? = some (j.compute idx item)

theorem inv_start (workers : ℕ) : j.Inv (j.start workers) where
  submitted_le := Nat.zero_le _
  submitted_of_closed h := by cases h
  length_results := length_replicate
  queued p hp := by cases hp
  busy w idx item h := by simp [start, getElem?_replicate] at h
  gone w h := by simp [start, getElem?_replicate] at h
  accounted idx item _ h := absurd h (Nat.not_lt_zero idx)

variable {γ : Type*} {w v : ℕ}

/-- A worker that is not in the state just set was in its state before. -/
private theorem getElem?_of_set {l : List γ} {x y : γ}
    (h : (l.set w y)[v]? = some x) (hne : x ≠ y) : l[v]? = some x := by
  by_cases hwv : w = v
  · subst hwv
    have hlt : w < l.length := by simpa using (List.getElem?_eq_some_iff.mp h).1
    rw [getElem?_set_self hlt] at h
    exact absurd (Option.some.inj h).symm hne
  · rwa [getElem?_set_ne hwv] at h

/-- A worker in another state than the one that moves stays as it is. -/
private theorem getElem?_set_of_ne {l : List γ} {x y z : γ}
    (hw : l[w]? = some y) (hv : l[v]? = some x) (hne : x ≠ y) : (l.set w z)[v]? = some x := by
  have hwv : w ≠ v := by
    rintro rfl
    exact hne (Option.some.inj (hv.symm.trans hw))
  rwa [getElem?_set_ne hwv]

/-- The state that a worker moves to is found at the worker. -/
private theorem getElem?_set_of_some {l : List γ} {w : ℕ} {y z : γ}
    (hw : l[w]? = some y) : (l.set w z)[w]? = some z :=
  List.getElem?_set_self (List.getElem?_eq_some_iff.mp hw).1

/-- Every move of a thread keeps the invariant of the pool. -/
theorem Inv.move (hinv : j.Inv s) (hmove : j.Moves s s') : j.Inv s' := by
  obtain ⟨hle, hclosed, hlength, hqueued, hbusy, hgone, haccounted⟩ := hinv
  cases hmove with
  | submit item hitem hroom =>
    have hlt : s.submitted < j.items.length := (List.getElem?_eq_some_iff.mp hitem).1
    have hopen : s.closed ≠ true := fun h => Nat.ne_of_lt hlt (hclosed h)
    refine ⟨hlt, fun h => absurd h hopen, hlength, ?_, hbusy, fun w h => absurd (hgone w h).1 hopen,
      ?_⟩
    · exact forall_mem_append.mpr ⟨hqueued, forall_mem_singleton.mpr hitem⟩
    · intro idx item' hitem' hidx
      rcases Nat.lt_succ_iff_lt_or_eq.mp hidx with hidx | rfl
      · exact (haccounted idx item' hitem' hidx).imp_left (mem_append_left _)
      · obtain rfl := Option.some.inj (hitem.symm.trans hitem')
        exact .inl (by simp)
  | close hall hopen =>
    exact ⟨hle, fun _ => hall, hlength, hqueued, hbusy, fun w h => ⟨rfl, (hgone w h).2⟩, haccounted⟩
  | take w idx item queue hidle hqueue =>
    have hitem : j.items[idx]? = some item := hqueued (idx, item) (by simp [hqueue])
    refine ⟨hle, hclosed, hlength, fun p hp => hqueued p (by simp [hqueue, hp]), ?_, ?_, ?_⟩
    · intro v idx' item' hv
      by_cases heq : (Worker.busy idx' item' : Worker α) = .busy idx item
      · obtain ⟨rfl, rfl⟩ := Worker.busy.inj heq
        exact hitem
      · exact hbusy v idx' item' (getElem?_of_set hv heq)
    · -- nobody has gone while the queue holds an item
      intro v hv
      have hnil := (hgone v (getElem?_of_set hv (by simp))).2
      rw [hqueue] at hnil
      cases hnil
    · intro idx' item' hitem' hidx'
      rcases haccounted idx' item' hitem' hidx' with h | ⟨v, hv⟩ | h
      · rw [hqueue, mem_cons] at h
        rcases h with h | h
        · obtain ⟨rfl, rfl⟩ := Prod.mk.inj h
          exact .inr (.inl ⟨w, getElem?_set_of_some hidle⟩)
        · exact .inl h
      · exact .inr (.inl ⟨v, getElem?_set_of_ne hidle hv (by simp)⟩)
      · exact .inr (.inr h)
  | finish w idx item hb =>
    have hitem : j.items[idx]? = some item := hbusy w idx item hb
    have hidx : idx < s.results.length := hlength ▸ (List.getElem?_eq_some_iff.mp hitem).1
    refine ⟨hle, hclosed, (length_set ..).trans hlength, hqueued,
      fun v idx' item' hv => hbusy v idx' item' (getElem?_of_set hv (by simp)),
      fun v hv => hgone v (getElem?_of_set hv (by simp)), ?_⟩
    intro idx' item' hitem' hidx'
    by_cases heq : idx = idx'
    · -- the position that has just been computed
      subst heq
      obtain rfl := Option.some.inj (hitem.symm.trans hitem')
      exact .inr (.inr (getElem?_set_self hidx))
    · rcases haccounted idx' item' hitem' hidx' with h | ⟨v, hv⟩ | h
      · exact .inl h
      · exact .inr (.inl ⟨v, getElem?_set_of_ne hb hv fun h => heq (Worker.busy.inj h).1.symm⟩)
      · exact .inr (.inr (by rwa [getElem?_set_ne heq]))
  | leave w hidle hqueue hcl =>
    refine ⟨hle, hclosed, hlength, hqueued,
      fun v idx item hv => hbusy v idx item (getElem?_of_set hv (by simp)),
      fun v hv => ⟨hcl, hqueue⟩, ?_⟩
    intro idx item hitem hidx
    rcases haccounted idx item hitem hidx with h | ⟨v, hv⟩ | h
    · exact .inl h
    · exact .inr (.inl ⟨v, getElem?_set_of_ne hidle hv (by simp)⟩)
    · exact .inr (.inr h)

/-! ### Finished runs -/

theorem Inv.closed_of_gone (hinv : j.Inv s) (hworkers : s.workers ≠ [])
    (hgone : ∀ w ∈ s.workers, w = .gone) : s.closed = true ∧ s.queue = [] := by
  obtain ⟨x, rest, hcons⟩ := exists_cons_of_ne_nil hworkers
  refine hinv.gone 0 ?_
  rw [hcons, ← hgone x (by simp [hcons])]
  rfl

/-- In a finished pool every result is stored. -/
theorem results_of_finished (hinv : j.Inv s) (hfinished : Finished s) (hworkers : s.workers ≠ []) :
    s.results = j.computed := by
  obtain ⟨hclosed, hgone⟩ := hfinished
  have hqueue := (hinv.closed_of_gone hworkers hgone).2
  apply ext_getElem?
  intro idx
  rw [computed, getElem?_mapIdx]
  cases hitem : j.items[idx]? with
  | none =>
    rw [getElem?_eq_none_iff] at hitem
    simpa [hinv.length_results] using hitem
  | some item =>
    have hidx : idx < s.submitted := by
      rw [hinv.submitted_of_closed hclosed]
      exact (List.getElem?_eq_some_iff.mp hitem).1
    rcases hinv.accounted idx item hitem hidx with h | ⟨w, hw⟩ | h
    · rw [hqueue] at h
      cases h
    · cases hgone _ (mem_of_getElem? hw)
    · exact h

/-- A pool that is not finished can take a step. -/
theorem Inv.exists_move (hcapacity : 0 < j.capacity) (hinv : j.Inv s) (hworkers : s.workers ≠ [])
    (hfinished : ¬ Finished s) : ∃ s', j.Moves s s' := by
  by_cases hall : ∀ w ∈ s.workers, w = .gone
  · -- somebody has gone, so the queue is closed
    exact absurd ⟨(hinv.closed_of_gone hworkers hall).1, hall⟩ hfinished
  · push Not at hall
    obtain ⟨x, hx, hne⟩ := hall
    obtain ⟨w, hw⟩ := mem_iff_getElem?.mp hx
    cases x with
    | gone => exact absurd rfl hne
    | busy idx item => exact ⟨_, .finish w idx item hw⟩
    | idle =>
      -- an idle worker takes an item, or the producer makes one available, or there is none left
      cases hqueue : s.queue with
      | cons p queue => exact ⟨_, .take w p.1 p.2 queue hw hqueue⟩
      | nil =>
        by_cases hlt : s.submitted < j.items.length
        · exact ⟨_, .submit _ (getElem?_eq_getElem hlt) (by simpa [hqueue] using hcapacity)⟩
        · have hsubmitted : s.submitted = j.items.length :=
            Nat.le_antisymm hinv.submitted_le (Nat.le_of_not_lt hlt)
          cases hclosed : s.closed with
          | false => exact ⟨_, .close hsubmitted hclosed⟩
          | true => exact ⟨_, .leave w hw hqueue hclosed⟩

/-! ### The length of runs -/

variable (j) in
/-- A bound on the steps that a pool can still take. -/
def weight (s : Pool α β) : ℕ :=
  3 * (j.items.length - s.submitted) + 2 * s.queue.length + (if s.closed then 0 else 1) +
    (s.workers.map Worker.weight).sum

private theorem sum_map_set (f : γ → ℕ) {l : List γ} {w : ℕ} {y : γ} (hw : l[w]? = some y) (z : γ) :
    ((l.set w z).map f).sum + f y = (l.map f).sum + f z := by
  obtain ⟨hlt, rfl⟩ := List.getElem?_eq_some_iff.mp hw
  rw [((set_perm_cons_eraseIdx hlt z).map f).sum_eq,
    ← ((getElem_cons_eraseIdx_perm hlt).map f).sum_eq, map_cons, map_cons, sum_cons, sum_cons]
  omega

/-- Every move leaves less to do. -/
theorem Moves.weight_lt (h : j.Moves s s') : j.weight s' < j.weight s := by
  cases h with
  | submit item hitem hroom =>
    have hlt : s.submitted < j.items.length := (List.getElem?_eq_some_iff.mp hitem).1
    simp only [weight, length_append, length_singleton]
    omega
  | close hall hopen => simp [weight, hopen]
  | take w idx item queue hidle hqueue =>
    have hsum := sum_map_set Worker.weight hidle (.busy idx item)
    simp only [Worker.weight] at hsum
    simp only [weight, hqueue, length_cons]
    omega
  | finish w idx item hbusy =>
    have hsum := sum_map_set Worker.weight hbusy .idle
    simp only [Worker.weight] at hsum
    simp only [weight]
    omega
  | leave w hidle hqueue hclosed =>
    have hsum := sum_map_set Worker.weight hidle .gone
    simp only [Worker.weight] at hsum
    simp only [weight]
    omega

theorem Moves.length_workers (h : j.Moves s s') : s'.workers.length = s.workers.length := by
  cases h <;> simp

/-! ### Whole runs -/

section Runs

variable {workers : ℕ} {actions : List PoolAction} (hblocking : j.blocking = true)

include hblocking

/-- What holds in every state of a run. -/
theorem inv_of_run (hrun : Runs.run j.step (j.start workers) actions = some s) :
    j.Inv s ∧ s.workers.length = workers := by
  refine Runs.invariant (P := fun s => j.Inv s ∧ s.workers.length = workers) ?_
    ⟨inv_start workers, length_replicate⟩ hrun
  intro s a s' hs h
  have hmove := moves_of_step hblocking h
  exact ⟨hs.1.move hmove, hmove.length_workers.trans hs.2⟩

/-- The results of a finished run are those of the function at every item. -/
theorem results_of_run (hworkers : 0 < workers)
    (hrun : Runs.run j.step (j.start workers) actions = some s) (hfinished : Finished s) :
    s.results = j.computed := by
  obtain ⟨hinv, hlength⟩ := inv_of_run hblocking hrun
  exact results_of_finished hinv hfinished (ne_nil_of_length_pos (hlength ▸ hworkers))

/-- Every run can be finished. -/
theorem exists_finished (hcapacity : 0 < j.capacity)
    (hworkers : 0 < workers) (hrun : Runs.run j.step (j.start workers) actions = some s) :
    ∃ more s', Runs.run j.step s more = some s' ∧ Finished s' := by
  refine Runs.exists_run (P := fun s => j.Inv s ∧ s.workers.length = workers) (μ := j.weight) ?_ ?_
    ?_ (inv_of_run hblocking hrun)
  · intro s a s' hs h
    have hmove := moves_of_step hblocking h
    exact ⟨hs.1.move hmove, hmove.length_workers.trans hs.2⟩
  · intro s a s' _ h
    exact (moves_of_step hblocking h).weight_lt
  · rintro s ⟨hinv, hlength⟩ hfinished
    obtain ⟨s', hmove⟩ :=
      hinv.exists_move hcapacity (ne_nil_of_length_pos (hlength ▸ hworkers)) hfinished
    obtain ⟨a, ha⟩ := hmove.exists_step
    exact ⟨a, s', ha⟩

/-- A run takes at most three steps for an item, one for a worker and one to close the queue. -/
theorem length_le (hrun : Runs.run j.step (j.start workers) actions = some s) :
    actions.length ≤ 3 * j.items.length + workers + 1 := by
  have hle := Runs.length_add_le (P := fun _ => True) (μ := j.weight) (fun _ _ _ _ _ => trivial)
    (fun _ _ _ _ h => (moves_of_step hblocking h).weight_lt) trivial hrun
  have hstart : j.weight (j.start workers) = 3 * j.items.length + workers + 1 := by
    simp [weight, start, Worker.weight]
    omega
  omega

omit hblocking

end Runs

end Job

/-! ## Threads under a semaphore -/

structure Gathering (β : Type*) where
  count : ℕ
  compute : ℕ → β
  /-- What stands in a slot for which no result has arrived. -/
  blank : ℕ × β
  /-- The number of slots of the semaphore. -/
  limit : ℕ

structure Gather (β : Type*) where
  started : ℕ
  computing : List ℕ
  /-- The threads that have sent their result and still hold a slot of the semaphore. -/
  leaving : ℕ
  channel : List (ℕ × β)
  received : ℕ
  slots : List (ℕ × β)

/-- The steps of the thread that gathers the results and of those that compute them. -/
inductive GatherAction
  | start
  | send (place : ℕ)
  | release
  | receive

namespace Gathering

variable (g : Gathering β)

def init : Gather β where
  started := 0
  computing := []
  leaving := 0
  channel := []
  received := 0
  slots := List.replicate g.count g.blank

/-- One step of a gathering; `none` if the thread has to wait. The channel holds a result for every
position, and it is read once all threads are started. -/
def step (s : Gather β) : GatherAction → Option (Gather β)
  | .start =>
    if s.started < g.count ∧ s.computing.length + s.leaving < g.limit then
      some { s with started := s.started + 1, computing := s.computing ++ [s.started] }
    else none
  | .send place =>
    match s.computing[place]? with
    | none => none
    | some idx =>
      if s.channel.length < g.count then
        some { s with
          computing := s.computing.eraseIdx place
          leaving := s.leaving + 1
          channel := s.channel ++ [(idx, g.compute idx)] }
      else none
  | .release => if 0 < s.leaving then some { s with leaving := s.leaving - 1 } else none
  | .receive =>
    match s.channel with
    | [] => none
    | m :: channel =>
      if s.started = g.count ∧ s.received < g.count then
        some { s with channel := channel, received := s.received + 1, slots := s.slots.set m.1 m }
      else none

/-- All results have arrived. -/
def Finished (s : Gather β) : Prop := s.received = g.count
  deriving Decidable

/-- The slots of a finished gathering. -/
def gathered : List (ℕ × β) := (List.range g.count).map fun idx => (idx, g.compute idx)

/-! ### What a step does -/

/-- The steps of a gathering, with what each of them needs. -/
inductive Moves (s : Gather β) : Gather β → Prop
  | start (hlt : s.started < g.count) (hfree : s.computing.length + s.leaving < g.limit) :
      Moves s { s with started := s.started + 1, computing := s.computing ++ [s.started] }
  | send (place idx : ℕ) (hidx : s.computing[place]? = some idx)
      (hroom : s.channel.length < g.count) :
      Moves s
        { s with computing := s.computing.eraseIdx place
                 leaving := s.leaving + 1
                 channel := s.channel ++ [(idx, g.compute idx)] }
  | release (hpos : 0 < s.leaving) : Moves s { s with leaving := s.leaving - 1 }
  | receive (m : ℕ × β) (channel : List (ℕ × β)) (hchannel : s.channel = m :: channel)
      (hall : s.started = g.count) (hlt : s.received < g.count) :
      Moves s
        { s with channel := channel, received := s.received + 1, slots := s.slots.set m.1 m }

variable {g} {s s' : Gather β}

theorem moves_of_step {a : GatherAction} (h : g.step s a = some s') : g.Moves s s' := by
  cases a with
  | receive =>
    obtain ⟨m, channel, hchannel⟩ : ∃ m channel, s.channel = m :: channel := by grind [step]
    grind [step, Moves.receive]
  | _ => grind [step, Moves]

theorem Moves.exists_step (h : g.Moves s s') : ∃ a, g.step s a = some s' := by
  cases h with
  | start hlt hfree => exact ⟨.start, by rw [step, if_pos ⟨hlt, hfree⟩]⟩
  | send place idx hidx hroom => exact ⟨.send place, by simp only [step, hidx, if_pos hroom]⟩
  | release hpos => exact ⟨.release, by rw [step, if_pos hpos]⟩
  | receive m channel hchannel hall hlt =>
    exact ⟨.receive, by simp only [step, hchannel, if_pos (And.intro hall hlt)]⟩

/-! ### The invariant -/

variable (g) in
/-- Every thread that was started is computing, has its result in the channel or in its slot. -/
structure Inv (s : Gather β) : Prop where
  started_le : s.started ≤ g.count
  started_eq : s.started = s.computing.length + s.channel.length + s.received
  length_slots : s.slots.length = g.count
  sent : ∀ m ∈ s.channel, m.1 < g.count ∧ m.2 = g.compute m.1
  computing_lt : ∀ idx ∈ s.computing, idx < g.count
  accounted : ∀ idx < s.started, idx ∈ s.computing ∨ (idx, g.compute idx) ∈ s.channel ∨
    s.slots[idx]? = some (idx, g.compute idx)

theorem inv_init : g.Inv g.init where
  started_le := Nat.zero_le _
  started_eq := rfl
  length_slots := length_replicate
  sent m hm := by cases hm
  computing_lt idx hidx := by cases hidx
  accounted idx hidx := absurd hidx (Nat.not_lt_zero idx)

/-- Every move of a thread keeps the invariant of the gathering. -/
theorem Inv.move (hinv : g.Inv s) (hmove : g.Moves s s') : g.Inv s' := by
  obtain ⟨hle, heq, hlength, hsent, hcomputing, haccounted⟩ := hinv
  cases hmove with
  | start hlt hfree =>
    refine ⟨hlt, ?_, hlength, hsent, ?_, ?_⟩
    · simp only [length_append, length_singleton]
      omega
    · exact forall_mem_append.mpr ⟨hcomputing, forall_mem_singleton.mpr hlt⟩
    · intro idx hidx
      rcases Nat.lt_succ_iff_lt_or_eq.mp hidx with hidx | rfl
      · exact (haccounted idx hidx).imp_left (mem_append_left _)
      · exact .inl (by simp)
  | send place idx hidx hroom =>
    have hplace : place < s.computing.length := (List.getElem?_eq_some_iff.mp hidx).1
    refine ⟨hle, ?_, hlength, ?_, fun i hi => hcomputing i (mem_of_mem_eraseIdx hi), ?_⟩
    · simp only [length_append, length_singleton, length_eraseIdx, if_pos hplace]
      omega
    · refine forall_mem_append.mpr ⟨hsent, forall_mem_singleton.mpr ?_⟩
      exact ⟨hcomputing idx (mem_of_getElem? hidx), rfl⟩
    · intro i hi
      by_cases hii : i = idx
      · exact .inr (.inl (by simp [hii]))
      · rcases haccounted i hi with h | h | h
        · obtain ⟨v, hv⟩ := mem_iff_getElem?.mp h
          have hne : v ≠ place := by
            rintro rfl
            exact hii (Option.some.inj (hv.symm.trans hidx))
          exact .inl (mem_eraseIdx_iff_getElem?.mpr ⟨v, hne, hv⟩)
        · exact .inr (.inl (mem_append_left _ h))
        · exact .inr (.inr h)
  | release hpos => exact ⟨hle, heq, hlength, hsent, hcomputing, haccounted⟩
  | receive m channel hchannel hall hlt =>
    have hm : m.1 < g.count ∧ m.2 = g.compute m.1 := hsent m (by simp [hchannel])
    have hmem : m = (m.1, g.compute m.1) := Prod.ext rfl hm.2
    refine ⟨hle, ?_, (length_set ..).trans hlength, fun x hx => hsent x (by simp [hchannel, hx]),
      hcomputing, ?_⟩
    · rw [hchannel, length_cons] at heq
      simp only
      omega
    · intro i hi
      by_cases him : m.1 = i
      · -- the slot that has just been filled
        subst him
        refine .inr (.inr ?_)
        rw [getElem?_set_self (hlength ▸ hm.1), ← hmem]
      · rcases haccounted i hi with h | h | h
        · exact .inl h
        · rw [hchannel, mem_cons] at h
          rcases h with h | h
          · exact absurd (congrArg Prod.fst h).symm him
          · exact .inr (.inl h)
        · exact .inr (.inr (by rwa [getElem?_set_ne him]))

/-! ### Finished runs -/

/-- Once all results have arrived, each is in its slot. -/
theorem slots_of_finished (hinv : g.Inv s) (hfinished : g.Finished s) : s.slots = g.gathered := by
  have heq := hinv.started_eq
  have hle := hinv.started_le
  rw [hfinished] at heq
  have hcomputing : s.computing = [] := eq_nil_of_length_eq_zero (by omega)
  have hchannel : s.channel = [] := eq_nil_of_length_eq_zero (by omega)
  apply ext_getElem?
  intro idx
  rw [gathered, getElem?_map]
  by_cases hidx : idx < g.count
  · rcases hinv.accounted idx (by omega) with h | h | h
    · rw [hcomputing] at h
      cases h
    · rw [hchannel] at h
      cases h
    · rw [h, getElem?_range hidx]
      rfl
  · rw [getElem?_eq_none (by rw [hinv.length_slots]; omega),
      getElem?_eq_none (by rw [length_range]; omega)]
    rfl

/-- A gathering that is not finished can take a step: the channel has room for every result, so a
thread that holds a slot of the semaphore gives it back. -/
theorem Inv.exists_move (hlimit : 0 < g.limit) (hinv : g.Inv s) (hfinished : ¬ g.Finished s) :
    ∃ s', g.Moves s s' := by
  have heq := hinv.started_eq
  have hle := hinv.started_le
  have hne : s.received ≠ g.count := hfinished
  cases hcomputing : s.computing with
  | cons idx rest =>
    rw [hcomputing, length_cons] at heq
    exact ⟨_, .send 0 idx (by simp [hcomputing]) (by omega)⟩
  | nil =>
    rw [hcomputing, length_nil] at heq
    by_cases hleaving : 0 < s.leaving
    · exact ⟨_, .release hleaving⟩
    · by_cases hstarted : s.started < g.count
      · exact ⟨_, .start hstarted (by rw [hcomputing, length_nil]; omega)⟩
      · -- all threads are started and none is computing
        cases hchannel : s.channel with
        | nil =>
          rw [hchannel, length_nil] at heq
          omega
        | cons m channel =>
          rw [hchannel, length_cons] at heq
          exact ⟨_, .receive m channel hchannel (by omega) (by omega)⟩

/-! ### The length of runs -/

variable (g) in
/-- A bound on the steps that a gathering can still take. -/
def weight (s : Gather β) : ℕ :=
  4 * (g.count - s.started) + 3 * s.computing.length + s.leaving + s.channel.length

/-- Every move leaves less to do. -/
theorem Moves.weight_lt (h : g.Moves s s') : g.weight s' < g.weight s := by
  cases h with
  | start hlt hfree =>
    simp only [weight, length_append, length_singleton]
    omega
  | send place idx hidx hroom =>
    have hplace : place < s.computing.length := (List.getElem?_eq_some_iff.mp hidx).1
    simp only [weight, length_append, length_singleton, length_eraseIdx, if_pos hplace]
    omega
  | release hpos =>
    simp only [weight]
    omega
  | receive m channel hchannel hall hlt =>
    simp only [weight, hchannel, length_cons]
    omega

/-! ### Whole runs -/

section Runs

variable {actions : List GatherAction}

/-- What holds in every state of a run. -/
theorem inv_of_run (hrun : Runs.run g.step g.init actions = some s) : g.Inv s :=
  Runs.invariant (fun _ _ _ hs h => hs.move (moves_of_step h)) inv_init hrun

/-- The slots of a finished run hold the value of the function at every position. -/
theorem slots_of_run (hrun : Runs.run g.step g.init actions = some s) (hfinished : g.Finished s) :
    s.slots = g.gathered := slots_of_finished (inv_of_run hrun) hfinished

/-- Every run can be finished. -/
theorem exists_finished (hlimit : 0 < g.limit) (hrun : Runs.run g.step g.init actions = some s) :
    ∃ more s', Runs.run g.step s more = some s' ∧ g.Finished s' := by
  refine Runs.exists_run (P := g.Inv) (μ := g.weight) ?_ ?_ ?_ (inv_of_run hrun)
  · intro s a s' hs h
    exact hs.move (moves_of_step h)
  · intro s a s' _ h
    exact (moves_of_step h).weight_lt
  · intro s hinv hfinished
    obtain ⟨s', hmove⟩ := hinv.exists_move hlimit hfinished
    obtain ⟨a, ha⟩ := hmove.exists_step
    exact ⟨a, s', ha⟩

/-- A run takes at most four steps for a position. -/
theorem length_le (hrun : Runs.run g.step g.init actions = some s) :
    actions.length ≤ 4 * g.count := by
  have hle := Runs.length_add_le (P := fun _ => True) (μ := g.weight) (fun _ _ _ _ _ => trivial)
    (fun _ _ _ _ h => (moves_of_step h).weight_lt) trivial hrun
  have hinit : g.weight g.init = 4 * g.count := by simp [weight, init]
  omega

end Runs

end Gathering

end WorkPool
