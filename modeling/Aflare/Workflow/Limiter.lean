import Aflare.Workflow.Types

/-!
# The concurrency limiter under nested steps

One semaphore of `n` slots limits all concurrent work of a run. A branch of a `parallel` block, an
iteration of a concurrent `loop` and an iteration of a concurrent `map` each acquire a slot before
they run and release it at their end. An iteration of a concurrent `map` keeps its slot while it
runs its sub-steps, so a concurrent step among them makes the iteration wait for workers that need
slots of the same semaphore.

The state of a run is the tree of its goroutines: a goroutine runs a sequence of steps, or waits
for the workers of the concurrent step it has reached.
-/

namespace Workflow.Limiter

open List

/-! ## Steps -/

/-- How many iterations a loop or a map with this `concurrency` runs at one time. -/
def getConcurrency (concurrency : ℤ) : ℕ := clampSetting 1 maxParallel concurrency

/-- A step as the limiter sees it: which of its sub-steps are run by the goroutine that runs the
step, and which by workers that acquire a slot. -/
inductive LimitStep where
  /-- A node call, with the steps that are run when it fails. -/
  | node (captureError : List LimitStep)
  /-- The branch of an `if` is a workflow of its own, which is run without a limiter. -/
  | ifBranch
  | loop (concurrency : ℤ)
  | parallel (branches : ℕ)
  | map (concurrency : ℤ) (steps : List LimitStep)
  | reduce (steps : List LimitStep)
  /-- The forward steps and the compensations of a saga. -/
  | saga (forward compensate : List LimitStep)

mutual

/-- A step that may start workers. -/
def LimitStep.acquires : LimitStep → Bool
  | .node captureError => anyAcquires captureError
  | .ifBranch => false
  | .loop concurrency => 1 < getConcurrency concurrency
  | .parallel _ => true
  | .map concurrency steps => 1 < getConcurrency concurrency || anyAcquires steps
  | .reduce steps => anyAcquires steps
  | .saga forward compensate => anyAcquires forward || anyAcquires compensate

/-- Some step of a sequence may start workers. -/
def anyAcquires : List LimitStep → Bool
  | [] => false
  | step :: rest => step.acquires || anyAcquires rest

end

mutual

/-- How many workers can hold a slot and wait for workers of their own, at one time of a run of the
step. Only the iterations of a concurrent map run steps that start workers. -/
def LimitStep.holders : LimitStep → ℕ
  | .node captureError => maxHolders captureError
  | .ifBranch => 0
  | .loop _ => 0
  | .parallel _ => 0
  | .map concurrency steps =>
    if 1 < getConcurrency concurrency then
      if anyAcquires steps then getConcurrency concurrency * (1 + maxHolders steps) else 0
    else maxHolders steps
  | .reduce steps => maxHolders steps
  | .saga forward compensate => max (maxHolders forward) (maxHolders compensate)

/-- The steps of a sequence are run one after the other. -/
def maxHolders : List LimitStep → ℕ
  | [] => 0
  | step :: rest => max step.holders (maxHolders rest)

end

/-- Every step has at most `b` waiting holders, and starts workers only where that is allowed. -/
def Within (b : ℕ) (allowed : Bool) (steps : List LimitStep) : Prop :=
  ∀ step ∈ steps, step.holders ≤ b ∧ (step.acquires → allowed)

theorem within_self (steps : List LimitStep) :
    Within (maxHolders steps) (anyAcquires steps) steps := by
  induction steps with
  | nil => simp [Within]
  | cons step rest ih =>
    intro s hs
    simp only [maxHolders, anyAcquires, Bool.or_eq_true]
    rcases mem_cons.mp hs with rfl | hs
    · exact ⟨le_max_left _ _, Or.inl⟩
    · obtain ⟨hb, ha⟩ := ih s hs
      exact ⟨hb.trans (le_max_right _ _), fun h => Or.inr (ha h)⟩

theorem Within.mono {b b' : ℕ} {a a' : Bool} {steps : List LimitStep} (h : Within b a steps)
    (hb : b ≤ b') (ha : a → a') : Within b' a' steps :=
  fun s hs => ⟨(h s hs).1.trans hb, fun hacq => ha ((h s hs).2 hacq)⟩

variable {b : ℕ} {a : Bool}

theorem Within.append {steps more : List LimitStep} (h : Within b a steps)
    (hmore : Within b a more) : Within b a (steps ++ more) :=
  forall_mem_append.mpr ⟨h, hmore⟩

theorem Within.repeated {steps : List LimitStep} (h : Within b a steps) (m : ℕ) :
    Within b a (List.replicate m steps).flatten := by
  intro s hs
  obtain ⟨l, hl, hs⟩ := mem_flatten.mp hs
  rw [eq_of_mem_replicate hl] at hs
  exact h s hs

theorem within_cons {step : LimitStep} {rest : List LimitStep} :
    Within b a (step :: rest) ↔
      (step.holders ≤ b ∧ (step.acquires → a)) ∧ Within b a rest := by
  simp [Within]

/-! ## Goroutines -/

mutual

/-- A goroutine that runs a sequence of steps, or waits for the workers of a concurrent step. -/
inductive Thread where
  | run (todo : List LimitStep)
  /-- At most `width` workers are live at one time, `pending` ones have not been started; each runs
  `body`. The goroutine goes on with `todo` when all are done. -/
  | wait (width pending : ℕ) (body : List LimitStep) (workers : Workers) (todo : List LimitStep)

/-- The live workers of a concurrent step: each waits in `Acquire`, or holds a slot and runs. -/
inductive Workers where
  | nil
  | acquiring (body : List LimitStep) (rest : Workers)
  | holding (thread : Thread) (rest : Workers)

end

def Workers.length : Workers → ℕ
  | .nil => 0
  | .acquiring _ rest => rest.length + 1
  | .holding _ rest => rest.length + 1

mutual

/-- The slots that the workers below a goroutine hold. -/
def Thread.held : Thread → ℕ
  | .run _ => 0
  | .wait _ _ _ workers _ => workers.held

def Workers.held : Workers → ℕ
  | .nil => 0
  | .acquiring _ rest => rest.held
  | .holding thread rest => 1 + thread.held + rest.held

end

mutual

/-- The goroutine cannot go on before some worker below it gets a slot. -/
def Thread.Waits : Thread → Prop
  | .run _ => False
  | .wait _ _ _ workers _ => workers.SomeAcquires

def Workers.SomeAcquires : Workers → Prop
  | .nil => False
  | .acquiring _ _ => True
  | .holding thread rest => thread.Waits ∨ rest.SomeAcquires

end

mutual

/-- Every worker below the goroutine that holds a slot waits for another one. -/
def Thread.AllWait : Thread → Prop
  | .run _ => True
  | .wait _ _ _ workers _ => workers.AllWait

def Workers.AllWait : Workers → Prop
  | .nil => True
  | .acquiring _ rest => rest.AllWait
  | .holding thread rest => thread.Waits ∧ thread.AllWait ∧ rest.AllWait

end

/-- All slots are held by workers that wait for a slot. -/
def Thread.Jammed (n : ℕ) (t : Thread) : Prop := t.held = n ∧ t.AllWait

mutual

/-- One move of one goroutine; a slot can be had only when one is `free`, and a worker gives up
waiting for one only when the run has been `cancelled`. -/
inductive Thread.Step (free cancelled : Prop) : Thread → Thread → Prop
  /-- A step is done by the goroutine alone, skipped, or not run because of an earlier error. -/
  | done {step rest} : Thread.Step free cancelled (.run (step :: rest)) (.run rest)
  | capture {captureError rest} :
    Thread.Step free cancelled (.run (.node captureError :: rest)) (.run (captureError ++ rest))
  | loop {concurrency rest} (items : ℕ) (h : 1 < getConcurrency concurrency) :
    Thread.Step free cancelled (.run (.loop concurrency :: rest))
      (.wait (getConcurrency concurrency) items [] .nil rest)
  | parallel {branches rest} (hpos : 0 < branches) (h : branches ≤ maxParallel) :
    Thread.Step free cancelled (.run (.parallel branches :: rest))
      (.wait branches branches [] .nil rest)
  | mapEach {concurrency steps rest} (items : ℕ) (h : getConcurrency concurrency ≤ 1) :
    Thread.Step free cancelled (.run (.map concurrency steps :: rest))
      (.run ((List.replicate items steps).flatten ++ rest))
  | mapPool {concurrency steps rest} (items : ℕ) (h : 1 < getConcurrency concurrency) :
    Thread.Step free cancelled (.run (.map concurrency steps :: rest))
      (.wait (getConcurrency concurrency) items steps .nil rest)
  | reduce {steps rest} (items : ℕ) :
    Thread.Step free cancelled (.run (.reduce steps :: rest))
      (.run ((List.replicate items steps).flatten ++ rest))
  | saga {forward compensate rest} :
    Thread.Step free cancelled (.run (.saga forward compensate :: rest))
      (.run (forward ++ (compensate.reverse ++ rest)))
  | start {width pending body workers todo} (h : workers.length < width) :
    Thread.Step free cancelled (.wait width (pending + 1) body workers todo)
      (.wait width pending body (.acquiring body workers) todo)
  | worker {width pending body workers workers' todo}
    (h : Workers.Step free cancelled workers workers') :
    Thread.Step free cancelled (.wait width pending body workers todo)
      (.wait width pending body workers' todo)
  | join {width body todo} : Thread.Step free cancelled (.wait width 0 body .nil todo) (.run todo)

inductive Workers.Step (free cancelled : Prop) : Workers → Workers → Prop
  | acquire {body rest} (h : free) :
    Workers.Step free cancelled (.acquiring body rest) (.holding (.run body) rest)
  | giveUp {body rest} (h : cancelled) : Workers.Step free cancelled (.acquiring body rest) rest
  | release {rest} : Workers.Step free cancelled (.holding (.run []) rest) rest
  | thread {thread thread' rest} (h : Thread.Step free cancelled thread thread') :
    Workers.Step free cancelled (.holding thread rest) (.holding thread' rest)
  | acquiring {body rest rest'} (h : Workers.Step free cancelled rest rest') :
    Workers.Step free cancelled (.acquiring body rest) (.acquiring body rest')
  | holding {thread rest rest'} (h : Workers.Step free cancelled rest rest') :
    Workers.Step free cancelled (.holding thread rest) (.holding thread rest')

end

/-- How a workflow is run: its steps in turn, or each by a worker once its dependencies are done. -/
inductive RunMode where
  | sequential
  | dag

/-- The main goroutine at the start of a run. A worker of the DAG executor runs its step, and the
main goroutine the recovery of a failed one, without the limiter. -/
def RunMode.start : RunMode → List LimitStep → Thread
  | .sequential, steps => .run steps
  | .dag, steps => .wait (steps.length + 1) steps.length [] .nil []

/-- How many workers of a run can hold a slot and wait for workers of their own at one time. -/
def RunMode.holders : RunMode → List LimitStep → ℕ
  | .sequential, steps => maxHolders steps
  | .dag, _ => 0

/-- The states that a run with `n` slots can reach, in any interleaving of its goroutines. -/
def Thread.Reaches (n : ℕ) : Thread → Thread → Prop :=
  Relation.ReflTransGen fun t t' => Thread.Step (t.held < n) True t t'

/-! ## Runs keep to the bounds of their steps -/

mutual

/-- The steps of a goroutine, run or still to run, have at most `b` waiting holders, and only one
that may start workers waits for some. -/
def Thread.Fits (b : ℕ) (allowed : Bool) : Thread → Prop
  | .run todo => Within b allowed todo
  | .wait width _ body workers todo =>
    allowed = true ∧ (anyAcquires body → width * (1 + maxHolders body) ≤ b) ∧
      workers.length ≤ width ∧ 0 < width ∧ Within b allowed todo ∧ workers.Fit body

/-- The workers run the body of the step that has started them. -/
def Workers.Fit (body : List LimitStep) : Workers → Prop
  | .nil => True
  | .acquiring own rest => own = body ∧ rest.Fit body
  | .holding thread rest => thread.Fits (maxHolders body) (anyAcquires body) ∧ rest.Fit body

end

theorem Thread.Fits.expand {step : LimitStep} {parts rest : List LimitStep}
    (h : Thread.Fits b a (.run (step :: rest))) (hparts : Within step.holders step.acquires parts) :
    Thread.Fits b a (.run (parts ++ rest)) := by
  obtain ⟨⟨hb, ha⟩, hrest⟩ := within_cons.mp h
  exact (hparts.mono hb ha).append hrest

theorem Thread.Fits.fork {step : LimitStep} {rest body : List LimitStep}
    {width : ℕ} (items : ℕ) (h : Thread.Fits b a (.run (step :: rest))) (hacq : step.acquires)
    (hwidth : 0 < width) (hbody : anyAcquires body → width * (1 + maxHolders body) ≤ step.holders) :
    Thread.Fits b a (.wait width items body .nil rest) := by
  obtain ⟨⟨hb, ha⟩, hrest⟩ := within_cons.mp h
  exact ⟨ha hacq, fun hany => (hbody hany).trans hb, Nat.zero_le _, hwidth, hrest, trivial⟩

variable {free cancelled : Prop}

theorem Workers.Step.length_le {ws ws' : Workers} :
    Workers.Step free cancelled ws ws' → ws'.length ≤ ws.length
  | .acquire _ => le_rfl
  | .giveUp _ | .release => Nat.le_succ _
  | .thread _ => le_rfl
  | .acquiring h | .holding h => Nat.succ_le_succ h.length_le

mutual

/-- A step of a goroutine keeps it within its bounds. -/
theorem Thread.Step.fits {b : ℕ} {a : Bool} {t t' : Thread}
    (hstep : Thread.Step free cancelled t t') (h : t.Fits b a) : t'.Fits b a := by
  cases hstep with
  | done => exact (within_cons.mp h).2
  | @capture captureError rest =>
    apply h.expand
    simpa only [LimitStep.holders, LimitStep.acquires] using within_self captureError
  | loop items hc =>
    refine h.fork items ?_ (by omega) (by simp [anyAcquires])
    simpa [LimitStep.acquires] using hc
  | parallel hpos hc => exact h.fork _ (by simp [LimitStep.acquires]) hpos (by simp [anyAcquires])
  | @mapEach c steps rest items hc =>
    apply h.expand
    apply Within.repeated
    simpa only [LimitStep.holders, LimitStep.acquires, if_neg (not_lt.mpr hc), decide_eq_false
      (not_lt.mpr hc), Bool.false_or] using within_self steps
  | mapPool items hc =>
    refine h.fork items (by simp [LimitStep.acquires, hc]) (by omega) fun hany => ?_
    rw [LimitStep.holders, if_pos hc, if_pos hany]
  | @reduce steps rest items =>
    apply h.expand
    apply Within.repeated
    simpa only [LimitStep.holders, LimitStep.acquires] using within_self steps
  | @saga forward compensate rest =>
    rw [← append_assoc]
    apply h.expand
    simp only [LimitStep.holders, LimitStep.acquires]
    apply Within.append
    · exact (within_self forward).mono (le_max_left _ _) (by simp +contextual)
    · intro s hs
      exact (within_self compensate).mono (le_max_right _ _) (by simp +contextual) s
        (mem_reverse.mp hs)
  | start hlen =>
    obtain ⟨ha, hbody, -, hwidth, htodo, hws⟩ := h
    exact ⟨ha, hbody, hlen, hwidth, htodo, rfl, hws⟩
  | worker hws =>
    obtain ⟨ha, hbody, hlen, hwidth, htodo, hfit⟩ := h
    exact ⟨ha, hbody, hws.length_le.trans hlen, hwidth, htodo, hws.fit hfit⟩
  | join =>
    obtain ⟨-, -, -, -, htodo, -⟩ := h
    exact htodo

theorem Workers.Step.fit {body : List LimitStep} {ws ws' : Workers}
    (hstep : Workers.Step free cancelled ws ws') (h : ws.Fit body) : ws'.Fit body := by
  cases hstep with
  | acquire _ =>
    obtain ⟨rfl, hrest⟩ := h
    exact ⟨within_self _, hrest⟩
  | giveUp _ | release => exact h.2
  | thread hthread => exact ⟨hthread.fits h.1, h.2⟩
  | acquiring hrest | holding hrest => exact ⟨h.1, hrest.fit h.2⟩

end

theorem RunMode.fits_start (mode : RunMode) (steps : List LimitStep) :
    (mode.start steps).Fits (mode.holders steps) true := by
  cases mode with
  | sequential => exact (within_self steps).mono le_rfl fun _ => rfl
  | dag => simp [RunMode.start, Thread.Fits, Workers.Fit, Workers.length, anyAcquires, Within]

variable {n : ℕ}

theorem Thread.Reaches.fits {b : ℕ} {a : Bool} {t t' : Thread} (h : t.Reaches n t')
    (ht : t.Fits b a) : t'.Fits b a := by
  induction h with
  | refl => exact ht
  | tail _ hstep ih => exact hstep.fits ih

/-! ## Holders that wait -/

theorem Thread.Fits.of_waits : ∀ {t : Thread}, t.Fits b a → t.Waits → a = true
  | .wait .., h, _ => h.1

mutual

theorem Thread.held_le {b : ℕ} {a : Bool} :
    ∀ {t : Thread}, t.Fits b a → t.AllWait → t.held ≤ b
  | .run _, _, _ => Nat.zero_le b
  | .wait width _ body ws _, ⟨_, hbody, hlen, _, _, hws⟩, hall => by
    have hheld := Workers.held_le hws hall
    change ws.held ≤ b
    by_cases hany : anyAcquires body = true
    · rw [if_pos hany] at hheld
      exact hheld.trans ((Nat.mul_le_mul_right _ hlen).trans (hbody hany))
    · rw [if_neg hany] at hheld
      exact hheld.trans (Nat.zero_le b)

/-- Workers that all wait hold no more slots than their body allows. -/
theorem Workers.held_le {body : List LimitStep} :
    ∀ {ws : Workers}, ws.Fit body → ws.AllWait →
      ws.held ≤ if anyAcquires body then ws.length * (1 + maxHolders body) else 0
  | .nil, _, _ => Nat.zero_le _
  | .acquiring _ rest, ⟨_, hrest⟩, hall => by
    refine (Workers.held_le hrest hall).trans ?_
    split
    · exact Nat.mul_le_mul_right _ (Nat.le_succ _)
    · exact le_rfl
  | .holding t rest, ⟨ht, hrest⟩, ⟨hwaits, hthread, hall⟩ => by
    -- a holder that waits for workers runs a body that starts some
    have hany := ht.of_waits hwaits
    have hown := Thread.held_le ht hthread
    have hothers := Workers.held_le hrest hall
    rw [if_pos hany] at hothers ⊢
    calc 1 + t.held + rest.held ≤ 1 + maxHolders body + rest.length * (1 + maxHolders body) := by
          omega
      _ = (rest.length + 1) * (1 + maxHolders body) := by ring

end

/-! ## Progress -/

mutual

/-- A goroutine is done, or can go on, or waits for a slot as do all holders below it. -/
theorem Thread.progress (free : Prop) {b : ℕ} {a : Bool} :
    ∀ {t : Thread}, t.Fits b a →
      t = .run [] ∨ (∃ t', Thread.Step free False t t') ∨ (¬ free ∧ t.Waits ∧ t.AllWait)
  | .run [], _ => Or.inl rfl
  | .run (_ :: rest), _ => Or.inr (Or.inl ⟨.run rest, .done⟩)
  | .wait width pending body ws todo, ⟨_, _, _, hwidth, _, hws⟩ => by
    right
    rcases Workers.progress free hws with rfl | ⟨ws', hstep⟩ | hstuck
    · left
      cases pending with
      | zero => exact ⟨_, .join⟩
      | succ pending => exact ⟨_, .start hwidth⟩
    · exact Or.inl ⟨_, .worker hstep⟩
    · exact Or.inr hstuck

theorem Workers.progress (free : Prop) {body : List LimitStep} :
    ∀ {ws : Workers}, ws.Fit body →
      ws = .nil ∨ (∃ ws', Workers.Step free False ws ws') ∨ (¬ free ∧ ws.SomeAcquires ∧ ws.AllWait)
  | .nil, _ => Or.inl rfl
  | .acquiring own rest, ⟨_, hrest⟩ => by
    right
    by_cases hfree : free
    · exact Or.inl ⟨_, .acquire hfree⟩
    rcases Workers.progress free hrest with rfl | ⟨rest', hstep⟩ | ⟨_, _, hall⟩
    · exact Or.inr ⟨hfree, trivial, trivial⟩
    · exact Or.inl ⟨_, .acquiring hstep⟩
    · exact Or.inr ⟨hfree, trivial, hall⟩
  | .holding t rest, ⟨ht, hrest⟩ => by
    right
    rcases Thread.progress free ht with rfl | ⟨t', hstep⟩ | ⟨hfree, hwaits, hbelow⟩
    · exact Or.inl ⟨_, .release⟩
    · exact Or.inl ⟨_, .thread hstep⟩
    rcases Workers.progress free hrest with rfl | ⟨rest', hstep⟩ | ⟨_, _, hall⟩
    · exact Or.inr ⟨hfree, Or.inl hwaits, hwaits, hbelow, trivial⟩
    · exact Or.inl ⟨_, .holding hstep⟩
    · exact Or.inr ⟨hfree, Or.inl hwaits, hwaits, hbelow, hall⟩

end

mutual

theorem Thread.Step.held_le {t t' : Thread} :
    Thread.Step free cancelled t t' → t'.held ≤ t.held ∨ (free ∧ t'.held = t.held + 1)
  | .done | .capture | .loop .. | .parallel .. | .mapEach .. | .mapPool .. | .reduce _ | .saga
  | .start _ | .join => Or.inl le_rfl
  | .worker h => h.held_le

theorem Workers.Step.held_le {ws ws' : Workers} :
    Workers.Step free cancelled ws ws' → ws'.held ≤ ws.held ∨ (free ∧ ws'.held = ws.held + 1)
  | .acquire hfree => Or.inr ⟨hfree, by simp only [Workers.held, Thread.held]; omega⟩
  | .giveUp _ => Or.inl le_rfl
  | .release => Or.inl (by simp only [Workers.held]; omega)
  | .acquiring h => h.held_le
  | .thread h | .holding h => by
    simp only [Workers.held]
    rcases h.held_le with h | ⟨hfree, h⟩
    · exact Or.inl (by omega)
    · exact Or.inr ⟨hfree, by omega⟩

end

theorem Thread.Reaches.held_le {t t' : Thread} (h : t.Reaches n t') (ht : t.held ≤ n) :
    t'.held ≤ n := by
  induction h with
  | refl => exact ht
  | tail _ hstep ih =>
    rcases hstep.held_le with hle | ⟨hfree, heq⟩
    · exact hle.trans ih
    · omega

theorem RunMode.held_start (mode : RunMode) (steps : List LimitStep) :
    (mode.start steps).held = 0 := by
  cases mode <;> rfl

variable {mode : RunMode}

theorem Thread.jammed_of_stuck {steps : List LimitStep} {t : Thread}
    (h : (mode.start steps).Reaches n t) (hdone : t ≠ .run [])
    (hstuck : ∀ t', ¬ Thread.Step (t.held < n) False t t') : t.Jammed n := by
  have hle : t.held ≤ n := h.held_le (by rw [RunMode.held_start]; exact Nat.zero_le n)
  rcases Thread.progress (t.held < n) (h.fits (mode.fits_start steps)) with
    hend | ⟨t', hstep⟩ | ⟨hfull, _, hall⟩
  · exact absurd hend hdone
  · exact absurd hstep (hstuck t')
  · exact ⟨le_antisymm hle (not_lt.mp hfull), hall⟩

/-- With more slots than workers that can hold one and wait for workers of their own, no
interleaving reaches a state in which all slots are held by workers that wait for one. -/
theorem limiter_never_jams {steps : List LimitStep} (hslots : mode.holders steps < n) {t : Thread}
    (h : (mode.start steps).Reaches n t) : ¬ t.Jammed n := by
  rintro ⟨hheld, hall⟩
  have hle := Thread.held_le (h.fits (mode.fits_start steps)) hall
  omega

/-- With more slots than such workers, a run that has not ended can always go on without a
cancellation. -/
theorem limiter_deadlock_free {steps : List LimitStep}
    (hslots : mode.holders steps < n) {t : Thread} (h : (mode.start steps).Reaches n t)
    (hdone : t ≠ .run []) : ∃ t', Thread.Step (t.held < n) False t t' := by
  by_contra hstuck
  obtain ⟨hheld, hall⟩ := Thread.jammed_of_stuck h hdone (not_exists.mp hstuck)
  have hle := Thread.held_le (h.fits (mode.fits_start steps)) hall
  omega

/-- A map of two iterations at a time, each of which runs a `parallel` block of one branch. -/
def nestedMap : List LimitStep := [.map 2 [.parallel 1]]

/-- The first iteration of the map holds a slot and waits for its branch; the branch and the second
iteration wait for a slot. -/
def nestedState : Thread :=
  .wait 2 0 [.parallel 1]
    (.acquiring [.parallel 1] (.holding (.wait 1 0 [] (.acquiring [] .nil) []) .nil)) []

theorem reaches_nestedState (hn : 0 < n) :
    (RunMode.sequential.start nestedMap).Reaches n nestedState := by
  apply Relation.ReflTransGen.head (.mapPool 2 (by decide))
  apply Relation.ReflTransGen.head (.start (by decide))
  apply Relation.ReflTransGen.head (.worker (.acquire hn))
  apply Relation.ReflTransGen.head (.worker (.thread (.parallel (by decide) (by decide))))
  apply Relation.ReflTransGen.head (.worker (.thread (.start (by decide))))
  exact Relation.ReflTransGen.single (.start (by decide))

/-- With three slots, the map is not jammed where one iteration waits for its branch. -/
theorem limiter_never_jams_nestedMap :
    RunMode.sequential.holders nestedMap < 3 ∧
      (RunMode.sequential.start nestedMap).Reaches 3 nestedState ∧
      ¬ nestedState.Jammed 3 :=
  ⟨by decide, reaches_nestedState (by decide),
    limiter_never_jams (by decide) (reaches_nestedState (by decide))⟩

theorem limiter_deadlock_free_nestedMap :
    (RunMode.sequential.start nestedMap).Reaches 3 nestedState ∧
      ∃ t', Thread.Step (nestedState.held < 3) False nestedState t' :=
  ⟨reaches_nestedState (by decide),
    limiter_deadlock_free (by decide) (reaches_nestedState (by decide)) (by simp [nestedState])⟩

/-- With one slot, the map reaches a state in which the iteration that holds it waits for a branch
that waits for a slot, and in which nothing can move but by a cancellation. -/
theorem nestedMap_jams :
    (RunMode.sequential.start nestedMap).Reaches 1 nestedState ∧
      nestedState.Jammed 1 ∧
      ∀ t', ¬ Thread.Step (nestedState.held < 1) False
        nestedState t' := by
  refine ⟨reaches_nestedState (by decide), ⟨rfl, trivial, trivial, trivial⟩, ?_⟩
  -- the only free slot is taken, so neither `acquire` applies
  have hfull : ¬ nestedState.held < 1 := by decide
  intro t' hstep
  cases hstep with
  | worker hws =>
    cases hws with
    | acquire hfree => exact hfull hfree
    | giveUp hc => exact hc
    | acquiring hws =>
      cases hws with
      | thread ht =>
        cases ht with
        | worker hws =>
          cases hws with
          | acquire hfree => exact hfull hfree
          | giveUp hc => exact hc
          | acquiring hws => cases hws
      | holding hws => cases hws

end Workflow.Limiter
