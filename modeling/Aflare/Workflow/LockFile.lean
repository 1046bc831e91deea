import Aflare.Lib.Runs

/-!
# Lock files between processes

A process takes a lock by creating a sentinel file exclusively. A process that finds the sentinel
asks for its age, and removes it when it is older than the stale age: then its owner is taken to
have crashed. Between the question and the removal other processes may run, so that the sentinel
that is removed need not be the one that was found stale. The idempotency store and the audit log
use this protocol with the same bounds.
-/

namespace Workflow

open List

/-- The bounds of a lock, in nanoseconds. -/
structure LockConfig where
  stale : ℕ
  timeout : ℕ

/-- `acquireCrossProcessLock`: `crossProcessLockStale` and `crossProcessLockTimeout`. -/
def crossProcessLock : LockConfig := ⟨30 * 1000000000, 5 * 1000000000⟩

/-- `lockAuditLog`: `auditLockStale` and `auditLockWait`. -/
def auditLock : LockConfig := ⟨30 * 1000000000, 5 * 1000000000⟩

/-- The sentinel file: who created it, if that is known, and when it was last written. -/
structure Sentinel (P : Type) where
  pid : Option P
  modTime : ℕ
  deriving DecidableEq

/-- Where a process is; while it tries to take the lock it has a deadline. -/
inductive LockPhase
  | idle
  /-- Before the exclusive create. -/
  | trying (deadline : ℕ)
  /-- The sentinel exists; before the question for its age. -/
  | busy (deadline : ℕ)
  /-- The sentinel was stale; before its removal. -/
  | reclaiming (deadline : ℕ)
  /-- Before the check of the deadline. -/
  | waiting (deadline : ℕ)
  /-- The sentinel has been created, and is not written. -/
  | created (since : ℕ)
  /-- Between acquire and release. -/
  | holding (since : ℕ)
  deriving DecidableEq

/-- The time since which the process has had a sentinel of its own. -/
def LockPhase.since : LockPhase → Option ℕ
  | .created t => some t
  | .holding t => some t
  | _ => none

structure LockState (P : Type) where
  now : ℕ
  lock : Option (Sentinel P)
  phase : P → LockPhase

/-- The operations of the processes, one at a time, and the passing of time. -/
inductive LockAction (P : Type)
  | start (p : P)
  | create (p : P)
  | write (p : P)
  | stat (p : P)
  | remove (p : P)
  | poll (p : P)
  | release (p : P)
  /-- The process ends where it is; its sentinel stays. -/
  | crash (p : P)
  | tick (d : ℕ)
  deriving DecidableEq

variable {P : Type} [DecidableEq P]

namespace LockState

/-- The process is between acquire and release. -/
def Holds (s : LockState P) (p : P) : Prop := ∃ t, s.phase p = .holding t

/-- The sentinel is older than the stale age. -/
def isStale (cfg : LockConfig) (now : ℕ) (f : Sentinel P) : Bool := cfg.stale < now - f.modTime

/-- The process goes on to another place. -/
def goto (s : LockState P) (p : P) (phase : LockPhase) : LockState P :=
  { s with phase := Function.update s.phase p phase }

def step (cfg : LockConfig) (s : LockState P) : LockAction P → Option (LockState P)
  | .start p =>
    match s.phase p with
    | .idle => some (s.goto p (.trying (s.now + cfg.timeout)))
    | _ => none
  | .create p =>
    match s.phase p, s.lock with
    | .trying _, none => some ({ s with lock := some ⟨some p, s.now⟩ }.goto p (.created s.now))
    | .trying deadline, some _ => some (s.goto p (.busy deadline))
    | _, _ => none
  | .write p =>
    match s.phase p with
    | .created t =>
      -- the file is written also when its name is gone, or names another file
      let lock := s.lock.map fun f => if f.pid = some p then { f with modTime := s.now } else f
      some ({ s with lock := lock }.goto p (.holding t))
    | _ => none
  | .stat p =>
    match s.phase p with
    | .busy deadline =>
      if s.lock.any (isStale cfg s.now) then some (s.goto p (.reclaiming deadline))
      else some (s.goto p (.waiting deadline))
    | _ => none
  | .remove p =>
    match s.phase p with
    | .reclaiming deadline => some ({ s with lock := none }.goto p (.trying deadline))
    | _ => none
  | .poll p =>
    match s.phase p with
    | .waiting deadline =>
      if deadline < s.now then some (s.goto p .idle) else some (s.goto p (.trying deadline))
    | _ => none
  | .release p =>
    match s.phase p with
    | .holding _ => some ({ s with lock := none }.goto p .idle)
    | _ => none
  | .crash p => some (s.goto p .idle)
  | .tick d => some { s with now := s.now + d }

end LockState

variable (cfg : LockConfig) (s : LockState P)

/-- Time passes only as long as no live holder has kept the lock longer than the stale age. -/
def Prompt : LockAction P → Prop
  | .tick d => ∀ p t, (s.phase p).since = some t → s.now + d ≤ t + cfg.stale
  | _ => True

/-- The sentinel that is removed as stale, if there is one, is stale. -/
def StillStale : LockAction P → Prop
  | .remove _ => ∀ f ∈ s.lock, LockState.isStale cfg s.now f = true
  | _ => True

/-! ## The sentinel belongs to the holder -/

/-- A process that has created a sentinel still owns it, and has not had it for longer than the
stale age. -/
def Owned : Prop :=
  ∀ p t, (s.phase p).since = some t →
    t ≤ s.now ∧ s.now ≤ t + cfg.stale ∧ ∃ m, s.lock = some ⟨some p, m⟩ ∧ t ≤ m

namespace Owned

variable {cfg : LockConfig} {s : LockState P} {p : P}

omit [DecidableEq P] in
theorem unique (h : Owned cfg s) {q : P} {t u : ℕ} (hp : (s.phase p).since = some t)
    (hq : (s.phase q).since = some u) : p = q := by
  obtain ⟨-, -, m, hm, -⟩ := h p t hp
  obtain ⟨-, -, n, hn, -⟩ := h q u hq
  rw [hm] at hn
  exact Option.some.inj (Sentinel.mk.inj (Option.some.inj hn)).1

theorem goto (h : Owned cfg s) {phase : LockPhase} (hphase : phase.since = none) :
    Owned cfg (s.goto p phase) := by
  intro q t hq
  by_cases hqp : q = p
  · subst hqp
    simp [LockState.goto, hphase] at hq
  · apply h q t
    simpa [LockState.goto, hqp] using hq

omit [DecidableEq P] in
theorem no_owner (h : Owned cfg s) (hlock : ∀ f ∈ s.lock, LockState.isStale cfg s.now f = true)
    (q : P) : (s.phase q).since = none := by
  by_contra hsome
  obtain ⟨t, ht⟩ := Option.ne_none_iff_exists'.mp hsome
  obtain ⟨-, hage, m, hm, htm⟩ := h q t ht
  have hstale := hlock _ hm
  simp only [LockState.isStale, decide_eq_true_eq] at hstale
  omega

omit [DecidableEq P] in
theorem others (h : Owned cfg s) {t : ℕ} (hp : (s.phase p).since = some t) :
    ∀ q ≠ p, (s.phase q).since = none := by
  intro q hqp
  by_contra hsome
  obtain ⟨u, hu⟩ := Option.ne_none_iff_exists'.mp hsome
  exact hqp (h.unique hu hp)

/-- A process that goes on where no other one owns a sentinel. -/
theorem alone {lock : Option (Sentinel P)} {phase : LockPhase}
    (hothers : ∀ q ≠ p, (s.phase q).since = none)
    (hp : ∀ t, phase.since = some t →
      t ≤ s.now ∧ s.now ≤ t + cfg.stale ∧ ∃ m, lock = some ⟨some p, m⟩ ∧ t ≤ m) :
    Owned cfg ({ s with lock := lock }.goto p phase) := by
  intro q t hq
  by_cases hqp : q = p
  · subst hqp
    exact hp t (by simpa [LockState.goto] using hq)
  · have hq' : (s.phase q).since = some t := by simpa [LockState.goto, hqp] using hq
    rw [hothers q hqp] at hq'
    cases hq'

/-- An operation keeps the sentinel with its owner. -/
theorem step (h : Owned cfg s) {a : LockAction P} {s' : LockState P} (hprompt : Prompt cfg s a)
    (hstale : StillStale cfg s a) (hstep : s.step cfg a = some s') : Owned cfg s' := by
  cases a with
  | start p | stat p | poll p | crash p =>
    obtain ⟨phase, hphase, rfl⟩ : ∃ phase : LockPhase, phase.since = none ∧
        s' = s.goto p phase := by
      grind [LockState.step, LockPhase.since]
    exact h.goto hphase
  | create p =>
    obtain ⟨hfree, rfl⟩ | ⟨deadline, rfl⟩ : (s.lock = none ∧
        s' = { s with lock := some ⟨some p, s.now⟩ }.goto p (.created s.now)) ∨
        ∃ deadline, s' = s.goto p (.busy deadline) := by grind [LockState.step]
    · -- nobody owns a sentinel that is not there
      refine alone (fun q _ => h.no_owner (by simp [hfree]) q) fun t ht => ?_
      cases ht
      exact ⟨Nat.le_refl _, Nat.le_add_right _ _, s.now, rfl, Nat.le_refl _⟩
    · exact h.goto rfl
  | write p =>
    obtain ⟨t, hphase, lock, hlock, rfl⟩ : ∃ t, s.phase p = .created t ∧ ∃ lock,
        lock = s.lock.map (fun f => if f.pid = some p then { f with modTime := s.now } else f) ∧
        s' = { s with lock := lock }.goto p (.holding t) := by grind [LockState.step]
    have hp : (s.phase p).since = some t := by rw [hphase]; rfl
    obtain ⟨hle, hage, m, hm, -⟩ := h p t hp
    refine alone (h.others hp) fun u hu => ?_
    cases hu
    exact ⟨hle, hage, s.now, by simp [hlock, hm], hle⟩
  | remove p =>
    obtain ⟨deadline, rfl⟩ : ∃ deadline,
        s' = { s with lock := none }.goto p (.trying deadline) := by
      grind [LockState.step]
    exact alone (fun q _ => h.no_owner hstale q) (by simp [LockPhase.since])
  | release p =>
    obtain ⟨t, hphase, rfl⟩ : ∃ t, s.phase p = .holding t ∧
        s' = { s with lock := none }.goto p .idle := by grind [LockState.step]
    exact alone (h.others (t := t) (by rw [hphase]; rfl)) (by simp [LockPhase.since])
  | tick d =>
    cases hstep
    intro q t hq
    obtain ⟨hle, -, m, hm, htm⟩ := h q t hq
    exact ⟨Nat.le_trans hle (Nat.le_add_right _ _), hprompt q t hq, m, hm, htm⟩

end Owned

/-! ## Mutual exclusion -/

/-- From idle processes and any leftover sentinel, in a run in which no live holder keeps the lock
longer than the stale age and every sentinel that is removed as stale is still stale, at most one
process is between acquire and release. -/
theorem lock_exclusive {s₀ s : LockState P} (hidle : ∀ p, s₀.phase p = .idle)
    {actions : List (LockAction P)} (hrun : Runs.run (LockState.step cfg) s₀ actions = some s)
    (hprompt : Runs.Guarded (LockState.step cfg) (Prompt cfg) s₀ actions)
    (hstale : Runs.Guarded (LockState.step cfg) (StillStale cfg) s₀ actions) :
    ∀ p q, s.Holds p → s.Holds q → p = q := by
  have hstart : Owned cfg s₀ := by
    intro p t hp
    rw [hidle p] at hp
    cases hp
  have hguard := hprompt.and hstale
  have howned : Owned cfg s := hguard.invariant
    (fun s a s' hs hguard hstep => hs.step hguard.1 hguard.2 hstep) hstart hrun
  rintro p q ⟨t, hp⟩ ⟨u, hq⟩
  exact howned.unique (by rw [hp]; rfl) (by rw [hq]; rfl)

/-- Two idle processes and the sentinel of a crashed one, older than the stale age. -/
def leftover : LockState Bool := ⟨cfg.stale + 1, some ⟨none, 0⟩, fun _ => .idle⟩

/-- A process finds the sentinel stale. -/
def findStale (p : Bool) : List (LockAction Bool) := [.start p, .create p, .stat p]

/-- A process removes the sentinel and takes the lock. -/
def takeOver (p : Bool) : List (LockAction Bool) := [.remove p, .create p, .write p]

theorem prompt_takeOver (s : LockState Bool) {actions : List (LockAction Bool)}
    (h : ∀ a ∈ actions, ∃ p, a ∈ findStale p ++ takeOver p) :
    Runs.Guarded (LockState.step cfg) (Prompt cfg) s actions := by
  apply Runs.guarded_of_forall
  intro a ha t
  obtain ⟨p, hp⟩ := h a ha
  simp only [findStale, takeOver, cons_append, nil_append, mem_cons, not_mem_nil, or_false] at hp
  rcases hp with rfl | rfl | rfl | rfl | rfl | rfl <;> trivial

/-- One process takes over the stale lock, and is alone. -/
theorem lock_exclusive_takeOver :
    ∃ s, Runs.run (LockState.step crossProcessLock) (leftover crossProcessLock)
        (findStale false ++ takeOver false) = some s ∧ s.Holds false ∧
      ∀ p q, s.Holds p → s.Holds q → p = q := by
  obtain ⟨s, hrun, hholds⟩ : ∃ s, Runs.run (LockState.step crossProcessLock)
      (leftover crossProcessLock) (findStale false ++ takeOver false) = some s ∧ s.Holds false :=
    ⟨_, rfl, _, rfl⟩
  have hstale : Runs.Guarded (LockState.step crossProcessLock) (StillStale crossProcessLock)
      (leftover crossProcessLock) (findStale false ++ takeOver false) := by
    simp [Runs.Guarded, findStale, takeOver, StillStale, leftover, LockState.step, LockState.goto,
      LockState.isStale, crossProcessLock]
  have hprompt := prompt_takeOver crossProcessLock (leftover crossProcessLock)
    (fun a (ha : a ∈ findStale false ++ takeOver false) => ⟨false, ha⟩)
  exact ⟨s, hrun, hholds, lock_exclusive crossProcessLock (fun _ => rfl) hrun hprompt hstale⟩

/-- Two processes find the sentinel stale; one takes the lock, then the other removes the new
sentinel and takes the lock as well. -/
theorem not_lock_exclusive :
    ∃ s : LockState Bool, Runs.run (LockState.step crossProcessLock) (leftover crossProcessLock)
        (findStale false ++ findStale true ++ takeOver true ++ takeOver false) = some s ∧
      Runs.Guarded (LockState.step crossProcessLock) (Prompt crossProcessLock)
        (leftover crossProcessLock)
        (findStale false ++ findStale true ++ takeOver true ++ takeOver false) ∧
      s.Holds false ∧ s.Holds true := by
  refine ⟨_, rfl, ?_, ⟨_, rfl⟩, ⟨_, rfl⟩⟩
  apply prompt_takeOver
  intro a ha
  simp only [mem_append] at ha ⊢
  rcases ha with ((h | h) | h) | h
  · exact ⟨false, .inl h⟩
  · exact ⟨true, .inl h⟩
  · exact ⟨true, .inr h⟩
  · exact ⟨false, .inr h⟩

end Workflow
