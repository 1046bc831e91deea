import Aflare.Go.Strings
import Aflare.Go.Maps
import Aflare.Lib.Runs

/-!
# Circuit breakers of agents

The breaker of an A2A agent as concurrent delegations use it: an `allow` call whose cool-down has
elapsed waits for its probe outside the lock, and outcomes are recorded at any time. An open circuit
lets a delegation through again only once a success has been recorded or a probe has been issued
after the cool-down.
-/

namespace Agentx

open Go Runs

inductive BreakerState
  | closed
  | opened
  | halfOpen
  deriving DecidableEq

/-- `agentBreakerEntry`, with times in nanoseconds. -/
structure AgentBreakerEntry where
  state : BreakerState := .closed
  failures : ℤ := 0
  lastErr : Str := []
  openedAt : ℤ := 0

structure CircuitOpenError where
  agent : Str
  failures : ℤ
  lastError : Str

structure AgentBreakerSet where
  threshold : ℤ
  openFor : ℤ
  entries : GoMap Str AgentBreakerEntry

def newAgentBreakerSet (threshold openFor : ℤ) : AgentBreakerSet :=
  ⟨if threshold < 1 then 1 else threshold, openFor, ∅⟩

/-- What `allow` finds out under the lock: it returns, or it has a probe to make. -/
inductive Answer
  | pass
  | refuse (err : CircuitOpenError)
  | probe

namespace AgentBreakerSet

variable (b : AgentBreakerSet) (name : Str)

def put (e : AgentBreakerEntry) : AgentBreakerSet := { b with entries := b.entries.insert name e }

/-- `allow` for an A2A agent, up to its probe. -/
def allow (now : ℤ) : AgentBreakerSet × Answer :=
  match b.entries[name]? with
  | none => (b.put name {}, .pass)
  | some e =>
    match e.state with
    | .closed | .halfOpen => (b, .pass)
    | .opened =>
      if now - e.openedAt < b.openFor then (b, .refuse ⟨name, e.failures, e.lastErr⟩)
      else (b.put name { e with state := .halfOpen }, .probe)

/-- `allow` after a probe that has failed. -/
def probeFailed (now : ℤ) (err : Str) : AgentBreakerSet :=
  b.put name
    { (b.entries[name]?.getD {}) with state := .opened, openedAt := now, lastErr := err }

def record (now : ℤ) (err : Option Str) : AgentBreakerSet :=
  let e := b.entries[name]?.getD {}
  match err, e.state with
  | none, _ => b.put name { e with state := .closed, failures := 0, lastErr := [] }
  | some err, .closed =>
    if b.threshold ≤ e.failures + 1 then
      b.put name
        { e with state := .opened, failures := e.failures + 1, lastErr := err, openedAt := now }
    else b.put name { e with failures := e.failures + 1, lastErr := err }
  | some err, .halfOpen => b.put name { e with state := .opened, openedAt := now, lastErr := err }
  | some _, .opened => b

end AgentBreakerSet

/-! ## Concurrent delegations -/

structure Delegations where
  breakers : AgentBreakerSet
  clock : ℤ := 0
  /-- The callers of `allow` that wait for their probe. -/
  probing : List ℕ := []
  /-- The delegations that are allowed and have not recorded their outcome. -/
  running : ℕ := 0

inductive Event
  | allow (caller : ℕ)
  | probed (caller : ℕ) (err : Option Str)
  | record (err : Option Str)

variable (name : Str) (s : Delegations)

/-- A delegation to the agent does something. -/
def act (now : ℤ) : Event → Option Delegations
  | .allow caller =>
    match s.breakers.allow name now with
    | (b, .pass) => some { s with breakers := b, running := s.running + 1 }
    | (b, .refuse _) => some { s with breakers := b }
    | (b, .probe) => some { s with breakers := b, probing := caller :: s.probing }
  | .probed caller err =>
    if caller ∉ s.probing then none
    else
      let s := { s with probing := s.probing.erase caller }
      match err with
      | some err => some { s with breakers := s.breakers.probeFailed name now err }
      | none =>
        some { s with breakers := s.breakers.record name now none, running := s.running + 1 }
  | .record err =>
    if s.running = 0 then none
    else some { s with breakers := s.breakers.record name now err, running := s.running - 1 }

/-- One step; time does not run backwards. -/
def step (timed : ℤ × Event) : Option Delegations :=
  if timed.1 < s.clock then none
  else (act name s timed.1 timed.2).map fun s => { s with clock := timed.1 }

/-- The circuit is open since a time. -/
def OpenSince (t : ℤ) : Prop :=
  ∃ e, s.breakers.entries[name]? = some e ∧ e.state = .opened ∧ e.openedAt = t

/-- An event makes an `allow` call return nil. -/
def ReturnsNil : ℤ × Event → Prop
  | (now, .allow _) => (s.breakers.allow name now).2 = .pass
  | (_, .probed _ err) => err = none
  | (_, .record _) => False

/-- The circuit opens at a time, and after some more events an `allow` call returns nil. -/
structure PassesAgain (s : Delegations) (t : ℤ) (after : List (ℤ × Event)) (last : ℤ × Event) :
    Prop where
  opens : ∃ threshold openFor before event,
    run (step name) ⟨newAgentBreakerSet threshold openFor, 0, [], 0⟩ (before ++ [(t, event)]) =
      some s
  opened : OpenSince name s t
  passes : ∃ m, run (step name) s after = some m ∧ ReturnsNil name m last

/-- Among some events, a probe is issued after the cool-down, and it succeeds. -/
def ProbedAfterCooldown (t : ℤ) (events : List (ℤ × Event)) : Prop :=
  ∃ front caller now back m, events = front ++ (now, .allow caller) :: back ∧
    run (step name) s front = some m ∧ (m.breakers.allow name now).2 = .probe ∧
    t + s.breakers.openFor ≤ now ∧ ∃ later, (later, Event.probed caller none) ∈ back

/-- An event records a success, or issues a probe after the cool-down. -/
def Clears (t openFor : ℤ) (s : Delegations) : ℤ × Event → Prop
  | (now, .allow _) => (s.breakers.allow name now).2 = .probe ∧ t + openFor ≤ now
  | (_, .probed _ err) => err = none
  | (_, .record err) => err = none

/-- The circuit is open, and was not opened before a time. -/
structure StaysOpen (t openFor : ℤ) (s : Delegations) : Prop where
  openFor_eq : s.breakers.openFor = openFor
  clock : t ≤ s.clock
  entry : ∃ e, s.breakers.entries[name]? = some e ∧ e.state = .opened ∧ t ≤ e.openedAt

variable {name} {s s' : Delegations} {t openFor : ℤ} {a : ℤ × Event}

/-- In an open circuit, `allow` refuses or issues a probe after the cool-down. -/
theorem StaysOpen.allow (h : StaysOpen name t openFor s) (now : ℤ) :
    (∃ err, s.breakers.allow name now = (s.breakers, .refuse err)) ∨
      (s.breakers.allow name now).2 = .probe ∧ t + openFor ≤ now := by
  obtain ⟨e, he, hstate, ht⟩ := h.entry
  simp only [AgentBreakerSet.allow, he, hstate]
  split_ifs with hnow
  · exact .inl ⟨_, rfl⟩
  · refine .inr ⟨rfl, ?_⟩
    rw [h.openFor_eq] at hnow
    omega

theorem act_of_step {now : ℤ} {event : Event} (h : step name s (now, event) = some s') :
    s.clock ≤ now ∧ ∃ r, act name s now event = some r ∧ { r with clock := now } = s' := by
  simp only [step] at h
  split_ifs at h with hnow
  exact ⟨not_lt.mp hnow, Option.map_eq_some_iff.mp h⟩

/-- An open circuit stays open until an event clears it. -/
theorem StaysOpen.step (h : StaysOpen name t openFor s) (hclears : ¬ Clears name t openFor s a)
    (hstep : step name s a = some s') : StaysOpen name t openFor s' := by
  obtain ⟨now, event⟩ := a
  obtain ⟨hnow, r, hact, rfl⟩ := act_of_step hstep
  have htime : t ≤ now := h.clock.trans hnow
  obtain ⟨e, he, hstate, ht⟩ := h.entry
  cases event with
  | allow caller =>
    obtain ⟨err, hallow⟩ := (h.allow now).resolve_right hclears
    simp only [act, hallow] at hact
    cases hact
    exact ⟨h.openFor_eq, htime, e, he, hstate, ht⟩
  | probed caller err =>
    cases err with
    | none => exact absurd rfl hclears
    | some err =>
      simp only [act] at hact
      split_ifs at hact
      cases hact
      exact ⟨h.openFor_eq, htime, _, Std.ExtTreeMap.getElem?_insert_self, rfl, htime⟩
  | record err =>
    cases err with
    | none => exact absurd rfl hclears
    | some err =>
      -- a failure that arrives late changes nothing
      have hrecord : s.breakers.record name now (some err) = s.breakers := by
        simp [AgentBreakerSet.record, he, hstate]
      simp only [act, hrecord] at hact
      split_ifs at hact
      cases hact
      exact ⟨h.openFor_eq, htime, e, he, hstate, ht⟩

def planner : Str := str "planner"

/-- One of two delegations has failed and opened the circuit, for a minute. -/
def halfDown : Delegations where
  breakers :=
    ⟨1, 60, ((∅ : GoMap _ _).insert planner {}).insert planner ⟨.opened, 1, str "down", 0⟩⟩
  running := 1

theorem passesAgain_halfDown {events : List (ℤ × Event)} {last : ℤ × Event}
    (hpasses : ∃ m, run (step planner) halfDown events = some m ∧ ReturnsNil planner m last) :
    PassesAgain planner halfDown 0 events last where
  opens := ⟨1, 60, [(0, .allow 0), (0, .allow 1)], .record (some (str "down")), rfl⟩
  opened := ⟨_, Std.ExtTreeMap.getElem?_insert_self, rfl, rfl⟩
  passes := hpasses

end Agentx
