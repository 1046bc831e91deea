import Aflare.Nodes.LLMRouter

/-!
# Requests of a half-open breaker

A breaker that is half-open counts the requests it has let through until each of them is recorded.
A request is let through in one state and may be recorded in another: one that was let through
before the breaker became half-open gives back a slot it never took.
-/

namespace Nodes

open List

/-- A breaker and, for every request that was let through and is not recorded yet, whether that was
since the breaker became half-open. -/
structure Admission where
  breaker : CircuitBreaker
  pending : List Bool

/-- A call of the breaker; a request is recorded once, by its place among those that are pending. -/
inductive BreakerCall
  | allow (now : ℤ)
  | record (place : ℕ) (ok : Bool) (now : ℤ)

namespace Admission

/-- A new breaker with the given settings. -/
def new (config : CircuitBreakerConfig) : Admission := ⟨newCircuitBreaker config, []⟩

variable (s : Admission)

/-- The requests that have come since a breaker in this state became half-open. -/
def earlier : List Bool :=
  if s.breaker.state = .halfOpen then s.pending else s.pending.map fun _ => false

def step : BreakerCall → Option Admission
  | .allow now =>
    match s.breaker.allowRequest now with
    | (false, b) => some ⟨b, s.pending⟩
    | (true, b) => some ⟨b, s.earlier ++ [decide (b.state = .halfOpen)]⟩
  | .record place ok now =>
    match s.pending[place]? with
    | none => none
    | some _ =>
      some ⟨if ok then s.breaker.recordSuccess else s.breaker.recordFailure now,
        s.pending.eraseIdx place⟩

/-- A request is recorded in a half-open breaker only if it was let through since the breaker became
half-open. -/
def Fresh : BreakerCall → Prop
  | .allow _ => True
  | .record place _ _ => s.breaker.state = .halfOpen → s.pending[place]? = some true

instance (s : Admission) : DecidablePred s.Fresh
  | .allow _ => .isTrue trivial
  | .record _ _ _ => inferInstanceAs (Decidable (_ → _))

/-- The counter of a breaker is the number of its requests while it is half-open, and zero
otherwise. -/
structure Counted (s : Admission) : Prop where
  limit_pos : 0 < s.breaker.config.halfOpenMaxRequests
  counter : s.breaker.halfOpenInFlight =
    if s.breaker.state = .halfOpen then (s.pending.count true : ℤ) else 0
  bounded : s.breaker.halfOpenInFlight ≤ s.breaker.config.halfOpenMaxRequests

/-- The breaker counts its probes right through every call. -/
theorem Counted.step {s s' : Admission} {a : BreakerCall} (h : s.Counted) (hfresh : s.Fresh a)
    (hstep : s.step a = some s') : s'.Counted ∧ s'.breaker.config = s.breaker.config := by
  obtain ⟨hpos, hcounter, hbound⟩ := h
  cases a with
  | allow now =>
    simp only [Admission.step, CircuitBreaker.allowRequest, earlier] at hstep
    cases hstate : s.breaker.state with
    | closed =>
      simp only [hstate, reduceCtorEq, if_false] at hstep hcounter
      cases hstep
      exact ⟨⟨hpos, by simpa [hstate] using hcounter, hbound⟩, rfl⟩
    | opened =>
      simp only [hstate, reduceCtorEq, if_false] at hstep hcounter
      split_ifs at hstep with htime
      · cases hstep
        exact ⟨⟨hpos, by simp [count_replicate], hpos⟩, rfl⟩
      · cases hstep
        exact ⟨⟨hpos, by simpa [hstate] using hcounter, hbound⟩, rfl⟩
    | halfOpen =>
      simp only [hstate, if_true] at hstep hcounter
      split_ifs at hstep with hroom
      · cases hstep
        exact ⟨⟨hpos, by simp [hcounter], hroom⟩, rfl⟩
      · cases hstep
        exact ⟨⟨hpos, by simpa [hstate] using hcounter, hbound⟩, rfl⟩
  | record place ok now =>
    simp only [Admission.step] at hstep
    split at hstep
    · cases hstep
    · cases hstep
      cases hstate : s.breaker.state with
      | closed | opened =>
        simp only [hstate, reduceCtorEq, if_false] at hcounter
        simp only [CircuitBreaker.recordSuccess, CircuitBreaker.recordFailure, hstate]
        split_ifs <;> exact ⟨⟨hpos, by simpa [hstate] using hcounter, hbound⟩, rfl⟩
      | halfOpen =>
        simp only [hstate, if_true] at hcounter
        -- the request that is recorded is one of those that are counted
        have hcount : ((s.pending.eraseIdx place).count true : ℤ) = s.pending.count true - 1 := by
          obtain ⟨hlt, hget⟩ := List.getElem?_eq_some_iff.mp (hfresh hstate)
          have hperm := (getElem_cons_eraseIdx_perm hlt).count_eq true
          rw [hget, count_cons_self] at hperm
          omega
        simp only [CircuitBreaker.recordSuccess, CircuitBreaker.recordFailure, hstate]
        split_ifs
        · exact ⟨⟨hpos, by simp, hpos.le⟩, rfl⟩
        · exact ⟨⟨hpos, by simp [hcounter, hcount], by dsimp only; omega⟩, rfl⟩
        · exact ⟨⟨hpos, by simp, hpos.le⟩, rfl⟩

/-- The requests that a half-open breaker has let through since it became half-open are at most as
many as its settings allow, and its counter is never negative, in every run in which a request is
recorded in a half-open breaker only if it was let through since then. -/
theorem half_open_bounded {config : CircuitBreakerConfig} {calls : List BreakerCall}
    {s : Admission} (hfresh : Runs.Guarded step Fresh (new config) calls)
    (hrun : Runs.run step (new config) calls = some s) :
    (s.breaker.state = .halfOpen →
      (s.pending.count true : ℤ) ≤ (newCircuitBreaker config).config.halfOpenMaxRequests) ∧
    0 ≤ s.breaker.halfOpenInFlight := by
  have hnew : (new config).Counted := by
    refine ⟨?_, rfl, ?_⟩
    all_goals
      simp only [new, newCircuitBreaker]
      split_ifs <;> omega
  obtain ⟨⟨-, hcounter, hbound⟩, hconfig⟩ := hfresh.invariant
    (I := fun t => t.Counted ∧ t.breaker.config = (newCircuitBreaker config).config)
    (fun t a t' h hfresh hstep =>
      (h.1.step hfresh hstep).imp_right fun heq => heq.trans h.2) ⟨hnew, rfl⟩ hrun
  rw [← hconfig]
  rw [hcounter] at hbound ⊢
  refine ⟨fun hstate => by simpa [hstate] using hbound, ?_⟩
  split_ifs <;> omega

/-- A breaker that opens at the first failure, with room for the given number of probes. -/
def quickConfig (probes : ℤ) : CircuitBreakerConfig := ⟨1, 1, probes, 1⟩

/-- Requests let through while the breaker is closed are recorded after it has become half-open:
it then lets more through than it should, and its counter becomes negative. -/
theorem not_half_open_bounded :
    (∃ s ∈ Runs.run step (new (quickConfig 2)) [.allow 0, .allow 0, .record 0 false 0, .allow 1,
      .record 0 true 1, .allow 1, .allow 1],
      s.breaker.state = .halfOpen ∧ (2 : ℤ) < s.pending.count true) ∧
    ∃ s ∈ Runs.run step (new (quickConfig 3)) [.allow 0, .allow 0, .allow 0, .record 0 false 0,
      .allow 1, .record 0 true 1, .record 0 true 1], s.breaker.halfOpenInFlight < 0 := by
  decide

/-- A probe that is recorded in time. -/
theorem half_open_bounded_probe :
    ∃ s ∈ Runs.run step (new (quickConfig 2)) [.allow 0, .record 0 false 0, .allow 1, .allow 1],
      s.breaker.state = .halfOpen ∧ (s.pending.count true : ℤ) ≤ 2 := by
  obtain ⟨s, hs, hstate⟩ : ∃ s ∈ Runs.run step (new (quickConfig 2))
      [.allow 0, .record 0 false 0, .allow 1, .allow 1], s.breaker.state = .halfOpen := by
    decide
  exact ⟨s, hs, hstate, (half_open_bounded (by decide) hs).1 hstate⟩

end Admission

end Nodes
