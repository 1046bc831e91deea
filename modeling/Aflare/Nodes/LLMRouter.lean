import Aflare.Go.Strings
import Aflare.Lib.Runs

/-!
# The router and its circuit breakers

A call of the router selects the providers that may be asked, puts them in the order of its strategy
and asks them one after the other until one answers. Each provider has a circuit breaker. A breaker
that was open for long enough lets a few probe requests through, and counts them until they are
recorded; the selection takes such a slot for every provider it selects, whether the provider is
asked or not.

Calls may overlap. The strategy is any order of the selected providers, and a provider may answer or
fail, or the caller may go away between two attempts.
-/

namespace Nodes

open Go List Function

/-! ## Circuit breakers -/

inductive CircuitState
  | closed
  | opened
  | halfOpen
  deriving DecidableEq

/-- `CircuitBreakerConfig`, with durations in nanoseconds. -/
structure CircuitBreakerConfig where
  failureThreshold : ℤ
  openTimeout : ℤ
  halfOpenMaxRequests : ℤ
  windowSize : ℤ
  deriving DecidableEq

def defaultCircuitBreakerConfig : CircuitBreakerConfig where
  failureThreshold := 5
  openTimeout := 30 * 1000000000
  halfOpenMaxRequests := 3
  windowSize := 2 * 60 * 1000000000

structure CircuitBreaker where
  config : CircuitBreakerConfig
  state : CircuitState
  failures : List ℤ
  openedAt : ℤ
  halfOpenInFlight : ℤ
  halfOpenSuccess : ℤ
  deriving DecidableEq

/-- `NewCircuitBreaker`: settings that are not positive are replaced by their defaults. -/
def newCircuitBreaker (config : CircuitBreakerConfig) : CircuitBreaker where
  config :=
    { failureThreshold := if config.failureThreshold ≤ 0 then 5 else config.failureThreshold
      openTimeout := if config.openTimeout ≤ 0 then 30 * 1000000000 else config.openTimeout
      halfOpenMaxRequests :=
        if config.halfOpenMaxRequests ≤ 0 then 3 else config.halfOpenMaxRequests
      windowSize := if config.windowSize ≤ 0 then 2 * 60 * 1000000000 else config.windowSize }
  state := .closed
  failures := []
  openedAt := 0
  halfOpenInFlight := 0
  halfOpenSuccess := 0

namespace CircuitBreaker

variable (b : CircuitBreaker)

def allowRequest (now : ℤ) : Bool × CircuitBreaker :=
  match b.state with
  | .closed => (true, b)
  | .opened =>
    if b.config.openTimeout ≤ now - b.openedAt then
      (true, { b with state := .halfOpen, halfOpenInFlight := 1, halfOpenSuccess := 0 })
    else (false, b)
  | .halfOpen =>
    if b.halfOpenInFlight < b.config.halfOpenMaxRequests then
      (true, { b with halfOpenInFlight := b.halfOpenInFlight + 1 })
    else (false, b)

def recordSuccess : CircuitBreaker :=
  match b.state with
  | .closed => { b with failures := [] }
  | .opened => b
  | .halfOpen =>
    if b.config.halfOpenMaxRequests ≤ b.halfOpenSuccess + 1 then
      { b with state := .closed, failures := [], halfOpenInFlight := 0, halfOpenSuccess := 0 }
    else
      { b with
        halfOpenSuccess := b.halfOpenSuccess + 1
        halfOpenInFlight := b.halfOpenInFlight - 1 }

def pruneFailures (now : ℤ) (failures : List ℤ) : List ℤ :=
  failures.dropWhile fun t => t < now - b.config.windowSize

def recordFailure (now : ℤ) : CircuitBreaker :=
  match b.state with
  | .closed =>
    let failures := b.pruneFailures now (b.failures ++ [now])
    if b.config.failureThreshold ≤ failures.length then
      { b with failures := failures, state := .opened, openedAt := now }
    else { b with failures := failures }
  | .opened => b
  | .halfOpen =>
    { b with state := .opened, openedAt := now, halfOpenInFlight := 0, halfOpenSuccess := 0 }

/-- The breaker opened long enough ago, or lets probes through. -/
def Recovering (now : ℤ) : Prop :=
  b.state = .opened ∧ b.config.openTimeout ≤ now - b.openedAt ∨ b.state = .halfOpen
  deriving Decidable

/-- The slots of a half-open breaker with the default settings are held by at most `n` requests. -/
structure Accounted (n : ℕ) : Prop where
  config_eq : b.config = defaultCircuitBreakerConfig
  inFlight_le : b.state = .halfOpen → b.halfOpenInFlight ≤ n

variable {b} {n : ℕ} {m : ℕ}

theorem Accounted.mono (h : b.Accounted n) (hle : n ≤ m) : b.Accounted m :=
  ⟨h.config_eq, fun hstate => (h.inFlight_le hstate).trans (by omega)⟩

theorem accounted_of_ne (hconfig : b.config = defaultCircuitBreakerConfig)
    (hstate : b.state ≠ .halfOpen) : b.Accounted n := ⟨hconfig, fun h => absurd h hstate⟩

theorem accounted_new : (newCircuitBreaker defaultCircuitBreakerConfig).Accounted n where
  config_eq := rfl
  inFlight_le h := by cases h

/-- A probe is counted when it is let through. -/
theorem Accounted.allowRequest (h : b.Accounted n) (now : ℤ) :
    (b.allowRequest now).2.Accounted
      (n + if (b.allowRequest now).1 ∧ (b.allowRequest now).2.state = .halfOpen then 1 else 0) := by
  obtain ⟨hconfig, hle⟩ := h
  cases hstate : b.state with
  | closed =>
    refine ⟨by simpa [CircuitBreaker.allowRequest, hstate] using hconfig, fun h => ?_⟩
    simp [CircuitBreaker.allowRequest, hstate] at h
  | opened =>
    by_cases htime : b.config.openTimeout ≤ now - b.openedAt
    · simp only [CircuitBreaker.allowRequest, hstate, if_pos htime]
      exact ⟨hconfig, fun _ => by simp⟩
    · simp only [CircuitBreaker.allowRequest, hstate, if_neg htime]
      exact ⟨hconfig, fun h => by simp [hstate] at h⟩
  | halfOpen =>
    have hle := hle hstate
    by_cases hroom : b.halfOpenInFlight < b.config.halfOpenMaxRequests
    · simp only [CircuitBreaker.allowRequest, hstate, if_pos hroom]
      exact ⟨hconfig, fun _ => by simpa using hle⟩
    · simp only [CircuitBreaker.allowRequest, hstate, if_neg hroom]
      exact ⟨hconfig, fun _ => by simpa using hle⟩

theorem Accounted.recordSuccess (h : b.Accounted n) : b.recordSuccess.Accounted (n - 1) := by
  obtain ⟨hconfig, hle⟩ := h
  cases hstate : b.state with
  | closed =>
    simp only [CircuitBreaker.recordSuccess, hstate]
    exact ⟨hconfig, fun h => by cases h⟩
  | opened =>
    simp only [CircuitBreaker.recordSuccess, hstate]
    exact ⟨hconfig, fun h => by simp [hstate] at h⟩
  | halfOpen =>
    have hle := hle hstate
    simp only [CircuitBreaker.recordSuccess, hstate]
    split_ifs
    · exact ⟨hconfig, fun h => by cases h⟩
    · refine ⟨hconfig, fun _ => ?_⟩
      simp only
      omega

theorem Accounted.recordFailure (h : b.Accounted n) (now : ℤ) :
    (b.recordFailure now).Accounted m := by
  obtain ⟨hconfig, -⟩ := h
  cases hstate : b.state with
  | closed =>
    simp only [CircuitBreaker.recordFailure, hstate]
    split_ifs
    · exact ⟨hconfig, fun h => by cases h⟩
    · exact ⟨hconfig, fun h => by cases h⟩
  | opened =>
    simp only [CircuitBreaker.recordFailure, hstate]
    exact ⟨hconfig, fun h => by simp [hstate] at h⟩
  | halfOpen =>
    simp only [CircuitBreaker.recordFailure, hstate]
    exact ⟨hconfig, fun h => by cases h⟩

variable (b) in
/-- The breaker lets `n` more requests through now. -/
structure Admits (now : ℤ) (n : ℕ) : Prop where
  config_eq : b.config = defaultCircuitBreakerConfig
  opened : b.state = .opened → b.config.openTimeout ≤ now - b.openedAt ∧ n ≤ 3
  halfOpen : b.state = .halfOpen → b.halfOpenInFlight + n ≤ 3

variable {now : ℤ}

theorem Admits.mono (h : b.Admits now n) (hle : m ≤ n) : b.Admits now m :=
  ⟨h.config_eq, fun hstate => ⟨(h.opened hstate).1, hle.trans (h.opened hstate).2⟩,
    fun hstate => by have := h.halfOpen hstate; omega⟩

/-- A request that is admitted takes one of the free slots. -/
theorem Admits.allowRequest (h : b.Admits now (n + 1)) :
    (b.allowRequest now).1 = true ∧ (b.allowRequest now).2.Admits now n := by
  obtain ⟨hconfig, hopened, hhalf⟩ := h
  cases hstate : b.state with
  | closed =>
    simp only [CircuitBreaker.allowRequest, hstate, true_and]
    exact ⟨hconfig, fun h => (by simp [hstate] at h), fun h => by simp [hstate] at h⟩
  | opened =>
    obtain ⟨htime, hle⟩ := hopened hstate
    simp only [CircuitBreaker.allowRequest, hstate, if_pos htime, true_and]
    refine ⟨hconfig, fun h => (by cases h), fun _ => ?_⟩
    simp only
    omega
  | halfOpen =>
    have hle := hhalf hstate
    have hroom : b.halfOpenInFlight < b.config.halfOpenMaxRequests := by
      rw [hconfig, defaultCircuitBreakerConfig]
      simp only
      omega
    simp only [CircuitBreaker.allowRequest, hstate, if_pos hroom, true_and]
    refine ⟨hconfig, fun h => (by cases h), fun _ => ?_⟩
    simp only
    omega

/-- A recovering breaker none of whose slots is held lets as many requests through as it has
slots. -/
theorem Accounted.admits (h : b.Accounted 0) (hrecovering : b.Recovering now) : b.Admits now 3 := by
  obtain ⟨hconfig, hle⟩ := h
  rcases hrecovering with ⟨hstate, htime⟩ | hstate
  · exact ⟨hconfig, fun _ => ⟨htime, Nat.le_refl 3⟩, fun h => by simp [hstate] at h⟩
  · refine ⟨hconfig, fun h => (by simp [hstate] at h), fun h => ?_⟩
    have hzero := hle h
    omega

end CircuitBreaker

/-! ## Providers -/

/-- `RouterProvider`, without what only the order of the selection depends on. -/
structure RouterProvider where
  name : Str
  model : Str
  apiKey : Str
  quotaDaily : ℤ
  enabled : Bool
  deriving DecidableEq

/-- `ProviderStats`, without what only statistics and the order depend on. -/
structure ProviderStats where
  dailyUsage : ℤ
  lastResetDate : Str
  breaker : CircuitBreaker

/-- The usage starts again on a new day. -/
def ProviderStats.onDay (st : ProviderStats) (today : Str) : ProviderStats :=
  if st.lastResetDate ≠ today then { st with dailyUsage := 0, lastResetDate := today } else st

variable (st : ProviderStats)

@[simp] theorem ProviderStats.onDay_breaker (today : Str) :
    (st.onDay today).breaker = st.breaker := by
  rw [onDay]
  split_ifs <;> rfl

theorem ProviderStats.onDay_with_breaker (today : Str) (b : CircuitBreaker) :
    ({ st.onDay today with breaker := b } : ProviderStats).onDay today =
      { st.onDay today with breaker := b } := by
  by_cases h : st.lastResetDate = today <;> simp [onDay, h]

@[simp] theorem ProviderStats.onDay_onDay (today : Str) :
    (st.onDay today).onDay today = st.onDay today := by
  by_cases h : st.lastResetDate = today <;> simp [onDay, h]

/-- The statistics by the name of the provider. -/
abbrev StatsMap := Str → Option ProviderStats

/-- What a router is made with. -/
structure RouterConfig where
  providers : List RouterProvider
  /-- The quotas that override those of the providers, by name. -/
  tenantQuota : Str → Option ℤ
  /-- What `loadQuotaLocked` finds in the quota store, by name and day. -/
  storedUsage : Str → Str → ℤ

/-- A selected provider, with whether its breaker has given it a slot for a probe. -/
structure Candidate where
  provider : RouterProvider
  probe : Bool
  deriving DecidableEq

namespace RouterConfig

variable (cfg : RouterConfig)

def quotaFor (p : RouterProvider) : ℤ := (cfg.tenantQuota p.name).getD p.quotaDaily

/-- `newProviderStats` and `loadQuotaLocked`. -/
def newProviderStats (name today : Str) : ProviderStats where
  dailyUsage := cfg.storedUsage name today
  lastResetDate := today
  breaker := newCircuitBreaker defaultCircuitBreakerConfig

/-- `getOrCreateStatsLocked`. -/
def getOrCreateStats (stats : StatsMap) (name today : Str) : ProviderStats :=
  (stats name).getD (cfg.newProviderStats name today)

/-- The quota of a provider is not used up. -/
def UnderQuota (stats : StatsMap) (today : Str) (p : RouterProvider) : Prop :=
  ¬ (0 < cfg.quotaFor p ∧
    cfg.quotaFor p ≤ ((cfg.getOrCreateStats stats p.name today).onDay today).dailyUsage)
  deriving Decidable

/-- One round of the loop of `getActiveProviders`. -/
def consider (now : ℤ) (today : Str) (p : RouterProvider) (stats : StatsMap) :
    Option Candidate × StatsMap :=
  if p.enabled then
    let st := (cfg.getOrCreateStats stats p.name today).onDay today
    if cfg.UnderQuota stats today p then
      let (allowed, breaker) := st.breaker.allowRequest now
      (if allowed then some ⟨p, breaker.state = .halfOpen⟩ else none,
        Function.update stats p.name (some { st with breaker := breaker }))
    else (none, Function.update stats p.name (some st))
  else (none, stats)

/-- `getActiveProviders` for the providers from one on. -/
def activeFrom (now : ℤ) (today : Str) :
    List RouterProvider → StatsMap → List Candidate × StatsMap
  | [], stats => ([], stats)
  | p :: rest, stats =>
    let (candidate, stats) := cfg.consider now today p stats
    let (active, stats) := activeFrom now today rest stats
    (candidate.toList ++ active, stats)

def recordSuccess (today name : Str) (tokens : ℤ) (stats : StatsMap) : StatsMap :=
  let st := (cfg.getOrCreateStats stats name today).onDay today
  Function.update stats name
    (some { st with dailyUsage := st.dailyUsage + tokens, breaker := st.breaker.recordSuccess })

def recordFailure (now : ℤ) (today name : Str) (stats : StatsMap) : StatsMap :=
  let st := cfg.getOrCreateStats stats name today
  Function.update stats name (some { st with breaker := st.breaker.recordFailure now })

end RouterConfig

/-! ## Calls -/

/-- A call of `Execute` in progress: the candidates that it has not tried, in its order, and the
attempts that it may still make. -/
structure ExecuteCall where
  untried : List Candidate
  left : ℕ

/-- The state of a router: the time, the date, the statistics and the calls in progress. -/
structure Router where
  now : ℤ
  today : Str
  stats : StatsMap
  calls : List ExecuteCall

/-- The steps of the calls. -/
inductive RouterAction
  /-- Time passes, and the date may change. -/
  | elapse (nanos : ℕ) (today : Str)
  /-- A call starts: it selects, and orders what it has selected. -/
  | select (order : List ℕ) (maxRetries : ℕ)
  /-- A call tries its next candidate, which answers with a number of tokens or fails. -/
  | attempt (call : ℕ) (answer : Option ℤ)
  /-- A call finds its context cancelled before an attempt. -/
  | cancel (call : ℕ)
  /-- A call has no attempt or no candidate left. -/
  | giveUp (call : ℕ)

/-- What an attempt comes to: a provider without a key is not asked. -/
def Candidate.answer (c : Candidate) (answer : Option ℤ) : Option ℤ :=
  if c.provider.apiKey = [] ∧ c.provider.name ≠ str "ollama" then none else answer

namespace Router

def new (now : ℤ) (today : Str) : Router := ⟨now, today, fun _ => none, []⟩

def getActiveProviders (cfg : RouterConfig) (s : Router) : List Candidate × StatsMap :=
  cfg.activeFrom s.now s.today cfg.providers s.stats

/-- One step; `none` if it cannot happen now. -/
def step (cfg : RouterConfig) (s : Router) : RouterAction → Option Router
  | .elapse nanos today => some { s with now := s.now + nanos, today := today }
  | .select order maxRetries =>
    let (active, stats) := s.getActiveProviders cfg
    if order.isPerm (List.range active.length) then
      let providers := order.filterMap (active[·]?)
      some { s with
        stats := stats
        calls := if providers = [] then s.calls else s.calls ++ [⟨providers, maxRetries⟩] }
    else none
  | .attempt i answer =>
    match s.calls[i]? with
    | some ⟨c :: rest, left + 1⟩ =>
      match c.answer answer with
      | some tokens =>
        some { s with
          stats := cfg.recordSuccess s.today c.provider.name tokens s.stats
          calls := s.calls.eraseIdx i }
      | none =>
        some { s with
          stats := cfg.recordFailure s.now s.today c.provider.name s.stats
          calls := s.calls.set i ⟨rest, left⟩ }
    | _ => none
  | .cancel i =>
    match s.calls[i]? with
    | some ⟨_ :: _, _ + 1⟩ => some { s with calls := s.calls.eraseIdx i }
    | _ => none
  | .giveUp i =>
    match s.calls[i]? with
    | some ⟨[], _⟩ | some ⟨_, 0⟩ => some { s with calls := s.calls.eraseIdx i }
    | _ => none

/-- The candidates that a call leaves untried when it returns by an action. -/
def leftOver (s : Router) : RouterAction → List Candidate
  | .attempt i answer =>
    match s.calls[i]? with
    | some ⟨c :: rest, _⟩ => if (c.answer answer).isSome then rest else []
    | _ => []
  | .cancel i | .giveUp i => (s.calls[i]?.map (·.untried)).getD []
  | .elapse _ _ | .select _ _ => []

/-- The state of the breaker of a name. -/
def circuitState (s : Router) (name : Str) : Option CircuitState :=
  (s.stats name).map (·.breaker.state)

end Router

/-- A call that returns has tried every candidate that holds a slot of a half-open breaker. -/
def ReturnsSlots (s : Router) (a : RouterAction) : Prop :=
  ∀ c ∈ s.leftOver a, c.probe = true → s.circuitState c.provider.name ≠ some .halfOpen
  deriving Decidable

/-! ## Slots and the calls that hold them -/

/-- The number of slots of a breaker that some candidates hold. -/
def slots (name : Str) (candidates : List Candidate) : ℕ :=
  candidates.countP fun c => c.probe && c.provider.name = name

@[simp] theorem slots_nil (name : Str) : slots name [] = 0 := rfl

@[simp] theorem slots_append (name : Str) (cs cs' : List Candidate) :
    slots name (cs ++ cs') = slots name cs + slots name cs' := countP_append ..

/-- Every half-open breaker counts at most the given number of slots. -/
def AllAccounted (stats : StatsMap) (n : Str → ℕ) : Prop :=
  ∀ name st, stats name = some st → st.breaker.Accounted (n name)

variable {name : Str} {st : ProviderStats}

section AllAccounted

variable {cfg : RouterConfig} {stats : StatsMap} {n m : Str → ℕ} (h : AllAccounted stats n)

include h

theorem AllAccounted.mono (hle : ∀ name, n name ≤ m name) :
    AllAccounted stats m := fun name st hst => (h name st hst).mono (hle name)

variable (cfg) in
theorem AllAccounted.getOrCreateStats (name today : Str) :
    (cfg.getOrCreateStats stats name today).breaker.Accounted (n name) := by
  rw [RouterConfig.getOrCreateStats]
  cases hst : stats name with
  | none => exact CircuitBreaker.accounted_new
  | some st => exact h name st hst

theorem AllAccounted.update
    (hst : st.breaker.Accounted (m name)) (hle : ∀ other, other ≠ name → n other ≤ m other) :
    AllAccounted (Function.update stats name (some st)) m :=
  (forall_update_iff stats fun other o => ∀ st, o = some st → st.breaker.Accounted (m other)).mpr
    ⟨fun _ heq => Option.some.inj heq ▸ hst, fun other hne st' hst' =>
      (h other st' hst').mono (hle other hne)⟩

variable (cfg) in
theorem AllAccounted.consider (now : ℤ) (today : Str) (p : RouterProvider) :
    AllAccounted (cfg.consider now today p stats).2
      fun name => n name + slots name (cfg.consider now today p stats).1.toList := by
  have hbreaker : ((cfg.getOrCreateStats stats p.name today).onDay today).breaker.Accounted
      (n p.name) := by
    rw [ProviderStats.onDay_breaker]
    exact h.getOrCreateStats cfg p.name today
  rw [RouterConfig.consider]
  split_ifs with henabled hquota
  · refine h.update ?_ fun other _ => Nat.le_add_right ..
    refine (hbreaker.allowRequest now).mono (Nat.add_le_add_left ?_ _)
    split_ifs with hslot
    · simpa [slots] using hslot
    · exact Nat.zero_le _
  · exact h.update (hbreaker.mono (Nat.le_add_right ..)) fun other _ => Nat.le_add_right ..
  · exact h.mono fun name => Nat.le_add_right ..

variable (cfg) in
theorem AllAccounted.activeFrom (now : ℤ) (today : Str) (providers : List RouterProvider) :
    AllAccounted (cfg.activeFrom now today providers stats).2
      fun name => n name + slots name (cfg.activeFrom now today providers stats).1 := by
  induction providers generalizing stats n with
  | nil => exact h
  | cons p rest ih =>
    refine (ih (h.consider cfg now today p)).mono fun name => ?_
    simp only [RouterConfig.activeFrom, slots_append]
    omega

omit h

end AllAccounted

variable {a : RouterAction} {call : ExecuteCall}

namespace Router

/-- The slots of a breaker that are held by calls in progress. -/
def held (s : Router) (name : Str) : ℕ := slots name (s.calls.flatMap (·.untried))

/-- The slots that a half-open breaker counts are held by calls in progress. -/
def Inv (s : Router) : Prop := AllAccounted s.stats s.held

theorem inv_new (now : ℤ) (today : Str) : (new now today).Inv := by
  intro name st hst
  cases hst

variable {cfg : RouterConfig} {s s' : Router} {calls : List ExecuteCall} {i : ℕ}

theorem slots_set (name : Str) (call' : ExecuteCall) (hcall : calls[i]? = some call) :
    slots name ((calls.set i call').flatMap (·.untried)) =
      slots name ((calls.eraseIdx i).flatMap (·.untried)) + slots name call'.untried := by
  obtain ⟨hlt, -⟩ := List.getElem?_eq_some_iff.mp hcall
  have hperm := (set_perm_cons_eraseIdx hlt call').flatMap_right (·.untried)
  rw [slots, hperm.countP_eq, flatMap_cons, countP_append, Nat.add_comm, slots, slots]

theorem slots_eraseIdx (name : Str) (hcall : calls[i]? = some call) :
    slots name (calls.flatMap (·.untried)) =
      slots name ((calls.eraseIdx i).flatMap (·.untried)) + slots name call.untried := by
  obtain ⟨hlt, rfl⟩ := List.getElem?_eq_some_iff.mp hcall
  rw [← slots_set name _ hcall, set_getElem_self]

theorem slots_eq_zero {cs : List Candidate}
    (h : ∀ c ∈ cs, c.probe = true → c.provider.name ≠ name) : slots name cs = 0 := by
  rw [slots, countP_eq_zero]
  intro c hc
  simpa using h c hc

theorem slots_leftOver (hguard : ReturnsSlots s a) (hst : s.stats name = some st)
    (hhalf : st.breaker.state = .halfOpen) : slots name (s.leftOver a) = 0 := by
  apply slots_eq_zero
  rintro c hc hprobe rfl
  exact hguard c hc hprobe (by rw [circuitState, hst, Option.map_some, hhalf])

/-- The slots of the candidates that a call has left over are not counted when it returns. -/
theorem Inv.release (hinv : s.Inv) (hguard : ReturnsSlots s a) {n : Str → ℕ}
    (hheld : ∀ name, s.held name = n name + slots name (s.leftOver a)) :
    AllAccounted s.stats n := by
  intro name st hst
  have haccounted := hinv name st hst
  by_cases hhalf : st.breaker.state = .halfOpen
  · rw [hheld, slots_leftOver hguard hst hhalf] at haccounted
    exact haccounted
  · exact CircuitBreaker.accounted_of_ne haccounted.config_eq hhalf

theorem Inv.drop (hinv : s.Inv) (hguard : ReturnsSlots s a) (hcall : s.calls[i]? = some call)
    (hleft : s.leftOver a = call.untried) : Inv { s with calls := s.calls.eraseIdx i } :=
  hinv.release hguard fun name => by rw [hleft]; exact slots_eraseIdx name hcall

variable {rest : List Candidate} {c : Candidate}

theorem slots_cons (name : Str) :
    slots name (c :: rest) = slots name [c] + slots name rest := slots_append name [c] rest

theorem slots_singleton_of_ne (hname : name ≠ c.provider.name) : slots name [c] = 0 :=
  slots_eq_zero (by simpa using fun _ => hname.symm)

/-- A call returns with an answer, which gives the slot of its candidate back. -/
theorem Inv.succeed {i left : ℕ} (hinv : s.Inv) (hguard : ReturnsSlots s a)
    (hcall : s.calls[i]? = some ⟨c :: rest, left⟩) (hleft : s.leftOver a = rest) (tokens : ℤ) :
    Inv { s with
      stats := cfg.recordSuccess s.today c.provider.name tokens s.stats
      calls := s.calls.eraseIdx i } := by
  -- the slot of `c` is the only one of the call that is still counted
  have hkept : AllAccounted s.stats fun name =>
      slots name ((s.calls.eraseIdx i).flatMap (·.untried)) + slots name [c] :=
    hinv.release hguard fun name => by
      rw [hleft, Nat.add_assoc, ← slots_cons]
      exact slots_eraseIdx name hcall
  refine hkept.update ?_ fun other hother => ?_
  · rw [ProviderStats.onDay_breaker]
    have hone : slots c.provider.name [c] ≤ 1 := countP_le_length
    refine (hkept.getOrCreateStats cfg c.provider.name s.today).recordSuccess.mono ?_
    simp only [held]
    omega
  · rw [slots_singleton_of_ne hother]
    exact Nat.le_refl _

theorem Inv.fail {i left left' : ℕ} (hinv : s.Inv) (hcall : s.calls[i]? = some ⟨c :: rest, left⟩) :
    Inv { s with
      stats := cfg.recordFailure s.now s.today c.provider.name s.stats
      calls := s.calls.set i ⟨rest, left'⟩ } := by
  refine AllAccounted.update hinv ?_ ?_
  · exact (hinv.getOrCreateStats cfg c.provider.name s.today).recordFailure s.now
  · intro other hother
    simp only [held]
    rw [slots_eraseIdx other hcall, slots_set other _ hcall, slots_cons,
      slots_singleton_of_ne hother, Nat.zero_add]

variable {α : Type}

theorem filterMap_range_getElem? (l : List α) : (List.range l.length).filterMap (l[·]?) = l := by
  induction l using List.reverseRecOn with
  | nil => rfl
  | append_singleton l x ih =>
    have hfront : (List.range l.length).filterMap ((l ++ [x])[·]?) =
        (List.range l.length).filterMap (l[·]?) :=
      filterMap_congr fun i hi => getElem?_append_left (mem_range.mp hi)
    rw [length_append, length_singleton, range_succ, filterMap_append, hfront, ih]
    simp

variable {order : List ℕ}

theorem perm_filterMap_getElem? {l : List α}
    (h : order.Perm (List.range l.length)) : (order.filterMap (l[·]?)).Perm l := by
  simpa only [filterMap_range_getElem?] using h.filterMap (l[·]?)

theorem Inv.select {maxRetries : ℕ} (hinv : s.Inv)
    (h : s.step cfg (.select order maxRetries) = some s') : s'.Inv := by
  obtain ⟨hperm, rfl⟩ := Option.ite_some_none_eq_some.mp h
  have hactive := AllAccounted.activeFrom cfg hinv s.now s.today cfg.providers
  have hslots : ∀ name, slots name (order.filterMap ((s.getActiveProviders cfg).1[·]?)) =
      slots name (s.getActiveProviders cfg).1 :=
    fun name => (perm_filterMap_getElem? (isPerm_iff.mp hperm)).countP_eq _
  refine hactive.mono fun name => ?_
  rw [← getActiveProviders, ← hslots name, held, held]
  split_ifs with hempty
  · rw [hempty, slots_nil, Nat.add_zero]
  · rw [flatMap_append, slots_append]
    simp

/-- Every step that returns the slots keeps the invariant. -/
theorem Inv.step (hinv : s.Inv) (hguard : ReturnsSlots s a)
    (h : s.step cfg a = some s') : s'.Inv := by
  cases a with
  | elapse nanos today =>
    cases h
    exact hinv
  | select order maxRetries => exact hinv.select h
  | attempt i answer =>
    simp only [Router.step] at h
    split at h
    · rename_i c rest left hcall
      split at h
      · rename_i tokens hanswer
        cases h
        exact hinv.succeed hguard hcall (by simp [leftOver, hcall, hanswer]) tokens
      · cases h
        exact hinv.fail hcall
    · cases h
  | cancel i =>
    simp only [Router.step] at h
    split at h
    · rename_i hcall
      cases h
      exact hinv.drop hguard hcall (by simp [leftOver, hcall])
    · cases h
  | giveUp i =>
    simp only [Router.step] at h
    split at h
    · rename_i hcall
      cases h
      exact hinv.drop hguard hcall (by simp [leftOver, hcall])
    · rename_i hcall
      cases h
      exact hinv.drop hguard hcall (by simp [leftOver, hcall])
    · cases h

end Router

/-! ## Selection -/

namespace RouterConfig

variable {cfg : RouterConfig} {now : ℤ} {today : Str} {stats : StatsMap}
  {p q : RouterProvider}

theorem getOrCreateStats_consider_of_ne (h : p.name ≠ q.name) :
    cfg.getOrCreateStats (cfg.consider now today q stats).2 p.name today =
      cfg.getOrCreateStats stats p.name today := by
  rw [getOrCreateStats, getOrCreateStats, consider]
  split_ifs <;> simp [update_of_ne h]

/-- A round of the selection takes at most one request from the breaker and leaves the usage. -/
theorem admits_consider {k : ℕ}
    (h : (cfg.getOrCreateStats stats q.name today).breaker.Admits now (k + 1)) :
    (cfg.getOrCreateStats (cfg.consider now today q stats).2 q.name today).breaker.Admits now k ∧
      ((cfg.getOrCreateStats
        (cfg.consider now today q stats).2 q.name today).onDay today).dailyUsage =
        ((cfg.getOrCreateStats stats q.name today).onDay today).dailyUsage := by
  have hless := h.mono (Nat.le_succ k)
  rw [consider]
  split_ifs with henabled hquota
  · simp only [getOrCreateStats, update_self, Option.getD_some]
    rw [← getOrCreateStats, ProviderStats.onDay_with_breaker, ProviderStats.onDay_breaker]
    exact ⟨h.allowRequest.2, rfl⟩
  · simp only [getOrCreateStats, update_self, Option.getD_some]
    rw [← getOrCreateStats, ProviderStats.onDay_onDay, ProviderStats.onDay_breaker]
    exact ⟨hless, rfl⟩
  · exact ⟨hless, rfl⟩

/-- The entries of a provider list that share a breaker and can be selected. -/
def sharing (name : Str) (providers : List RouterProvider) : List RouterProvider :=
  providers.filter fun q => q.enabled && q.name = name

/-- A provider is selected if its breaker lets a request through for every entry that shares it. -/
theorem mem_activeFrom {providers : List RouterProvider} {k : ℕ} (hmem : p ∈ providers)
    (henabled : p.enabled = true) (hquota : cfg.UnderQuota stats today p)
    (hadmits : (cfg.getOrCreateStats stats p.name today).breaker.Admits now k)
    (hcount : (sharing p.name providers).length ≤ k) :
    p ∈ (cfg.activeFrom now today providers stats).1.map (·.provider) := by
  induction providers generalizing stats k with
  | nil => cases hmem
  | cons q rest ih =>
    simp only [activeFrom, map_append, mem_append]
    by_cases hqp : q = p
    · -- its own turn
      subst hqp
      have hpos : 0 < k := by
        simp only [sharing, filter_cons, henabled, Bool.true_and, decide_true, if_true,
          length_cons] at hcount
        omega
      obtain ⟨k, rfl⟩ := Nat.exists_eq_succ_of_ne_zero hpos.ne'
      left
      simp [consider, henabled, hquota, hadmits.allowRequest.1]
    · have hmem : p ∈ rest := by
        rcases mem_cons.mp hmem with h | h
        · exact absurd h.symm hqp
        · exact h
      right
      by_cases hname : p.name = q.name
      · by_cases hq : q.enabled = true
        · -- an entry before it that shares its breaker
          simp only [sharing, filter_cons, hq, hname, Bool.true_and, decide_true, if_true,
            length_cons] at hcount
          obtain ⟨k, rfl⟩ := Nat.exists_eq_succ_of_ne_zero (show k ≠ 0 by omega)
          rw [hname] at hadmits
          obtain ⟨hadmits, husage⟩ := admits_consider hadmits
          refine ih hmem ?_ (by rwa [hname]) ?_
          · rw [UnderQuota, hname, husage, ← hname]
            exact hquota
          · rw [sharing, hname]
            omega
        · have hsame : (cfg.consider now today q stats).2 = stats := by simp [consider, hq]
          rw [hsame]
          refine ih hmem hquota hadmits ?_
          simpa [sharing, filter_cons, hq] using hcount
      · have hsame : cfg.getOrCreateStats (cfg.consider now today q stats).2 p.name today =
            cfg.getOrCreateStats stats p.name today := getOrCreateStats_consider_of_ne hname
        refine ih hmem ?_ (by rwa [hsame]) ?_
        · rw [UnderQuota, hsame]
          exact hquota
        · simpa [sharing, filter_cons, Ne.symm hname] using hcount

end RouterConfig

/-! ## Recovery -/

variable (cfg : RouterConfig)

/-- No more entries than a half-open breaker has slots share a breaker. -/
def FewShare : Prop := ∀ name, (RouterConfig.sharing name cfg.providers).length ≤ 3

/-- A provider is recovering and could be selected. -/
def Selectable (s : Router) (p : RouterProvider) : Prop :=
  p ∈ cfg.providers ∧ p.enabled = true ∧ cfg.UnderQuota s.stats s.today p ∧
    ((s.stats p.name).map fun st => decide (st.breaker.Recovering s.now)) = some true
  deriving Decidable

/-- While no call is in progress, a recovering provider is selected, if every call before has
returned its slots. -/
theorem recovering_provider_selected (hshare : FewShare cfg) (now : ℤ)
    (today : Str) (actions : List RouterAction) (s : Router)
    (hrun : Runs.run (Router.step cfg) (.new now today) actions = some s)
    (hguard : Runs.Guarded (Router.step cfg) ReturnsSlots (.new now today) actions)
    (hidle : s.calls = []) (p : RouterProvider) (hp : Selectable cfg s p) :
    p ∈ (s.getActiveProviders cfg).1.map (·.provider) := by
  obtain ⟨hmem, henabled, hquota, hrecovering⟩ := hp
  obtain ⟨st, hst, hrecovering⟩ := Option.map_eq_some_iff.mp hrecovering
  have hinv : s.Inv :=
    hguard.invariant (fun _ _ _ hs hg h => hs.step hg h) (Router.inv_new now today) hrun
  have haccounted : st.breaker.Accounted 0 := by
    simpa [Router.held, hidle] using hinv p.name st hst
  refine RouterConfig.mem_activeFrom hmem henabled hquota ?_ (hshare p.name)
  rw [RouterConfig.getOrCreateStats, hst]
  exact haccounted.admits (of_decide_eq_true hrecovering)

/-- A provider with a key and without a quota. -/
def plainProvider (name model : Str) : RouterProvider := ⟨name, model, str "k", 0, true⟩

/-- A router without a quota store. -/
def plainRouter (providers : List RouterProvider) : RouterConfig :=
  ⟨providers, fun _ => none, fun _ _ => 0⟩

def twoProviders : RouterConfig :=
  plainRouter [plainProvider (str "a") (str "m"), plainProvider (str "b") (str "m")]

/-- A call with one attempt, which fails, repeated until the breaker opens; then the timeout
passes. -/
def failing (order : List ℕ) : List RouterAction :=
  (List.replicate 5 [.select order 1, .attempt 0 none, .giveUp 0]).flatten ++
    [.elapse 30000000000 (str "d")]

/-- Calls that are answered by the first provider of their order. -/
def answered (calls : ℕ) (order : List ℕ) : List RouterAction :=
  (List.replicate calls [.select order 3, .attempt 0 (some 10)]).flatten

/-- The second provider has failed, and its next probes are made first. -/
theorem recovering_provider_selected_probed :
    ∃ s, Runs.run (Router.step twoProviders) (.new 0 (str "d"))
        (failing [1, 0] ++ answered 2 [1, 0]) = some s ∧
      s.circuitState (str "b") = some .halfOpen ∧
      plainProvider (str "b") (str "m") ∈
        (s.getActiveProviders twoProviders).1.map (·.provider) := by
  obtain ⟨s, hrun, hidle, hhalf, hp⟩ : ∃ s, Runs.run (Router.step twoProviders)
      (.new 0 (str "d")) (failing [1, 0] ++ answered 2 [1, 0]) = some s ∧ s.calls = [] ∧
      s.circuitState (str "b") = some .halfOpen ∧
      Selectable twoProviders s (plainProvider (str "b") (str "m")) :=
    ⟨_, rfl, rfl, by decide, by decide⟩
  have hguard : Runs.Guarded (Router.step twoProviders) ReturnsSlots (.new 0 (str "d"))
      (failing [1, 0] ++ answered 2 [1, 0]) := by decide
  have hshare : FewShare twoProviders := fun name =>
    (length_filter_le ..).trans (by decide)
  exact ⟨s, hrun, hhalf,
    recovering_provider_selected twoProviders hshare 0 (str "d") _ s hrun hguard hidle _ hp⟩

/-- Four entries for one provider. -/
def fourModels : RouterConfig :=
  plainRouter ((["1", "2", "3", "4"].map str).map (plainProvider (str "a")))

/-- A recovering provider is locked out when other providers answer first while it holds slots, and
when too many entries share its breaker. -/
theorem not_recovering_provider_selected :
    (∃ s, Runs.run (Router.step twoProviders) (.new 0 (str "d"))
        (failing [1, 0] ++ answered 3 [0, 1]) = some s ∧ s.calls = [] ∧
      Selectable twoProviders s (plainProvider (str "b") (str "m")) ∧
      plainProvider (str "b") (str "m") ∉
        (s.getActiveProviders twoProviders).1.map (·.provider)) ∧
    ∃ s, Runs.run (Router.step fourModels) (.new 0 (str "d")) (failing [0, 1, 2, 3]) = some s ∧
      s.calls = [] ∧ Selectable fourModels s (plainProvider (str "a") (str "4")) ∧
      plainProvider (str "a") (str "4") ∉ (s.getActiveProviders fourModels).1.map (·.provider) :=
  ⟨⟨_, rfl, rfl, by decide, by decide⟩,
    ⟨_, rfl, rfl, by decide, by decide⟩⟩

end Nodes
