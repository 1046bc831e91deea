import Aflare.Go.Text

/-!
# Delays between retries

`GetBackoffDelay`: the delay before a retry of a step, which doubles from attempt to attempt up to a
cap, and the same for retries of HTTP requests and of scheduled tasks. Durations are in nanoseconds.
-/

namespace Workflow

open Go

def maxRetryDelay : ℤ := 5 * 60 * 1000000000

structure BackoffConfig where
  exponential : Bool
  base : Str
  maxDelay : Str
  jitter : Bool

/-- What a step says about its retries. -/
structure RetryPolicy where
  delay : Str
  backoff : Option BackoffConfig

/-- `time.ParseDuration`, and the random variation of a delay. -/
structure RetryHost where
  parseDuration : Str → Option ℤ
  vary : ℤ → ℤ

variable (w : RetryHost)

/-- A duration of the configuration, if it is given and positive, up to the greatest delay. -/
def RetryHost.limited (text : Str) (default : ℤ) : ℤ :=
  if text ≠ [] then
    match w.parseDuration text with
    | some d => if 0 < d then min d maxRetryDelay else default
    | none => default
  else default

/-- The doubling, in 64 bits. -/
def backoffLoop (maxDelay : ℤ) : ℕ → ℤ → ℤ
  | 0, delay => delay
  | n + 1, delay =>
    if maxDelay / 2 < delay then maxDelay
    else if maxDelay < Int.bmod (delay * 2) (2 ^ 64) then maxDelay
    else backoffLoop maxDelay n (Int.bmod (delay * 2) (2 ^ 64))

namespace RetryPolicy

variable (s : RetryPolicy)

def getRetryDelay : ℤ :=
  if s.delay = [] then 1000000000 else (w.parseDuration s.delay).getD 1000000000

/-- The delay from which the doubling starts. -/
def baseDelay (b : BackoffConfig) : ℤ := w.limited b.base (s.getRetryDelay w)

def getBackoffDelay (attempt : ℕ) : ℤ :=
  match s.backoff with
  | none => s.getRetryDelay w
  | some b =>
    if !b.exponential || attempt ≤ 1 then s.getRetryDelay w
    else
      let delay := backoffLoop (w.limited b.maxDelay maxRetryDelay) (attempt - 1) (s.baseDelay w b)
      if b.jitter && 0 < delay then w.vary delay else delay

end RetryPolicy

variable {w} {s : RetryPolicy} {b : BackoffConfig}

theorem RetryHost.limited_bounds {text : Str} {default : ℤ} (h : 0 < default) :
    0 < w.limited text default ∧ w.limited text default ≤ max default maxRetryDelay := by
  unfold limited maxRetryDelay
  split
  · split
    · split <;> omega
    · omega
  · omega

/-- The doubling does not overflow: it is a power of two times the start, up to the cap. -/
theorem backoffLoop_eq {maxDelay delay : ℤ} (hpos : 0 < delay) (hmax : maxDelay ≤ maxRetryDelay)
    (n : ℕ) : backoffLoop maxDelay (n + 1) delay = min (delay * 2 ^ (n + 1)) maxDelay := by
  unfold maxRetryDelay at hmax
  induction n generalizing delay with
  | zero =>
    simp only [backoffLoop]
    split
    · omega
    · rw [Int.bmod_eq_of_le (by omega) (by omega)]
      omega
  | succ n ih =>
    rw [backoffLoop]
    -- beyond half of the cap one more doubling reaches it, and so do all that follow
    have hgrow : delay * 2 ≤ delay * 2 ^ (n + 1 + 1) := by
      rw [pow_succ', ← mul_assoc]
      exact le_mul_of_one_le_right (by omega) (one_le_pow₀ (by decide))
    split
    · omega
    · rw [Int.bmod_eq_of_le (by omega) (by omega), if_neg (by omega), ih (by omega), mul_assoc,
        ← pow_succ']

/-- The delays of the later attempts are exact. From the first one on the delays are sorted and
within the cap exactly if the delay of the first attempt, which knows neither the base nor the cap,
is within the cap and at most twice the base. -/
theorem retry_delays_iff (hs : s.backoff = some b) (hexp : b.exponential = true)
    (hjitter : b.jitter = false) (hpos : 0 < s.getRetryDelay w) :
    (∀ n, s.getBackoffDelay w (n + 2) =
      min (s.baseDelay w b * 2 ^ (n + 1)) (w.limited b.maxDelay maxRetryDelay)) ∧
    ((∀ i j, 1 ≤ i → i ≤ j → s.getBackoffDelay w i ≤ s.getBackoffDelay w j ∧
        s.getBackoffDelay w j ≤ w.limited b.maxDelay maxRetryDelay) ↔
      s.getRetryDelay w ≤ w.limited b.maxDelay maxRetryDelay ∧
        s.getRetryDelay w ≤ 2 * s.baseDelay w b) := by
  have hcap : w.limited b.maxDelay maxRetryDelay ≤ maxRetryDelay :=
    (RetryHost.limited_bounds (by decide)).2.trans_eq (max_self _)
  have hbase : 0 < s.baseDelay w b := (RetryHost.limited_bounds hpos).1
  have hfirst : s.getBackoffDelay w 1 = s.getRetryDelay w := by
    simp [RetryPolicy.getBackoffDelay, hs]
  have hlater : ∀ n, s.getBackoffDelay w (n + 2) =
      min (s.baseDelay w b * 2 ^ (n + 1)) (w.limited b.maxDelay maxRetryDelay) := by
    intro n
    simp only [RetryPolicy.getBackoffDelay, hs, hexp, hjitter]
    simpa using backoffLoop_eq hbase hcap n
  refine ⟨hlater, fun h => ?_, fun h i j hi hij => ?_⟩
  · have hone := h 1 2 le_rfl (by decide)
    rw [hfirst, hlater 0] at hone
    omega
  · have hmono : Monotone fun n => s.getBackoffDelay w (n + 1) := by
      refine monotone_nat_of_le_succ fun n => ?_
      cases n with
      | zero =>
        rw [hfirst, hlater]
        omega
      | succ n =>
        have hpower : 0 < s.baseDelay w b * 2 ^ (n + 1) := by positivity
        rw [hlater, hlater, pow_succ 2 (n + 1), ← mul_assoc]
        omega
    obtain ⟨i, rfl⟩ := Nat.exists_eq_add_of_le' hi
    obtain ⟨j, rfl⟩ := Nat.exists_eq_add_of_le' (hi.trans hij)
    refine ⟨hmono (Nat.le_of_succ_le_succ hij), ?_⟩
    cases j with
    | zero => exact hfirst ▸ h.1
    | succ j => exact (hlater j).trans_le (min_le_right _ _)

/-- A policy with exponential backoff. -/
def doubling (delay base : Str) : RetryPolicy := ⟨delay, some ⟨true, base, [], false⟩⟩

/-- Two durations, and no variation. -/
def seconds : RetryHost :=
  ⟨fun text => some (if text = str "10s" then 10000000000 else 1000000000), id⟩

theorem retry_delays_one_second :
    (doubling (str "1s") []).getBackoffDelay seconds 1 ≤
      (doubling (str "1s") []).getBackoffDelay seconds 3 :=
  ((retry_delays_iff (w := seconds) (s := doubling (str "1s") []) rfl rfl rfl (by decide)).2.mpr
    (by decide) 1 3 (by decide) (by decide)).1

/-- A delay of ten seconds and a base of one: the second delay is shorter than the first. -/
theorem not_retry_delays_sorted :
    (doubling (str "10s") (str "1s")).getBackoffDelay seconds 2 <
      (doubling (str "10s") (str "1s")).getBackoffDelay seconds 1 := by
  decide

end Workflow

/-! ## Other delays that double -/

/-- Twice a duration; `none` where 64 bits overflow. -/
def Go.double (d : ℤ) : Option ℤ := if d * 2 < 2 ^ 63 then some (d * 2) else none

theorem Go.double_eq_some {d : ℤ} (h : d * 2 < 2 ^ 63) : double d = some (d * 2) := if_pos h

/-- The delays of `httpRateLimitConfig`. -/
structure Nodes.HttpRateLimitConfig where
  backoff : ℤ
  maxBackoff : ℤ

/-- The loop of `backoffForAttempt`, which goes round the given number of times. -/
def Nodes.backoffRounds (maxBackoff : ℤ) : ℕ → ℤ → Option ℤ
  | 0, delay => some delay
  | n + 1, delay =>
    if maxBackoff.tdiv 2 < delay then some maxBackoff
    else (Go.double delay).bind fun delay =>
      if maxBackoff ≤ delay then some maxBackoff else backoffRounds maxBackoff n delay

def Nodes.HttpRateLimitConfig.backoffForAttempt (c : HttpRateLimitConfig) (attempt : ℤ) :
    Option ℤ :=
  if attempt ≤ 0 then some 0
  else if c.backoff ≤ 0 then some 0
  else backoffRounds c.maxBackoff (attempt - 1).toNat c.backoff

def Scheduler.maxTaskRetryDelay : ℤ := 5 * 60 * 1000000000

/-- The loop of `retryDelay`. -/
def Scheduler.retryRounds : ℕ → ℤ → Option ℤ
  | 0, d => some d
  | n + 1, d => if d < maxTaskRetryDelay then (Go.double d).bind (retryRounds n) else some d

def Scheduler.retryDelay (base attempt : ℤ) : Option ℤ :=
  (retryRounds attempt.toNat base).map fun d =>
    if maxTaskRetryDelay < d then maxTaskRetryDelay else d

theorem Nodes.backoffRounds_eq {maxBackoff delay : ℤ} (hpos : 0 < delay) (hle : delay ≤ maxBackoff)
    (hmax : maxBackoff < 2 ^ 63) (n : ℕ) :
    backoffRounds maxBackoff n delay = some (min (delay * 2 ^ n) maxBackoff) := by
  induction n generalizing delay with
  | zero => rw [pow_zero, mul_one, min_eq_left hle, backoffRounds]
  | succ n ih =>
    have hgrow : delay * 2 ≤ delay * 2 ^ (n + 1) := by
      rw [pow_succ', ← mul_assoc]
      exact le_mul_of_one_le_right (by omega) (one_le_pow₀ (by decide))
    rw [backoffRounds, Int.tdiv_eq_ediv_of_nonneg (by omega)]
    split
    · rw [min_eq_right (by omega)]
    · rw [Go.double_eq_some (by omega), Option.bind_some]
      split
      · rw [min_eq_right (by omega)]
      · rw [ih (by omega) (by omega), mul_assoc, ← pow_succ']

theorem Scheduler.retryDelay_eq {base : ℤ} (hbase : 0 ≤ base) (n : ℕ) :
    retryDelay base n = some (min (base * 2 ^ n) maxTaskRetryDelay) := by
  simp only [retryDelay, Int.toNat_natCast, ← min_def_lt, min_comm maxTaskRetryDelay]
  induction n generalizing base with
  | zero => rw [retryRounds, Option.map_some, pow_zero, mul_one]
  | succ n ih =>
    rw [retryRounds]
    split
    · rename_i hlt
      rw [Go.double_eq_some (by unfold maxTaskRetryDelay at hlt; omega), Option.bind_some,
        ih (by omega), mul_assoc, ← pow_succ']
    · -- from the cap on every further doubling is cut to it
      have hgrow : base ≤ base * 2 ^ (n + 1) :=
        le_mul_of_one_le_right hbase (one_le_pow₀ (by decide))
      rw [Option.map_some, min_eq_right (by omega), min_eq_right (by omega)]

/-- Both delays are a power of two times the base, up to the cap, and nothing overflows. -/
theorem Nodes.capped_doubling (c : HttpRateLimitConfig) (hpos : 0 < c.backoff)
    (hle : c.backoff ≤ c.maxBackoff) (hmax : c.maxBackoff < 2 ^ 63) (base : ℤ) (hbase : 0 ≤ base)
    (n : ℕ) :
    c.backoffForAttempt (n + 1) = some (min (c.backoff * 2 ^ n) c.maxBackoff) ∧
      Scheduler.retryDelay base n = some (min (base * 2 ^ n) Scheduler.maxTaskRetryDelay) := by
  refine ⟨?_, Scheduler.retryDelay_eq hbase n⟩
  rw [HttpRateLimitConfig.backoffForAttempt, if_neg (by omega), if_neg (by omega),
    add_sub_cancel_right, Int.toNat_natCast]
  exact backoffRounds_eq hpos hle hmax n

theorem Nodes.capped_doubling_third :
    HttpRateLimitConfig.backoffForAttempt ⟨1000000000, 3000000000⟩ 3 = some 3000000000 ∧
      Scheduler.retryDelay 1000000000 2 = some 4000000000 :=
  capped_doubling ⟨1000000000, 3000000000⟩ (by decide) (by decide) (by decide) 1000000000
    (by decide) 2
