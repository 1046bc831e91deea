import Aflare.Go.Maps
import Aflare.Go.Text

/-!
# The rate limiter

`RateLimiter.Allow`: every address has a window that begins at one of its calls and is left with the
first call that comes too late for it. A past is a list of calls, the last one first.
-/

namespace Webhook

open Go List

structure IpLimiter where
  count : ℤ
  windowStart : ℤ

/-- A call of `Allow`, with what the clock shows when the limiter of a new address is made and when
the verdict is given. -/
structure AllowCall where
  ip : Str
  created : ℤ
  now : ℤ

structure Limits where
  maxReq : ℤ
  window : ℤ

structure RateLimiter extends Limits where
  limiters : GoMap Str IpLimiter

namespace RateLimiter

variable (rl : RateLimiter) (c : AllowCall)

/-- The limiter of the address of a call, in a new window if its own is over. -/
def current : IpLimiter :=
  let l := rl.limiters[c.ip]?.getD ⟨0, c.created⟩
  if rl.window < c.now - l.windowStart then ⟨0, c.now⟩ else l

def allow : Bool × RateLimiter :=
  let l := rl.current c
  if rl.maxReq ≤ l.count then (false, { rl with limiters := rl.limiters.insert c.ip l })
  else (true, { rl with limiters := rl.limiters.insert c.ip { l with count := l.count + 1 } })

theorem getElem?_allow (ip : Str) :
    (rl.allow c).2.limiters[ip]? =
      if c.ip = ip then
        some (if rl.maxReq ≤ (rl.current c).count then rl.current c
          else { rl.current c with count := (rl.current c).count + 1 })
      else rl.limiters[ip]? := by
  by_cases hfull : rl.maxReq ≤ (rl.current c).count <;>
    simp [allow, hfull, Std.ExtTreeMap.getElem?_insert]

end RateLimiter

namespace Limits

variable (k : Limits)

/-- The limiter after the calls of the past. -/
def after : List AllowCall → RateLimiter
  | [] => ⟨k, ∅⟩
  | c :: past => ((after past).allow c).2

def admits (past : List AllowCall) (c : AllowCall) : Bool := ((k.after past).allow c).1

/-- How many calls of an address have been admitted in a closed interval. -/
def admitted (ip : Str) (a b : ℤ) : List AllowCall → ℤ
  | [] => 0
  | c :: past => admitted ip a b past +
      if c.ip = ip ∧ a ≤ c.now ∧ c.now ≤ b ∧ k.admits past c = true then 1 else 0

/-- What the limiter of an address says about its admitted calls, at a time when they are over. -/
structure Meters (ip : Str) (past : List AllowCall) (t : ℤ) (l : IpLimiter) : Prop where
  started : l.windowStart ≤ t
  le : l.count ≤ max k.maxReq 0
  counted : ∀ a b, a ≤ l.windowStart → t ≤ b → l.count ≤ k.admitted ip a b past
  recent : ∀ a b, l.windowStart < a → k.admitted ip a b past ≤ l.count
  near : ∀ a b, l.windowStart - k.window ≤ a → k.admitted ip a b past ≤ max k.maxReq 0 + l.count

end Limits

/-- No clock goes back, neither in a call nor from one call to the next. -/
def Clocked (past : List AllowCall) : Prop :=
  (∀ c ∈ past, c.created ≤ c.now) ∧ past.Pairwise fun c d => d.now ≤ c.created

variable {k : Limits} {ip : Str} {past : List AllowCall} {c : AllowCall} {t : ℤ}

theorem Clocked.tail (h : Clocked (c :: past)) :
    Clocked past ∧ c.created ≤ c.now ∧ ∀ d ∈ past, d.now ≤ c.now := by
  obtain ⟨hnow, hsorted⟩ := h
  obtain ⟨hc, hnow⟩ := forall_mem_cons.mp hnow
  obtain ⟨hlater, hsorted⟩ := pairwise_cons.mp hsorted
  exact ⟨⟨hnow, hsorted⟩, hc, fun d hd => (hlater d hd).trans hc⟩

namespace Limits

@[simp] theorem toLimits_after (past : List AllowCall) : (k.after past).toLimits = k := by
  induction past with
  | nil => rfl
  | cons c past ih =>
    simp only [after, RateLimiter.allow]
    split <;> exact ih

theorem admits_iff : k.admits past c = true ↔ ((k.after past).current c).count < k.maxReq := by
  by_cases hfull : k.maxReq ≤ ((k.after past).current c).count
  · simp [admits, RateLimiter.allow, hfull]
  · simp [admits, RateLimiter.allow, hfull, not_le.mp hfull]

theorem admitted_nonneg (ip : Str) (a b : ℤ) (past : List AllowCall) :
    0 ≤ k.admitted ip a b past := by
  induction past with
  | nil => exact le_rfl
  | cons c past ih =>
    rw [admitted]
    split <;> omega

theorem admitted_eq_zero {a b : ℤ} (h : ∀ d ∈ past, d.now < a) : k.admitted ip a b past = 0 := by
  induction past with
  | nil => rfl
  | cons c past ih =>
    obtain ⟨hc, hpast⟩ := forall_mem_cons.mp h
    rw [admitted, ih hpast, if_neg fun hin => by omega]
    rfl

namespace Meters

variable {l : IpLimiter}

/-- Nothing is admitted. -/
theorem keep {t₀ : ℤ} (h : k.Meters ip past t₀ l) (hlater : t₀ ≤ t)
    (hsame : ∀ a b, k.admitted ip a b (c :: past) = k.admitted ip a b past) :
    k.Meters ip (c :: past) t l where
  started := h.started.trans hlater
  le := h.le
  counted a b ha hb := hsame a b ▸ h.counted a b ha (hlater.trans hb)
  recent a b ha := hsame a b ▸ h.recent a b ha
  near a b ha := hsame a b ▸ h.near a b ha

/-- A call is admitted. -/
theorem accept (h : k.Meters c.ip past c.now l) (hroom : l.count < k.maxReq)
    (hadmits : k.admits past c = true) (hlater : c.now ≤ t) :
    k.Meters c.ip (c :: past) t { l with count := l.count + 1 } := by
  obtain ⟨hstarted, -, hcounted, hrecent, hnear⟩ := h
  refine ⟨hstarted.trans hlater, le_max_of_le_left hroom, fun a b ha hb => ?_, fun a b ha => ?_,
    fun a b ha => ?_⟩
  · have hin : a ≤ c.now ∧ c.now ≤ b := ⟨ha.trans hstarted, hlater.trans hb⟩
    simpa [admitted, hin, hadmits] using hcounted a b ha hin.2
  · have := hrecent a b ha
    rw [admitted]
    split <;> simp only <;> omega
  · have := hnear a b ha
    rw [admitted]
    split <;> simp only <;> omega

end Meters

/-- A window that is over makes room for the next one. -/
theorem meters_current {rl : RateLimiter} (hrl : rl.toLimits = k)
    (h : k.Meters c.ip past c.now (rl.limiters[c.ip]?.getD ⟨0, c.created⟩))
    (hpast : ∀ d ∈ past, d.now ≤ c.now) : k.Meters c.ip past c.now (rl.current c) := by
  subst hrl
  simp only [RateLimiter.current]
  split
  · next hover =>
    refine ⟨le_rfl, le_max_right _ _, fun a b _ _ => admitted_nonneg c.ip a b past,
      fun a b ha => ?_, fun a b ha => ?_⟩
    · exact (admitted_eq_zero fun d hd => (hpast d hd).trans_lt ha).le
    · simpa using (h.recent a b (by simp only at ha; omega)).trans h.le
  · exact h

/-- The limiter of an address meters the requests from it. -/
theorem meters_after (h : Clocked past) {created : ℤ} (hcreated : created ≤ t)
    (hpast : ∀ d ∈ past, d.now ≤ t) :
    k.Meters ip past t ((k.after past).limiters[ip]?.getD ⟨0, created⟩) := by
  induction past generalizing created t with
  | nil =>
    simp only [after, Std.ExtTreeMap.getElem?_empty, Option.getD_none]
    exact ⟨hcreated, le_max_right _ _, fun _ _ _ _ => le_rfl, fun _ _ _ => le_rfl,
      fun _ _ _ => by simp [admitted]⟩
  | cons c past ih =>
    obtain ⟨hclocked, hc, hbefore⟩ := h.tail
    rw [after, RateLimiter.getElem?_allow, toLimits_after]
    by_cases hip : c.ip = ip
    · subst hip
      have hlater : c.now ≤ t := hpast c mem_cons_self
      have hmeters := meters_current (toLimits_after past) (ih hclocked hc hbefore) hbefore
      rw [if_pos rfl, Option.getD_some]
      split
      · next hfull =>
        refine hmeters.keep hlater fun a b => ?_
        simp [admitted, admits_iff, not_lt.mpr hfull]
      · next hroom =>
        exact hmeters.accept (not_le.mp hroom) (admits_iff.mpr (not_le.mp hroom)) hlater
    · rw [if_neg hip]
      refine (ih hclocked hcreated fun d hd => hpast d (mem_cons_of_mem c hd)).keep le_rfl ?_
      simp [admitted, hip]

theorem getElem?_after_filter (ip : Str) (past : List AllowCall) :
    (k.after (past.filter (·.ip = ip))).limiters[ip]? = (k.after past).limiters[ip]? := by
  induction past with
  | nil => rfl
  | cons c past ih =>
    by_cases hip : c.ip = ip
    · subst hip
      simp [after, RateLimiter.getElem?_allow, RateLimiter.current, ih]
    · simp [after, RateLimiter.getElem?_allow, hip, ih]

/-- In no interval of the length of the window is twice the limit exceeded, a call is refused only
if the limit has been reached in the window before it, and addresses do not disturb each other. -/
theorem rate_bounded (h : Clocked past) :
    (∀ ip a b, b - a ≤ k.window → k.admitted ip a b past ≤ 2 * max k.maxReq 0) ∧
    (∀ c older, c :: older <:+ past → k.admits older c = false →
      k.maxReq ≤ k.admitted c.ip (c.now - k.window) c.now older) ∧
    ∀ c older, k.admits older c = k.admits (older.filter (·.ip = c.ip)) c := by
  have hmeters : ∀ c older, Clocked (c :: older) →
      k.Meters c.ip older c.now ((k.after older).current c) := by
    intro c older hclocked
    obtain ⟨holder, hc, hbefore⟩ := hclocked.tail
    exact meters_current (toLimits_after older) (meters_after holder hc hbefore) hbefore
  refine ⟨fun ip a b hab => ?_, fun c older hsuffix hrefused => ?_, fun c older => ?_⟩
  · induction past with
    | nil => simp [admitted]
    | cons c past ih =>
      rw [admitted]
      split
      · next hin =>
        obtain ⟨rfl, ha, hb, hadmits⟩ := hin
        obtain ⟨hstarted, -, -, -, hnear⟩ := hmeters c past h
        have hroom := admits_iff.mp hadmits
        have := hnear a b (by omega)
        omega
      · simpa using ih h.tail.1
  · have hclocked : Clocked (c :: older) :=
      ⟨fun d hd => h.1 d (hsuffix.subset hd), h.2.sublist hsuffix.sublist⟩
    have hfull : k.maxReq ≤ ((k.after older).current c).count := by
      rw [← not_lt, ← admits_iff, hrefused]
      decide
    by_cases hover : c.now - k.window ≤ ((k.after older).current c).windowStart
    · exact hfull.trans ((hmeters c older hclocked).counted _ _ hover le_rfl)
    · -- a negative window is over at once, so only a limit that admits nothing refuses
      refine le_trans ?_ (admitted_nonneg _ _ _ older)
      simp only [RateLimiter.current, toLimits_after] at hfull hover
      split at hfull
      · exact hfull
      · next hkept =>
        rw [if_neg hkept] at hover
        omega
  · rw [Bool.eq_iff_iff, admits_iff, admits_iff]
    simp [RateLimiter.current, getElem?_after_filter]

theorem rate_bounded_twice :
    (⟨1, 60⟩ : Limits).admitted (str "a") 0 60 [⟨str "a", 60, 60⟩, ⟨str "a", 0, 0⟩] ≤ 2 :=
  (rate_bounded (k := ⟨1, 60⟩) ⟨by simp, by simp⟩).1 (str "a") 0 60 (by decide)

/-- A negative limit admits none of two calls, which is more than twice the limit. -/
theorem not_rate_bounded :
    Clocked [⟨str "a", 60, 60⟩, ⟨str "a", 0, 0⟩] ∧
      2 * (-1) < (⟨-1, 60⟩ : Limits).admitted (str "a") 0 60 [⟨str "a", 60, 60⟩, ⟨str "a", 0, 0⟩] :=
  ⟨⟨by simp, by simp⟩, by decide⟩

end Limits

end Webhook
