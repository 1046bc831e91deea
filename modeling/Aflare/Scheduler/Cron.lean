import Aflare.Go.Calendar
import Aflare.Go.Text
import Aflare.Lib.UnitSearch

/-!
# Cron schedules

A schedule lists the minutes, hours, days, months and weekdays at which a task is run. The next time
is searched year by year, month by month, day by day, hour by hour and minute by minute, from the
fields of a start time on. A month, day or hour that is not in the schedule is passed over without
setting the fields below it back, so that the search goes on in the middle of the next one.
-/

namespace Scheduler

open Go UnitSearch

/-! ## Expressions -/

structure CronSchedule where
  minute : List ℤ
  hour : List ℤ
  dayOfMonth : List ℤ
  month : List ℤ
  dayOfWeek : List ℤ
  deriving DecidableEq

inductive CronError
  | fieldCount (got : ℕ)
  | invalidStep (step : Str)
  | stepNotPositive (step : ℤ)
  | invalidRangeStart (text : Str)
  | invalidRangeEnd (text : Str)
  | invalidValue (text : Str)
  | outOfRange (value min max : ℤ)
  | startGreater (first last : ℤ)
  | noValues (field : Str)
  | inField (name : String) (err : CronError)
  deriving DecidableEq

/-- A sum of 64 bit integers. -/
def addInt64 (a b : ℤ) : ℤ := (a + b + 2 ^ 63) % 2 ^ 64 - 2 ^ 63

/-- The values from one to another in steps. No more than 64 of them are reached, also if the sums
overflow. -/
def stepValues (last step : ℤ) : ℕ → ℤ → List ℤ
  | 0, _ => []
  | fuel + 1, i => if i ≤ last then i :: stepValues last step fuel (addInt64 i step) else []

/-- The part of an element before its step, and the step. -/
def parseStep (part : Str) : Except CronError (Str × ℤ) :=
  match cut (str "/") part with
  | none => .ok (part, 1)
  | some (part, stepText) =>
    match atoi stepText with
    | none => .error (.invalidStep stepText)
    | some step => if step ≤ 0 then .error (.stepNotPositive step) else .ok (part, step)

/-- The first and the last value of an element. -/
def parseRange (part : Str) (min max : ℤ) : Except CronError (ℤ × ℤ) :=
  if part = str "*" then .ok (min, max)
  else
    match cut (str "-") part with
    | some (first, last) =>
      match atoi first, atoi last with
      | none, _ => .error (.invalidRangeStart first)
      | some _, none => .error (.invalidRangeEnd last)
      | some first, some last => .ok (first, last)
    | none =>
      match atoi part with
      | none => .error (.invalidValue part)
      | some value => .ok (value, value)

def parsePart (part : Str) (min max : ℤ) : Except CronError (List ℤ) := do
  let (part, step) ← parseStep part
  let (first, last) ← parseRange part min max
  if first < min ∨ max < first then .error (.outOfRange first min max)
  else if last < min ∨ max < last then .error (.outOfRange last min max)
  else if last < first then .error (.startGreater first last)
  else .ok (stepValues last step 64 first)

/-- The values of the elements, each once. -/
def parseParts (min max : ℤ) : List Str → List ℤ → Except CronError (List ℤ)
  | [], result => .ok result
  | part :: rest, result => do
    let values ← parsePart part min max
    parseParts min max rest (values.foldl (fun r v => if v ∈ r then r else r ++ [v]) result)

def parseField (field : Str) (min max : ℤ) : Except CronError (List ℤ) := do
  let result ← parseParts min max (split field (str ",")) []
  if result = [] then .error (.noValues field) else .ok result

/-- A field, with its name in the error. -/
def parseNamed (name : String) (field : Str) (min max : ℤ) : Except CronError (List ℤ) :=
  match parseField field min max with
  | .error err => .error (.inField name err)
  | .ok values => .ok values

def parseCronExpr (expr : Str) : Except CronError CronSchedule :=
  match fields expr with
  | [minute, hour, dayOfMonth, month, dayOfWeek] => do
    let minute ← parseNamed "minute field" minute 0 59
    let hour ← parseNamed "hour field" hour 0 23
    let dayOfMonth ← parseNamed "day of month field" dayOfMonth 1 31
    let month ← parseNamed "month field" month 1 12
    let dayOfWeek ← parseNamed "day of week field" dayOfWeek 0 6
    .ok ⟨minute, hour, dayOfMonth, month, dayOfWeek⟩
  | other => .error (.fieldCount other.length)

example : parseCronExpr (str "0,30 9-17/4 1 * 1-5") =
    .ok ⟨[0, 30], [9, 13, 17], [1], [1, 2, 3, 4, 5, 6, 7, 8, 9, 10, 11, 12], [1, 2, 3, 4, 5]⟩ := by
  decide +kernel

example : parseCronExpr (str "0 24 * * *") =
  .error (.inField "hour field" (.outOfRange 24 0 23)) := by
  decide

/-! ## The values of a field -/

section Fields

variable {min max v : ℤ} {part : Str} {values : List ℤ}

/-- What the text of an element writes: its first and its last value and its step. -/
def element (min max : ℤ) (part : Str) : Except CronError (ℤ × ℤ × ℤ) := do
  let (body, step) ← parseStep part
  let (first, last) ← parseRange body min max
  .ok (first, last, step)

/-- An element denotes the values from its first to its last that are whole steps from the first. -/
def Denotes (min max : ℤ) (part : Str) (v : ℤ) : Prop :=
  ∃ first last step, element min max part = .ok (first, last, step) ∧
    first ≤ v ∧ v ≤ last ∧ step ∣ v - first

/-- A field is read as it is meant: the values of its elements, each once and all in range. -/
structure ReadsField (min max : ℤ) (field : Str) (values : List ℤ) : Prop where
  nodup : values.Nodup
  mem_iff : ∀ v, v ∈ values ↔ ∃ part ∈ split field (str ","), Denotes min max part v
  in_range : ∀ v ∈ values, min ≤ v ∧ v ≤ max

/-- The step of an element does not lead out of the 64 bit integers. -/
def StepFits (min max : ℤ) (part : Str) : Prop :=
  ∀ first last step, element min max part = .ok (first, last, step) → first + step < 2 ^ 63

/-- The values of a step range, unless the addition overflows. -/
theorem mem_stepValues {last step i : ℤ} {fuel : ℕ} (hstep : 0 < step) (hlast : last ≤ 59)
    (hi : 0 ≤ i) (hfuel : last - i < fuel) (hfits : i ≤ last → i + step < 2 ^ 63) :
    v ∈ stepValues last step fuel i ↔ i ≤ v ∧ v ≤ last ∧ step ∣ v - i := by
  induction fuel generalizing i with
  | zero => exact iff_of_false List.not_mem_nil (by push_cast at hfuel; omega)
  | succ fuel ih =>
    rw [stepValues]
    split
    · rename_i hle
      have hsum : addInt64 i step = i + step := by
        have := hfits hle
        unfold addInt64
        omega
      rw [hsum, List.mem_cons, ih (by omega) (by push_cast at hfuel; omega) (fun h => by omega),
        ← sub_sub, dvd_sub_self_right]
      constructor
      · rintro (rfl | ⟨hge, hrest⟩)
        · exact ⟨le_rfl, hle, by simp⟩
        · exact ⟨by omega, hrest⟩
      · rintro ⟨hge, hvlast, hdvd⟩
        rcases hge.eq_or_lt with heq | hlt
        · exact .inl heq.symm
        · have := Int.le_of_dvd (by omega) hdvd
          exact .inr ⟨by omega, hvlast, hdvd⟩
    · exact iff_of_false List.not_mem_nil (by omega)

theorem parseStep_bounds {body : Str} {step : ℤ} (h : parseStep part = .ok (body, step)) :
    0 < step ∧ step < 2 ^ 63 := by
  unfold parseStep at h
  split at h
  · cases h
    decide
  · split at h
    · cases h
    · rename_i hatoi
      split at h
      · cases h
      · cases h
        have hrange := of_decide_eq_true (Option.filter_eq_some_iff.mp hatoi).2
        exact ⟨by omega, hrange.2⟩

theorem parsePart_eq_ok (h : parsePart part min max = .ok values) :
    ∃ first last step, element min max part = .ok (first, last, step) ∧ 0 < step ∧ step < 2 ^ 63 ∧
      min ≤ first ∧ first ≤ last ∧ last ≤ max ∧ values = stepValues last step 64 first := by
  obtain ⟨⟨body, step⟩, hstep, h⟩ := bind_eq_ok.mp h
  obtain ⟨⟨first, last⟩, hrange, h⟩ := bind_eq_ok.mp h
  obtain ⟨hpos, hlt⟩ := parseStep_bounds hstep
  refine ⟨first, last, step, ?_, hpos, hlt, ?_⟩
  · exact bind_eq_ok.mpr ⟨_, hstep, bind_eq_ok.mpr ⟨_, hrange, rfl⟩⟩
  dsimp only at h
  split at h
  · cases h
  · split at h
    · cases h
    · split at h
      · cases h
      · cases h
        exact ⟨by omega, by omega, by omega, rfl⟩

/-- The values of an accepted element. A sum that overflows is negative, and the loop goes on with
it. -/
theorem parsePart_spec (hmin : 0 ≤ min) (hmax : max ≤ 59)
    (h : parsePart part min max = .ok values) :
    (StepFits min max part →
      ∀ v, (v ∈ values ↔ Denotes min max part v) ∧ (v ∈ values → min ≤ v ∧ v ≤ max)) ∧
    (¬ StepFits min max part → ∃ v ∈ values, v < min) := by
  obtain ⟨first, last, step, helement, hpos, hlt, hfirst, hle, hlast, rfl⟩ := parsePart_eq_ok h
  have hiff : StepFits min max part ↔ first + step < 2 ^ 63 := by
    simp [StepFits, helement]
  rw [hiff]
  constructor
  · intro hfits v
    rw [mem_stepValues hpos (by omega) (by omega) (by omega) fun _ => hfits]
    exact ⟨by simp [Denotes, helement], by omega⟩
  · intro hover
    have hneg : addInt64 first step < 0 := by
      unfold addInt64
      omega
    refine ⟨addInt64 first step, ?_, by omega⟩
    rw [stepValues, if_pos hle, stepValues, if_pos (by omega)]
    exact List.mem_cons_of_mem _ List.mem_cons_self

theorem foldl_new_spec (values result : List ℤ) :
    let all := values.foldl (fun r v => if v ∈ r then r else r ++ [v]) result
    (result.Nodup → all.Nodup) ∧ ∀ v, v ∈ all ↔ v ∈ result ∨ v ∈ values := by
  induction values generalizing result with
  | nil => simp
  | cons w values ih =>
    rw [List.foldl_cons]
    refine ⟨fun h => (ih _).1 (by grind), fun v => ((ih _).2 v).trans (by grind)⟩

theorem parseParts_spec {parts : List Str} {result : List ℤ}
    (h : parseParts min max parts result = .ok values) :
    (result.Nodup → values.Nodup) ∧ (∀ part ∈ parts, ∃ vs, parsePart part min max = .ok vs) ∧
      ∀ v, v ∈ values ↔
        v ∈ result ∨ ∃ part ∈ parts, ∃ vs, parsePart part min max = .ok vs ∧ v ∈ vs := by
  induction parts generalizing result with
  | nil =>
    cases h
    simp
  | cons part parts ih =>
    obtain ⟨vs, hvs, h⟩ := bind_eq_ok.mp h
    obtain ⟨hnodup, hmem⟩ := foldl_new_spec vs result
    obtain ⟨hrest, hparts, hvalues⟩ := ih h
    refine ⟨fun hresult => hrest (hnodup hresult), List.forall_mem_cons.mpr ⟨⟨vs, hvs⟩, hparts⟩, ?_⟩
    intro v
    rw [hvalues, hmem, List.exists_mem_cons_iff, or_assoc]
    simp [hvs]

/-- An accepted field is read as it is meant exactly if no step leads out of the integers. -/
theorem parseField_reads_iff (hmin : 0 ≤ min) (hmax : max ≤ 59) {field : Str}
    (h : parseField field min max = .ok values) :
    ReadsField min max field values ↔ ∀ part ∈ split field (str ","), StepFits min max part := by
  obtain ⟨result, hresult, h⟩ := bind_eq_ok.mp h
  obtain rfl : result = values := by
    split at h
    · cases h
    · exact Except.ok.inj h
  obtain ⟨hnodup, hparts, hmem⟩ := parseParts_spec hresult
  simp only [List.not_mem_nil, false_or] at hmem
  constructor
  · intro hreads part hpart
    obtain ⟨vs, hvs⟩ := hparts part hpart
    by_contra hover
    obtain ⟨v, hv, hlow⟩ := (parsePart_spec hmin hmax hvs).2 hover
    exact hlow.not_ge (hreads.in_range v ((hmem v).mpr ⟨part, hpart, vs, hvs, hv⟩)).1
  · intro hfits
    refine ⟨hnodup List.nodup_nil, fun v => (hmem v).trans ?_, fun v hv => ?_⟩
    · refine exists_congr fun part => and_congr_right fun hpart => ?_
      obtain ⟨vs, hvs⟩ := hparts part hpart
      simp only [hvs, Except.ok.injEq, exists_eq_left']
      exact ((parsePart_spec hmin hmax hvs).1 (hfits part hpart) v).1
    · obtain ⟨part, hpart, vs, hvs, hv⟩ := (hmem v).mp hv
      exact ((parsePart_spec hmin hmax hvs).1 (hfits part hpart) v).2 hv

theorem parseField_reads_steps :
    parseField (str "1-9/4") 0 59 = .ok [1, 5, 9] ∧
      (ReadsField 0 59 (str "1-9/4") [1, 5, 9] ↔
        ∀ part ∈ split (str "1-9/4") (str ","), StepFits 0 59 part) :=
  ⟨by decide +kernel, parseField_reads_iff (by decide) (by decide) (by decide +kernel)⟩

/-- The sum of one and the largest integer is negative. -/
theorem not_parseField_reads :
    ∃ values, parseField (str "1/9223372036854775807") 0 59 = .ok values ∧
      ¬ ReadsField 0 59 (str "1/9223372036854775807") values :=
  ⟨[1, -2 ^ 63, -1], by decide +kernel, fun h => absurd (h.in_range (-1) (by decide)) (by decide)⟩

end Fields

/-! ## Times -/

/-- The nanoseconds of a minute. -/
def minuteNanos : ℤ := 60 * 1000000000

/-- The minute of a time in nanoseconds: `Truncate(time.Minute)`. -/
def minuteOf (time : ℤ) : ℤ := time / minuteNanos

/-- The zero `time.Time`, in minutes. -/
def zeroTime : ℤ := -719162 * 1440

variable (loc : Location) (s : CronSchedule) (d : Date)

/-- A day is in the schedule. -/
def DayMatches : Prop :=
  (d.day : ℤ) ∈ s.dayOfMonth ∧ (weekday d.dayNumber : ℤ) ∈ s.dayOfWeek
  deriving Decidable

/-- A minute is in the schedule. -/
def Matches (m : ℤ) : Prop :=
  let c := loc.civil m
  (c.minute : ℤ) ∈ s.minute ∧ (c.hour : ℤ) ∈ s.hour ∧ (c.date.month : ℤ) ∈ s.month ∧
    DayMatches s c.date
  deriving Decidable

/-! ## The search -/

/-- The first hour and minute of a date. -/
def midnight : ℤ := loc.date ⟨d, 0, 0⟩

/-- The loop over the minutes of an hour, from that of a time on. -/
def minuteLoop (hour : ℕ) (t : ℤ) : Option ℤ :=
  let first := (loc.civil t).minute
  ((List.range' first (60 - first)).find? fun minute : ℕ => (minute : ℤ) ∈ s.minute).map
    fun minute : ℕ => loc.date ⟨d, hour, minute⟩

/-- The loop over the hours of a day, from that of a time on. -/
def hourLoop (t : ℤ) : Option ℤ :=
  let first := (loc.civil t).hour
  overUnits (fun hour => (hour : ℤ) ∈ s.hour) (minuteLoop loc s d) (midnight loc d)
    (List.range' first (24 - first)) t

variable (year : ℤ)

/-- The loop over the days of a month, from that of a time on. -/
def dayLoop (month : ℕ) (t : ℤ) : Option ℤ :=
  let first := (loc.civil t).date.day
  overUnits
    (fun day => (day : ℤ) ∈ s.dayOfMonth ∧
      (loc.weekday (midnight loc ⟨year, month, day⟩) : ℤ) ∈ s.dayOfWeek)
    (fun day => hourLoop loc s ⟨year, month, day⟩) (midnight loc ⟨year, month, 1⟩)
    (List.range' first (daysInMonth year month + 1 - first)) t

/-- The loop over the months of a year, from that of a time on. -/
def monthLoop (t : ℤ) : Option ℤ :=
  let first := (loc.civil t).date.month
  overUnits (fun month => (month : ℤ) ∈ s.month) (dayLoop loc s year) (midnight loc ⟨year, 1, 1⟩)
    (List.range' first (13 - first)) t

/-- The loop over the years. The bound of the source moves on with the year, so that the loop does
not end by itself; the fuel is the number of years that are searched. -/
def yearLoop : ℕ → ℤ → ℤ → Option ℤ
  | 0, _, _ => none
  | fuel + 1, year, t =>
    if year ≤ (loc.civil t).date.year + 5 then
      match monthLoop loc s year t with
      | some r => some r
      | none => yearLoop fuel (year + 1) (midnight loc ⟨year + 1, 1, 1⟩)
    else some zeroTime

/-- `nextRunTime`, in minutes; `none` if it does not return. The calendar repeats after 400 years,
so that nothing is found later either. -/
def nextRunTime (start : ℤ) : Option ℤ :=
  let t := minuteOf start + 1
  yearLoop loc s 402 (loc.civil t).date.year t

/-! ## What a start time cuts off -/

variable (c : CivilTime)

/-- No earlier minute of an hour is in the schedule. -/
def FirstMinute : Prop := ∀ minute < c.minute, (minute : ℤ) ∉ s.minute

/-- No earlier hour of a day is in the schedule. -/
def FirstHour : Prop := ∀ hour < c.hour, (hour : ℤ) ∉ s.hour

/-- No earlier day of any month is in the schedule. -/
def FirstDay : Prop := ∀ day < c.date.day, 1 ≤ day → (day : ℤ) ∉ s.dayOfMonth

/-- The search of a day from a time on leaves out no minute: the hour of the time is in the
schedule, or no later one of the day is, or the minute of the time cuts off nothing. -/
def HourFree : Prop :=
  (c.hour : ℤ) ∈ s.hour ∨ (∀ hour < 24, c.hour < hour → (hour : ℤ) ∉ s.hour) ∨ FirstMinute s c

/-- The search of a month from the day and the time of day of a time on leaves out no minute. -/
def DayFree (month : ℕ) (c : CivilTime) : Prop :=
  (DayMatches s ⟨year, month, c.date.day⟩ → HourFree s c) ∧
    (¬ DayMatches s ⟨year, month, c.date.day⟩ →
      (∀ day < daysInMonth year month + 1, c.date.day < day → ¬ DayMatches s ⟨year, month, day⟩) ∨
        FirstHour s c ∧ FirstMinute s c)

/-- The search from a time on leaves out no minute. -/
def Unhindered : Prop :=
  ((c.date.month : ℤ) ∈ s.month → DayFree s c.date.year c.date.month c) ∧
    ((c.date.month : ℤ) ∉ s.month →
      (∀ month < 13, c.date.month < month → (month : ℤ) ∉ s.month) ∨
        FirstDay s c ∧ FirstHour s c ∧ FirstMinute s c)

instance (c : CivilTime) : Decidable (FirstMinute s c) :=
  inferInstanceAs (Decidable (∀ minute < c.minute, (minute : ℤ) ∉ s.minute))

instance (c : CivilTime) : Decidable (FirstHour s c) :=
  inferInstanceAs (Decidable (∀ hour < c.hour, (hour : ℤ) ∉ s.hour))

instance (c : CivilTime) : Decidable (FirstDay s c) :=
  inferInstanceAs (Decidable (∀ day < c.date.day, 1 ≤ day → (day : ℤ) ∉ s.dayOfMonth))

instance (c : CivilTime) : Decidable (HourFree s c) := inferInstanceAs (Decidable (_ ∨ _ ∨ _))

instance (year : ℤ) (month : ℕ) (c : CivilTime) : Decidable (DayFree s year month c) :=
  inferInstanceAs (Decidable ((_ → _) ∧ (_ → _)))

instance (c : CivilTime) : Decidable (Unhindered s c) :=
  inferInstanceAs (Decidable ((_ → _) ∧ (_ → _)))

/-- The search from a time on leaves out no minute. Of the months behind one that is passed over,
only the first in the schedule is searched from the day and the time of day of the start on. -/
def CutsNothing : Prop :=
  ((c.date.month : ℤ) ∈ s.month → DayFree s c.date.year c.date.month c) ∧
    ((c.date.month : ℤ) ∉ s.month →
      ∀ month, FirstWanted (fun month => (month : ℤ) ∈ s.month) (c.date.month + 1) 13 month →
        (∃ day, 1 ≤ day ∧ day ≤ daysInMonth c.date.year month ∧
          DayMatches s ⟨c.date.year, month, day⟩) →
        (∀ day < c.date.day, 1 ≤ day → day ≤ daysInMonth c.date.year month →
          ¬ DayMatches s ⟨c.date.year, month, day⟩) ∧ FirstHour s c ∧ FirstMinute s c)

theorem Unhindered.cutsNothing {s : CronSchedule} {c : CivilTime} (h : Unhindered s c) :
    CutsNothing s c := by
  refine ⟨h.1, fun hnot month hmonth _ => ?_⟩
  rcases h.2 hnot with hnone | ⟨hday, hhour, hminute⟩
  · exact absurd (of_decide_eq_true hmonth.isWanted) (hnone month hmonth.lt hmonth.le)
  · exact ⟨fun day hlt hpos _ hmatches => hday day hlt hpos hmatches.1, hhour, hminute⟩

/-- The search returns after at most so many years. -/
def ReturnsWithin (years : ℕ) (start : ℤ) : Prop :=
  yearLoop loc s years (loc.civil (minuteOf start + 1)).date.year (minuteOf start + 1) ≠ none

/-! ## Whether the search returns -/

theorem valid_civil (t : ℤ) : (loc.civil t).Valid := valid_civilOf _

/-- Some hour and some minute are in the schedule. -/
def TimeMatches (s : CronSchedule) : Prop :=
  (∃ hour : ℕ, hour < 24 ∧ (hour : ℤ) ∈ s.hour) ∧
    ∃ minute : ℕ, minute < 60 ∧ (minute : ℤ) ∈ s.minute

/-- Some day of a year is in the schedule, where the weekday of a date is given. -/
def YearMatches (s : CronSchedule) (weekdayOf : Date → ℕ) (year : ℤ) : Prop :=
  ∃ month day : ℕ, Date.Valid ⟨year, month, day⟩ ∧ (month : ℤ) ∈ s.month ∧
    (day : ℤ) ∈ s.dayOfMonth ∧ (weekdayOf ⟨year, month, day⟩ : ℤ) ∈ s.dayOfWeek

/-- The weekday that the search takes for a date. -/
def searchWeekday (loc : Location) (d : Date) : ℕ := loc.weekday (midnight loc d)

def dateWeekday : ℕ := weekday d.dayNumber

/-- From some year on, every new year begins at midnight: the clocks are not changed then. -/
def NewYearsKept (loc : Location) (since : ℤ) : Prop :=
  ∀ year, since < year → loc.civil (midnight loc ⟨year, 1, 1⟩) = ⟨⟨year, 1, 1⟩, 0, 0⟩

section Returns

variable {loc s} {year t : ℤ}

theorem exists_of_monthLoop (h : monthLoop loc s year t ≠ none) :
    TimeMatches s ∧ YearMatches s (searchWeekday loc) year := by
  obtain ⟨⟨hmonthPos, -, hdayPos, -⟩, -, -⟩ := valid_civil loc t
  obtain ⟨month, hmonth, hlisted, t', h⟩ := exists_of_overUnits h
  obtain ⟨day, hday, hdays, t'', h⟩ := exists_of_overUnits h
  obtain ⟨hour, hhour, hhours, t₃, h⟩ := exists_of_overUnits h
  obtain ⟨r, hr⟩ := Option.ne_none_iff_exists'.mp h
  obtain ⟨minute, hminute, -⟩ := Option.map_eq_some_iff.mp hr
  have hfirst := (valid_civil loc t').date.day_pos
  have hmem := List.mem_of_find?_eq_some hminute
  have hminutes := List.find?_some hminute
  simp only [List.mem_range'_1] at hmonth hday hhour hmem
  have hvalid : Date.Valid ⟨year, month, day⟩ :=
    ⟨hmonthPos.trans hmonth.1, show month ≤ 12 by omega, hfirst.trans hday.1,
      show day ≤ daysInMonth year month by omega⟩
  exact ⟨⟨⟨hour, by omega, of_decide_eq_true hhours⟩, minute, by omega, of_decide_eq_true hminutes⟩,
    month, day, hvalid, of_decide_eq_true hlisted, of_decide_eq_true hdays⟩

theorem hourLoop_ne_none (hs : TimeMatches s) (hhour : (loc.civil t).hour = 0)
    (hminute : (loc.civil t).minute = 0) (d : Date) : hourLoop loc s d t ≠ none := by
  obtain ⟨⟨hour, hlt, hlisted⟩, minute, hminutes, hmlisted⟩ := hs
  have hinner : ∀ hour, minuteLoop loc s d hour t ≠ none := by
    intro hour
    simp only [minuteLoop, hminute, ne_eq, Option.map_eq_none_iff, List.find?_eq_none, not_forall]
    exact ⟨minute, by simpa using hminutes, by simpa using hmlisted⟩
  refine overUnits_ne_none (v := hour) ?_ (decide_eq_true hlisted) (hinner hour)
    (.inr fun u _ _ => hinner u)
  simpa [hhour] using hlt

/-- From a new year on that begins at midnight, a year is searched completely. -/
theorem monthLoop_newYear_ne_none_iff
    (hcivil : loc.civil (midnight loc ⟨year, 1, 1⟩) = ⟨⟨year, 1, 1⟩, 0, 0⟩) :
    monthLoop loc s year (midnight loc ⟨year, 1, 1⟩) ≠ none ↔
      TimeMatches s ∧ YearMatches s (searchWeekday loc) year := by
  refine ⟨exists_of_monthLoop, ?_⟩
  rintro ⟨hs, month, day, ⟨hmonth, hmonths, hday, hdays⟩, hlisted, hwanted⟩
  have hhours := hourLoop_ne_none hs (congrArg CivilTime.hour hcivil)
    (congrArg CivilTime.minute hcivil)
  have hinner : dayLoop loc s year month (midnight loc ⟨year, 1, 1⟩) ≠ none := by
    refine overUnits_ne_none (v := day) ?_ (decide_eq_true hwanted) (hhours _)
      (.inr fun u _ _ => hhours _)
    simp only [List.mem_range'_1, hcivil] at hday hdays ⊢
    omega
  refine overUnits_ne_none (v := month) ?_ (decide_eq_true hlisted) hinner (.inl rfl)
  simp only [List.mem_range'_1, hcivil] at hmonth hmonths ⊢
  omega

variable {since : ℤ}

/-- The years from a new year on, one after the other. -/
theorem yearLoop_newYear_ne_none_iff (hkept : NewYearsKept loc since) (hyear : since < year)
    (fuel : ℕ) :
    yearLoop loc s fuel year (midnight loc ⟨year, 1, 1⟩) ≠ none ↔
      TimeMatches s ∧ ∃ y, year ≤ y ∧ y < year + fuel ∧ YearMatches s (searchWeekday loc) y := by
  induction fuel generalizing year with
  | zero =>
    simp only [yearLoop, ne_eq, not_true_eq_false, false_iff]
    rintro ⟨-, y, hle, hlt, -⟩
    omega
  | succ fuel ih =>
    have hcivil := hkept year hyear
    have hthis := monthLoop_newYear_ne_none_iff (s := s) hcivil
    have hrest := ih (show since < year + 1 by omega)
    rw [yearLoop, hcivil, if_pos (Int.le_add_of_nonneg_right (by decide))]
    cases hfound : monthLoop loc s year (midnight loc ⟨year, 1, 1⟩) with
    | some r =>
      obtain ⟨hs, hmatches⟩ := hthis.mp (by simp [hfound])
      exact iff_of_true (by simp) ⟨hs, year, le_refl year, by omega, hmatches⟩
    | none =>
      rw [hrest]
      refine and_congr_right fun hs => exists_congr fun y => ?_
      have hnot : ¬ YearMatches s (searchWeekday loc) year := fun hmatches =>
        hthis.mpr ⟨hs, hmatches⟩ hfound
      constructor
      · rintro ⟨hle, hlt, hmatches⟩
        exact ⟨by omega, by omega, hmatches⟩
      · rintro ⟨hle, hlt, hmatches⟩
        have hne : y ≠ year := fun heq => hnot (heq ▸ hmatches)
        exact ⟨by omega, by omega, hmatches⟩

/-- Of the first year only what comes after the start is searched. -/
theorem yearLoop_ne_none (hkept : NewYearsKept loc since) (hsince : since ≤ year)
    (hyear : (loc.civil t).date.year = year) (fuel : ℕ) :
    (yearLoop loc s (fuel + 1) year t ≠ none →
      TimeMatches s ∧ ∃ y, year ≤ y ∧ y < year + 1 + fuel ∧ YearMatches s (searchWeekday loc) y) ∧
    (TimeMatches s → (∃ y, year + 1 ≤ y ∧ y < year + 1 + fuel ∧
      YearMatches s (searchWeekday loc) y) →
      yearLoop loc s (fuel + 1) year t ≠ none) := by
  have hrest := yearLoop_newYear_ne_none_iff (s := s) hkept (show since < year + 1 by omega) fuel
  rw [yearLoop, if_pos (by omega)]
  cases hfound : monthLoop loc s year t with
  | some r =>
    obtain ⟨hs, hmatches⟩ := exists_of_monthLoop (ne_of_eq_of_ne hfound (Option.some_ne_none r))
    exact ⟨fun _ => ⟨hs, year, le_refl year, by omega, hmatches⟩, fun _ _ => by simp⟩
  | none =>
    refine ⟨fun h => ?_, fun hs hmatches => hrest.mpr ⟨hs, hmatches⟩⟩
    obtain ⟨hs, y, hle, hmatches⟩ := hrest.mp h
    exact ⟨hs, y, by omega, hmatches⟩

/-- The calendar repeats after 400 years. -/
theorem periodic_yearMatches : Function.Periodic (YearMatches s dateWeekday) 400 := by
  intro year
  have hweekday : ∀ month day : ℕ,
      dateWeekday ⟨year + 400, month, day⟩ = dateWeekday ⟨year, month, day⟩ := by
    intro month day
    rw [dateWeekday, dateWeekday, ← weekday_add_era (Date.dayNumber ⟨year, month, day⟩)]
    congr 1
    simp only [Date.dayNumber, yearStart_add_era, monthStart_add_era]
    ring
  have hvalid : ∀ month day : ℕ,
      Date.Valid ⟨year + 400, month, day⟩ ↔ Date.Valid ⟨year, month, day⟩ := by
    intro month day
    have hdays := daysInMonth_add_era year month
    exact ⟨fun h => ⟨h.1, h.2, h.3, hdays ▸ h.4⟩, fun h => ⟨h.1, h.2, h.3, hdays.symm ▸ h.4⟩⟩
  simp only [YearMatches, hweekday, hvalid]

/-- Where the search takes the right weekdays, 401 years are enough if the schedule has a day. -/
theorem returnsWithin_calendar_iff (hkept : NewYearsKept loc since)
    (hweekday : ∀ d : Date, d.Valid → since ≤ d.year → searchWeekday loc d = dateWeekday d)
    {years : ℕ} (hyears : 401 ≤ years) {start : ℤ}
    (hsince : since ≤ (loc.civil (minuteOf start + 1)).date.year) :
    ReturnsWithin loc s years start ↔ TimeMatches s ∧ ∃ year, YearMatches s dateWeekday year := by
  obtain ⟨fuel, rfl⟩ : ∃ fuel, years = fuel + 1 := ⟨years - 1, by omega⟩
  have hsame : ∀ year, since ≤ year →
      (YearMatches s (searchWeekday loc) year ↔ YearMatches s dateWeekday year) := by
    intro year hle
    refine exists₂_congr fun month day => and_congr_right fun hvalid => ?_
    rw [hweekday ⟨year, month, day⟩ hvalid hle]
  obtain ⟨hfound, hfinds⟩ := yearLoop_ne_none (s := s) hkept hsince rfl fuel
  constructor
  · intro h
    obtain ⟨hs, y, hle, -, hmatches⟩ := hfound h
    exact ⟨hs, y, (hsame y (hsince.trans hle)).mp hmatches⟩
  · rintro ⟨hs, year, hmatches⟩
    obtain ⟨y, ⟨hle, hlt⟩, heq⟩ := periodic_yearMatches.exists_mem_Ico (by decide) year
      ((loc.civil (minuteOf start + 1)).date.year + 1)
    exact hfinds hs ⟨y, hle, by omega, (hsame y (by omega)).mpr (heq ▸ hmatches)⟩

/-- Where the new years from some year on begin at midnight, a constant number of years is enough
for every search from then on exactly if the schedule has an hour and a minute, and a day in some
year of any so many years in succession, with the weekdays that the search takes. Where these are
the right ones, 401 years are enough for every schedule that has a day at all. -/
theorem returnsWithin_iff (hkept : NewYearsKept loc since) :
    ((∃ years, ∀ start, since ≤ (loc.civil (minuteOf start + 1)).date.year →
        ReturnsWithin loc s years start) ↔
      TimeMatches s ∧ ∃ gap : ℕ, ∀ year, since < year →
        ∃ y, year ≤ y ∧ y < year + gap ∧ YearMatches s (searchWeekday loc) y) ∧
    ((∀ d : Date, d.Valid → since ≤ d.year → searchWeekday loc d = dateWeekday d) →
      ∀ years, 401 ≤ years → ∀ start, since ≤ (loc.civil (minuteOf start + 1)).date.year →
        (ReturnsWithin loc s years start ↔
          TimeMatches s ∧ ∃ year, YearMatches s dateWeekday year)) := by
  refine ⟨⟨fun h => ?_, fun h => ?_⟩, fun hweekday years hyears start hsince =>
    returnsWithin_calendar_iff hkept hweekday hyears hsince⟩
  · obtain ⟨years, hreturns⟩ := h
    -- a search that starts at a new year looks at the years from this one on
    have hyear : ∀ year, since < year → TimeMatches s ∧
        ∃ y, year ≤ y ∧ y < year + years ∧ YearMatches s (searchWeekday loc) y := by
      intro year hlt
      have hstart : minuteOf ((midnight loc ⟨year, 1, 1⟩ - 1) * minuteNanos) + 1 =
          midnight loc ⟨year, 1, 1⟩ := by
        rw [minuteOf, Int.mul_ediv_cancel _ (by decide), sub_add_cancel]
      have hthis := hreturns ((midnight loc ⟨year, 1, 1⟩ - 1) * minuteNanos)
      rw [ReturnsWithin, hstart, hkept year hlt] at hthis
      exact (yearLoop_newYear_ne_none_iff hkept hlt years).mp (hthis hlt.le)
    exact ⟨(hyear (since + 1) (by omega)).1, years, fun year hlt => (hyear year hlt).2⟩
  · obtain ⟨hs, gap, hgap⟩ := h
    refine ⟨gap + 1, fun start hsince => ?_⟩
    exact (yearLoop_ne_none hkept hsince rfl gap).2 hs (hgap _ (by omega))

end Returns

/-! ## Where the search begins -/

/-- The search of a day begins in its first hour in the schedule, at the minute of the start. -/
def hourEntry (c : CivilTime) : ℤ :=
  entry (fun hour => (hour : ℤ) ∈ s.hour) (fun hour => loc.date ⟨d, hour, c.minute⟩)
    (loc.date ⟨d, 24, 0⟩) (List.range' c.hour (24 - c.hour))

/-- The search of a month begins on its first day in the schedule. -/
def dayEntry (month : ℕ) (c : CivilTime) : ℤ :=
  entry (fun day => DayMatches s ⟨year, month, day⟩)
    (fun day => hourEntry loc s ⟨year, month, day⟩ c)
    (midnight loc ⟨year, month, daysInMonth year month + 1⟩)
    (List.range' c.date.day (daysInMonth year month + 1 - c.date.day))

/-- The search of a year begins in its first month in the schedule. -/
def monthEntry (c : CivilTime) : ℤ :=
  entry (fun month => (month : ℤ) ∈ s.month) (fun month => dayEntry loc s year month c)
    (midnight loc ⟨year, 13, 1⟩) (List.range' c.date.month (13 - c.date.month))

/-! ## Minutes of a day, a month and a year -/

variable {year : ℤ} {month : ℕ} {c : CivilTime}

section Fixed

variable {loc s} (hfixed : loc.Fixed) {d : Date} {x : ℤ}

include hfixed

theorem midnight_eq (d : Date) : midnight loc d = d.dayNumber * 1440 - loc.offset 0 := by
  rw [midnight, Location.date_eq hfixed, CivilTime.minuteNumber]
  simp

theorem date_eq_midnight_add (d : Date) (hour minute : ℕ) :
    loc.date ⟨d, hour, minute⟩ = midnight loc d + hour * 60 + minute := by
  rw [midnight_eq hfixed, Location.date_eq hfixed, CivilTime.minuteNumber]
  ring

theorem civil_midnight (hd : d.Valid) : loc.civil (midnight loc d) = ⟨d, 0, 0⟩ :=
  Location.civil_date hfixed ⟨hd, Nat.zero_lt_succ _, Nat.zero_lt_succ _⟩

theorem civil_newYear (year : ℤ) : loc.civil (midnight loc ⟨year, 1, 1⟩) = ⟨⟨year, 1, 1⟩, 0, 0⟩ :=
  civil_midnight hfixed ⟨Nat.le_refl 1, Nat.le_add_left 1 11, Nat.le_refl 1, daysInMonth_pos year 1⟩

theorem weekday_midnight (d : Date) : loc.weekday (midnight loc d) = weekday d.dayNumber := by
  rw [Location.weekday, hfixed _ 0, midnight_eq hfixed, sub_add_cancel,
    Int.mul_ediv_cancel _ (by decide)]

theorem exists_of_mem_day (hle : midnight loc d ≤ x) (hlt : x < midnight loc d + 1440) :
    ∃ hour minute : ℕ, hour < 24 ∧ minute < 60 ∧ x = loc.date ⟨d, hour, minute⟩ := by
  refine ⟨((x - midnight loc d) / 60).toNat, ((x - midnight loc d) % 60).toNat, by omega, by omega,
    ?_⟩
  rw [date_eq_midnight_add hfixed]
  omega

theorem midnight_month_succ (year : ℤ) (hmonth : 1 ≤ month) :
    midnight loc ⟨year, month + 1, 1⟩ =
      midnight loc ⟨year, month, daysInMonth year month + 1⟩ := by
  rw [midnight_eq hfixed, midnight_eq hfixed, Date.dayNumber, Date.dayNumber]
  simp only [monthStart_succ year hmonth]
  push_cast
  ring

theorem midnight_month_le (year : ℤ) {later : ℕ} (h : month ≤ later) :
    midnight loc ⟨year, month, 1⟩ ≤ midnight loc ⟨year, later, 1⟩ := by
  have hle := monthStart_le year h
  simp only [midnight_eq hfixed, Date.dayNumber]
  omega

theorem midnight_year_succ (year : ℤ) :
    midnight loc ⟨year + 1, 1, 1⟩ = midnight loc ⟨year, 13, 1⟩ := by
  have hthirteen := monthStart_thirteen year
  rw [midnight_eq hfixed, midnight_eq hfixed, Date.dayNumber, Date.dayNumber]
  simp only [hthirteen, show monthStart (year + 1) 1 = 0 from rfl]
  push_cast
  ring

theorem midnight_newYear_le {later : ℤ} (h : year ≤ later) :
    midnight loc ⟨year, 1, 1⟩ ≤ midnight loc ⟨later, 1, 1⟩ := by
  have hle := yearStart_le h
  simp only [midnight_eq hfixed, Date.dayNumber, monthStart]
  omega

theorem midnight_add_day (year : ℤ) (month day : ℕ) :
    midnight loc ⟨year, month, day⟩ = midnight loc ⟨year, month, 1⟩ + (day - 1) * 1440 := by
  rw [midnight_eq hfixed, midnight_eq hfixed, Date.dayNumber, Date.dayNumber]
  push_cast
  ring

theorem exists_of_mem_month (hmonth : 1 ≤ month)
    (hle : midnight loc ⟨year, month, 1⟩ ≤ x) (hlt : x < midnight loc ⟨year, month + 1, 1⟩) :
    ∃ day hour minute : ℕ, 1 ≤ day ∧ day ≤ daysInMonth year month ∧ hour < 24 ∧ minute < 60 ∧
      x = loc.date ⟨⟨year, month, day⟩, hour, minute⟩ := by
  rw [midnight_month_succ hfixed year hmonth, midnight_add_day hfixed] at hlt
  obtain ⟨day, hday⟩ : ∃ day : ℕ, (day : ℤ) = (x - midnight loc ⟨year, month, 1⟩) / 1440 + 1 :=
    ⟨((x - midnight loc ⟨year, month, 1⟩) / 1440 + 1).toNat, by omega⟩
  have hmidnight := midnight_add_day hfixed year month day
  push_cast at hlt
  obtain ⟨hour, minute, hhour, hminute, hx⟩ :=
    exists_of_mem_day hfixed (show midnight loc ⟨year, month, day⟩ ≤ x by omega) (by omega)
  exact ⟨day, hour, minute, by omega, by omega, hhour, hminute, hx⟩

theorem matches_date_iff (hd : d.Valid) {hour minute : ℕ} (hhour : hour < 24)
    (hminute : minute < 60) :
    Matches loc s (loc.date ⟨d, hour, minute⟩) ↔
      (minute : ℤ) ∈ s.minute ∧ (hour : ℤ) ∈ s.hour ∧ (d.month : ℤ) ∈ s.month ∧ DayMatches s d := by
  rw [Matches, Location.civil_date hfixed ⟨hd, hhour, hminute⟩]

/-! ## The loops -/

theorem midnight_day_succ (year : ℤ) (month day : ℕ) :
    midnight loc ⟨year, month, day + 1⟩ = loc.date ⟨⟨year, month, day⟩, 24, 0⟩ := by
  rw [date_eq_midnight_add hfixed, midnight_add_day hfixed, midnight_add_day hfixed year month day]
  push_cast
  ring

variable {hour : ℕ}

theorem finds_minuteLoop (hd : d.Valid) (hmonth : (d.month : ℤ) ∈ s.month)
    (hday : DayMatches s d) (hhour : hour < 24) (hwanted : (hour : ℤ) ∈ s.hour) (t : ℤ) :
    Finds (Matches loc s) (loc.date ⟨d, hour, (loc.civil t).minute⟩) (loc.date ⟨d, hour + 1, 0⟩)
      (minuteLoop loc s d hour t) := by
  have hminute : ∀ m : ℕ, loc.date ⟨d, hour, m⟩ = loc.date ⟨d, hour, 0⟩ + m := by
    intro m
    rw [date_eq_midnight_add hfixed, date_eq_midnight_add hfixed]
    push_cast
    ring
  have hnext : loc.date ⟨d, hour + 1, 0⟩ = loc.date ⟨d, hour, 0⟩ + (60 : ℕ) := by
    rw [date_eq_midnight_add hfixed, date_eq_midnight_add hfixed]
    push_cast
    ring
  rw [minuteLoop, hminute, hnext, funext hminute]
  apply finds_range'
  intro m _ hm
  rw [← hminute, matches_date_iff hfixed hd hhour hm]
  simp [hwanted, hmonth, hday]

/-- The hours of a day in the schedule. -/
theorem searchable_hours (hd : d.Valid) (hmonth : (d.month : ℤ) ∈ s.month) (hday : DayMatches s d) :
    Searchable (Matches loc s) (fun hour => (hour : ℤ) ∈ s.hour) (minuteLoop loc s d)
      (midnight loc d) 0 24 (fun hour => loc.date ⟨d, hour, 0⟩)
      (fun hour t => loc.date ⟨d, hour, (loc.civil t).minute⟩) := by
  constructor
  · intro hour later hle
    simp only [date_eq_midnight_add hfixed]
    omega
  · intro hour t _ _ _
    have hminute := (valid_civil loc t).minute
    simp only [date_eq_midnight_add hfixed]
    push_cast
    omega
  · intro hour _ hlt hnot x hle hx
    simp only [date_eq_midnight_add hfixed] at hle hx
    push_cast at hx
    obtain ⟨hour', minute, hh, hm, rfl⟩ :=
      exists_of_mem_day hfixed (d := d) (x := x) (by omega) (by omega)
    rw [date_eq_midnight_add hfixed] at hle hx
    obtain rfl : hour' = hour := by omega
    rw [matches_date_iff hfixed hd hh hm]
    exact fun h => of_decide_eq_false hnot h.2.1
  · intro hour t _ hlt hwanted
    exact finds_minuteLoop hfixed hd hmonth hday hlt (of_decide_eq_true hwanted) t
  · intro hour _ _ _ x hle hlt
    rw [civil_midnight hfixed hd] at hlt
    exact absurd hlt (not_lt.mpr hle)

/-- The days of a month in the schedule. -/
theorem searchable_days (year : ℤ) (hpos : 1 ≤ month) (hle : month ≤ 12)
    (hmonth : (month : ℤ) ∈ s.month) :
    Searchable (Matches loc s) (fun day => DayMatches s ⟨year, month, day⟩)
      (fun day => hourLoop loc s ⟨year, month, day⟩) (midnight loc ⟨year, month, 1⟩) 1
      (daysInMonth year month + 1) (fun day => midnight loc ⟨year, month, day⟩)
      (fun day t => hourEntry loc s ⟨year, month, day⟩ (loc.civil t)) := by
  have hvalid : ∀ day, 1 ≤ day → day < daysInMonth year month + 1 →
      Date.Valid ⟨year, month, day⟩ := fun day hday hlt => ⟨hpos, hle, hday, Nat.le_of_lt_succ hlt⟩
  have hhours := fun day hday hlt (hwanted : decide (DayMatches s ⟨year, month, day⟩) = true) =>
    searchable_hours hfixed (hvalid day hday hlt) hmonth (of_decide_eq_true hwanted)
  constructor
  · intro day later hle
    simp only [midnight_add_day hfixed year month day, midnight_add_day hfixed year month later]
    omega
  · intro day t hday hlt hwanted
    rw [midnight_day_succ hfixed]
    exact (hhours day hday hlt hwanted).entry_mem (Nat.zero_le _) (Nat.zero_le _) (by decide) t
  · intro day hday hlt hnot x hx hnext
    rw [midnight_day_succ hfixed, date_eq_midnight_add hfixed] at hnext
    obtain ⟨hour, minute, hh, hm, rfl⟩ := exists_of_mem_day hfixed hx (by push_cast at hnext; omega)
    rw [matches_date_iff hfixed (hvalid day hday hlt) hh hm]
    exact fun h => of_decide_eq_false hnot h.2.2.2
  · intro day t hday hlt hwanted
    rw [midnight_day_succ hfixed]
    exact (hhours day hday hlt hwanted).finds t (Nat.zero_le _)
  · intro day hday hlt hwanted
    have hclear := (hhours day hday hlt hwanted).clear_entry_reset (le_refl 0) (by decide)
    rw [civil_midnight hfixed (hvalid day hday hlt)] at hclear
    rw [civil_midnight hfixed (hvalid 1 (le_refl 1) (by omega))]
    exact hclear

theorem dayLoop_eq (year : ℤ) (month : ℕ) (t : ℤ) :
    dayLoop loc s year month t =
      overUnits (fun day => DayMatches s ⟨year, month, day⟩)
        (fun day => hourLoop loc s ⟨year, month, day⟩) (midnight loc ⟨year, month, 1⟩)
        (List.range' (loc.civil t).date.day
          (daysInMonth year month + 1 - (loc.civil t).date.day)) t := by
  simp only [dayLoop, weekday_midnight hfixed]
  rfl

/-- The months of a year in the schedule. -/
theorem searchable_months (year : ℤ) :
    Searchable (Matches loc s) (fun month => (month : ℤ) ∈ s.month) (dayLoop loc s year)
      (midnight loc ⟨year, 1, 1⟩) 1 13 (fun month => midnight loc ⟨year, month, 1⟩)
      (fun month t => dayEntry loc s year month (loc.civil t)) := by
  have hdays := fun (month : ℕ) hpos hlt (hwanted : decide ((month : ℤ) ∈ s.month) = true) =>
    searchable_days hfixed year hpos (Nat.le_of_lt_succ hlt) (of_decide_eq_true hwanted)
  constructor
  · exact fun month later hle => midnight_month_le hfixed year hle
  · intro month t hpos hlt hwanted
    rw [midnight_month_succ hfixed year hpos]
    exact (hdays month hpos hlt hwanted).entry_mem (valid_civil loc t).date.day_pos
      (valid_civil loc t).date.day_pos (by omega) t
  · intro month hpos hlt hnot x hx hnext
    obtain ⟨day, hour, minute, hday, hdays, hh, hm, rfl⟩ := exists_of_mem_month hfixed hpos hx hnext
    rw [matches_date_iff hfixed ⟨hpos, Nat.le_of_lt_succ hlt, hday, hdays⟩ hh hm]
    exact fun h => of_decide_eq_false hnot h.2.2.1
  · intro month t hpos hlt hwanted
    rw [midnight_month_succ hfixed year hpos, dayLoop_eq hfixed]
    exact (hdays month hpos hlt hwanted).finds t (valid_civil loc t).date.day_pos
  · intro month hpos hlt hwanted
    have hclear := (hdays month hpos hlt hwanted).clear_entry_reset (le_refl 1) (by omega)
    have hfirst : Date.Valid ⟨year, month, 1⟩ :=
      ⟨hpos, Nat.le_of_lt_succ hlt, le_refl 1, daysInMonth_pos year month⟩
    rw [civil_midnight hfixed hfirst] at hclear
    rw [civil_newYear hfixed]
    exact hclear

theorem finds_monthLoop (year t : ℤ) :
    Finds (Matches loc s) (monthEntry loc s year (loc.civil t)) (midnight loc ⟨year + 1, 1, 1⟩)
      (monthLoop loc s year t) := by
  rw [midnight_year_succ hfixed]
  exact (searchable_months hfixed year).finds t (valid_civil loc t).date.month_pos

theorem monthEntry_mem (year t : ℤ) :
    midnight loc ⟨year, 1, 1⟩ ≤ monthEntry loc s year (loc.civil t) ∧
      monthEntry loc s year (loc.civil t) ≤ midnight loc ⟨year + 1, 1, 1⟩ := by
  rw [midnight_year_succ hfixed]
  exact (searchable_months hfixed year).entry_mem (valid_civil loc t).date.month_pos
    (valid_civil loc t).date.month_pos (by decide) t

theorem finds_newYear (year : ℤ) :
    Finds (Matches loc s) (midnight loc ⟨year, 1, 1⟩) (midnight loc ⟨year + 1, 1, 1⟩)
      (monthLoop loc s year (midnight loc ⟨year, 1, 1⟩)) := by
  have hclear := (searchable_months hfixed (s := s) year).clear_entry_reset (le_refl 1) (by decide)
  refine (finds_monthLoop hfixed year (midnight loc ⟨year, 1, 1⟩)).extend
    (monthEntry_mem hfixed year _).1 ?_
  rw [civil_newYear hfixed] at hclear ⊢
  exact hclear

/-- The search of whole years finds the first minute that matches. -/
theorem finds_yearLoop (fuel : ℕ) (year : ℤ) :
    Finds (Matches loc s) (midnight loc ⟨year, 1, 1⟩) (midnight loc ⟨year + fuel, 1, 1⟩)
      (yearLoop loc s fuel year (midnight loc ⟨year, 1, 1⟩)) := by
  induction fuel generalizing year with
  | zero =>
    intro x hle hlt
    rw [Nat.cast_zero, add_zero] at hlt
    omega
  | succ fuel ih =>
    have hthis := finds_newYear hfixed (s := s) year
    have hend : year + ((fuel + 1 : ℕ) : ℤ) = year + 1 + fuel := by
      push_cast
      ring
    rw [yearLoop, civil_newYear hfixed, if_pos (Int.le_add_of_nonneg_right (by decide)), hend]
    cases hfound : monthLoop loc s year (midnight loc ⟨year, 1, 1⟩) with
    | some r =>
      rw [hfound] at hthis
      exact hthis.widen (midnight_newYear_le hfixed (by omega))
    | none =>
      rw [hfound] at hthis
      exact (ih (year + 1)).extend (midnight_newYear_le hfixed (by omega)) hthis

/-! ## The next run -/

theorem finds_years (fuel : ℕ) {t : ℤ} (hyear : (loc.civil t).date.year = year) :
    Finds (Matches loc s) (monthEntry loc s year (loc.civil t))
      (midnight loc ⟨year + 1 + fuel, 1, 1⟩) (yearLoop loc s (fuel + 1) year t) := by
  have hthis := finds_monthLoop hfixed (s := s) year t
  rw [yearLoop, if_pos (by omega)]
  cases hfound : monthLoop loc s year t with
  | some r =>
    rw [hfound] at hthis
    exact hthis.widen (midnight_newYear_le hfixed (by omega))
  | none =>
    rw [hfound] at hthis
    exact (finds_yearLoop hfixed fuel (year + 1)).extend (monthEntry_mem hfixed year t).2 hthis

/-- Some minute is in the schedule if some day of some year, some hour and some minute of an hour
are. -/
theorem exists_matches_iff :
    (∃ m, Matches loc s m) ↔ TimeMatches s ∧ ∃ year, YearMatches s dateWeekday year := by
  constructor
  · rintro ⟨m, hminute, hhour, hmonth, hday, hweekday⟩
    obtain ⟨hdate, hhours, hminutes⟩ := valid_civil loc m
    exact ⟨⟨⟨_, hhours, hhour⟩, _, hminutes, hminute⟩, _, _, _, hdate, hmonth, hday, hweekday⟩
  · rintro ⟨⟨⟨hour, hhours, hhour⟩, minute, hminutes, hminute⟩, year, month, day, hdate, hmonth,
      hday⟩
    exact ⟨_, (matches_date_iff hfixed hdate hhours hminutes).mpr ⟨hminute, hhour, hmonth, hday⟩⟩

theorem nextRunTime_eq_none_iff (start : ℤ) :
    nextRunTime loc s start = none ↔ ∀ m, ¬ Matches loc s m := by
  rw [← not_exists, exists_matches_iff hfixed, iff_not_comm]
  exact (returnsWithin_calendar_iff (fun year _ => civil_newYear hfixed year)
    (fun d _ _ => weekday_midnight hfixed d) (by decide) (le_refl _)).symm

/-! ## What the start cuts off -/

section Clear

variable {m t : ℤ} (hm : Matches loc s m) (hd : d.Valid) (hmonth : (d.month : ℤ) ∈ s.month)
  (hday : DayMatches s d)

include hd hmonth hday

/-- The minutes of an hour in the schedule before the minute of a start. -/
theorem clear_minutes_iff (hhour : hour < 24) (hwanted : (hour : ℤ) ∈ s.hour) (hc : c.minute < 60) :
    Finds (Matches loc s) (loc.date ⟨d, hour, 0⟩) (loc.date ⟨d, hour, c.minute⟩) none ↔
      FirstMinute s c := by
  simp only [date_eq_midnight_add hfixed]
  constructor
  · intro hclear minute hlt hin
    refine hclear (loc.date ⟨d, hour, minute⟩) ?_ ?_
      ((matches_date_iff hfixed hd hhour (by omega)).mpr ⟨hin, hwanted, hmonth, hday⟩)
    · rw [date_eq_midnight_add hfixed]
      omega
    · rw [date_eq_midnight_add hfixed]
      omega
  · intro hfirst x hle hlt
    obtain ⟨minute, hminute⟩ : ∃ minute : ℕ, (minute : ℤ) = x - (midnight loc d + hour * 60) :=
      ⟨(x - (midnight loc d + hour * 60)).toNat, by omega⟩
    obtain rfl : loc.date ⟨d, hour, minute⟩ = x := by
      rw [date_eq_midnight_add hfixed]
      omega
    rw [matches_date_iff hfixed hd hhour (by omega)]
    exact fun h => hfirst minute (by omega) h.1

/-- What a start cuts off of its own day. -/
theorem clear_hours_iff :
    loc.date ⟨d, (loc.civil t).hour, (loc.civil t).minute⟩ ≤ hourEntry loc s d (loc.civil t) ∧
      (Finds (Matches loc s) (loc.date ⟨d, (loc.civil t).hour, (loc.civil t).minute⟩)
        (hourEntry loc s d (loc.civil t)) none ↔ HourFree s (loc.civil t)) := by
  obtain ⟨-, hhour, hminute⟩ := valid_civil loc t
  have hlater : ∀ w, FirstWanted (fun hour => (hour : ℤ) ∈ s.hour) ((loc.civil t).hour + 1) 24 w →
      (Finds (Matches loc s) (loc.date ⟨d, w, 0⟩) (loc.date ⟨d, w, (loc.civil t).minute⟩) none ↔
        FirstMinute s (loc.civil t)) := fun w hw =>
    clear_minutes_iff hfixed hd hmonth hday hw.lt (of_decide_eq_true hw.isWanted) hminute
  obtain ⟨hle, hclear⟩ := (searchable_hours hfixed hd hmonth hday).clear_from_iff
    (t := t) (a := loc.date ⟨d, (loc.civil t).hour, (loc.civil t).minute⟩) (Nat.zero_le _) hhour
    (by simp only [date_eq_midnight_add hfixed]; omega)
    (by simp only [date_eq_midnight_add hfixed]; push_cast; omega) fun _ => le_refl _
  refine ⟨hle, hclear.trans ?_⟩
  rw [forall₂_congr hlater, forall_firstWanted_iff, HourFree]
  simp only [decide_eq_true_eq, decide_eq_false_iff_not, Nat.succ_le_iff]
  have hempty : Finds (Matches loc s) (loc.date ⟨d, (loc.civil t).hour, (loc.civil t).minute⟩)
      (loc.date ⟨d, (loc.civil t).hour, (loc.civil t).minute⟩) none :=
    fun x hle hlt => absurd hlt (not_lt.mpr hle)
  tauto

include hm

theorem not_clear_hour (hhour : hour < 24) (hwanted : (hour : ℤ) ∈ s.hour) :
    ¬ Finds (Matches loc s) (loc.date ⟨d, hour, 0⟩) (loc.date ⟨d, hour + 1, 0⟩) none := by
  have hminute := (valid_civil loc m).minute
  intro hclear
  refine hclear (loc.date ⟨d, hour, (loc.civil m).minute⟩) ?_ ?_
    ((matches_date_iff hfixed hd hhour hminute).mpr ⟨hm.1, hwanted, hmonth, hday⟩)
  · simp only [date_eq_midnight_add hfixed]
    omega
  · simp only [date_eq_midnight_add hfixed]
    push_cast
    omega

/-- What a start cuts off of a later day. -/
theorem clear_time_iff :
    Finds (Matches loc s) (midnight loc d) (hourEntry loc s d (loc.civil t)) none ↔
      FirstHour s (loc.civil t) ∧ FirstMinute s (loc.civil t) := by
  obtain ⟨-, hhour, hminute⟩ := valid_civil loc t
  refine ((searchable_hours hfixed hd hmonth hday).clear_all_iff (Nat.zero_le _) (by decide)
    (fun hour _ hlt hwanted => not_clear_hour hfixed hm hd hmonth hday hlt
      (of_decide_eq_true hwanted))
    fun w _ hlt hwanted =>
      clear_minutes_iff hfixed hd hmonth hday hlt (of_decide_eq_true hwanted) hminute).trans ?_
  rw [forall_prop_of_true ⟨(loc.civil m).hour, Nat.zero_le _, (valid_civil loc m).hour,
    decide_eq_true hm.2.1⟩]
  refine and_congr_left' ⟨fun hbefore hour hlt => ?_, fun hfirst hour hlt _ _ => ?_⟩
  · exact of_decide_eq_false (hbefore hour hlt (Nat.zero_le _) (hlt.trans hhour))
  · exact decide_eq_false (hfirst hour hlt)

omit hd hmonth hday

/-- What a start cuts off of a month from its own day on. -/
theorem clear_days_iff (hpos : 1 ≤ month) (hle : month ≤ 12) (hmonth : (month : ℤ) ∈ s.month)
    (hdays : (loc.civil t).date.day ≤ daysInMonth year month) {a : ℤ}
    (ha : loc.date ⟨⟨year, month, (loc.civil t).date.day⟩, (loc.civil t).hour,
      (loc.civil t).minute⟩ = a) :
    a ≤ dayEntry loc s year month (loc.civil t) ∧
      (Finds (Matches loc s) a (dayEntry loc s year month (loc.civil t)) none ↔
        DayFree s year month (loc.civil t)) := by
  subst ha
  obtain ⟨hdate, hhour, hminute⟩ := valid_civil loc t
  have hlater : ∀ w, FirstWanted (fun day => DayMatches s ⟨year, month, day⟩)
      ((loc.civil t).date.day + 1) (daysInMonth year month + 1) w →
      (Finds (Matches loc s) (midnight loc ⟨year, month, w⟩)
        (hourEntry loc s ⟨year, month, w⟩ (loc.civil t)) none ↔
          FirstHour s (loc.civil t) ∧ FirstMinute s (loc.civil t)) := fun w hw =>
    clear_time_iff hfixed hm
      ⟨hpos, hle, (Nat.le_add_left 1 _).trans hw.le, Nat.le_of_lt_succ hw.lt⟩ hmonth
      (of_decide_eq_true hw.isWanted)
  have hthis := fun hday => clear_hours_iff hfixed (t := t)
    (d := ⟨year, month, (loc.civil t).date.day⟩) ⟨hpos, hle, hdate.day_pos, hdays⟩ hmonth hday
  obtain ⟨hle, hclear⟩ := (searchable_days hfixed year hpos hle hmonth).clear_from_iff
    (t := t) (a := loc.date ⟨⟨year, month, (loc.civil t).date.day⟩, (loc.civil t).hour,
      (loc.civil t).minute⟩) hdate.day_pos (Nat.lt_succ_of_le hdays)
    (by simp only [date_eq_midnight_add hfixed]; omega)
    (by simp only [midnight_day_succ hfixed, date_eq_midnight_add hfixed]; push_cast; omega)
    fun hwanted => (hthis (of_decide_eq_true hwanted)).1
  refine ⟨hle, hclear.trans ?_⟩
  rw [forall₂_congr hlater, forall_firstWanted_iff, DayFree]
  simp only [decide_eq_true_eq, decide_eq_false_iff_not, Nat.succ_le_iff]
  exact and_congr_left' (forall_congr' fun hday => (hthis hday).2)

/-- What a start cuts off of a later month. -/
theorem clear_month_iff (year : ℤ) (hpos : 1 ≤ month) (hle : month ≤ 12)
    (hmonth : (month : ℤ) ∈ s.month) :
    Finds (Matches loc s) (midnight loc ⟨year, month, 1⟩) (dayEntry loc s year month (loc.civil t))
        none ↔
      ((∃ day, 1 ≤ day ∧ day ≤ daysInMonth year month ∧ DayMatches s ⟨year, month, day⟩) →
        (∀ day < (loc.civil t).date.day, 1 ≤ day → day ≤ daysInMonth year month →
          ¬ DayMatches s ⟨year, month, day⟩) ∧
            FirstHour s (loc.civil t) ∧ FirstMinute s (loc.civil t)) := by
  have hvalid : ∀ day, 1 ≤ day → day < daysInMonth year month + 1 →
      Date.Valid ⟨year, month, day⟩ := fun day hday hlt => ⟨hpos, hle, hday, Nat.le_of_lt_succ hlt⟩
  have hfirst := (valid_civil loc t).date.day_pos
  have hdays := (searchable_days hfixed year hpos hle hmonth).clear_all_iff (t := t)
      (v := (loc.civil t).date.day) hfirst
    (by omega) ?_ fun day hge hlt hwanted => clear_time_iff hfixed hm
      (hvalid day (hfirst.trans hge) hlt) hmonth (of_decide_eq_true hwanted)
  · simp only [decide_eq_false_iff_not, decide_eq_true_eq, Nat.lt_succ_iff] at hdays
    exact hdays
  · intro day hday hlt hwanted hclear
    refine not_clear_hour hfixed hm (hvalid day hday hlt) hmonth (of_decide_eq_true hwanted)
      (valid_civil loc m).hour hm.2.1 fun x hge hlt => hclear x ?_ ?_
    · simp only [date_eq_midnight_add hfixed] at hge
      omega
    · have := (valid_civil loc m).hour
      simp only [midnight_day_succ hfixed, date_eq_midnight_add hfixed] at hlt ⊢
      push_cast at hlt ⊢
      omega

/-- What a start cuts off. -/
theorem clear_start_iff :
    t ≤ monthEntry loc s (loc.civil t).date.year (loc.civil t) ∧
      (Finds (Matches loc s) t (monthEntry loc s (loc.civil t).date.year (loc.civil t)) none ↔
        CutsNothing s (loc.civil t)) := by
  obtain ⟨hdate, hhour, hminute⟩ := valid_civil loc t
  have ht := Location.date_civil hfixed t
  have hposition : t = midnight loc ⟨(loc.civil t).date.year, (loc.civil t).date.month, 1⟩ +
      ((loc.civil t).date.day - 1) * 1440 + (loc.civil t).hour * 60 + (loc.civil t).minute := by
    rw [← midnight_add_day hfixed]
    exact ht.symm.trans (date_eq_midnight_add hfixed _ _ _)
  have hday := hdate.day_pos
  have hdays := hdate.day_le
  have hlater := fun (w : ℕ) (hw : FirstWanted (fun month => (month : ℤ) ∈ s.month)
      ((loc.civil t).date.month + 1) 13 w) =>
    clear_month_iff hfixed hm (loc.civil t).date.year (t := t)
      ((Nat.le_add_left 1 _).trans hw.le) (Nat.le_of_lt_succ hw.lt) (of_decide_eq_true hw.isWanted)
  have hthis := fun hmonth =>
    clear_days_iff hfixed hm (s := s) hdate.month_pos hdate.month_le hmonth hdate.day_le ht
  obtain ⟨hle, hclear⟩ := (searchable_months hfixed (loc.civil t).date.year).clear_from_iff
    (t := t) (a := t) hdate.month_pos (Nat.lt_succ_of_le hdate.month_le) (by omega)
    (by
      rw [midnight_month_succ hfixed _ hdate.month_pos, midnight_add_day hfixed]
      push_cast
      omega)
    fun hwanted => (hthis (of_decide_eq_true hwanted)).1
  refine ⟨hle, hclear.trans ?_⟩
  rw [forall₂_congr hlater, CutsNothing]
  simp only [decide_eq_true_eq, decide_eq_false_iff_not]
  exact and_congr_left' (forall_congr' fun hmonth => (hthis hmonth).2)

end Clear

/-- The next run is the earliest minute of the schedule after the start exactly if the start cuts
off nothing. -/
theorem nextRunTime_earliest_iff {m : ℤ} (hm : Matches loc s m) (start : ℤ) :
    (∃ r, nextRunTime loc s start = some r ∧
        IsLeast {x | start < x * minuteNanos ∧ Matches loc s x} r) ↔
      CutsNothing s (loc.civil (minuteOf start + 1)) := by
  have hafter : ∀ x, start < x * minuteNanos ↔ minuteOf start + 1 ≤ x := by
    intro x
    rw [minuteOf, Int.add_one_le_iff, Int.ediv_lt_iff_lt_mul (by decide)]
  have hfinds := finds_years hfixed 401 (s := s) (t := minuteOf start + 1) rfl
  obtain ⟨hentry, hclear⟩ := clear_start_iff hfixed hm (t := minuteOf start + 1)
  rw [← hclear]
  constructor
  · rintro ⟨r, hr, -, hleast⟩ x hle hlt hmatches
    rw [show yearLoop loc s _ _ _ = _ from hr] at hfinds
    have := hleast ⟨(hafter x).mpr hle, hmatches⟩
    have := hfinds.1
    omega
  · intro hnone
    cases hr : nextRunTime loc s start with
    | none => exact absurd hm ((nextRunTime_eq_none_iff hfixed start).mp hr m)
    | some r =>
      rw [show yearLoop loc s _ _ _ = _ from hr] at hfinds
      obtain ⟨hle, -, hmatches, hfirst⟩ := hfinds.extend hentry hnone
      refine ⟨r, rfl, ⟨(hafter r).mpr hle, hmatches⟩, fun x hx => ?_⟩
      exact not_lt.mp fun hlt => hfirst x ((hafter x).mp hx.1) hlt hx.2

end Fixed

/-! ## Two schedules -/

def nineOClock : CronSchedule :=
  ⟨[0], [9], (List.range' 1 31).map Nat.cast, (List.range' 1 12).map Nat.cast,
    (List.range 7).map Nat.cast⟩

/-- From midnight on, nine o'clock is found. -/
theorem nextRunTime_earliest_midnight :
    ∃ r, nextRunTime .utc nineOClock (-1) = some r ∧
      IsLeast {x | -1 < x * minuteNanos ∧ Matches .utc nineOClock x} r :=
  (nextRunTime_earliest_iff Location.fixed_utc (show Matches .utc nineOClock 540 by decide)
    (-1)).mpr ⟨fun _ => by decide, fun hnot => absurd (by decide) hnot⟩

/-- From half past midnight on, nine o'clock is found on the day after only. -/
theorem not_nextRunTime_earliest :
    parseCronExpr (str "0 9 * * *") = .ok nineOClock ∧
      ¬ ∃ r, nextRunTime .utc nineOClock (30 * minuteNanos) = some r ∧
        IsLeast {x | 30 * minuteNanos < x * minuteNanos ∧ Matches .utc nineOClock x} r := by
  refine ⟨by decide, ?_⟩
  rintro ⟨r, hr, -, hleast⟩
  have hnext : nextRunTime .utc nineOClock (30 * minuteNanos) = some (1440 + 540) := by
    decide
  obtain rfl := Option.some.inj (hr.symm.trans hnext)
  have := hleast (show (540 : ℤ) ∈ _ from ⟨by decide, by decide⟩)
  omega

/-- Clocks that are put forward by an hour at the beginning of the year 1970. -/
def forwardLoc : Location := ⟨fun m => if m < 0 then 60 else 120⟩

/-- From the next year on they show every midnight. -/
theorem civil_midnight_forwardLoc {d : Date} (hd : d.Valid) (hyear : 1971 ≤ d.year) :
    midnight forwardLoc d + forwardLoc.offset (midnight forwardLoc d) = d.dayNumber * 1440 := by
  have hstart : yearStart 1971 = 365 := by decide
  have hle := yearStart_le hyear
  have hday := hd.day_pos
  have hlate : 365 ≤ d.dayNumber := by
    rw [Date.dayNumber]
    omega
  simp only [midnight, Location.date, CivilTime.minuteNumber, forwardLoc]
  split_ifs <;> omega

theorem returnsWithin_nineOClock :
    ¬ forwardLoc.Fixed ∧ ReturnsWithin forwardLoc nineOClock 401 (10 ^ 18) := by
  have hkept : NewYearsKept forwardLoc 1971 := by
    intro year hyear
    have hd : Date.Valid ⟨year, 1, 1⟩ :=
      ⟨Nat.le_refl 1, Nat.le_add_left 1 11, Nat.le_refl 1, daysInMonth_pos year 1⟩
    rw [Location.civil, civil_midnight_forwardLoc hd hyear.le]
    simpa [CivilTime.minuteNumber] using civilOf_minuteNumber (c := ⟨⟨year, 1, 1⟩, 0, 0⟩)
      ⟨hd, Nat.zero_lt_succ _, Nat.zero_lt_succ _⟩
  have hweekday : ∀ d : Date, d.Valid → 1971 ≤ d.year →
      searchWeekday forwardLoc d = dateWeekday d := by
    intro d hd hyear
    rw [searchWeekday, Location.weekday, civil_midnight_forwardLoc hd hyear,
      Int.mul_ediv_cancel _ (by decide), dateWeekday]
  refine ⟨fun hfixed => absurd (hfixed (-1) 0) (by decide), ?_⟩
  refine ((returnsWithin_iff hkept).2 hweekday 401 (le_refl 401) _ (by decide)).mpr ?_
  exact ⟨⟨⟨9, by decide, by decide⟩, 0, by decide, by decide⟩, 1970, 1, 1,
    ⟨by decide, by decide, by decide, by decide⟩, by decide, by decide, by decide⟩

/-- Midnight of the thirtieth of February. -/
def thirtiethOfFebruary : CronSchedule := ⟨[0], [0], [30], [2], (List.range 7).map Nat.cast⟩

/-- The thirtieth of February is looked for in year after year. -/
theorem not_returnsWithin :
    parseCronExpr (str "0 0 30 2 *") = .ok thirtiethOfFebruary ∧
      ∀ years start, ¬ ReturnsWithin .utc thirtiethOfFebruary years start := by
  refine ⟨by decide, fun years start hreturns => ?_⟩
  obtain ⟨fuel, rfl⟩ : ∃ fuel, years = fuel + 1 :=
    Nat.exists_eq_succ_of_ne_zero fun hzero => hreturns (by rw [hzero]; rfl)
  obtain ⟨-, year, -, -, month, day, hdate, hmonth, hday, -⟩ :=
    (yearLoop_ne_none (fun year _ => civil_newYear Location.fixed_utc year) (le_refl _) rfl fuel).1
      hreturns
  have hdays : day ≤ daysInMonth year month := hdate.day_le
  simp only [thirtiethOfFebruary, List.mem_singleton] at hmonth hday
  norm_cast at hmonth hday
  rw [hmonth, hday, daysInMonth] at hdays
  split_ifs at hdays <;> omega

end Scheduler
