import Mathlib.Tactic.IntervalCases

/-!
# The calendar

Days are counted from the first of January 1970, and minutes from the midnight at which it began.
A location is given by the offset of its clocks at every minute; it may change.
-/

namespace Go

/-! ## Years and months -/

def isLeap (year : ℤ) : Bool := year % 4 = 0 && (year % 100 ≠ 0 || year % 400 = 0)

/-- The days of a month. -/
def daysInMonth (year : ℤ) (month : ℕ) : ℕ :=
  if month = 2 then if isLeap year then 29 else 28
  else if month = 4 ∨ month = 6 ∨ month = 9 ∨ month = 11 then 30
  else 31

/-- The day on which a year begins. -/
def yearStart (year : ℤ) : ℤ :=
  365 * (year - 1) + (year - 1) / 4 - (year - 1) / 100 + (year - 1) / 400 - 719162

/-- The days of a year before a month. -/
def monthStart (year : ℤ) : ℕ → ℕ
  | 0 => 0
  | 1 => 0
  | month + 2 => monthStart year (month + 1) + daysInMonth year (month + 1)

variable (year : ℤ)

theorem daysInMonth_pos (month : ℕ) : 0 < daysInMonth year month := by
  rw [daysInMonth]
  split_ifs <;> omega

theorem monthStart_succ {month : ℕ} (h : 1 ≤ month) :
    monthStart year (month + 1) = monthStart year month + daysInMonth year month := by
  obtain ⟨month, rfl⟩ := Nat.exists_eq_add_of_le' h
  rfl

theorem monthStart_le {month later : ℕ} (h : month ≤ later) :
    monthStart year month ≤ monthStart year later := by
  induction later, h using Nat.le_induction with
  | base => exact Nat.le_refl _
  | succ later _ ih =>
    cases later with
    | zero => exact ih
    | succ later =>
      rw [monthStart]
      omega

theorem monthStart_thirteen : (monthStart year 13 : ℤ) = yearStart (year + 1) - yearStart year := by
  have hleap : isLeap year = true ↔ year % 4 = 0 ∧ (year % 100 ≠ 0 ∨ year % 400 = 0) := by
    simp [isLeap]
  simp only [monthStart, daysInMonth, yearStart]
  norm_num
  split_ifs with h
  · rw [hleap] at h
    omega
  · rw [hleap] at h
    omega

/-- The year of a day: the mean length of a year gives it up to one. -/
def yearOf (n : ℤ) : ℤ :=
  let y := (n + 719162) * 400 / 146097 + 1
  if yearStart (y + 1) ≤ n then y + 1 else if yearStart y ≤ n then y else y - 1

variable (n : ℤ)

theorem yearOf_spec : yearStart (yearOf n) ≤ n ∧ n < yearStart (yearOf n + 1) := by
  simp only [yearOf]
  split_ifs with hnext hthis
  · refine ⟨hnext, ?_⟩
    simp only [yearStart] at hnext ⊢
    omega
  · exact ⟨hthis, by omega⟩
  · refine ⟨?_, by simpa using hthis⟩
    simp only [yearStart] at hthis ⊢
    omega

/-! The calendar repeats after 400 years, and the weekdays with it. -/

theorem yearStart_add_era : yearStart (year + 400) = yearStart year + 146097 := by
  simp only [yearStart]
  omega

theorem daysInMonth_add_era (month : ℕ) :
    daysInMonth (year + 400) month = daysInMonth year month := by
  grind [isLeap, daysInMonth]

theorem monthStart_add_era (month : ℕ) : monthStart (year + 400) month = monthStart year month := by
  induction month with
  | zero => rfl
  | succ month ih =>
    cases month with
    | zero => rfl
    | succ month => rw [monthStart, monthStart, ih, daysInMonth_add_era]

theorem yearStart_le {year later : ℤ} (h : year ≤ later) : yearStart year ≤ yearStart later := by
  simp only [yearStart]
  omega

/-! ## Dates -/

structure Date where
  year : ℤ
  month : ℕ
  day : ℕ
  deriving DecidableEq

namespace Date

/-- The date is one of the calendar. -/
structure Valid (d : Date) : Prop where
  month_pos : 1 ≤ d.month
  month_le : d.month ≤ 12
  day_pos : 1 ≤ d.day
  day_le : d.day ≤ daysInMonth d.year d.month

/-- The number of a day. -/
def dayNumber (d : Date) : ℤ := yearStart d.year + monthStart d.year d.month + (d.day - 1)

variable {d e : Date}

theorem Valid.dayNumber_lt_month (h : d.Valid) :
    yearStart d.year + monthStart d.year d.month ≤ d.dayNumber ∧
      d.dayNumber < yearStart d.year + monthStart d.year (d.month + 1) := by
  obtain ⟨hpos, -, hday, hle⟩ := h
  rw [monthStart_succ d.year hpos, dayNumber]
  push_cast
  omega

theorem Valid.dayNumber_lt_year (h : d.Valid) :
    yearStart d.year ≤ d.dayNumber ∧ d.dayNumber < yearStart (d.year + 1) := by
  have hmonth := h.dayNumber_lt_month
  have hyear := monthStart_thirteen d.year
  have hle : monthStart d.year (d.month + 1) ≤ monthStart d.year 13 :=
    monthStart_le d.year (Nat.succ_le_succ h.month_le)
  omega

/-- Different dates are different days. -/
theorem Valid.eq_of_dayNumber_eq (hd : d.Valid) (he : e.Valid) (h : d.dayNumber = e.dayNumber) :
    d = e := by
  have hyear : d.year = e.year := by
    have hdy := hd.dayNumber_lt_year
    have hey := he.dayNumber_lt_year
    rcases lt_trichotomy d.year e.year with hlt | heq | hlt
    · have hle := yearStart_le (Int.add_one_le_of_lt hlt)
      omega
    · exact heq
    · have hle := yearStart_le (Int.add_one_le_of_lt hlt)
      omega
  have hmonth : d.month = e.month := by
    have hdm := hd.dayNumber_lt_month
    have hem := he.dayNumber_lt_month
    rw [hyear] at hdm
    rcases Nat.lt_trichotomy d.month e.month with hlt | heq | hlt
    · have hle : monthStart e.year (d.month + 1) ≤ monthStart e.year e.month :=
        monthStart_le e.year hlt
      omega
    · exact heq
    · have hle : monthStart e.year (e.month + 1) ≤ monthStart e.year d.month :=
        monthStart_le e.year hlt
      omega
  have hday : d.day = e.day := by
    have hdpos := hd.day_pos
    have hepos := he.day_pos
    rw [dayNumber, dayNumber, hyear, hmonth] at h
    omega
  cases d
  cases e
  simp_all

end Date

/-- The month and the day of the month, for a day that is so many days after the first of a month,
or after that of one of the next months. -/
def monthDay (year : ℤ) : ℕ → ℕ → ℕ → ℕ × ℕ
  | 0, month, rest => (month, rest + 1)
  | fuel + 1, month, rest =>
    if rest < daysInMonth year month then (month, rest + 1)
    else monthDay year fuel (month + 1) (rest - daysInMonth year month)

/-- The date of a day. -/
def dateOf (n : ℤ) : Date :=
  let year := yearOf n
  let md := monthDay year 11 1 (n - yearStart year).toNat
  ⟨year, md.1, md.2⟩

/-- The months before a day of the year are taken off one by one. -/
theorem monthDay_spec (fuel month rest : ℕ) (hmonth : 1 ≤ month)
    (hfuel : month + fuel = 12) (hrest : monthStart year month + rest < monthStart year 13) :
    Date.Valid ⟨year, (monthDay year fuel month rest).1, (monthDay year fuel month rest).2⟩ ∧
      monthStart year (monthDay year fuel month rest).1 + (monthDay year fuel month rest).2 =
        monthStart year month + rest + 1 := by
  induction fuel generalizing month rest with
  | zero =>
    obtain rfl : month = 12 := by omega
    rw [monthStart_succ year hmonth] at hrest
    refine ⟨⟨hmonth, Nat.le_refl 12, ?_, ?_⟩, by simp only [monthDay]; omega⟩
    · simp only [monthDay]
      omega
    · simp only [monthDay]
      omega
  | succ fuel ih =>
    rw [monthDay]
    split_ifs with hlt
    · refine ⟨⟨hmonth, by simp only; omega, ?_, ?_⟩, by simp only; omega⟩
      · simp only
        omega
      · simp only
        omega
    · have hsucc := monthStart_succ year hmonth
      have hnext := ih (month + 1) (rest - daysInMonth year month) (by omega) (by omega) (by omega)
      refine ⟨hnext.1, ?_⟩
      rw [hnext.2]
      omega

theorem valid_dateOf_and : (dateOf n).Valid ∧ (dateOf n).dayNumber = n := by
  obtain ⟨hle, hlt⟩ := yearOf_spec n
  have hthirteen := monthStart_thirteen (yearOf n)
  have hspec := monthDay_spec (yearOf n) 11 1 (n - yearStart (yearOf n)).toNat (Nat.le_refl 1) rfl
    (by simp only [monthStart] at hthirteen ⊢; omega)
  refine ⟨hspec.1, ?_⟩
  have hstart : monthStart (yearOf n) 1 = 0 := rfl
  simp only [Date.dayNumber, dateOf]
  omega

theorem valid_dateOf : (dateOf n).Valid := (valid_dateOf_and n).1

@[simp] theorem dayNumber_dateOf : (dateOf n).dayNumber = n := (valid_dateOf_and n).2

theorem dateOf_dayNumber {d : Date} (h : d.Valid) : dateOf d.dayNumber = d :=
  (valid_dateOf _).eq_of_dayNumber_eq h (dayNumber_dateOf _)

/-- The day of the week, from Sunday. -/
def weekday (n : ℤ) : ℕ := ((n + 4) % 7).toNat

theorem weekday_add_era : weekday (n + 146097) = weekday n := by
  simp only [weekday]
  omega

/-! ## Times of day -/

/-- A date and a time of day. -/
structure CivilTime where
  date : Date
  hour : ℕ
  minute : ℕ
  deriving DecidableEq

/-- A date and a time of day that clocks show. -/
structure CivilTime.Valid (c : CivilTime) : Prop where
  date : c.date.Valid
  hour : c.hour < 24
  minute : c.minute < 60

/-- The minutes up to a date and a time of day. -/
def CivilTime.minuteNumber (c : CivilTime) : ℤ := c.date.dayNumber * 1440 + c.hour * 60 + c.minute

/-- The date and the time of day of a minute. -/
def civilOf (m : ℤ) : CivilTime where
  date := dateOf (m / 1440)
  hour := (m % 1440 / 60).toNat
  minute := (m % 60).toNat

variable {c : CivilTime}

theorem civilOf_minuteNumber (h : c.Valid) : civilOf c.minuteNumber = c := by
  obtain ⟨hdate, hhour, hminute⟩ := h
  have hday : c.minuteNumber / 1440 = c.date.dayNumber := by
    rw [CivilTime.minuteNumber]
    omega
  have hh : (c.minuteNumber % 1440 / 60).toNat = c.hour := by
    rw [CivilTime.minuteNumber]
    omega
  have hm : (c.minuteNumber % 60).toNat = c.minute := by
    rw [CivilTime.minuteNumber]
    omega
  simp only [civilOf, hday, hh, hm, dateOf_dayNumber hdate]

theorem valid_civilOf (m : ℤ) : (civilOf m).Valid where
  date := valid_dateOf _
  hour := by
    simp only [civilOf]
    omega
  minute := by
    simp only [civilOf]
    omega

@[simp] theorem minuteNumber_civilOf (m : ℤ) : (civilOf m).minuteNumber = m := by
  simp only [CivilTime.minuteNumber, civilOf, dayNumber_dateOf]
  omega

/-! ## Locations -/

/-- A place, by what its clocks are ahead of UTC at every minute, in minutes. -/
structure Location where
  offset : ℤ → ℤ

namespace Location

variable (loc : Location)

def utc : Location := ⟨fun _ => 0⟩

/-- What the clocks show at a minute. -/
def civil (m : ℤ) : CivilTime := civilOf (m + loc.offset m)

/-- `time.Date`: the offset is looked up at the minute that the offset found at first leads to. -/
def date (c : CivilTime) : ℤ :=
  c.minuteNumber - loc.offset (c.minuteNumber - loc.offset c.minuteNumber)

def weekday (m : ℤ) : ℕ := Go.weekday ((m + loc.offset m) / 1440)

/-- The clocks are never changed. -/
def Fixed : Prop := ∀ m m', loc.offset m = loc.offset m'

theorem fixed_utc : utc.Fixed := fun _ _ => rfl

variable {loc} (hfixed : loc.Fixed)

include hfixed

theorem date_eq (c : CivilTime) : loc.date c = c.minuteNumber - loc.offset 0 := by
  rw [date, hfixed _ 0]

theorem civil_eq (m : ℤ) : loc.civil m = civilOf (m + loc.offset 0) := by
  rw [civil, hfixed m 0]

theorem civil_date (h : c.Valid) : loc.civil (loc.date c) = c := by
  rw [civil_eq hfixed, date_eq hfixed, sub_add_cancel, civilOf_minuteNumber h]

theorem date_civil (m : ℤ) : loc.date (loc.civil m) = m := by
  rw [civil_eq hfixed, date_eq hfixed, minuteNumber_civilOf, add_sub_cancel_right]

end Location

end Go
