import Aflare.Go.Encoding

/-!
# Times with a zone

A `time.Time` as `encoding/json` sees it: a clock reading, a fraction of a second and the offset of
the zone in seconds. The text has the offset in minutes only, so that a time in a zone with an
offset that is not a number of minutes is read back as another instant.
-/

namespace Go

open List

/-! ## The clock reading -/

/-- The layout of a clock reading, in which `d` stands for a digit. -/
def clockLayout : Str := str "dddd-dd-ddTdd:dd:dd"

/-- A number in a text. -/
def fieldAt (s : Str) (start len : ℕ) : ℕ := digitsValue ((s.drop start).take len)

/-- The fields of a clock reading are in their ranges. -/
def clockInRange (s : Str) : Bool :=
  1 ≤ fieldAt s 5 2 && fieldAt s 5 2 ≤ 12 && 1 ≤ fieldAt s 8 2 &&
    fieldAt s 8 2 ≤ daysIn (fieldAt s 0 4) (fieldAt s 5 2) &&
    fieldAt s 11 2 < 24 && fieldAt s 14 2 < 60 && fieldAt s 17 2 < 60

/-- A clock reading such as `2006-01-02T15:04:05`. -/
def IsClock (clock : Str) : Prop :=
  matchLayout clockLayout clock = some [] ∧ clockInRange clock = true
  deriving Decidable

variable {s : Str}

/-- A text that starts with a layout is a part of the length of the layout, which matches alone,
and the rest. -/
theorem matchLayout_eq_some_iff {layout rest : Str} :
    matchLayout layout s = some rest ↔
      ∃ front, s = front ++ rest ∧ front.length = layout.length ∧
        matchLayout layout front = some [] := by
  induction layout generalizing s with
  | nil => simp [matchLayout, eq_comm]
  | cons l layout ih =>
    cases s with
    | nil => simp [matchLayout]
    | cons b s =>
      simp only [matchLayout]
      constructor
      · intro h
        split_ifs at h with hb
        obtain ⟨front, rfl, hlen, hfront⟩ := ih.mp h
        exact ⟨b :: front, rfl, by simpa using hlen, by simp [matchLayout, hb, hfront]⟩
      · rintro ⟨- | ⟨c, front⟩, hs, hlen, hfront⟩
        · simp at hlen
        obtain ⟨rfl, rfl⟩ := List.cons.inj hs
        simp only [matchLayout] at hfront
        split_ifs at hfront with hb
        rw [if_pos hb]
        exact ih.mpr ⟨front, rfl, by simpa using hlen, hfront⟩

variable {clock : Str}

theorem IsClock.length (h : IsClock clock) : clock.length = 19 := by
  obtain ⟨front, hs, hlen, -⟩ := matchLayout_eq_some_iff.mp h.1
  rw [hs, append_nil, hlen]
  decide

theorem fieldAt_append (rest : Str) {start len : ℕ} (h : start + len ≤ clock.length) :
    fieldAt (clock ++ rest) start len = fieldAt clock start len := by
  rw [fieldAt, fieldAt, drop_append_of_le_length (by omega),
    take_append_of_le_length (by rw [length_drop]; omega)]

/-- A time stamp is a clock reading followed by a zone. -/
theorem isTimestamp_iff :
    isTimestamp s = true ↔
      ∃ clock zone, s = clock ++ zone ∧ IsClock clock ∧ isFractionZone zone = true := by
  -- the ranges are checked in the first 19 bytes, so that they do not depend on the zone
  have hrange : ∀ front rest : Str, front.length = 19 →
      clockInRange (front ++ rest) = clockInRange front := by
    intro front rest hlen
    have hfield : ∀ {start len : ℕ}, start + len ≤ 19 →
        fieldAt (front ++ rest) start len = fieldAt front start len := fun h =>
      fieldAt_append rest (by omega)
    simp only [clockInRange]
    rw [hfield (by omega), hfield (by omega), hfield (by omega), hfield (by omega),
      hfield (by omega), hfield (by omega)]
  have hlayout : clockLayout.length = 19 := by decide
  constructor
  · intro h
    simp only [isTimestamp] at h
    split at h
    · cases h
    · rename_i zone hmatch
      obtain ⟨front, rfl, hlen, hfront⟩ := matchLayout_eq_some_iff.mp hmatch
      rw [Bool.and_eq_true] at h
      refine ⟨front, zone, rfl, ⟨hfront, ?_⟩, h.2⟩
      rw [← hrange front zone (hlen.trans hlayout)]
      exact h.1
  · rintro ⟨clock, zone, rfl, hclock, hzone⟩
    have hmatch : matchLayout clockLayout (clock ++ zone) = some zone :=
      matchLayout_eq_some_iff.mpr ⟨clock, rfl, hclock.length.trans hlayout.symm, hclock.1⟩
    have hfields := hclock.2
    rw [← hrange clock zone hclock.length] at hfields
    rw [clockLayout] at hmatch
    simp only [isTimestamp, hmatch, Bool.and_eq_true]
    simp only [clockInRange, fieldAt, Bool.and_eq_true] at hfields
    exact ⟨hfields, hzone⟩

/-! ## Fraction and zone -/

def twoDigits (n : ℕ) : Str := [48 + UInt8.ofNat (n / 10), 48 + UInt8.ofNat (n % 10)]

theorem digitsValue_twoDigits : ∀ n < 100, digitsValue (twoDigits n) = n := by decide

theorem isDigit_twoDigits : ∀ n < 100, isDigit (48 + UInt8.ofNat (n / 10)) = true ∧
    isDigit (48 + UInt8.ofNat (n % 10)) = true := by
  decide

/-- The digits of a fraction of a second as they are written: at most nine, and no zero at the
end. -/
def IsFraction (frac : Str) : Prop :=
  frac.length ≤ 9 ∧ (∀ b ∈ frac, isDigit b = true) ∧ frac.getLast? ≠ some 48
  deriving Decidable

/-- The fraction of a second that any number of digits denotes. -/
def trimFraction (digits : Str) : Str := (digits.take 9).rdropWhile (· = 48)

theorem isFraction_trimFraction {digits : Str} (h : ∀ b ∈ digits, isDigit b = true) :
    IsFraction (trimFraction digits) := by
  have hpre : trimFraction digits <+: digits.take 9 := rdropWhile_prefix _ _
  refine ⟨hpre.length_le.trans (by simp), fun b hb => ?_, fun hlast => ?_⟩
  · exact h b (mem_of_mem_take (hpre.subset hb))
  · have hne : trimFraction digits ≠ [] := fun hnil => by simp [hnil] at hlast
    have hkept := rdropWhile_last_not (fun b : UInt8 => b = 48) (digits.take 9) hne
    rw [getLast?_eq_getLast_of_ne_nil hne, Option.some_inj] at hlast
    simp only [decide_eq_true_eq] at hkept
    exact hkept hlast

variable {frac : Str}

theorem IsFraction.trimFraction_eq (h : IsFraction frac) : trimFraction frac = frac := by
  rw [trimFraction, take_of_length_le h.1, rdropWhile_eq_self_iff]
  intro hne hlast
  have hlast : frac.getLast hne = 48 := by simpa using hlast
  exact h.2.2 (by rw [getLast?_eq_getLast_of_ne_nil hne, hlast])

/-- The text of a fraction of a second. -/
def fractionText (frac : Str) : Str := if frac = [] then [] else 46 :: frac

/-- The text of an offset of some hours and minutes. -/
def offsetText (negative : Bool) (hours minutes : ℕ) : Str :=
  (if negative then 45 else 43) :: (twoDigits hours ++ 58 :: twoDigits minutes)

/-- The text of a zone, `Z` or an offset in minutes. -/
def zoneText (offset : ℤ) : Str :=
  if offset = 0 then [90]
  else
    let zone := offset.tdiv 60
    offsetText (zone < 0) (zone.natAbs / 60) (zone.natAbs % 60)

/-- The offset of a zone in a text, in seconds. -/
def zoneOffset (zone : Str) : ℤ :=
  if zone = [90] then 0
  else
    let minutes : ℕ := fieldAt zone 1 2 * 60 + fieldAt zone 4 2
    if zone.head? = some 45 then -60 * minutes else 60 * minutes

variable {hours minutes : ℕ} (negative : Bool)

theorem isZone_offsetText (hh : hours < 24)
    (hm : minutes < 60) : isZone (offsetText negative hours minutes) = true := by
  have hhours := digitsValue_twoDigits hours (by omega)
  have hminutes := digitsValue_twoDigits minutes (by omega)
  obtain ⟨hd₁, hd₂⟩ := isDigit_twoDigits hours (by omega)
  obtain ⟨hd₃, hd₄⟩ := isDigit_twoDigits minutes (by omega)
  simp only [twoDigits] at hhours hminutes
  cases negative <;>
    simp [isZone, offsetText, twoDigits, str, matchLayout, fits, String.utf8EncodeChar, hd₁, hd₂,
      hd₃, hd₄, hhours, hminutes, hh, hm]

theorem zoneOffset_offsetText (hh : hours < 24) (hm : minutes < 60) :
    zoneOffset (offsetText negative hours minutes) =
      if negative then -60 * ((hours * 60 + minutes : ℕ) : ℤ)
      else 60 * ((hours * 60 + minutes : ℕ) : ℤ) := by
  have hhours : fieldAt (offsetText negative hours minutes) 1 2 = hours :=
    digitsValue_twoDigits hours (by omega)
  have hminutes : fieldAt (offsetText negative hours minutes) 4 2 = minutes :=
    digitsValue_twoDigits minutes (by omega)
  have hne : offsetText negative hours minutes ≠ [90] := by simp [offsetText, twoDigits]
  simp only [zoneOffset, if_neg hne, hhours, hminutes]
  cases negative <;> simp [offsetText]

variable {offset : ℤ}

private theorem natAbs_minutes (offset : ℤ) : (offset.tdiv 60).natAbs = offset.natAbs / 60 :=
  Int.natAbs_tdiv offset 60

private theorem minutes_lt (h : offset.natAbs < 86400) :
    (offset.tdiv 60).natAbs / 60 < 24 ∧ (offset.tdiv 60).natAbs % 60 < 60 := by
  rw [natAbs_minutes]
  omega

theorem isZone_zoneText (h : offset.natAbs < 86400) : isZone (zoneText offset) = true := by
  obtain ⟨hhours, hminutes⟩ := minutes_lt h
  simp only [zoneText]
  split
  · decide
  · exact isZone_offsetText _ hhours hminutes

theorem zoneOffset_zoneText (h : offset.natAbs < 86400) :
    zoneOffset (zoneText offset) = 60 * offset.tdiv 60 := by
  obtain ⟨hhours, hminutes⟩ := minutes_lt h
  simp only [zoneText]
  split
  · rename_i hzero
    subst hzero
    rfl
  · rw [zoneOffset_offsetText _ hhours hminutes, Nat.div_add_mod']
    by_cases hneg : offset.tdiv 60 < 0
    · simp only [hneg, decide_true, if_true]
      omega
    · simp only [hneg, decide_false, Bool.false_eq_true, if_false]
      omega

/-- The fraction digits and the zone of what follows a clock reading. -/
def splitZone : Str → Str × Str
  | [] => ([], [])
  | b :: s => if b = 46 then (s.takeWhile isDigit, s.dropWhile isDigit) else ([], b :: s)

theorem zoneText_eq_cons (offset : ℤ) :
    ∃ b zone, zoneText offset = b :: zone ∧ b ≠ 46 ∧ isDigit b = false := by
  simp only [zoneText, offsetText]
  split
  · exact ⟨90, [], rfl, by decide, by decide⟩
  · split
    · exact ⟨45, _, rfl, by decide, by decide⟩
    · exact ⟨43, _, rfl, by decide, by decide⟩

theorem splitZone_text (hfrac : ∀ b ∈ frac, isDigit b = true) (offset : ℤ) :
    splitZone (fractionText frac ++ zoneText offset) = (frac, zoneText offset) := by
  obtain ⟨b, zone, hzone, hdot, hdigit⟩ := zoneText_eq_cons offset
  rw [hzone]
  by_cases hnil : frac = []
  · simp [hnil, fractionText, splitZone, hdot]
  · simp only [fractionText, if_neg hnil, cons_append, splitZone, if_true]
    rw [takeWhile_append_of_pos hfrac, dropWhile_append_of_pos hfrac]
    simp [hdigit]

theorem isFractionZone_text (hfrac : ∀ b ∈ frac, isDigit b = true)
    (h : offset.natAbs < 86400) : isFractionZone (fractionText frac ++ zoneText offset) = true := by
  have hzone := isZone_zoneText h
  obtain ⟨b, zone, heq, hdot, hdigit⟩ := zoneText_eq_cons offset
  rw [heq] at hzone ⊢
  by_cases hnil : frac = []
  · simp [hnil, fractionText, isFractionZone, hdot, hzone]
  · simp only [fractionText, if_neg hnil, cons_append, isFractionZone, if_true]
    rw [takeWhile_append_of_pos hfrac, dropWhile_append_of_pos hfrac]
    simp [hdigit, hnil, hzone]

theorem splitZone_digits (zone : Str) : ∀ b ∈ (splitZone zone).1, isDigit b = true := by
  intro b hb
  cases zone with
  | nil => cases hb
  | cons c zone =>
    simp only [splitZone] at hb
    split at hb
    · exact mem_takeWhile_imp hb
    · cases hb

/-! ## Times -/

/-- A `time.Time` that `Marshal` accepts: its year has four digits and its zone is less than a day
off. -/
structure ZonedTime where
  clock : Str
  frac : Str
  offset : ℤ
  isClock : IsClock clock
  isFraction : IsFraction frac
  offset_lt : offset.natAbs < 86400
  deriving DecidableEq

variable {t : ZonedTime}

namespace ZonedTime

def zero : ZonedTime where
  clock := str "0001-01-01T00:00:00"
  frac := []
  offset := 0
  isClock := by decide
  isFraction := ⟨by simp, by simp, by simp⟩
  offset_lt := by simp

instance : Inhabited ZonedTime := ⟨zero⟩

def text (t : ZonedTime) : Str := t.clock ++ (fractionText t.frac ++ zoneText t.offset)

theorem isTimestamp_text (t : ZonedTime) : isTimestamp t.text = true :=
  isTimestamp_iff.mpr ⟨t.clock, _, rfl, t.isClock, isFractionZone_text t.isFraction.2.1 t.offset_lt⟩

theorem validUtf8 (t : ZonedTime) : ValidUtf8 t.text := Time.validUtf8 ⟨t.text, t.isTimestamp_text⟩

@[simp] theorem coerce_text (t : ZonedTime) : coerce t.text = t.text := t.validUtf8.coerce_eq

/-- The days from the first of January of the year 1 to a date. -/
def days (year month day : ℕ) : ℤ :=
  let y : ℤ := year - 1
  365 * y + y / 4 - y / 100 + y / 400 +
    ((List.range (month - 1)).map fun m => (daysIn year (m + 1) : ℤ)).sum + (day - 1)

/-- The seconds of a clock reading since the first of January of the year 1970. -/
def clockSeconds (clock : Str) : ℤ :=
  (days (fieldAt clock 0 4) (fieldAt clock 5 2) (fieldAt clock 8 2) - 719162) * 86400 +
    fieldAt clock 11 2 * 3600 + fieldAt clock 14 2 * 60 + fieldAt clock 17 2

/-- The nanoseconds of the digits of a fraction of a second. -/
def nanoseconds (frac : Str) : ℕ := digitsValue (frac ++ List.replicate (9 - frac.length) 48)

/-- The instant in nanoseconds since the first of January of the year 1970. -/
def instant (t : ZonedTime) : ℤ :=
  (clockSeconds t.clock - t.offset) * 1000000000 + nanoseconds t.frac

/-- `Time.UnixNano`: 64 bits reach from the year 1678 to the year 2262, other instants wrap around.
-/
def unixNano (t : ZonedTime) : ℤ := wrapInt64 t.instant

def isZero (t : ZonedTime) : Bool := t.instant = zero.instant

/-- The time with the offset of its zone in minutes. -/
def wholeMinutes (t : ZonedTime) : ZonedTime :=
  { t with
    offset := 60 * t.offset.tdiv 60
    offset_lt := by
      have hdiv : (t.offset.tdiv 60).natAbs = t.offset.natAbs / 60 := Int.natAbs_tdiv t.offset 60
      have hlt := t.offset_lt
      rw [Int.natAbs_mul, hdiv, show Int.natAbs 60 = 60 from rfl]
      omega }

/-- The offset of the zone is a number of minutes. -/
def WholeMinutes (t : ZonedTime) : Prop := t.offset % 60 = 0
  deriving Decidable

theorem wholeMinutes_eq_self_iff : t.wholeMinutes = t ↔ t.WholeMinutes := by
  have hmod : 60 * t.offset.tdiv 60 = t.offset ↔ t.offset % 60 = 0 := by
    constructor
    · intro h
      rw [← h, Int.mul_emod_right]
    · intro h
      exact Int.mul_tdiv_cancel' (Int.dvd_of_emod_eq_zero h)
  rw [WholeMinutes, ← hmod]
  constructor
  · intro h
    exact congrArg offset h
  · intro h
    cases t
    simpa [wholeMinutes] using h

/-- The zone is UTC or at least a minute off. In another zone the offset is written as `+00:00`,
and after a round trip as `Z`. -/
def KeepsText (t : ZonedTime) : Prop := t.offset = 0 ∨ 60 ≤ t.offset.natAbs
  deriving Decidable

theorem KeepsText.text_wholeMinutes (h : t.KeepsText) : t.wholeMinutes.text = t.text := by
  have hzone : zoneText (60 * t.offset.tdiv 60) = zoneText t.offset := by
    rcases h with h | h
    · simp [h]
    · have hne : t.offset ≠ 0 := by
        intro h0
        simp [h0] at h
      have hne' : 60 * t.offset.tdiv 60 ≠ 0 := by
        have hdiv := natAbs_minutes t.offset
        omega
      simp only [zoneText, if_neg hne, if_neg hne',
        Int.mul_tdiv_cancel_left _ (by decide : (60 : ℤ) ≠ 0)]
  simp only [text, wholeMinutes, hzone]

/-- The text in a zone that is less than a minute off ends in another way after a round trip. -/
theorem text_of_not_keepsText (h : ¬ t.KeepsText) :
    ∃ front, ValidUtf8 front ∧ t.text = front ++ str "+00:00" ∧
      t.wholeMinutes.text = front ++ str "Z" := by
  have hascii := Time.ascii ⟨t.text, t.isTimestamp_text⟩
  simp only [KeepsText, not_or, not_le] at h
  have hdiv : t.offset.tdiv 60 = 0 := by
    have hdiv := natAbs_minutes t.offset
    omega
  have hzone : zoneText t.offset = str "+00:00" := by
    simp only [zoneText, if_neg h.1, hdiv]
    decide
  have hround : zoneText (60 * t.offset.tdiv 60) = str "Z" := by
    rw [hdiv]
    decide
  refine ⟨t.clock ++ fractionText t.frac, ?_, ?_, ?_⟩
  · apply validUtf8_of_ascii
    intro b hb
    have hmem : b ∈ t.text := by
      rw [text, ← append_assoc]
      exact mem_append_left _ hb
    exact hascii b hmem
  · simp only [text, hzone, append_assoc]
  · simp only [text, wholeMinutes, hround, append_assoc]

end ZonedTime

theorem isClock_take (h : isTimestamp s = true) : IsClock (s.take 19) := by
  obtain ⟨clock, zone, rfl, hclock, -⟩ := isTimestamp_iff.mp h
  rw [take_left' hclock.length]
  exact hclock

private theorem zoneOffset_lt {zone : Str} (h : isZone zone = true) :
    (zoneOffset zone).natAbs < 86400 := by
  simp only [isZone, Bool.or_eq_true, Bool.and_eq_true, decide_eq_true_eq] at h
  simp only [zoneOffset]
  split
  · decide
  · rename_i hne
    rcases h with hutc | ⟨⟨-, hhours⟩, hminutes⟩
    · exact absurd hutc hne
    · change fieldAt zone 1 2 < 24 at hhours
      change fieldAt zone 4 2 < 60 at hminutes
      split <;> omega

theorem zoneOffset_splitZone_lt (h : isTimestamp s = true) :
    (zoneOffset (splitZone (s.drop 19)).2).natAbs < 86400 := by
  obtain ⟨clock, zone, rfl, hclock, hzone⟩ := isTimestamp_iff.mp h
  rw [drop_left' hclock.length]
  apply zoneOffset_lt
  cases zone with
  | nil => cases hzone
  | cons b zone =>
    simp only [isFractionZone] at hzone
    simp only [splitZone]
    split at hzone
    · rename_i hb
      rw [if_pos hb]
      exact (Bool.and_eq_true _ _ ▸ hzone).2
    · rename_i hb
      rw [if_neg hb]
      exact hzone

/-- The time of an RFC 3339 text. -/
def parseTime (s : Str) : Option ZonedTime :=
  if h : isTimestamp s = true then
    some
      { clock := s.take 19
        frac := trimFraction (splitZone (s.drop 19)).1
        offset := zoneOffset (splitZone (s.drop 19)).2
        isClock := isClock_take h
        isFraction := isFraction_trimFraction (splitZone_digits _)
        offset_lt := zoneOffset_splitZone_lt h }
  else none

theorem parseTime_text (t : ZonedTime) : parseTime t.text = some t.wholeMinutes := by
  have hdrop : t.text.drop 19 = fractionText t.frac ++ zoneText t.offset :=
    drop_left' t.isClock.length
  have htake : t.text.take 19 = t.clock := take_left' t.isClock.length
  have hsplit := splitZone_text t.isFraction.2.1 t.offset
  simp only [parseTime, t.isTimestamp_text, dif_pos, hdrop, htake, hsplit,
    t.isFraction.trimFraction_eq, zoneOffset_zoneText t.offset_lt, ZonedTime.wholeMinutes]

/-- Decode into a `time.Time`. -/
def decodeZonedTime (cur : ZonedTime) : Value → Option ZonedTime
  | .null => some cur
  | .str s => parseTime s
  | _ => none

theorem decodeZonedTime_coerce (cur t : ZonedTime) :
    decodeZonedTime cur (Value.str t.text).coerce = some t.wholeMinutes := by
  rw [Value.coerce, ZonedTime.coerce_text]
  exact parseTime_text t

end Go
