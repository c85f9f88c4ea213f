import Mathlib.Tactic.IntervalCases
import UnstableOS.Lib.Calendar

/-! The times of a directory entry: `fat_epoch_to_time`, `fat_time_to_epoch` and the calendar they
rest on, `gmtime_r` and `mktime` of the C library. -/

namespace UnstableOS.Fs.Fat

open Int Lib Calendar

-- The calendar

/-- The fields of `struct tm` that are read here. -/
structure Tm where
  sec : ℤ
  min : ℤ
  hour : ℤ
  mday : ℤ
  mon : ℤ
  year : ℤ
  yday : ℤ

/-- `gmtime_r`. The day and the era are rounded down, as Lean's division does; the other quotients
are of numbers that are not negative. Years begin in March.
-/
def gmtimeR (t : ℤ) : Tm :=
  let sod := t % 86400
  let z := t / 86400 + 719468
  let era := z / 146097
  let doe := z - era * 146097
  let yoe := (doe - doe / 1460 + doe / 36524 - doe / 146096) / 365
  let doy := doe - (365 * yoe + yoe / 4 - yoe / 100)
  let mp := (5 * doy + 2) / 153
  let y := yoe + era * 400 + if mp ≥ 10 then 1 else 0
  let leapAdj := if y % 4 = 0 ∧ y % 100 ≠ 0 ∨ y % 400 = 0 then 1 else 0
  { sec := sod % 60, min := sod / 60 % 60, hour := sod / 3600
    mday := doy - (153 * mp + 2) / 5 + 1
    mon := if mp ≥ 10 then mp - 10 else mp + 2
    year := y - 1900
    yday := if mp ≥ 10 then doy - 306 else doy + 59 + leapAdj }

/-- `year_to_time`: the time at which a year since 1900 begins, and whether it is a leap year. -/
def yearToTime (year : ℤ) : ℤ × Bool :=
  let year := year - 70
  let leaps := (if year < 0 then year - 2 else year + 2).tdiv 4
    - (if year < 0 then year - 30 else year + 70).tdiv 100
    + (if year < 0 then year - 30 else year + 370).tdiv 400
  let isLeap := (year - 2) % 4 = 0 ∧ ((year - 30) % 100 ≠ 0 ∨ (year - 30) % 400 = 0)
  ((year * 365 + if isLeap ∧ year ≥ 0 then leaps - 1 else leaps) * 86400, isLeap)

def daysInMonth : List ℤ := [31, 28, 31, 30, 31, 30, 31, 31, 30, 31, 30, 31]

/-- `date_to_time`. -/
def dateToTime (mon day : ℤ) (isLeap : Bool) : ℤ :=
  if mon > 11 then 0
  else (day + (daysInMonth.take mon.toNat).sum + (if isLeap ∧ mon ≥ 2 then 1 else 0) - 1) * 86400

/-- `mktime`. -/
def mktime (tm : Tm) : ℤ :=
  let (start, isLeap) := yearToTime tm.year
  start + (if tm.yday ≠ 0 then tm.yday * 86400 else dateToTime tm.mon tm.mday isLeap)
    + tm.hour * 3600 + tm.min * 60 + tm.sec

-- The fields of a directory entry

/-- `struct fat_time` and `struct fat_date`. -/
structure FatTime where
  seconds : ℤ
  minutes : ℤ
  hours : ℤ
  day : ℤ
  month : ℤ
  year : ℤ

/-- The days of a year before a month that is counted from 1; the table ends before December. -/
def daysBefore (month : ℤ) : ℤ :=
  let month := if month > 12 then 12 else if month = 0 then 1 else month
  ((daysInMonth.take 11).take (month - 1).toNat).sum

/-- `fat_time_to_epoch`. -/
def timeToEpoch (f : FatTime) : ℤ :=
  mktime
    { year := f.year + 80, hour := f.hours, min := f.minutes, sec := f.seconds * 2, mon := 0,
      mday := 0
      yday := daysBefore f.month + f.day - 1 }

/-- `fat_epoch_to_time`: the fields are cut to their widths. -/
def epochToTime (t : ℤ) : FatTime :=
  let tm := gmtimeR t
  { hours := tm.hour % 2 ^ 5, minutes := tm.min % 2 ^ 6, seconds := tm.sec / 2 % 2 ^ 5
    year := (tm.year - 80) % 2 ^ 7, month := tm.mon % 2 ^ 4, day := tm.mday % 2 ^ 5 }

-- There and back

theorem yearToTime_eq (year : ℤ) : (yearToTime year).1 = yearStart (year + 1900) * 86400 := by
  have (k : ℤ) (pos : 0 < k) (a : ℤ) : a.tdiv k = if 0 ≤ a then a / k else -(-a / k) := by
    split
    · rw [tdiv_eq_ediv_of_nonneg (by omega)]
    · rw [← tdiv_eq_ediv_of_nonneg (by omega), Int.neg_tdiv, neg_neg]
  simp only [yearToTime, yearStart, this 4 (by decide), this 100 (by decide), this 400 (by decide)]
  split <;> split <;> omega

/-- In an era of 400 years the days of a year are counted from 0. -/
theorem doy_range {doe yoe : ℤ} (low : 0 ≤ doe) (high : doe < 146097)
    (year : (doe - doe / 1460 + doe / 36524 - doe / 146096) / 365 = yoe)
    : 0 ≤ doe - (365 * yoe + yoe / 4 - yoe / 100)
      ∧ doe - (365 * yoe + yoe / 4 - yoe / 100) < 365 + leapDay (yoe + 1) := by
  unfold leapDay
  by_cases last : doe = 146096
  · subst last
    split <;> omega
  have century : yoe / 100 = doe / 36524 := by omega
  have short : doe / 146096 = 0 := by omega
  have part : yoe % 4 = 0 ∨ yoe % 4 = 1 ∨ yoe % 4 = 2 ∨ yoe % 4 = 3 := by omega
  split
  · omega
  · rcases part with h | h | h | h <;> omega

theorem yearStart_era {era yoe : ℤ} (low : 0 ≤ yoe) (high : yoe < 400)
    : yearStart (yoe + era * 400 + 1)
        = era * 146097 + (365 * yoe + yoe / 4 - yoe / 100) + 306 - 719468 := by
  unfold yearStart
  omega

theorem leapDay_era (era yoe : ℤ) : leapDay (yoe + era * 400 + 1) = leapDay (yoe + 1) := by
  unfold leapDay
  split <;> split <;> omega

/-- The date and the day of the year that `gmtime_r` computes are those of the calendar. -/
theorem gmtimeR_date (t : ℤ) {tm} (same : gmtimeR t = tm)
    : IsDate (t / 86400) (tm.year + 1900) tm.mon tm.mday
      ∧ tm.yday = t / 86400 - yearStart (tm.year + 1900) := by
  subst same
  simp only [gmtimeR, ← leapDay.eq_1, Int.sub_add_cancel, IsDate]
  generalize t / 86400 = d
  generalize eraEq : (d + 719468) / 146097 = era
  generalize doeEq : d + 719468 - era * 146097 = doe
  generalize yoeEq : (doe - doe / 1460 + doe / 36524 - doe / 146096) / 365 = yoe
  have days := doy_range (by omega) (by omega) yoeEq
  have full : 0 ≤ yoe ∧ yoe < 400 := by omega
  have start := @yearStart_era era yoe full.1 full.2
  rw [← leapDay_era era] at days
  clear eraEq yoeEq
  generalize 365 * yoe + yoe / 4 - yoe / 100 = before at days start ⊢
  generalize doyEq : doe - before = doy at days
  generalize mpEq : (5 * doy + 2) / 153 = mp
  have next := yearStart_next (yoe + era * 400)
  have range := leapDay_range (yoe + era * 400 + 1)
  split
  next winter =>
    obtain rfl | rfl : mp = 10 ∨ mp = 11 := by omega
    all_goals
      simp [months]
      omega
  next spring =>
    obtain ⟨low, high⟩ : 0 ≤ mp ∧ mp < 10 := by omega
    rw [add_zero]
    interval_cases mp <;> simp [months] <;> omega

/-- Read as counted from 1, a month from March on is the one before. -/
theorem date_spec {n year mon day} (date : IsDate n year mon day)
    : mon < 12 ∧ day ≤ 31 ∧ yearStart year ≤ n ∧ n < yearStart (year + 1)
      ∧ (mon = 0 → n - yearStart year = day - 1)
      ∧ (mon ≠ 0 → yearStart year < n ∧ daysBefore mon + day ≤ n - yearStart year) := by
  obtain ⟨low, first, last, rfl⟩ := date
  rw [yearStart_next]
  have range := leapDay_range year
  have high : mon < 12 := by
    by_contra late
    rw [List.getD_eq_getElem?_getD, List.getElem?_eq_none (by simp [months]; omega)] at last
    exact Int.not_le.mpr first last
  interval_cases mon <;> simp [months, daysBefore, daysInMonth] at * <;> omega

variable {t : ℤ}

/-- For every time from 1980 to 2107: it is stored and read again as the even second before it if
and only if it lies in January and not on the first of it. Months are stored counted from 0 and
read as counted from 1, and a day of the year that is 0 counts as none.
-/
theorem timeToEpoch_iff (low : 315532800 ≤ t) (high : t < 4354819200)
    : timeToEpoch (epochToTime t) = t - t % 2 ↔ (gmtimeR t).mon = 0 ∧ (gmtimeR t).mday ≠ 1 := by
  generalize same : gmtimeR t = tm
  obtain ⟨date, yday⟩ := gmtimeR_date t same
  obtain ⟨monLt, dayLe, began, ends, january, month⟩ := date_spec date
  obtain ⟨mon, day, -, -⟩ := date
  have start := yearToTime_eq tm.year
  have year : 80 ≤ tm.year ∧ tm.year < 208 := by
    unfold yearStart at *
    omega
  have clock : tm.hour % 2 ^ 5 * 3600 + tm.min % 2 ^ 6 * 60 + tm.sec / 2 % 2 ^ 5 * 2
      = t - t / 86400 * 86400 - t % 2 := by
    rw [← same]
    simp only [gmtimeR]
    omega
  have yearEq : (tm.year - 80) % 2 ^ 7 + 80 = tm.year := by omega
  have monEq : tm.mon % 2 ^ 4 = tm.mon := by omega
  have dayEq : tm.mday % 2 ^ 5 = tm.mday := by omega
  have before (isLeap) : dateToTime 0 0 isLeap = -86400 := by simp [dateToTime]
  simp only [timeToEpoch, epochToTime, same, mktime, yearEq, monEq, dayEq, before, add_assoc, clock]
  clear clock yearEq monEq dayEq before
  by_cases first : tm.mon = 0
  · have none : daysBefore 0 = 0 := rfl
    rw [first, none]
    split <;> omega
  · split <;> omega

theorem timeToEpoch_january : timeToEpoch (epochToTime 315619200) = 315619200 :=
  (timeToEpoch_iff (by decide) (by decide)).mpr (by decide)

/-- The first of February 1980 comes back as the last day of 1979. -/
theorem february_comes_back : timeToEpoch (epochToTime 318211200) = 315446400 := by
  decide

end UnstableOS.Fs.Fat
