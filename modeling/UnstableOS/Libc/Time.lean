import UnstableOS.Fs.Fat.Time

/-! `gmtime_r`, `mktime` (`time.c`) and the weeks of `strftime.c` against the calendar. Most of
`gmtime_r` and all of `mktime` is modelled with the FAT driver, which uses them too. Years have no
bound here; `tm_year` is an `int`.
-/

namespace UnstableOS.Libc.Time

open Int Lib Calendar Fs.Fat

/-- `struct tm` with the day of the week. -/
structure Tm extends Fs.Fat.Tm where
  wday : ℤ

/-- All of `gmtime_r`. -/
def gmtimeR (t : ℤ) : Tm :=
  let wday := (t / 86400 + 4).tmod 7
  { Fs.Fat.gmtimeR t with wday := if wday < 0 then wday + 7 else wday }

/-- The day of the week, counted from Sunday. The first of January 1970 is a Thursday. -/
def weekday (n : ℤ) : ℤ := (n + 4) % 7

theorem gmtimeR_wday (t : ℤ) : (gmtimeR t).wday = weekday (t / 86400) := by
  simp only [gmtimeR, weekday, tmod_eq_emod]
  split <;> split <;> omega

/-- The fields of `gmtime_r` are the date, the day of the year and of the week and the time of day,
and `mktime` gives the time back.
-/
theorem gmtimeR_correct (t : ℤ)
    : IsDate (t / 86400) ((gmtimeR t).year + 1900) (gmtimeR t).mon (gmtimeR t).mday
      ∧ (gmtimeR t).yday = t / 86400 - yearStart ((gmtimeR t).year + 1900)
      ∧ (gmtimeR t).wday = weekday (t / 86400)
      ∧ t % 86400 = (gmtimeR t).hour * 3600 + (gmtimeR t).min * 60 + (gmtimeR t).sec
      ∧ 0 ≤ (gmtimeR t).min ∧ (gmtimeR t).min < 60 ∧ 0 ≤ (gmtimeR t).sec ∧ (gmtimeR t).sec < 60
      ∧ mktime (gmtimeR t).toTm = t := by
  have wday := gmtimeR_wday t
  generalize same : gmtimeR t = tm at *
  obtain ⟨date, yday⟩ : IsDate (t / 86400) (tm.year + 1900) tm.mon tm.mday
      ∧ tm.yday = t / 86400 - yearStart (tm.year + 1900) := gmtimeR_date t (same ▸ rfl)
  have clock : t % 86400 = tm.hour * 3600 + tm.min * 60 + tm.sec
      ∧ 0 ≤ tm.min ∧ tm.min < 60 ∧ 0 ≤ tm.sec ∧ tm.sec < 60 := by
    simp only [← same, gmtimeR, Fs.Fat.gmtimeR]
    omega
  obtain ⟨sod, min, minLt, sec, secLt⟩ := clock
  refine ⟨date, yday, wday, sod, min, minLt, sec, secLt, ?_⟩
  obtain ⟨-, -, -, -, january, later⟩ := date_spec date
  have start := yearToTime_eq tm.year
  simp only [mktime]
  split
  · omega
  next first =>
    have mon : tm.mon = 0 := by
      by_contra other
      have := later other
      omega
    have midnight (isLeap) : dateToTime 0 1 isLeap = 0 := by simp [dateToTime]
    rw [mon, show tm.mday = 1 by omega, midnight]
    omega

-- Weeks

/-- `is_leap_year`. -/
def isLeapYear (year : ℤ) : Bool :=
  (year + 1900) % 4 = 0 ∧ ((year + 1900) % 100 ≠ 0 ∨ (year + 1900) % 400 = 0)

/-- `week_of_iso_year`. Here Monday is day 0. -/
def weekOfIsoYear (tm : Tm) : ℤ :=
  let jan1 := (tm.wday + 6 + 365 - tm.yday - 1).tmod 7
  let week := (tm.yday + jan1).tdiv 7 + if jan1 ≤ 3 then 1 else 0
  if week = 0 then
    let dec31 := (jan1 - 1).tmod 7
    if dec31 = 3 ∨ dec31 = 4 ∧ isLeapYear (tm.year.tmod 400 - 1) then 53 else 52
  else if week = 53 ∧ jan1 ≠ 3 ∧ (jan1 ≠ 2 ∨ ¬ isLeapYear tm.year) then 1
  else week

/-- The year that `strftime` selects for `%G`. -/
def isoYear (tm : Tm) : ℤ :=
  let temp := tm.year + 1900
  let temp :=
    if tm.yday < 3 ∧ weekOfIsoYear tm ≠ 1 then temp - 1
    else if tm.yday > 360 ∧ weekOfIsoYear tm = 1 then temp + 1
    else temp
  if temp < 0 then -temp else temp

/-- ISO 8601: a week begins on Monday, belongs to the year of its Thursday and is numbered by it. -/
def IsIsoWeek (n year week : ℤ) : Prop :=
  let thursday := n - (weekday n + 6) % 7 + 3
  yearStart year ≤ thursday ∧ thursday < yearStart (year + 1)
    ∧ week = (thursday - yearStart year) / 7 + 1

theorem isLeapYear_iff (year : ℤ) : isLeapYear year ↔ leapDay (year + 1900) = 1 := by
  simp only [isLeapYear, leapDay, decide_eq_true_eq]
  split <;> omega

theorem leapDay_tmod (year : ℤ)
    : leapDay (year.tmod 400 - 1 + 1900) = leapDay (year + 1900 - 1) := by
  simp only [leapDay, tmod_eq_emod]
  split <;> split <;> omega

/-- From the year 1 on, `%V` and `%G` name the week of the day. -/
theorem weekOfIsoYear_correct (t : ℤ) (since : 1 ≤ (gmtimeR t).year + 1900)
    : IsIsoWeek (t / 86400) (isoYear (gmtimeR t)) (weekOfIsoYear (gmtimeR t)) := by
  generalize same : gmtimeR t = tm at *
  obtain ⟨date, yday⟩ : IsDate (t / 86400) (tm.year + 1900) tm.mon tm.mday
      ∧ tm.yday = t / 86400 - yearStart (tm.year + 1900) := gmtimeR_date t (same ▸ rfl)
  have wday : tm.wday = weekday (t / 86400) := same ▸ gmtimeR_wday t
  obtain ⟨-, -, began, ends, -, -⟩ := date_spec date
  clear same date
  generalize t / 86400 = d at *
  have next := yearStart_next (tm.year + 1900)
  have after := yearStart_next (tm.year + 1900 + 1)
  have before := yearStart_next (tm.year + 1900 - 1)
  rw [sub_add_cancel] at before
  have leap := leapDay_range (tm.year + 1900)
  have leapAfter := leapDay_range (tm.year + 1900 + 1)
  have leapBefore := leapDay_range (tm.year + 1900 - 1)
  generalize janEq : (tm.wday + 6 + 365 - tm.yday - 1).tmod 7 = jan1
  have jan : 0 ≤ jan1 ∧ jan1 < 7 ∧ (weekday d + 6) % 7 = (tm.yday + jan1) % 7 := by
    unfold weekday at *
    rw [← janEq, tmod_eq_emod_of_nonneg (by omega)]
    omega
  have dec31 : 1 ≤ jan1 → (jan1 - 1).tmod 7 = jan1 - 1 :=
    fun _ => tmod_eq_of_lt (by omega) (by omega)
  simp only [IsIsoWeek, isoYear, jan.2.2]
  generalize weekEq : weekOfIsoYear tm = week
  simp only [weekOfIsoYear, janEq, isLeapYear_iff, leapDay_tmod] at weekEq
  rw [tdiv_eq_ediv_of_nonneg (by omega)] at weekEq
  clear janEq wday
  generalize tm.year + 1900 = year at *
  generalize tempEq : (if tm.yday < 3 ∧ week ≠ 1 then year - 1
    else if tm.yday > 360 ∧ week = 1 then year + 1 else year) = temp
  rw [if_neg (by split at tempEq <;> omega)]
  split_ifs at tempEq with early late <;> subst tempEq
  · rw [sub_add_cancel]
    split_ifs at weekEq <;> omega
  · split_ifs at weekEq <;> omega
  · split_ifs at weekEq <;> omega

/-- The first day of 2021 is in the last week of the ISO year 2020. -/
theorem weekOfIsoYear_new_year_2021
    : (gmtimeR 1609459200).year + 1900 = 2021 ∧ isoYear (gmtimeR 1609459200) = 2020
      ∧ IsIsoWeek (1609459200 / 86400) (isoYear (gmtimeR 1609459200))
        (weekOfIsoYear (gmtimeR 1609459200)) :=
  ⟨by decide +kernel, by decide +kernel, weekOfIsoYear_correct 1609459200 (by decide)⟩

end UnstableOS.Libc.Time
