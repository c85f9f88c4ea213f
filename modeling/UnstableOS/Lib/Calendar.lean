import Mathlib.Algebra.Ring.Int.Defs
import Mathlib.Tactic.Common

/-! The Gregorian calendar, also before it was introduced. Days are counted from the first of
January 1970, months from 0 and the days of a month from 1.
-/

namespace UnstableOS.Lib.Calendar

/-- The days a year has over 365. -/
def leapDay (year : ℤ) : ℤ :=
  if year % 4 = 0 ∧ year % 100 ≠ 0 ∨ year % 400 = 0 then 1 else 0

/-- The day on which a year begins. -/
def yearStart (year : ℤ) : ℤ :=
  365 * (year - 1970) + (year - 1) / 4 - (year - 1) / 100 + (year - 1) / 400 - 477

theorem yearStart_next (year : ℤ) : yearStart (year + 1) = yearStart year + 365 + leapDay year := by
  unfold yearStart leapDay
  split <;> omega

example : yearStart 1970 = 0 := by decide

theorem leapDay_range (year : ℤ) : 0 ≤ leapDay year ∧ leapDay year ≤ 1 := by
  unfold leapDay
  split <;> decide

/-- The lengths of the months. -/
def months (year : ℤ) : List ℤ :=
  [31, 28 + leapDay year, 31, 30, 31, 30, 31, 31, 30, 31, 30, 31]

def IsDate (n year mon day : ℤ) : Prop :=
  0 ≤ mon ∧ 1 ≤ day ∧ day ≤ (months year).getD mon.toNat 0
    ∧ n = yearStart year + ((months year).take mon.toNat).sum + day - 1

end UnstableOS.Lib.Calendar
