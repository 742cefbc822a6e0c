import Tsukasa.Lib.Spans
import Mathlib.Algebra.Order.BigOperators.Group.Finset

/-!
# The Gregorian calendar

Years and months as spans of days. The first of January of the year 1 is a Monday, and the weekday of any later day is counted from it.
-/

namespace Lib

namespace Gregorian

open Finset (Ico)

def IsLeap (y : Nat) : Prop := 4 ∣ y ∧ (¬ 100 ∣ y ∨ 400 ∣ y)

instance (y : Nat) : Decidable (IsLeap y) := inferInstanceAs (Decidable (4 ∣ y ∧ (¬ 100 ∣ y ∨ 400 ∣ y)))

def yearLength (y : Nat) : Nat := if IsLeap y then 366 else 365

/-- The days of a month, which is numbered from 1. -/
def monthLength (y m : Nat) : Nat := if m = 2 ∧ IsLeap y then 29 else [31, 28, 31, 30, 31, 30, 31, 31, 30, 31, 30, 31].getD (m - 1) 0

/-- The days of the year before a day of it. -/
def daysSinceJanuary (y m d : Nat) : Nat := ∑ i ∈ Ico 1 m, monthLength y i + (d - 1)

/-- The days before a day of the year 1 or later. -/
def daysBefore (y m d : Nat) : Nat := ∑ i ∈ Ico 1 y, yearLength i + daysSinceJanuary y m d

/-- The weekday of a day, where Sunday is 0 and Monday 1. -/
def weekday (y m d : Nat) : Nat := (daysBefore y m d + 1) % 7

theorem sum_monthLength (y : Nat) : ∑ i ∈ Ico 1 13, monthLength y i = yearLength y := by
  by_cases hleap : IsLeap y
  · simp only [monthLength, yearLength, hleap, and_true, if_true]
    rfl
  · simp only [monthLength, yearLength, hleap, and_false, if_false]
    rfl

/-- The leap days of the years before `y + 1`. -/
theorem sum_yearLength (y : Nat) : ∑ i ∈ Ico 1 (y + 1), yearLength i = 365 * y + y / 4 - y / 100 + y / 400 := by
  induction y with
  | zero => rfl
  | succ y ih =>
      rw [Finset.sum_Ico_succ_top (by omega), ih, yearLength]
      split
      · rename_i hleap
        obtain ⟨hfour, hcentury⟩ := hleap
        omega
      · rename_i hleap
        rw [IsLeap] at hleap
        omega

/-- The days before the year `y` and those of the years from there to `y'`. -/
theorem sum_yearLength_from {y y' : Nat} (hy : 1 ≤ y) (hle : y ≤ y') :
    365 * (y - 1) + (y - 1) / 4 - (y - 1) / 100 + (y - 1) / 400 + ∑ i ∈ Ico y y', yearLength i =
      365 * (y' - 1) + (y' - 1) / 4 - (y' - 1) / 100 + (y' - 1) / 400 := by
  rw [← sum_yearLength, ← sum_yearLength, Nat.sub_add_cancel hy, Nat.sub_add_cancel (Nat.le_trans hy hle)]
  exact Finset.sum_Ico_consecutive yearLength hy hle

end Gregorian

end Lib
