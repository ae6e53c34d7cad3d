import Mathlib.Data.Int.Notation
import Mathlib.Logic.Function.Iterate
import Mathlib.Tactic.Ring

/-!
# The Gregorian calendar

Dates come one after the other by the lengths of the months and the leap
years. The number of a date, in closed form with years that begin in March,
goes up by one from each date to the one after it.
-/

set_option autoImplicit false

namespace RaptorCommon.Gregorian

def leap (year : ℤ) : Bool := year%4 = 0 ∧ (year%100 ≠ 0 ∨ year%400 = 0)

def monthDays (year : ℤ) : ℕ → ℕ
  | 2 => if leap year then 29 else 28
  | 4 | 6 | 9 | 11 => 30
  | _ => 31

theorem month_days_pos (year : ℤ) (month : ℕ) : 1 ≤ monthDays year month := by
  unfold monthDays
  split
  · split <;> decide
  all_goals decide

theorem month_days_le (year : ℤ) (month : ℕ) : monthDays year month ≤ 31 := by
  unfold monthDays
  split
  · split <;> decide
  all_goals decide

/-- Months and days are counted from 1. -/
structure Date where
  year : ℤ
  month : ℕ
  day : ℕ
  month_range : 1 ≤ month ∧ month ≤ 12
  day_range : 1 ≤ day ∧ day ≤ monthDays year month

def firstOf (year : ℤ) (month : ℕ) (h : 1 ≤ month ∧ month ≤ 12) : Date where
  year := year
  month := month
  day := 1
  month_range := h
  day_range := ⟨Nat.le_refl 1, month_days_pos year month⟩

theorem january : 1 ≤ 1 ∧ 1 ≤ 12 := by decide

def Date.tomorrow (d : Date) : Date :=
  if h : d.day < monthDays d.year d.month then
    { d with day := d.day+1, day_range := ⟨Nat.succ_le_succ (Nat.zero_le _), h⟩ }
  else if h : d.month < 12 then
    firstOf d.year (d.month+1) ⟨Nat.succ_le_succ (Nat.zero_le _), h⟩
  else firstOf (d.year+1) 1 january

def epoch : Date := firstOf 1970 1 january

/-- Days from the epoch. -/
def Date.number (d : Date) : ℤ :=
  let y := if d.month ≤ 2 then d.year-1 else d.year
  let m : ℤ := if d.month ≤ 2 then d.month+9 else d.month-3
  365*y+y/4-y/100+y/400+(153*m+2)/5+d.day-1-719468

theorem month_cases {month : ℕ} (h : 1 ≤ month ∧ month ≤ 12) : month = 1 ∨ month = 2 ∨ month = 3 ∨
    month = 4 ∨ month = 5 ∨ month = 6 ∨ month = 7 ∨ month = 8 ∨ month = 9 ∨ month = 10 ∨
    month = 11 ∨ month = 12 := by omega

theorem leap_length (year : ℤ) : (monthDays year 2 : ℤ) =
    28+(year/4-year/100+year/400)-((year-1)/4-(year-1)/100+(year-1)/400) := by
  have hleap : leap year = true ↔ year%4 = 0 ∧ (year%100 ≠ 0 ∨ year%400 = 0) := decide_eq_true_iff
  show ((if leap year = true then 29 else 28 : ℕ) : ℤ) = _
  split
  · rename_i h
    have h4 := hleap.mp h
    omega
  · rename_i h
    have h4 : ¬(year%4 = 0 ∧ (year%100 ≠ 0 ∨ year%400 = 0)) := fun hc => h (hleap.mpr hc)
    omega

theorem month_number {year : ℤ} {month : ℕ} (h : 1 ≤ month ∧ month ≤ 12) (h' : month < 12)
    (day : ℕ) (hd : 1 ≤ day ∧ day ≤ monthDays year month) (hlast : ¬day < monthDays year month) :
    (firstOf year (month+1) ⟨Nat.succ_le_succ (Nat.zero_le _), h'⟩).number =
      (Date.mk year month day h hd).number+1 := by
  have hday : (day : ℤ) = monthDays year month := by omega
  have hleap := leap_length year
  unfold Date.number firstOf
  rw [hday]
  dsimp only
  rcases month_cases h with rfl | rfl | rfl | rfl | rfl | rfl | rfl | rfl | rfl | rfl | rfl | rfl
  case inr.inl =>
    rw [hleap]
    norm_num
    omega
  all_goals
    simp [monthDays]
    omega

theorem tomorrow_number (d : Date) : d.tomorrow.number = d.number+1 := by
  obtain ⟨year, month, day, hmonth, hday⟩ := d
  unfold Date.tomorrow
  dsimp only
  split
  · unfold Date.number
    dsimp only
    push_cast
    ring
  · rename_i hlast
    split
    · rename_i hnext
      exact month_number hmonth hnext day hday hlast
    · rename_i hend
      obtain rfl : month = 12 := by omega
      have hday31 : day = 31 := Nat.le_antisymm hday.2 (Nat.le_of_not_lt hlast)
      subst hday31
      unfold Date.number firstOf
      norm_num
      omega

theorem number_far {d : Date} (h : 10000 ≤ d.year) : 2932897 ≤ d.number := by
  have hmonth := d.month_range
  have hday := d.day_range.1
  unfold Date.number
  dsimp only
  split <;> omega

theorem tomorrow_year (d : Date) : d.year ≤ d.tomorrow.year := by
  unfold Date.tomorrow
  split
  · exact Int.le_refl _
  · split
    · exact Int.le_refl _
    · exact Int.le_of_lt (Int.lt_succ _)

theorem after_number (n : ℕ) (d : Date) : (Date.tomorrow^[n] d).number = d.number+n := by
  induction n generalizing d with
  | zero => exact (Int.add_zero _).symm
  | succ n ih =>
    rw [Function.iterate_succ_apply, ih, tomorrow_number]
    push_cast
    ring

theorem after_year (n : ℕ) (d : Date) : d.year ≤ (Date.tomorrow^[n] d).year := by
  induction n generalizing d with
  | zero => exact Int.le_refl _
  | succ n ih => exact (tomorrow_year d).trans (ih d.tomorrow)

example : (Date.tomorrow^[59] epoch).month = 3 := by decide +kernel

end RaptorCommon.Gregorian
