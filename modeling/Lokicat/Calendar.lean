import Mathlib.Tactic.IntervalCases

/-!
# Proleptic Gregorian calendar

Days are counted from 1 January of year 1, months from zero and days of a
month from one. Dates and day numbers are inverse to each other, and the day
number of a date grows by the length of the year when the year advances.
-/

namespace Lokicat.Calendar

/-- One in a leap year, zero in a common one. -/
def leap (y : Int) : Int := if y % 4 = 0 ∧ (y % 100 ≠ 0 ∨ y % 400 = 0) then 1 else 0

/-- Days before 1 January of a year. -/
def yearStart (y : Int) : Int := 365 * (y - 1) + (y - 1) / 4 - (y - 1) / 100 + (y - 1) / 400

/-- Days before the first of a month, counted from 1 January; month 12 is the year's end. -/
def monthStart (l m : Int) : Int := if m < 2 then 31 * m else (153 * (m - 2) + 2) / 5 + 59 + l

def monthLength (l m : Int) : Int := monthStart l (m + 1) - monthStart l m

@[ext] structure Date where
  year : Int
  month : Int
  day : Int
  deriving DecidableEq, Repr

/-- The day exists in the calendar. -/
def Date.Valid (d : Date) : Prop :=
  0 ≤ d.month ∧ d.month ≤ 11 ∧ 1 ≤ d.day ∧ d.day ≤ monthLength (leap d.year) d.month

instance (d : Date) : Decidable d.Valid :=
  inferInstanceAs (Decidable (0 ≤ d.month ∧ d.month ≤ 11 ∧ 1 ≤ d.day ∧
    d.day ≤ monthLength (leap d.year) d.month))

/-- The day number of a date; a day past the end of its month runs into the next. -/
def Date.number (d : Date) : Int :=
  yearStart d.year + monthStart (leap d.year) d.month + (d.day - 1)

/-- The year a day falls in: an estimate that is off by at most one, corrected. -/
def yearOf (n : Int) : Int :=
  let y := n * 400 / 146097 + 1
  if n < yearStart y then y - 1 else if yearStart (y + 1) ≤ n then y + 1 else y

/-- The month a day of the year, counted from zero, falls in. -/
def monthOf (l n : Int) : Int := if n < 59 + l then n / 31 else (5 * (n - 59 - l) + 2) / 153 + 2

def dateOf (n : Int) : Date :=
  let y := yearOf n
  let m := monthOf (leap y) (n - yearStart y)
  ⟨y, m, n - yearStart y - monthStart (leap y) m + 1⟩

theorem leap_zero_or_one (y : Int) : leap y = 0 ∨ leap y = 1 := by
  unfold leap
  split <;> simp

theorem yearStart_succ (y : Int) : yearStart (y + 1) = yearStart y + 365 + leap y := by
  unfold yearStart leap
  split <;> omega

theorem yearStart_lt (y z : Int) (h : y < z) : yearStart y + 365 ≤ yearStart z := by
  unfold yearStart
  omega

/-- Leap years are not adjacent. -/
theorem leap_pred {y : Int} (h : leap y = 1) : leap (y - 1) = 0 := by
  unfold leap at *
  split at h
  · split <;> omega
  · omega

theorem yearOf_bounds (n : Int) : yearStart (yearOf n) ≤ n ∧ n < yearStart (yearOf n + 1) := by
  unfold yearOf
  simp only
  split
  · unfold yearStart at *
    omega
  · split
    · unfold yearStart at *
      omega
    · omega

theorem yearOf_eq {n y : Int} (h₁ : yearStart y ≤ n) (h₂ : n < yearStart (y + 1)) :
    yearOf n = y := by
  have hb := yearOf_bounds n
  obtain h | h | h := lt_trichotomy (yearOf n) y
  · obtain he | hl : yearOf n + 1 = y ∨ yearOf n + 1 < y := by omega
    · rw [he] at hb; omega
    · have := yearStart_lt _ _ hl; omega
  · exact h
  · obtain he | hl : y + 1 = yearOf n ∨ y + 1 < yearOf n := by omega
    · rw [he] at h₂; omega
    · have := yearStart_lt _ _ hl; omega

theorem monthStart_twelve (l : Int) : monthStart l 12 = 365 + l := by
  unfold monthStart
  omega

theorem monthStart_mono {l : Int} (m k : Int) (hl : l = 0 ∨ l = 1) (h₁ : 0 ≤ m) (h₂ : m ≤ k) :
    monthStart l m ≤ monthStart l k := by
  unfold monthStart
  split <;> split <;> omega

theorem monthOf_bounds {l n : Int} (hl : l = 0 ∨ l = 1) (h₁ : 0 ≤ n) (h₂ : n < 365 + l) :
    0 ≤ monthOf l n ∧ monthOf l n ≤ 11 ∧
      monthStart l (monthOf l n) ≤ n ∧ n < monthStart l (monthOf l n + 1) := by
  unfold monthOf monthStart
  split <;> split <;> split <;> omega

theorem monthOf_eq {l m d : Int} (hl : l = 0 ∨ l = 1) (h₁ : 0 ≤ m) (h₂ : m ≤ 11) (h₃ : 0 ≤ d)
    (h₄ : d < monthLength l m) : monthOf l (monthStart l m + d) = m := by
  unfold monthLength monthStart at h₄
  unfold monthOf monthStart
  split at h₄ <;> split at h₄ <;> split <;> split <;> omega

theorem day_le {d : Date} (h : d.Valid) : d.day ≤ 31 := by
  obtain ⟨h₁, h₂, -, h₄⟩ := h
  have hl := leap_zero_or_one d.year
  simp only [monthLength, monthStart] at h₄
  split at h₄ <;> split at h₄ <;> omega

/-- A day of a valid date lies in the date's year. -/
theorem number_bounds {d : Date} (h : d.Valid) :
    yearStart d.year ≤ d.number ∧ d.number < yearStart (d.year + 1) := by
  obtain ⟨h₁, h₂, h₃, h₄⟩ := h
  have hl := leap_zero_or_one d.year
  have hlow := monthStart_mono 0 d.month hl (le_refl 0) h₁
  have hhigh := monthStart_mono (d.month + 1) 12 hl (by omega) (by omega)
  rw [monthStart_twelve] at hhigh
  have hzero : monthStart (leap d.year) 0 = 0 := by simp [monthStart]
  have hsucc := yearStart_succ d.year
  unfold monthLength at h₄
  unfold Date.number
  omega

/-- Day numbers lose nothing: a valid date is the date of its number. -/
theorem dateOf_number {d : Date} (h : d.Valid) : dateOf d.number = d := by
  have hb := number_bounds h
  have hy : yearOf d.number = d.year := yearOf_eq hb.1 hb.2
  obtain ⟨h₁, h₂, h₃, h₄⟩ := h
  have hoff : d.number - yearStart d.year = monthStart (leap d.year) d.month + (d.day - 1) := by
    unfold Date.number; omega
  have hm : monthOf (leap d.year) (monthStart (leap d.year) d.month + (d.day - 1)) = d.month :=
    monthOf_eq (leap_zero_or_one _) h₁ h₂ (by omega) (by omega)
  unfold dateOf
  simp only [hy, hoff, hm]
  cases d
  simp only [Date.mk.injEq, true_and]
  omega

/-- Every day number is the number of its date. -/
@[simp] theorem number_dateOf (n : Int) : (dateOf n).number = n := by
  unfold dateOf Date.number
  simp only
  omega

theorem dateOf_valid (n : Int) : (dateOf n).Valid := by
  have hb := yearOf_bounds n
  have hs := yearStart_succ (yearOf n)
  have hday : 0 ≤ n - yearStart (yearOf n) := by omega
  have hm := monthOf_bounds (leap_zero_or_one (yearOf n)) hday (by omega)
  unfold dateOf Date.Valid monthLength
  simp only
  omega

theorem yearStart_mono (y z : Int) (h : y ≤ z) : yearStart y ≤ yearStart z := by
  obtain rfl | hlt := eq_or_lt_of_le h
  · exact le_refl _
  · have := yearStart_lt y z hlt
    omega

/-- A later day is not in an earlier year. -/
theorem year_le {d e : Date} (hd : d.Valid) (he : e.Valid) (h : d.number ≤ e.number) :
    d.year ≤ e.year := by
  by_contra hlt
  have hstart := yearStart_mono (e.year + 1) d.year (by omega)
  have hdb := number_bounds hd
  have heb := number_bounds he
  omega

/-- A day no more than 365 days later is in the same year or in the next. -/
theorem year_le_succ {d e : Date} (hd : d.Valid) (he : e.Valid) (h : e.number ≤ d.number + 365) :
    e.year ≤ d.year + 1 := by
  by_contra hlt
  have hstart := yearStart_mono (d.year + 1 + 1) e.year (by omega)
  have hnext := yearStart_lt (d.year + 1) (d.year + 1 + 1) (by omega)
  have hdb := number_bounds hd
  have heb := number_bounds he
  omega

/-- The same month and day in another year. -/
def Date.inYear (d : Date) (y : Int) : Date := { d with year := y }

/-- Days from a month and day of a year to the same of the next. -/
def span (y m : Int) : Int := 365 + if m < 2 then leap y else leap (y + 1)

theorem number_next (d : Date) (y : Int) :
    (d.inYear (y + 1)).number = (d.inYear y).number + span y d.month := by
  simp only [Date.number, Date.inYear, yearStart_succ, monthStart, span]
  split <;> omega

theorem span_bounds (y m : Int) : 365 ≤ span y m ∧ span y m ≤ 366 := by
  have h₁ := leap_zero_or_one y
  have h₂ := leap_zero_or_one (y + 1)
  simp only [span]
  split <;> omega

/-- The same month and day of two years are at least 365 days apart. -/
theorem number_year_lt (d : Date) (y z : Int) (h : y < z) :
    (d.inYear y).number + 365 ≤ (d.inYear z).number := by
  have hsucc := yearStart_succ y
  have hstart := yearStart_mono (y + 1) z (by omega)
  have hy := leap_zero_or_one y
  have hz := leap_zero_or_one z
  have hmonth : monthStart (leap y) d.month - leap y ≤ monthStart (leap z) d.month := by
    simp only [monthStart]
    split <;> omega
  simp only [Date.number, Date.inYear]
  omega

/-- Taken in another year a date stays in that year, and from March on if its end is near. -/
theorem number_inYear_bounds {d : Date} (h : d.Valid) (y : Int) :
    yearStart y ≤ (d.inYear y).number ∧ (d.inYear y).number < yearStart (y + 1) ∧
      (d.month < 2 → (d.inYear y).number < yearStart y + 62) := by
  obtain ⟨h₁, h₂, h₃, h₄⟩ := h
  have hold := leap_zero_or_one d.year
  have hnew := leap_zero_or_one y
  have hsucc := yearStart_succ y
  simp only [monthLength, monthStart] at h₄
  have hmonth : 0 ≤ monthStart (leap y) d.month ∧
      monthStart (leap y) d.month + d.day ≤ 365 + leap y ∧
        (d.month < 2 → monthStart (leap y) d.month + d.day ≤ 62) := by
    simp only [monthStart]
    split at h₄ <;> split at h₄ <;> split <;> omega
  simp only [Date.number, Date.inYear]
  omega

theorem month_lt_two {d : Date} (h : d.Valid) (hn : d.number < yearStart d.year + 59) :
    d.month < 2 := by
  have hl := leap_zero_or_one d.year
  by_contra hlate
  have hstart := monthStart_mono 2 d.month hl (by decide) (by omega)
  have htwo : monthStart (leap d.year) 2 = 59 + leap d.year := by simp [monthStart]
  have hday := h.2.2.1
  simp only [Date.number] at hn
  omega

/-- Only 29 February may be missing in another year. -/
theorem valid_inYear {d : Date} (h : d.Valid) (y : Int) (hfeb : d.month ≠ 1 ∨ d.day ≠ 29) :
    (d.inYear y).Valid := by
  obtain ⟨h₁, h₂, h₃, h₄⟩ := h
  have hold := leap_zero_or_one d.year
  have hnew := leap_zero_or_one y
  refine ⟨h₁, h₂, h₃, ?_⟩
  simp only [monthLength, monthStart, Date.inYear] at h₄ ⊢
  split at h₄ <;> split at h₄ <;> omega

/-- In a common year 29 February is 1 March, in a leap year it is the day before. -/
theorem number_march (y : Int) :
    (⟨y, 2, 1⟩ : Date).number = (⟨y, 1, 29⟩ : Date).number + leap y := by
  simp [Date.number, monthStart]
  omega

end Lokicat.Calendar
