/-!
# Dates of the proleptic Gregorian calendar

A date is a year, a month and a day of that month; days are counted from
1970-01-01.  The year of a day number is found from an estimate that is wrong
by at most one, and the month by walking through the year.
-/

namespace HourlyUsage

def isLeapYear (y : Int) : Bool :=
  decide (y % 4 = 0) && (decide (y % 100 ≠ 0) || decide (y % 400 = 0))

def yearLength (y : Int) : Nat := if isLeapYear y then 366 else 365

def monthLength (y : Int) (m : Nat) : Nat :=
  if m = 2 then (if isLeapYear y then 29 else 28)
  else if m = 4 ∨ m = 6 ∨ m = 9 ∨ m = 11 then 30
  else 31

/-- The day number of the first day of a year. -/
def yearStart (y : Int) : Int :=
  365 * (y - 1) + (y - 1) / 4 - (y - 1) / 100 + (y - 1) / 400 - 719162

/-- The days of a year before its month `m`, for `m` from one to thirteen. -/
def monthStart (y : Int) : Nat → Nat
  | 0 => 0
  | m + 1 => monthStart y m + if m = 0 then 0 else monthLength y m

theorem yearStart_succ (y : Int) : yearStart (y + 1) = yearStart y + yearLength y := by
  simp only [yearStart, yearLength, isLeapYear]
  by_cases h4 : y % 4 = 0 <;> by_cases h100 : y % 100 = 0 <;> by_cases h400 : y % 400 = 0 <;>
    simp [h4, h100, h400] <;> omega

theorem monthStart_thirteen (y : Int) : monthStart y 13 = yearLength y := by
  by_cases h : isLeapYear y = true <;> simp [monthStart, monthLength, yearLength, h]

def yearOfDays (n : Int) : Int :=
  let y := (n + 719162) * 400 / 146097 + 1
  if n < yearStart y then y - 1 else if yearStart (y + 1) ≤ n then y + 1 else y

theorem yearStart_yearOfDays (n : Int) :
    yearStart (yearOfDays n) ≤ n ∧ n < yearStart (yearOfDays n + 1) := by
  simp only [yearOfDays]
  split
  · simp only [yearStart] at *
    omega
  · split <;> (simp only [yearStart] at *; omega)

/-- Walks from day `k` of month `m` on, through at most `left` later months. -/
def locateDay (y : Int) : (left m k : Nat) → Nat × Nat
  | 0, m, k => (m, k + 1)
  | left + 1, m, k =>
    if k < monthLength y m then (m, k + 1) else locateDay y left (m + 1) (k - monthLength y m)

theorem locateDay_spec (y : Int) {left m k : Nat} (hm : 1 ≤ m) (hleft : left + m = 12)
    (hk : monthStart y m + k < yearLength y) :
    1 ≤ (locateDay y left m k).1 ∧ (locateDay y left m k).1 ≤ 12 ∧
      1 ≤ (locateDay y left m k).2 ∧
      (locateDay y left m k).2 ≤ monthLength y (locateDay y left m k).1 ∧
      monthStart y (locateDay y left m k).1 + (locateDay y left m k).2 =
        monthStart y m + k + 1 := by
  induction left generalizing m k with
  | zero =>
      have h12 : m = 12 := by omega
      subst h12
      have h := monthStart_thirteen y
      simp only [monthStart] at h hk
      simp [locateDay, monthStart] at h hk ⊢
      omega
  | succ left ih =>
      simp only [locateDay]
      split
      · simp only
        omega
      · have hs : monthStart y (m + 1) = monthStart y m + monthLength y m := by
          rw [monthStart, if_neg (by omega)]
        have h := @ih (m + 1) (k - monthLength y m) (by omega) (by omega) (by omega)
        omega

structure Date where
  year : Int
  month : Nat
  day : Nat
  one_le_month : 1 ≤ month
  month_le : month ≤ 12
  one_le_day : 1 ≤ day
  day_le : day ≤ monthLength year month
  deriving DecidableEq

namespace Date

def ofYmd? (year : Int) (month day : Nat) : Option Date :=
  if h : 1 ≤ month ∧ month ≤ 12 ∧ 1 ≤ day ∧ day ≤ monthLength year month then
    some ⟨year, month, day, h.1, h.2.1, h.2.2.1, h.2.2.2⟩
  else none

/-- The number of days from 1970-01-01. -/
def toDays (d : Date) : Int := yearStart d.year + monthStart d.year d.month + d.day - 1

theorem dayOfYear_lt (n : Int) :
    monthStart (yearOfDays n) 1 + (n - yearStart (yearOfDays n)).toNat <
      yearLength (yearOfDays n) := by
  have h := yearStart_yearOfDays n
  rw [yearStart_succ] at h
  simp [monthStart]
  omega

def ofDays (n : Int) : Date :=
  let y := yearOfDays n
  let found := locateDay y 11 1 (n - yearStart y).toNat
  have h := @locateDay_spec y 11 1 _ (Nat.le_refl 1) rfl (dayOfYear_lt n)
  ⟨y, found.1, found.2, h.1, h.2.1, h.2.2.1, h.2.2.2.1⟩

theorem toDays_ofDays (n : Int) : (ofDays n).toDays = n := by
  have h := (@locateDay_spec (yearOfDays n) 11 1 _ (Nat.le_refl 1) rfl (dayOfYear_lt n)).2.2.2.2
  have hy := yearStart_yearOfDays n
  simp only [toDays, ofDays]
  simp [monthStart] at h
  omega

end Date
end HourlyUsage
