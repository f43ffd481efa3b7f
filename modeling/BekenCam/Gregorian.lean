import Mathlib.Tactic

/-!
# The Gregorian calendar

Dates and times of day from 1970 on, and the seconds since then by counting the days of the years
and the months one after another. Every fourth year is a leap year, but of the centuries only every
fourth.
-/
namespace BekenCam.Gregorian

def IsLeap (year : ℕ) : Prop := year % 4 = 0 ∧ (year % 100 ≠ 0 ∨ year % 400 = 0)

instance (year : ℕ) : Decidable (IsLeap year) := inferInstanceAs (Decidable (_ ∧ _))

def yearLength (year : ℕ) : ℕ := if IsLeap year then 366 else 365

/-- `leap` tells the kind of the year. -/
def monthLength (leap : Bool) (month : ℕ) : ℕ :=
  if month = 2 then if leap then 29 else 28
  else if month = 4 ∨ month = 6 ∨ month = 9 ∨ month = 11 then 30
  else 31

/-- The days of the years before `year`, from 1970 on. -/
def daysBeforeYear (year : ℕ) : ℕ := ((List.range' 1970 (year - 1970)).map yearLength).sum

/-- The days of the months before `month`. -/
def daysBeforeMonth (leap : Bool) (month : ℕ) : ℕ :=
  ((List.range' 1 (month - 1)).map (monthLength leap)).sum

structure Date where
  year : ℕ
  month : ℕ
  day : ℕ
  hyear : 1970 ≤ year
  hmonth : 1 ≤ month ∧ month ≤ 12
  hday : 1 ≤ day ∧ day ≤ monthLength (IsLeap year) month

structure Moment where
  date : Date
  hour : ℕ
  minute : ℕ
  second : ℕ
  hhour : hour < 24
  hminute : minute < 60
  hsecond : second < 60

/-- Days since the first of January 1970. -/
def Date.days (d : Date) : ℕ :=
  daysBeforeYear d.year + daysBeforeMonth (IsLeap d.year) d.month + (d.day - 1)

def Moment.seconds (m : Moment) : ℕ :=
  ((m.date.days * 24 + m.hour) * 60 + m.minute) * 60 + m.second

theorem daysBeforeMonth_year (leap : Bool) : daysBeforeMonth leap 13 = 365 + leap.toNat := by
  cases leap <;> rfl

theorem yearLength_eq_sum (year : ℕ) : yearLength year = daysBeforeMonth (IsLeap year) 13 := by
  unfold yearLength
  rw [daysBeforeMonth_year]
  by_cases h : IsLeap year
  · rw [if_pos h, decide_eq_true h]
    rfl
  · rw [if_neg h, decide_eq_false h]
    rfl

theorem daysBeforeYear_succ {year : ℕ} (h : 1970 ≤ year) :
    daysBeforeYear (year + 1) = daysBeforeYear year + yearLength year := by
  unfold daysBeforeYear
  have hnext : 1970 + (year - 1970) = year := by omega
  rw [Nat.succ_sub h, List.range'_concat, List.map_append, List.sum_append, Nat.one_mul, hnext,
    List.map_singleton, List.sum_singleton]

/-- Counted from the year one, a leap day is due every four years, but not every hundred, but
every four hundred. -/
theorem daysBeforeYear_add {year : ℕ} (h : 1970 ≤ year) : daysBeforeYear year + 719162 =
    365 * (year - 1) + (year - 1) / 4 + (year - 1) / 400 - (year - 1) / 100 := by
  induction year, h using Nat.le_induction with
  | base => rfl
  | succ year h ih =>
    rw [daysBeforeYear_succ h, yearLength, Nat.add_sub_cancel]
    by_cases hleap : IsLeap year
    · rw [if_pos hleap]
      unfold IsLeap at hleap
      omega
    · rw [if_neg hleap]
      unfold IsLeap at hleap
      omega

end BekenCam.Gregorian
