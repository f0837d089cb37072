import FilterQuery.Value.Calendar
import Mathlib.Tactic.IntervalCases

namespace FilterQuery.Date

/-! ## Years -/

theorem daysBefore_era (era year : Int) :
    daysBefore (era * 400 + year) = era * 146097 + daysBefore year := by
  unfold daysBefore
  omega

theorem daysBefore_succ (year : Int) :
    daysBefore (year + 1) = daysBefore year + if isLeap (year + 1) then 366 else 365 := by
  simp only [isLeap, daysBefore, Bool.and_eq_true, Bool.or_eq_true, decide_eq_true_eq, ne_eq]
  split <;> omega

/-- A day of an era of 400 years, counted by centuries, cycles of four years, years and days. Only
the last year of a cycle has a leap day, and at the end of a century only that of the fourth. -/
structure DayOfEra (n century cycle year day : Int) : Prop where
  sum : n = century * 36524 + cycle * 1461 + year * 365 + day
  century_mem : 0 ≤ century ∧ century ≤ 3
  cycle_mem : 0 ≤ cycle ∧ cycle ≤ 24
  year_mem : 0 ≤ year ∧ year ≤ 3
  day_mem : 0 ≤ day ∧ day ≤ 365
  leap : day = 365 → year = 3 ∧ (cycle = 24 → century = 3)

theorem exists_dayOfEra {n : Int} (h : 0 ≤ n ∧ n < 146097) :
    ∃ century cycle year day, DayOfEra n century cycle year day := by
  obtain ⟨c, m, hn, hc, hm, hlast⟩ : ∃ c m : Int, n = c * 36524 + m ∧ (0 ≤ c ∧ c ≤ 3) ∧
      (0 ≤ m ∧ m ≤ 36524) ∧ (m = 36524 → c = 3) :=
    ⟨min 3 (n / 36524), n - min 3 (n / 36524) * 36524, by omega, by omega, by omega, by omega⟩
  obtain ⟨y, d, hm', hy, hd, hleap⟩ : ∃ y d : Int, m % 1461 = y * 365 + d ∧ (0 ≤ y ∧ y ≤ 3) ∧
      (0 ≤ d ∧ d ≤ 365) ∧ (d = 365 → y = 3) :=
    ⟨min 3 (m % 1461 / 365), m % 1461 - min 3 (m % 1461 / 365) * 365,
      by omega, by omega, by omega, by omega⟩
  exact ⟨c, m / 1461, y, d, by omega, hc, by omega, hy, hd, by omega⟩

section

variable {n century cycle year day : Int} (h : DayOfEra n century cycle year day)

include h

theorem DayOfEra.yearOf_eq : yearOf n = 100 * century + 4 * cycle + year := by
  obtain ⟨hn, hcentury, hcycle, hyear, hday, hleap⟩ := h
  have hera : n / 146097 = 0 ∧ n % 146097 = n := by omega
  -- The last day of an era is one more than four equal centuries have.
  have hcenturies : n / 36524 = century + n / 146096 := by
    by_cases hlast : n = 146096
    · omega
    · have : n / 146096 = 0 := by omega
      omega
  simp only [yearOf, hera]
  -- Cycles of 1460 days run ahead of those of 1461 by a day each, within the last year of a cycle.
  by_cases hend : 1460 ≤ 24 * century + cycle + 365 * year + day
  · have hcycles : n / 1460 = 25 * century + cycle + 1 := by omega
    omega
  · have hcycles : n / 1460 = 25 * century + cycle := by omega
    omega

theorem DayOfEra.bounds :
    daysBefore (100 * century + 4 * cycle + year) ≤ n ∧
      n < daysBefore (100 * century + 4 * cycle + year + 1) := by
  obtain ⟨hn, hcentury, hcycle, hyear, hday, hleap⟩ := h
  unfold daysBefore
  omega

end

theorem daysBefore_yearOf (n : Int) :
    daysBefore (yearOf n) ≤ n ∧ n < daysBefore (yearOf n + 1) := by
  obtain ⟨c, q, y, d, h⟩ := exists_dayOfEra (n := n % 146097) (by omega)
  have hyear : yearOf n = n / 146097 * 400 + yearOf (n % 146097) := by
    simp only [yearOf]
    omega
  have hbounds := h.bounds
  rw [← h.yearOf_eq] at hbounds
  rw [hyear, Int.add_assoc, daysBefore_era, daysBefore_era]
  omega

/-! ## Months -/

/-- A day of a year that begins in March, by its month, counted from 0, and the day of the month.
All months but the last have their days in every year. -/
structure DayOfYear (n year month day : Int) : Prop where
  sum : n = daysBefore year + (153 * month + 2) / 5 + (day - 1)
  month_mem : 0 ≤ month ∧ month ≤ 11
  day_pos : 1 ≤ day
  day_le : (153 * month + 2) / 5 + day ≤ (153 * (month + 1) + 2) / 5
  day_le_year : (153 * month + 2) / 5 + day ≤ daysBefore (year + 1) - daysBefore year

/-- The calendar's date for such a day. January and February belong to the next calendar year. -/
def ofMarch (year month day : Int) : Date :=
  if month < 10 then ⟨year, (month + 3).toNat, day.toNat⟩
  else ⟨year + 1, (month - 9).toNat, day.toNat⟩

theorem exists_dayOfYear (days : Int) :
    ∃ year month day, DayOfYear (days + epoch) year month day ∧
      ofDays days = ofMarch year month day := by
  have hyear := daysBefore_yearOf (days + epoch)
  have hsucc := daysBefore_succ (yearOf (days + epoch))
  refine ⟨_, _, _, ?_, rfl⟩
  split at hsucc <;> constructor <;> omega

theorem daysInMonth_le (year : Int) (month : Nat) : daysInMonth year month ≤ 31 := by
  unfold daysInMonth
  split
  · split <;> decide
  all_goals decide

theorem daysInMonth_add_three (year : Int) {month : Nat} (h : month < 10) :
    (153 * month + 2) / 5 + (daysInMonth year (month + 3) : Int) =
      (153 * (month + 1) + 2) / 5 := by
  interval_cases month <;> rfl

namespace DayOfYear

variable {n year month day : Int} (h : DayOfYear n year month day)

include h

theorem toDays_eq : (ofMarch year month day).toDays = n - epoch := by
  obtain ⟨hn, hmonth, hday, _, _⟩ := h
  unfold ofMarch
  split
  · have hlarge : ¬ (month + 3).toNat ≤ 2 := by omega
    simp only [toDays, if_neg hlarge]
    omega
  · have hsmall : (month - 9).toNat ≤ 2 := by omega
    simp only [toDays, if_pos hsmall, Int.add_sub_cancel]
    omega

theorem valid : (ofMarch year month day).Valid := by
  obtain ⟨_, hmonth, hday, hle, hyear⟩ := h
  obtain ⟨m, rfl⟩ := Int.eq_ofNat_of_zero_le hmonth.1
  obtain ⟨d, rfl⟩ := Int.eq_ofNat_of_zero_le (Int.le_trans (by decide) hday)
  rw [daysBefore_succ] at hyear
  by_cases hlt : m < 10
  · -- From March to December a month has the same length in every year.
    have hdate : ofMarch year m d = ⟨year, m + 3, d⟩ := if_pos (by omega)
    have hlength := daysInMonth_add_three year hlt
    rw [hdate]
    refine ⟨?_, ?_, ?_, ?_⟩ <;> dsimp only <;> omega
  · obtain rfl | rfl : m = 10 ∨ m = 11 := by omega
    · have hdate : ofMarch year (10 : Nat) d = ⟨year + 1, 1, d⟩ := rfl
      have hlength : daysInMonth (year + 1) 1 = 31 := rfl
      rw [hdate]
      refine ⟨?_, ?_, ?_, ?_⟩ <;> dsimp only <;> omega
    · -- February has what is left of the year, which depends on its leap day.
      have hdate : ofMarch year (11 : Nat) d = ⟨year + 1, 2, d⟩ := rfl
      have hlength : daysInMonth (year + 1) 2 = if isLeap (year + 1) then 29 else 28 := rfl
      have hle : d ≤ daysInMonth (year + 1) 2 := by
        rw [hlength]
        split
        · next hleap =>
          rw [if_pos hleap] at hyear
          omega
        · next hleap =>
          rw [if_neg hleap] at hyear
          omega
      rw [hdate]
      exact ⟨by simp, by simp, Int.ofNat_le.mp hday, hle⟩

end DayOfYear

theorem toDays_ofDays (days : Int) : (ofDays days).toDays = days := by
  obtain ⟨year, month, day, h, heq⟩ := exists_dayOfYear days
  rw [heq, h.toDays_eq, Int.add_sub_cancel]

theorem valid_ofDays (days : Int) : (ofDays days).Valid := by
  obtain ⟨year, month, day, h, heq⟩ := exists_dayOfYear days
  exact heq ▸ h.valid

end FilterQuery.Date
