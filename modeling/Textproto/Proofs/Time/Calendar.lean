import Mathlib.Tactic.IntervalCases
import Textproto.Time.Calendar

namespace Textproto.Date

/-! The Gregorian calendar, by the lengths of its years and months. -/

def IsLeap (year : Int) : Prop :=
  4 ∣ year ∧ (¬100 ∣ year ∨ 400 ∣ year)

instance (year : Int) : Decidable (IsLeap year) :=
  inferInstanceAs (Decidable (_ ∧ _))

def daysInYear (year : Int) : Int :=
  if IsLeap year then 366 else 365

def daysInMonth (year : Int) : Nat → Int
  | 2 => if IsLeap year then 29 else 28
  | 4 | 6 | 9 | 11 => 30
  | _ => 31

/-- A day that the calendar has. -/
structure Valid (date : Date) : Prop where
  month : 1 ≤ date.month ∧ date.month ≤ 12
  day : 1 ≤ date.day ∧ date.day ≤ daysInMonth date.year date.month

/-- Leap years come again with every era. -/
theorem daysInYear_era (era year : Int) : daysInYear (era * 400 + year) = daysInYear year := by
  have hleap : IsLeap (era * 400 + year) ↔ IsLeap year := by
    rw [IsLeap, IsLeap]
    omega
  simp only [daysInYear, hleap]

/-! Years of an era. -/

theorem daysBeforeYear_succ : ∀ year < 399,
    (daysBeforeYear (year + 1) : Int) = daysBeforeYear year + daysInYear (year + 1) := by
  decide +kernel

theorem yearOfEra_step (day : Nat) : yearOfEra day ≤ yearOfEra (day + 1) := by
  refine Nat.div_le_div_right ?_
  omega

theorem yearOfEra_mono {day later : Nat} (h : day ≤ later) : yearOfEra day ≤ yearOfEra later := by
  induction h with
  | refl => exact Nat.le_refl _
  | step _ ih => exact Nat.le_trans ih (yearOfEra_step _)

/-- The days before a year of the era are counted to earlier ones, and its first day is not. -/
theorem yearOfEra_first : ∀ year < 400, year ≤ yearOfEra (daysBeforeYear year) ∧
    (0 < year → yearOfEra (daysBeforeYear year - 1) < year) := by
  decide +kernel

theorem yearOfEra_lt {day : Nat} (h : day < daysOfEra) : yearOfEra day < 400 := by
  simp only [daysOfEra, yearOfEra] at h ⊢
  omega

/-- A day of an era falls within the year that it is counted to. -/
theorem daysBeforeYear_le {day : Nat} (h : day < daysOfEra) :
    daysBeforeYear (yearOfEra day) ≤ day := by
  refine Decidable.byContradiction fun hlater => ?_
  have hle : day ≤ daysBeforeYear (yearOfEra day) - 1 := by omega
  have hpos : 0 < yearOfEra day := by
    refine Nat.pos_of_ne_zero fun hzero => ?_
    rw [hzero] at hlater
    exact hlater (Nat.zero_le day)
  have hbefore := (yearOfEra_first _ (yearOfEra_lt h)).2 hpos
  exact Nat.lt_irrefl _ (Nat.lt_of_le_of_lt (yearOfEra_mono hle) hbefore)

theorem lt_daysBeforeYear_succ {day : Nat} (h : yearOfEra day + 1 < 400) :
    day < daysBeforeYear (yearOfEra day + 1) := by
  refine Decidable.byContradiction fun hlater => ?_
  have hfirst := (yearOfEra_first _ h).1
  exact Nat.lt_irrefl _ (Nat.lt_of_lt_of_le hfirst (yearOfEra_mono (Nat.le_of_not_lt hlater)))

/-! Years that begin in March. -/

/-- The days from 1 January 1970 to 1 March of a year. -/
def toMarch (year : Int) : Int :=
  year / 400 * daysOfEra + daysBeforeYear (year % 400).toNat - epoch

theorem toMarch_succ (year : Int) : toMarch (year + 1) = toMarch year + daysInYear (year + 1) := by
  simp only [toMarch, daysOfEra, daysBeforeYear, daysInYear]
  split
  next hleap =>
    rw [IsLeap] at hleap
    omega
  next hleap =>
    rw [IsLeap] at hleap
    omega

theorem days_of_le {year : Int} {month day : Nat} (h : month ≤ 2) :
    days ⟨year, month, day⟩ =
      toMarch (year - 1) + daysBeforeMonth (month + 9) + (day - 1 : Nat) := by
  simp only [days, if_pos h, toMarch, Int.fdiv_eq_ediv_of_nonneg _ (show (0 : Int) ≤ 400 by decide),
    Int.fmod_eq_emod_of_nonneg _ (show (0 : Int) ≤ 400 by decide)]
  omega

theorem days_of_lt {year : Int} {month day : Nat} (h : 2 < month) :
    days ⟨year, month, day⟩ = toMarch year + daysBeforeMonth (month - 3) + (day - 1 : Nat) := by
  simp only [days, if_neg (Nat.not_le.mpr h), toMarch,
    Int.fdiv_eq_ediv_of_nonneg _ (show (0 : Int) ≤ 400 by decide),
    Int.fmod_eq_emod_of_nonneg _ (show (0 : Int) ≤ 400 by decide)]
  omega

/-- A day is told by the year that it falls in, counted from March, and by the days before it. -/
theorem exists_ofDays (n : Int) : ∃ (year : Int) (day : Nat),
    n = toMarch year + day ∧ day < daysInYear (year + 1) ∧
      ofDays n =
        let month := (5 * day + 2) / 153
        { year := if month < 10 then year else year + 1
          month := if month < 10 then month + 3 else month - 9
          day := day - daysBeforeMonth month + 1 } := by
  -- Days are counted in eras of four hundred years, and in an era from the first of March.
  obtain ⟨era, dayOfEra, hday, hn⟩ : ∃ (era : Int) (dayOfEra : Nat), dayOfEra < daysOfEra ∧
      n + epoch = era * daysOfEra + dayOfEra := by
    refine ⟨(n + epoch) / daysOfEra, ((n + epoch) % daysOfEra).toNat, ?_, ?_⟩
    · simp only [daysOfEra]
      omega
    · simp only [daysOfEra]
      omega
  have hera : (n + epoch).fdiv daysOfEra = era := by
    rw [hn, Int.fdiv_eq_ediv_of_nonneg _ (Int.natCast_nonneg _)]
    simp only [daysOfEra] at hday ⊢
    omega
  have hmod : ((n + epoch).fmod daysOfEra).toNat = dayOfEra := by
    rw [hn, Int.fmod_eq_emod_of_nonneg _ (Int.natCast_nonneg _)]
    simp only [daysOfEra] at hday ⊢
    omega
  have hyear := yearOfEra_lt hday
  have hfirst := daysBeforeYear_le hday
  have hlast := @lt_daysBeforeYear_succ dayOfEra
  refine ⟨era * 400 + yearOfEra dayOfEra, dayOfEra - daysBeforeYear (yearOfEra dayOfEra),
    ?_, ?_, ?_⟩
  · have hyears : (era * 400 + yearOfEra dayOfEra) / 400 = era := by omega
    have hyearOfEra : ((era * 400 + yearOfEra dayOfEra) % 400).toNat = yearOfEra dayOfEra := by
      omega
    rw [toMarch, hyears, hyearOfEra]
    omega
  · rw [Int.add_assoc, daysInYear_era]
    generalize yearOfEra dayOfEra = year at hyear hfirst hlast ⊢
    by_cases hmore : year < 399
    · have hnext := daysBeforeYear_succ year hmore
      have hbefore := hlast (by omega)
      omega
    · -- The last year of an era ends with it, in a leap day.
      obtain rfl : year = 399 := by omega
      have hleap : daysInYear ((399 : Nat) + 1) = 366 := by decide
      rw [hleap]
      simp only [daysOfEra, daysBeforeYear] at hday ⊢
      omega
  · simp only [ofDays, hera, hmod]

theorem lt_twelve_of_lt_daysInYear {year : Int} {day : Nat} (h : day < daysInYear year) :
    (5 * day + 2) / 153 < 12 := by
  have hle : daysInYear year ≤ 366 := by
    rw [daysInYear]
    split <;> decide
  omega

theorem daysBeforeMonth_le (day : Nat) : daysBeforeMonth ((5 * day + 2) / 153) ≤ day := by
  simp only [daysBeforeMonth]
  omega

theorem lt_daysBeforeMonth_succ (day : Nat) : day < daysBeforeMonth ((5 * day + 2) / 153 + 1) := by
  simp only [daysBeforeMonth]
  omega

/-- Counting the days to the date of a day leads back to it. -/
theorem days_ofDays (n : Int) : (ofDays n).days = n := by
  obtain ⟨year, day, hn, hday, hdate⟩ := exists_ofDays n
  have hmonths := lt_twelve_of_lt_daysInYear hday
  have hmonth := daysBeforeMonth_le day
  simp only [hdate]
  generalize (5 * day + 2) / 153 = month at hmonths hmonth
  split
  next hspring =>
    rw [days_of_lt (by omega), Nat.add_sub_cancel, Nat.add_sub_cancel]
    omega
  next hspring =>
    rw [days_of_le (by omega), Int.add_sub_cancel, Nat.add_sub_cancel,
      Nat.sub_add_cancel (by omega)]
    omega

/-- The months from March to January have the lengths that the days before them tell. -/
theorem daysBeforeMonth_succ (year : Int) {month : Nat} (h : month < 11) :
    (daysBeforeMonth (month + 1) : Int) = daysBeforeMonth month +
      daysInMonth year (if month < 10 then month + 3 else month - 9) := by
  interval_cases month <;> rfl

/-- The date of a day is one that the calendar has. -/
theorem valid_ofDays (n : Int) : (ofDays n).Valid := by
  obtain ⟨year, day, _, hday, hdate⟩ := exists_ofDays n
  have hmonths := lt_twelve_of_lt_daysInYear hday
  have hfirst := daysBeforeMonth_le day
  have hlast := lt_daysBeforeMonth_succ day
  simp only [hdate]
  generalize (5 * day + 2) / 153 = month at hmonths hfirst hlast
  refine ⟨by simp only; split <;> omega, Nat.le_add_left 1 _, ?_⟩
  simp only
  by_cases hfebruary : month = 11
  · subst hfebruary
    rw [if_neg (by decide), if_neg (by decide)]
    simp only [daysInYear, daysBeforeMonth, daysInMonth] at hday hfirst ⊢
    split at hday
    next hleap =>
      rw [if_pos hleap]
      omega
    next hleap =>
      rw [if_neg hleap]
      omega
  · have hnext := daysBeforeMonth_succ (if month < 10 then year else year + 1)
      (show month < 11 by omega)
    omega

end Textproto.Date
