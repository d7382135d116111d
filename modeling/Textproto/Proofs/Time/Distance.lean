import Mathlib
import Textproto.Proofs.Time.Calendar

namespace Textproto.Date

/-! How far dates are apart. -/

/-- The days from 1 January 1970 to a date, or back to it, year by year and month by month. -/
noncomputable def distance (date : Date) : Int :=
  ∑ year ∈ Finset.Ico 1970 date.year, daysInYear year
    - ∑ year ∈ Finset.Ico date.year 1970, daysInYear year
    + ∑ month ∈ Finset.Ico 1 date.month, daysInMonth date.year month
    + (date.day - 1)

theorem days_next_year (year : Int) :
    days ⟨year + 1, 1, 1⟩ = days ⟨year, 1, 1⟩ + daysInYear year := by
  have hmarch := toMarch_succ (year - 1)
  rw [Int.sub_add_cancel] at hmarch
  rw [days_of_le (by decide), days_of_le (by decide), Int.add_sub_cancel, hmarch]
  omega

theorem days_next_month (year : Int) {month : Nat} (hfirst : 1 ≤ month) (hlast : month < 12) :
    days ⟨year, month + 1, 1⟩ = days ⟨year, month, 1⟩ + daysInMonth year month := by
  rcases Nat.lt_trichotomy month 2 with hmonth | rfl | hmonth
  · obtain rfl : month = 1 := by omega
    rw [days_of_le (by decide), days_of_le (by decide)]
    simp only [daysBeforeMonth, daysInMonth]
    omega
  · have hmarch := toMarch_succ (year - 1)
    rw [Int.sub_add_cancel] at hmarch
    rw [days_of_lt (by decide), days_of_le (by decide), hmarch]
    simp only [daysBeforeMonth, daysInMonth, daysInYear]
    split <;> omega
  · have hnext := daysBeforeMonth_succ year (show month - 3 < 11 by omega)
    rw [if_pos (by omega), Nat.sub_add_cancel (by omega)] at hnext
    rw [days_of_lt (by omega), days_of_lt hmonth, Nat.sub_add_comm hmonth, hnext]
    omega

theorem sum_daysInYear {first last : Int} (h : first ≤ last) :
    ∑ year ∈ Finset.Ico first last, daysInYear year =
      days ⟨last, 1, 1⟩ - days ⟨first, 1, 1⟩ := by
  induction last, h using Int.leInduction with
  | base => rw [Finset.Ico_self, Finset.sum_empty, Int.sub_self]
  | succ year hyear ih =>
      rw [← Finset.sum_Ico_add_eq_sum_Ico_add_one hyear, ih, days_next_year]
      omega

theorem sum_daysInMonth (year : Int) {month : Nat} (hfirst : 1 ≤ month) (hlast : month ≤ 12) :
    ∑ month ∈ Finset.Ico 1 month, daysInMonth year month =
      days ⟨year, month, 1⟩ - days ⟨year, 1, 1⟩ := by
  induction month, hfirst using Nat.le_induction with
  | base => rw [Finset.Ico_self, Finset.sum_empty, Int.sub_self]
  | succ month hmonth ih =>
      rw [Finset.sum_Ico_succ_top hmonth, ih (by omega), days_next_month year hmonth hlast]
      omega

theorem days_eq_add (year : Int) (month : Nat) {day : Nat} (h : 1 ≤ day) :
    days ⟨year, month, day⟩ = days ⟨year, month, 1⟩ + (day - 1) := by
  simp only [days]
  omega

/-- The days up to a date are those that its eras, years and months have. -/
theorem Valid.days_eq {date : Date} (h : date.Valid) : date.days = date.distance := by
  obtain ⟨⟨hfirst, hlast⟩, hday, _⟩ := h
  have hmonths := sum_daysInMonth date.year hfirst hlast
  have hyears : ∑ year ∈ Finset.Ico 1970 date.year, daysInYear year
      - ∑ year ∈ Finset.Ico date.year 1970, daysInYear year = days ⟨date.year, 1, 1⟩ := by
    have hepoch : days ⟨1970, 1, 1⟩ = 0 := by decide
    rcases Int.le_total 1970 date.year with hyear | hyear
    · rw [sum_daysInYear hyear, Finset.Ico_eq_empty (Int.not_lt.mpr hyear), Finset.sum_empty]
      omega
    · rw [sum_daysInYear hyear, Finset.Ico_eq_empty (Int.not_lt.mpr hyear), Finset.sum_empty]
      omega
  rw [distance, hyears, hmonths]
  have hadd : date.days = _ := days_eq_add date.year date.month hday
  omega

/-! Dates in the order of their years. -/

theorem days_strictMono : StrictMono fun year => days ⟨year, 1, 1⟩ := by
  refine strictMono_int_of_lt_succ fun year => ?_
  have hlength : 0 < daysInYear year := by
    rw [daysInYear]
    split <;> decide
  rw [days_next_year]
  omega

theorem daysInMonth_pos (year : Int) (month : Nat) : 0 < daysInMonth year month := by
  unfold daysInMonth
  split
  next => split <;> decide
  all_goals decide

theorem daysInMonth_le (year : Int) (month : Nat) : daysInMonth year month ≤ 31 := by
  unfold daysInMonth
  split
  next => split <;> decide
  all_goals decide

theorem sum_year (year : Int) :
    ∑ month ∈ Finset.Ico 1 13, daysInMonth year month = daysInYear year := by
  simp only [Finset.sum_Ico_succ_top, Nat.reduceLeDiff, Finset.Ico_self, Finset.sum_empty,
    daysInMonth, daysInYear]
  split <;> rfl

/-- A date lies in its year. -/
theorem Valid.days_bounds {date : Date} (h : date.Valid) :
    days ⟨date.year, 1, 1⟩ ≤ date.days ∧ date.days < days ⟨date.year + 1, 1, 1⟩ := by
  obtain ⟨⟨hfirst, hlast⟩, hday, hshort⟩ := h
  have hmonths := sum_daysInMonth date.year hfirst hlast
  have hadd : date.days = _ := days_eq_add date.year date.month hday
  have hnonneg (month : Nat) : 0 ≤ daysInMonth date.year month := (daysInMonth_pos _ _).le
  have hbefore : 0 ≤ ∑ month ∈ Finset.Ico 1 date.month, daysInMonth date.year month :=
    Finset.sum_nonneg fun month _ => hnonneg month
  have hyear : ∑ month ∈ Finset.Ico 1 (date.month + 1), daysInMonth date.year month ≤
      daysInYear date.year := by
    rw [← sum_year]
    refine Finset.sum_le_sum_of_subset_of_nonneg ?_ fun month _ _ => hnonneg month
    exact Finset.Ico_subset_Ico_right (by omega)
  rw [Finset.sum_Ico_succ_top hfirst] at hyear
  rw [days_next_year]
  omega

theorem Valid.year_lt_iff {date : Date} (h : date.Valid) (year : Int) :
    date.year < year ↔ date.days < days ⟨year, 1, 1⟩ := by
  obtain ⟨hfirst, hlast⟩ := h.days_bounds
  constructor
  · intro hyear
    exact lt_of_lt_of_le hlast (days_strictMono.monotone (Int.add_one_le_of_lt hyear))
  · intro hdays
    exact days_strictMono.lt_iff_lt.mp (lt_of_le_of_lt hfirst hdays)

end Textproto.Date
