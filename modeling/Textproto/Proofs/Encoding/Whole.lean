import Textproto.Proofs.Encoding.Number

namespace Textproto

/-! Which doubles are written as whole numbers. -/

namespace Ieee

variable {f : Format} {x : Ieee f} {n : Int}

/-- What a finite number is worth. -/
def value (x : Ieee f) : ℚ :=
  (if x.negative then -1 else 1) * (x.units / f.scale)

/-- The number of a format that is nearest to a whole number. Zero has no sign. -/
def ofInt (n : Int) : Ieee f :=
  ofRatio (decide (n < 0)) n.natAbs 1

theorem abs_value (x : Ieee f) : |x.value| = x.units / f.scale := by
  have hsize : (0 : ℚ) ≤ x.units / f.scale := by positivity
  rw [value, abs_mul, abs_of_nonneg hsize]
  split <;> simp

theorem units_of_value (h : x.value = n) : x.units = n.natAbs * f.scale := by
  have habs := abs_value x
  rw [h, eq_div_iff (scale_ne_zero f), ← Int.cast_abs, Int.abs_eq_natAbs, Int.cast_natCast] at habs
  exact_mod_cast habs.symm

theorem value_of_units {size : Nat} (h : x.units = size * f.scale) :
    x.value = ((if x.negative then -size else size : Int) : ℚ) := by
  rw [value, h, Nat.cast_mul, mul_div_cancel_right₀ _ (scale_ne_zero f)]
  split <;> simp

theorem toInt?_eq_some_iff (hfinite : x.isFinite = true) : x.toInt? = some n ↔ x.value = n := by
  rw [toInt?, hfinite, Bool.true_and]
  by_cases hwhole : x.units % f.scale = 0
  · have hunits := (Nat.div_mul_cancel (Nat.dvd_of_mod_eq_zero hwhole)).symm
    rw [value_of_units hunits, Int.cast_inj, decide_eq_true hwhole, if_pos rfl, Option.some.injEq]
  · rw [decide_eq_false hwhole, if_neg Bool.false_ne_true]
    refine iff_of_false (Option.some_ne_none n).symm fun h => hwhole ?_
    rw [units_of_value h, Nat.mul_mod_left]

theorem value_zero_neg : (zero.neg : Ieee f).value = 0 := by
  rw [value, units_neg, units, zero, Format.units_zero, Nat.cast_zero, zero_div, mul_zero]

/-- What is negative and worth nothing is the negative zero. -/
theorem eq_zero_neg (hnegative : x.negative = true) (h : x.value = 0) : x = zero.neg := by
  have hunits : x.units = 0 * f.scale := units_of_value (by rw [h, Int.cast_zero])
  rw [Nat.zero_mul, ← f.units_zero] at hunits
  exact Encoding.eq_of_code hnegative (Format.units_injective hunits)

/-- All whole numbers but the negative zero have the sign of their value. -/
theorem negative_of_value (h : x.value = n) (hzero : x ≠ zero.neg) :
    x.negative = decide (n < 0) := by
  have hsize := value_of_units (units_of_value h)
  rw [h, Int.cast_inj] at hsize
  cases hnegative : x.negative with
  | false =>
      rw [hnegative, if_neg Bool.false_ne_true] at hsize
      rw [eq_comm, decide_eq_false_iff_not]
      omega
  | true =>
      rw [hnegative, if_pos rfl] at hsize
      rw [eq_comm, decide_eq_true_iff]
      refine lt_of_le_of_ne (by omega) fun heq => hzero (eq_zero_neg hnegative ?_)
      rw [h, heq, Int.cast_zero]

/-- A number that is whole is the nearest to itself. -/
theorem ofInt_of_value (hfinite : x.isFinite = true) (h : x.value = n) (hzero : x ≠ zero.neg) :
    ofInt n = x := by
  refine Encoding.eq_of_code (negative_of_value h hzero).symm ?_
  refine Format.codeOfRatio_of_units Nat.one_pos (of_decide_eq_true hfinite) ?_
  rw [Nat.cast_one, div_one, ← Nat.cast_mul, ← units_of_value h]
  rfl

end Ieee

namespace Encoding

variable {x : Double} {n : Int}

theorem not_isInfinite_of_isFinite (hfinite : x.isFinite = true) : x.isInfinite = false := by
  simp only [Ieee.isFinite, Ieee.isInfinite, decide_eq_true_eq, decide_eq_false_iff_not]
    at hfinite ⊢
  omega

/-- The negative zero is the only whole number that is kept as a double for its sign. -/
theorem negative_and_zero_iff (h : x.value = n) :
    (x.negative && decide (n = 0)) = true ↔ x = Ieee.zero.neg := by
  rw [Bool.and_eq_true, decide_eq_true_eq]
  constructor
  · rintro ⟨hnegative, rfl⟩
    exact Ieee.eq_zero_neg hnegative (by rw [h, Int.cast_zero])
  · rintro rfl
    rw [Ieee.value_zero_neg] at h
    exact ⟨rfl, by exact_mod_cast h.symm⟩

theorem doubleJson_of_value (hfinite : x.isFinite = true) (h : x.value = n) :
    doubleJson x = if n.natAbs < wholeLimit ∧ x ≠ Ieee.zero.neg then .int n else .double x := by
  rw [doubleJson, isNaN_of_isFinite hfinite, not_isInfinite_of_isFinite hfinite]
  simp only [Bool.false_eq_true, if_false, (Ieee.toInt?_eq_some_iff hfinite).mpr h,
    Bool.and_eq_true, decide_eq_true_eq, Bool.not_eq_true', ← Bool.not_eq_true,
    negative_and_zero_iff h]

theorem doubleJson_of_fraction (hfinite : x.isFinite = true) (h : ∀ n : Int, x.value ≠ n) :
    doubleJson x = .double x := by
  have hnone : x.toInt? = none := by
    rw [Option.eq_none_iff_forall_ne_some]
    exact fun n hn => h n ((Ieee.toInt?_eq_some_iff hfinite).mp hn)
  rw [doubleJson, isNaN_of_isFinite hfinite, not_isInfinite_of_isFinite hfinite, hnone]
  rfl

theorem doubleJson_eq_int_iff (hfinite : x.isFinite = true) :
    doubleJson x = .int n ↔ x.value = n ∧ n.natAbs < wholeLimit ∧ x ≠ Ieee.zero.neg := by
  by_cases hwhole : ∃ m : Int, x.value = m
  · obtain ⟨m, hm⟩ := hwhole
    rw [doubleJson_of_value hfinite hm, hm, Int.cast_inj]
    split
    next h =>
      rw [Json.int.injEq]
      exact ⟨fun heq => ⟨heq, heq ▸ h⟩, And.left⟩
    next h =>
      refine iff_of_false nofun ?_
      rintro ⟨rfl, hrange⟩
      exact h hrange
  · rw [not_exists] at hwhole
    rw [doubleJson_of_fraction hfinite hwhole]
    exact iff_of_false nofun fun h => hwhole n h.1

/-- Sixty-four bits hold the whole numbers that are small enough, and one more. -/
theorem natAbs_lt_wholeLimit_iff (n : Int) : n.natAbs < wholeLimit ↔
    (-2 ^ 63 : ℚ) ≤ n ∧ (n : ℚ) ≤ 2 ^ 63 - 1 ∧ (n : ℚ) ≠ -2 ^ 63 := by
  have hint : n.natAbs < wholeLimit ↔ -2 ^ 63 ≤ n ∧ n ≤ 2 ^ 63 - 1 ∧ n ≠ -2 ^ 63 := by
    rw [wholeLimit]
    omega
  rw [hint]
  exact_mod_cast Iff.rfl

/-- A finite double is written as a whole number if it is one, lies in the range of sixty-four bits
and is neither the least number there nor the negative zero. The number is worth what the double is.
All others are written as doubles. -/
theorem doubleJson_finite {x : Double} (hfinite : x.isFinite = true) :
    ((∃ n, doubleJson x = .int n) ↔
      (∃ n : Int, x.value = n) ∧ -2 ^ 63 ≤ x.value ∧ x.value ≤ 2 ^ 63 - 1 ∧
        x ≠ Ieee.zero.neg ∧ x.value ≠ -2 ^ 63) ∧
    (∀ n, doubleJson x = .int n → x.value = n) ∧
    ((∀ n, doubleJson x ≠ .int n) → doubleJson x = .double x) := by
  refine ⟨?_, fun n hn => ((doubleJson_eq_int_iff hfinite).mp hn).1, fun hnone => ?_⟩
  · simp only [doubleJson_eq_int_iff hfinite, natAbs_lt_wholeLimit_iff]
    constructor
    · rintro ⟨n, hn, ⟨hleast, hgreatest, hne⟩, hzero⟩
      rw [hn]
      exact ⟨⟨n, rfl⟩, hleast, hgreatest, hzero, hne⟩
    · rintro ⟨⟨n, hn⟩, hleast, hgreatest, hzero, hne⟩
      rw [hn] at hleast hgreatest hne
      exact ⟨n, hn, ⟨hleast, hgreatest, hne⟩, hzero⟩
  -- A whole number that is no integer in JSON is out of range or the negative zero.
  · by_cases hwhole : ∃ n : Int, x.value = n
    · obtain ⟨n, hn⟩ := hwhole
      have hdouble := doubleJson_of_value hfinite hn
      rw [hdouble]
      split
      next h => exact absurd (hdouble.trans (if_pos h)) (hnone n)
      next => rfl
    · exact doubleJson_of_fraction hfinite (not_exists.mp hwhole)

/-- The least integer of sixty-four bits, which is a double. -/
theorem doubleJson_finite_least :
    let x : Double := ⟨true, 1086 * 2 ^ 52, by decide⟩
    x.isFinite = true ∧ x.value = -2 ^ 63 ∧ doubleJson x = .double x := by
  intro x
  have hfinite : x.isFinite = true := by decide
  have hvalue : x.value = -2 ^ 63 := by
    have hunits : x.units = 2 ^ 63 * Ieee.Format.double.scale := by decide +kernel
    rw [Ieee.value_of_units hunits]
    norm_num [x]
  obtain ⟨hint, _, hdouble⟩ := doubleJson_finite hfinite
  refine ⟨hfinite, hvalue, hdouble fun n hn => ?_⟩
  exact (hint.mp ⟨n, hn⟩).2.2.2.2 hvalue

end Encoding

end Textproto
