import Mathlib
import Textproto.Ieee.Decimal
import Textproto.Proofs.Ieee.Rounding

namespace Textproto

/-! The shortest decimal of a number reads as that number and lies near it. -/

namespace Decimal

def value (d : Decimal) : ℚ :=
  d.digits * 10 ^ d.exponent

theorem pow_toNat_div (exponent : ℤ) :
    (10 ^ exponent.toNat / 10 ^ (-exponent).toNat : ℚ) = 10 ^ exponent := by
  rcases Int.le_total 0 exponent with h | h
  · obtain ⟨n, rfl⟩ := Int.eq_ofNat_of_zero_le h
    simp
  · obtain ⟨n, hn⟩ := Int.eq_ofNat_of_zero_le (Int.neg_nonneg.mpr h)
    obtain rfl : exponent = -n := by omega
    simp

/-- The ratio that a decimal is read from. -/
theorem ratio_eq (d : Decimal) :
    ((d.digits * Nat.pow 10 d.exponent.toNat : ℕ) : ℚ) / (Nat.pow 10 (-d.exponent).toNat : ℕ) =
      d.value := by
  rw [value, ← pow_toNat_div, Nat.pow_eq, Nat.pow_eq]
  push_cast
  ring

theorem value_trim (d : Decimal) : d.trim.value = d.value := by
  fun_induction trim d with
  | case1 d h ih =>
      have hdigits : d.digits = 10 * (d.digits / 10) := by omega
      rw [ih, value, value, zpow_add_one₀ (by norm_num)]
      simp only
      nth_rewrite 2 [hdigits]
      push_cast
      ring
  | case2 => rfl

end Decimal

namespace Ieee

variable {f : Ieee.Format} {x : Ieee f}

/-- A decimal that reads as a number, within one step of its own grid from it. -/
structure Spells (d : Decimal) (x : Ieee f) : Prop where
  reads : f.codeOfRatio (d.digits * Nat.pow 10 d.exponent.toNat) (Nat.pow 10 (-d.exponent).toNat) =
    x.code
  near : |d.value - x.units / f.scale| ≤ 10 ^ d.exponent

theorem scale_ne_zero (f : Ieee.Format) : (f.scale : ℚ) ≠ 0 := by
  exact_mod_cast f.scale_pos.ne'

theorem reads_of_readsBack {d : Decimal} (h : x.readsBack d = true) :
    f.codeOfRatio (d.digits * Nat.pow 10 d.exponent.toNat) (Nat.pow 10 (-d.exponent).toNat) =
      x.code :=
  congrArg code (of_decide_eq_true h)

/-- A decimal without any error is a good spelling. -/
theorem Spells.of_value (hfinite : x.isFinite = true) {d : Decimal}
    (h : d.value = x.units / f.scale) : Spells d x where
  reads := by
    have hden : 0 < Nat.pow 10 (-d.exponent).toNat := Nat.pow_pos (by decide)
    refine Format.codeOfRatio_of_units hden (of_decide_eq_true hfinite) ?_
    rw [Decimal.ratio_eq, h, div_mul_cancel₀ _ (scale_ne_zero f)]
    rfl
  near := by
    rw [h, sub_self, abs_zero]
    positivity

theorem value_exact (x : Ieee f) : x.exact.value = x.units / f.scale := by
  have hten : (10 : ℚ) ^ f.unitBits = 5 ^ f.unitBits * 2 ^ f.unitBits := by
    rw [← mul_pow]
    norm_num
  rw [Decimal.value, exact, Format.scale]
  simp only [Nat.pow_eq, zpow_neg, zpow_natCast]
  push_cast
  rw [hten]
  field_simp

theorem onGrid_eq_some {tie : Tie} {exponent : Int} {d : Decimal}
    (h : x.onGrid tie exponent = some d) : ∃ digits, d = ⟨digits, exponent⟩ ∧
      (digits = x.units * Nat.pow 10 (-exponent).toNat / (f.scale * Nat.pow 10 exponent.toNat) ∨
        digits =
          x.units * Nat.pow 10 (-exponent).toNat / (f.scale * Nat.pow 10 exponent.toNat) + 1) := by
  unfold onGrid at h
  simp only at h
  split at h
  · cases h
  · cases h
    exact ⟨_, rfl, .inl rfl⟩
  · cases h
    exact ⟨_, rfl, .inr rfl⟩
  · split at h
    · cases h
      exact ⟨_, rfl, .inl rfl⟩
    · cases h
      exact ⟨_, rfl, .inr rfl⟩

/-- Both neighbours of a number on a grid are within a step of it. -/
theorem spells_of_onGrid {tie : Tie} {exponent : Int} {d : Decimal}
    (h : x.onGrid tie exponent = some d) : Spells d x where
  reads := reads_of_readsBack (readsBack_of_onGrid h)
  near := by
    obtain ⟨digits, rfl, hdigits⟩ := onGrid_eq_some h
    have hstep : 0 < f.scale * Nat.pow 10 exponent.toNat :=
      Nat.mul_pos f.scale_pos (Nat.pow_pos (by decide))
    have hquotient : x.units / f.scale = ((x.units * Nat.pow 10 (-exponent).toNat : ℕ) : ℚ) /
        (f.scale * Nat.pow 10 exponent.toNat : ℕ) * 10 ^ exponent := by
      rw [← Decimal.pow_toNat_div, Nat.pow_eq, Nat.pow_eq]
      push_cast
      have := scale_ne_zero f
      field_simp
    have hten : (0 : ℚ) < 10 ^ exponent := by positivity
    rw [hquotient, Decimal.value, ← sub_mul, abs_mul, abs_of_pos hten]
    refine mul_le_of_le_one_left (by positivity) ?_
    generalize x.units * Nat.pow 10 (-exponent).toNat = size at hdigits ⊢
    generalize f.scale * Nat.pow 10 exponent.toNat = step at hdigits hstep ⊢
    have hpos : (0 : ℚ) < step := by exact_mod_cast hstep
    have hmod := Nat.mod_lt size hstep
    have hdiv := Nat.div_add_mod size step
    have hbelow : digits * step ≤ size + step := by
      rcases hdigits with rfl | rfl <;> nlinarith [Nat.zero_le (size % step)]
    have habove : size ≤ (digits + 1) * step := by
      rcases hdigits with rfl | rfl <;> nlinarith [Nat.zero_le (size % step)]
    have hbelow : (digits * step : ℚ) ≤ size + step := by exact_mod_cast hbelow
    have habove : (size : ℚ) ≤ (digits + 1) * step := by exact_mod_cast habove
    rw [abs_le]
    constructor
    · rw [neg_le_sub_iff_le_add, div_le_iff₀ hpos]
      exact habove
    · rw [sub_le_iff_le_add, ← sub_le_iff_le_add', le_div_iff₀ hpos]
      linarith

theorem exists_spells (hfinite : x.isFinite = true) (tie : Tie) :
    ∃ d, Spells d x ∧ (x.shortest tie).value = d.value := by
  unfold shortest
  split
  next hzero =>
    refine ⟨⟨0, 0⟩, .of_value hfinite ?_, rfl⟩
    simp [Decimal.value, hzero]
  next =>
    simp only [Decimal.value_trim]
    cases hfound : (List.range digitLimit).findSome? fun n =>
        x.onGrid tie (magnitude x.units f.scale - (n + 1 : Nat)) with
    | none => exact ⟨x.exact, .of_value hfinite (value_exact x), rfl⟩
    | some d =>
        obtain ⟨n, _, hd⟩ := List.exists_of_findSome?_eq_some hfound
        exact ⟨d, spells_of_onGrid hd, rfl⟩

end Ieee

end Textproto
