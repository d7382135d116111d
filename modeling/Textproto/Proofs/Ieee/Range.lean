import Mathlib
import Textproto.Proofs.Encoding.Number

namespace Textproto.Ieee

/-! Which numbers are rounded below a code, and which of them are rounded to infinity. -/

/-- A half between two whole numbers is rounded to the even one. -/
theorem roundEven_half {num den : Nat} (hden : 0 < den)
    (h : 2 * num = (2 * roundEven num den + 1) * den) : roundEven num den % 2 = 0 := by
  have hmod := Nat.mod_lt num hden
  have hdiv := Nat.div_add_mod num den
  unfold roundEven at h ⊢
  simp only at h ⊢
  split at h
  next hdown =>
    rw [if_pos hdown]
    have htwice : 2 * (num % den) = den := by nlinarith
    simpa [htwice] using hdown
  next => nlinarith

namespace Format

variable {f : Format} {num den code : Nat}

theorem units_strictMono (f : Format) : StrictMono f.units := by
  intro code other h
  obtain ⟨shift, significand, rfl, hunits, hlt, hle⟩ := f.exists_significand code
  obtain ⟨shift', significand', rfl, hunits', hlt', hle'⟩ := f.exists_significand other
  rw [hunits, hunits']
  rcases Nat.lt_trichotomy shift shift' with hshift | rfl | hshift
  · exact mul_pow_lt hshift hlt (hle' (by omega))
  · exact Nat.mul_lt_mul_of_pos_right (by omega) (Nat.two_pow_pos _)
  · have hmore : (shift' + 1) * 2 ^ f.fractionBits ≤ shift * 2 ^ f.fractionBits :=
      Nat.mul_le_mul_right _ hshift
    have := hle (by omega)
    rw [pow_succ] at hlt'
    rw [Nat.add_mul] at hmore
    omega

/-- No number of the format is nearer to a ratio than the one it is rounded to. -/
theorem abs_sub_rounded_le (hden : 0 < den) (code : Nat) :
    |(num / den : ℚ) * f.scale - f.units (f.rounded num den)| ≤
      |(num / den : ℚ) * f.scale - f.units code| := by
  by_cases h : code = f.rounded num den
  · rw [h]
  · exact (abs_sub_units_le hden).trans (le_abs_sub_units hden h)

/-- Half way above the number that it is rounded to, a ratio has been rounded to an even code. -/
theorem rounded_half (hbits : 0 < f.fractionBits) (hden : 0 < den)
    (h : (num / den : ℚ) * f.scale - f.units (f.rounded num den) = 2 ^ f.shift num den / 2) :
    f.rounded num den % 2 = 0 := by
  have hpos : (0 : ℚ) < den := by exact_mod_cast hden
  rw [units_rounded hden, div_mul_eq_mul_div, Nat.cast_mul, Nat.cast_pow, Nat.cast_ofNat,
    sub_eq_iff_eq_add, div_eq_iff hpos.ne'] at h
  have htwice : (2 * (num * f.scale) : ℚ) =
      (2 * f.significand num den + 1) * (den * 2 ^ f.shift num den) := by
    rw [h]
    ring
  have htwice : 2 * (num * f.scale) =
      (2 * f.significand num den + 1) * (den * 2 ^ f.shift num den) := by exact_mod_cast htwice
  have heven := roundEven_half (Nat.mul_pos hden (Nat.two_pow_pos (f.shift num den))) htwice
  obtain ⟨bits, hfraction⟩ := Nat.exists_eq_succ_of_ne_zero hbits.ne'
  rw [rounded, hfraction, pow_succ, ← Nat.mul_assoc, Nat.mul_comm, Nat.mul_add_mod]
  exact heven

/-- Below an even code are rounded the ratios that are nearer to the number before it, and no
others. -/
theorem rounded_lt_iff (hbits : 0 < f.fractionBits) (hden : 0 < den) (heven : code % 2 = 0)
    (hcode : 0 < code) : f.rounded num den < code ↔
      2 * ((num / den : ℚ) * f.scale) < f.units (code - 1) + f.units code := by
  have hgap : (f.units (code - 1) : ℚ) < f.units code := by
    exact_mod_cast f.units_strictMono (show code - 1 < code by omega)
  have hnear := @abs_sub_rounded_le f num den hden
  constructor
  · intro hlt
    have hbelow : (f.units (f.rounded num den) : ℚ) ≤ f.units (code - 1) := by
      exact_mod_cast f.units_strictMono.monotone (Nat.le_sub_one_of_lt hlt)
    by_contra hle
    have hfar := hnear code
    rw [abs_of_nonneg (by linarith)] at hfar
    -- Only half way between the two codes is left, where rounding has gone to the lower one.
    obtain ⟨hhalf, hlower⟩ : 2 * ((num / den : ℚ) * f.scale) = f.units (code - 1) + f.units code ∧
        (f.units (f.rounded num den) : ℚ) = f.units (code - 1) := by
      rcases abs_cases ((num / den : ℚ) * f.scale - f.units code) with ⟨heq, _⟩ | ⟨heq, _⟩ <;>
        constructor <;> linarith
    have hrounded : f.rounded num den = code - 1 := units_injective (by exact_mod_cast hlower)
    have hwide := @le_abs_sub_units f num den hden code (by omega)
    have hnarrow := @abs_sub_units_le f num den hden
    rw [hlower, abs_of_nonneg (by linarith)] at hnarrow
    rw [abs_sub_comm, abs_of_nonneg (by linarith)] at hwide
    have hexact : (num / den : ℚ) * f.scale - f.units (f.rounded num den) =
        2 ^ f.shift num den / 2 := by
      rw [hlower]
      linarith
    have hparity := rounded_half hbits hden hexact
    omega
  · intro hlt
    by_contra hle
    have habove : (f.units code : ℚ) ≤ f.units (f.rounded num den) := by
      exact_mod_cast f.units_strictMono.monotone (Nat.le_of_not_lt hle)
    have hnear := hnear (code - 1)
    rw [abs_sub_comm, abs_of_nonneg (by linarith)] at hnear
    rcases abs_cases ((num / den : ℚ) * f.scale - f.units (code - 1)) with ⟨heq, _⟩ | ⟨heq, _⟩ <;>
      linarith

end Format

variable {f : Format}

theorem isFinite_ofRatio (negative : Bool) (num den : Nat) :
    (ofRatio negative num den : Ieee f).isFinite = true ↔ f.rounded num den < f.infinity := by
  have hcode : (ofRatio negative num den : Ieee f).code =
      min (f.rounded num den) f.infinity := rfl
  rw [isFinite, decide_eq_true_iff, hcode]
  omega

/-- What is rounded beyond the finite numbers is infinite. -/
theorem ofRatio_of_not_isFinite {negative : Bool} {num den : Nat}
    (h : ¬ (ofRatio negative num den : Ieee f).isFinite = true) :
    (ofRatio negative num den : Ieee f) = infinity negative := by
  rw [isFinite_ofRatio] at h
  have hcode : f.codeOfRatio num den = f.infinity := by
    rw [Format.codeOfRatio_eq]
    omega
  simp only [ofRatio, infinity, hcode]

/-- A bound half way between two doubles, in ones. -/
theorem two_mul_scale_lt_iff {value bound : ℚ} (shift : Nat) :
    2 * (value * Format.double.scale) < bound * 2 ^ (1 + 149 + 925 + shift) ↔
      value < bound * 2 ^ shift := by
  have hscale : (0 : ℚ) < 2 ^ 149 * 2 ^ 925 := by positivity
  have hright : bound * 2 ^ (1 + 149 + 925 + shift) =
      2 * (bound * 2 ^ shift * (2 ^ 149 * 2 ^ 925)) := by
    rw [pow_add, pow_add, pow_add, pow_one]
    generalize (2 : ℚ) ^ 925 = many
    ring
  rw [scale_double, hright, mul_lt_mul_iff_right₀ two_pos, mul_lt_mul_iff_left₀ hscale]

/-- A decimal is read as a finite double if it is nearer to the greatest of them than to the power
of two behind it. -/
theorem isFinite_double (negative : Bool) (d : Decimal) :
    (ofDecimal negative d.digits d.exponent : Double).isFinite = true ↔
      d.value < 2 ^ 1024 - 2 ^ 970 := by
  have hbound : ((Format.double.units (Format.double.infinity - 1) : ℕ) : ℚ) +
      Format.double.units Format.double.infinity = (2 ^ 54 - 1) * 2 ^ (1 + 149 + 925 + 970) := by
    rw [show Format.double.units (Format.double.infinity - 1) =
        9007199254740991 * 2 ^ (1 + 149 + 925 + 970) by decide +kernel,
      show Format.double.units Format.double.infinity =
        9007199254740992 * 2 ^ (1 + 149 + 925 + 970) by decide +kernel,
      Nat.cast_mul, Nat.cast_mul, ← add_mul, Nat.cast_pow, Nat.cast_ofNat]
    congr 1
    norm_num
  have hpow : (2 ^ 54 - 1) * 2 ^ 970 = (2 ^ 1024 - 2 ^ 970 : ℚ) := by
    rw [sub_mul, one_mul, ← pow_add]
  rw [ofDecimal, isFinite_ofRatio, Format.rounded_lt_iff (by decide) (pos_den d) (by decide +kernel)
    (by decide +kernel), Decimal.ratio_eq, hbound, two_mul_scale_lt_iff, hpow]

theorem two_pow_le_beyond_double {exponent : Nat} (h : exponent ≤ 970) :
    (2 ^ exponent : ℚ) ≤ 2 ^ 1024 - 2 ^ 970 := by
  refine (pow_le_pow_right₀ one_le_two h).trans ?_
  rw [le_sub_iff_add_le, ← two_mul, ← pow_succ']
  exact pow_le_pow_right₀ one_le_two (by decide)

theorem ofDecimal_double_of_large {negative : Bool} {d : Decimal}
    (h : 2 ^ 1024 - 2 ^ 970 ≤ d.value) :
    (ofDecimal negative d.digits d.exponent : Double) = infinity negative := by
  refine ofRatio_of_not_isFinite ?_
  rw [← ofDecimal, isFinite_double]
  exact not_lt.mpr h

/-- The code of the least double that lies beyond the singles: half way between the greatest of them
and the power of two behind it. -/
def Format.beyondSingle : Nat := 1149 * 2 ^ 52 + (2 ^ 53 - 2 ^ 28)

theorem isFinite_convert {x : Double} (hx : x.isFinite = true) :
    (x.convert : Single).isFinite = true ↔ x.code < Format.beyondSingle := by
  have hnan : x.isNaN = false := by
    simp only [isFinite, isNaN, decide_eq_true_eq, decide_eq_false_iff_not] at hx ⊢
    omega
  have hinfinite : x.isInfinite = false := by
    simp only [isFinite, isInfinite, decide_eq_true_eq, decide_eq_false_iff_not] at hx ⊢
    omega
  have hbound : ((Format.single.units (Format.single.infinity - 1) : ℕ) : ℚ) +
      Format.single.units Format.single.infinity = 33554431 * (2 * 2 ^ 252) := by
    rw [show Format.single.units (Format.single.infinity - 1) = 16777215 * (2 * 2 ^ 252) by
        decide +kernel,
      show Format.single.units Format.single.infinity = 16777216 * (2 * 2 ^ 252) by decide +kernel]
    norm_num
  have hunits : x.code < Format.beyondSingle ↔ (x.units : ℚ) < 33554431 * (2 ^ 252 * 2 ^ 925) := by
    have hbeyond : Format.double.units Format.beyondSingle = 33554431 * (2 ^ 252 * 2 ^ 925) := by
      decide +kernel
    rw [← Format.double.units_strictMono.lt_iff_lt, hbeyond]
    exact_mod_cast Iff.rfl
  have hscale : (x.units / (2 ^ 149 * 2 ^ 925) * 2 ^ 149 : ℚ) = x.units / 2 ^ 925 := by
    have : (2 ^ 149 : ℚ) ≠ 0 := by positivity
    rw [← div_div, div_mul_eq_mul_div, div_mul_cancel₀ _ this]
  have hpos : (0 : ℚ) < 2 ^ 925 := by positivity
  simp only [convert, hnan, hinfinite, Bool.false_eq_true, if_false]
  rw [isFinite_ofRatio, Format.rounded_lt_iff (by decide) Format.double.scale_pos
    (by decide +kernel) (by decide +kernel), hbound, hunits, scale_double, scale_single, hscale,
    mul_left_comm, mul_lt_mul_iff_right₀ two_pos, div_lt_iff₀ hpos, mul_assoc]

theorem convert_infinity (negative : Bool) :
    (infinity negative : Double).convert = (infinity negative : Single) := by
  cases negative <;> decide +kernel

/-- A decimal is read as a double that is no more than a single if it is nearer to the greatest such
double than to the next. -/
theorem isFinite_single (negative : Bool) (d : Decimal) :
    ((ofDecimal negative d.digits d.exponent : Double).convert : Single).isFinite = true ↔
      d.value < 2 ^ 128 - 2 ^ 103 - 2 ^ 74 := by
  have hbound : ((Format.double.units (Format.beyondSingle - 1) : ℕ) : ℚ) +
      Format.double.units Format.beyondSingle =
        (2 ^ 54 - 2 ^ 29 - 1) * 2 ^ (1 + 149 + 925 + 74) := by
    rw [show Format.double.units (Format.beyondSingle - 1) =
        9007198986305535 * 2 ^ (1 + 149 + 925 + 74) by decide +kernel,
      show Format.double.units Format.beyondSingle =
        9007198986305536 * 2 ^ (1 + 149 + 925 + 74) by decide +kernel,
      Nat.cast_mul, Nat.cast_mul, ← add_mul, Nat.cast_pow, Nat.cast_ofNat]
    congr 1
    norm_num
  have hpow : ((2 ^ 54 - 2 ^ 29 - 1) * 2 ^ 74 : ℚ) = 2 ^ 128 - 2 ^ 103 - 2 ^ 74 := by
    norm_num
  rw [← hpow, ← two_mul_scale_lt_iff, ← hbound, ← Decimal.ratio_eq,
    ← Format.rounded_lt_iff (by decide) (pos_den d) (by decide +kernel) (by decide +kernel)]
  by_cases hfinite : (ofDecimal negative d.digits d.exponent : Double).isFinite = true
  · have hcode : (ofDecimal negative d.digits d.exponent : Double).code =
        Format.double.readOf d :=
      (Format.rounded_of_finite rfl (of_decide_eq_true hfinite)).symm
    rw [isFinite_convert hfinite, hcode, Format.readOf]
  · have hlarge : Format.beyondSingle < Format.double.infinity := by decide +kernel
    have hinfinite : (infinity negative : Single).isFinite = false := rfl
    rw [ofDecimal, ofRatio_of_not_isFinite hfinite, convert_infinity, hinfinite]
    rw [ofDecimal, isFinite_ofRatio] at hfinite
    simp only [Bool.false_eq_true, false_iff]
    omega

end Textproto.Ieee
