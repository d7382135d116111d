import Mathlib
import Textproto.Ieee.Rounding

namespace Textproto.Ieee

/-!
How near a rounded ratio is to the number that its code stands for, and how far it is from every
other number of the format.
-/

theorem two_mul_le_roundEven {num den : Nat} (hden : 0 < den) :
    2 * num ≤ (2 * roundEven num den + 1) * den := by
  have hmod := Nat.mod_lt num hden
  have hdiv := Nat.div_add_mod num den
  unfold roundEven
  simp only
  split
  next h =>
    have hle : 2 * (num % den) ≤ den := by
      simp only [Bool.or_eq_true, Bool.and_eq_true, decide_eq_true_eq] at h
      omega
    nlinarith
  next => nlinarith

theorem roundEven_le_two_mul {num den : Nat} (hden : 0 < den) :
    2 * roundEven num den * den ≤ 2 * num + den := by
  have hmod := Nat.mod_lt num hden
  have hdiv := Nat.div_add_mod num den
  unfold roundEven
  simp only
  split
  next => nlinarith [Nat.zero_le (num % den)]
  next h =>
    have hle : den ≤ 2 * (num % den) := by
      simp only [Bool.or_eq_true, Bool.and_eq_true, decide_eq_true_eq] at h
      omega
    nlinarith

theorem le_roundEven {num den : Nat} : num / den ≤ roundEven num den := by
  unfold roundEven
  simp only
  split <;> omega

theorem roundEven_le {num den : Nat} : roundEven num den ≤ num / den + 1 := by
  unfold roundEven
  simp only
  split <;> omega

theorem roundEven_mul_right {num den factor : Nat} (hfactor : 0 < factor) :
    roundEven (num * factor) (den * factor) = roundEven num den := by
  have htwice : 2 * (num % den * factor) = 2 * (num % den) * factor := by ring
  unfold roundEven
  simp only [Nat.mul_div_mul_right _ _ hfactor, Nat.mul_mod_mul_right, htwice,
    Nat.mul_lt_mul_right hfactor, Nat.mul_left_inj hfactor.ne']

namespace Format

variable {f : Format}

/-- A code spells a significand and the power of two that it is multiplied by. -/
theorem exists_significand (f : Format) (code : Nat) :
    ∃ shift significand, code = shift * 2 ^ f.fractionBits + significand ∧
      f.units code = significand * 2 ^ shift ∧ significand < 2 ^ (f.fractionBits + 1) ∧
      (0 < shift → 2 ^ f.fractionBits ≤ significand) := by
  have hpos : 0 < 2 ^ f.fractionBits := Nat.two_pow_pos _
  have hfraction := Nat.mod_lt code hpos
  have hcode := Nat.div_add_mod code (2 ^ f.fractionBits)
  by_cases hzero : code / 2 ^ f.fractionBits = 0
  · refine ⟨0, code % 2 ^ f.fractionBits, ?_, ?_, ?_, by omega⟩
    · rw [hzero] at hcode
      omega
    · simp only [units, Nat.pow_eq, hzero, if_true, pow_zero, mul_one]
    · rw [pow_succ]
      omega
  · refine ⟨code / 2 ^ f.fractionBits - 1, 2 ^ f.fractionBits + code % 2 ^ f.fractionBits, ?_, ?_,
      ?_, by omega⟩
    · obtain ⟨exponent, hexponent⟩ := Nat.exists_eq_succ_of_ne_zero hzero
      rw [hexponent] at hcode ⊢
      rw [Nat.succ_sub_one]
      nlinarith
    · simp only [units, Nat.pow_eq, hzero, if_false]
    · rw [pow_succ]
      omega

/-- A greater power of two makes a greater number, whatever the significands. -/
theorem mul_pow_lt {bits shift other significand more : Nat} (hlt : shift < other)
    (hsignificand : significand < 2 ^ (bits + 1)) (hmore : 2 ^ bits ≤ more) :
    significand * 2 ^ shift < more * 2 ^ other := by
  calc significand * 2 ^ shift
      < 2 ^ (bits + 1) * 2 ^ shift := Nat.mul_lt_mul_of_pos_right hsignificand (Nat.two_pow_pos _)
    _ = 2 ^ bits * 2 ^ (shift + 1) := by ring
    _ ≤ more * 2 ^ other := Nat.mul_le_mul hmore (Nat.pow_le_pow_right (by decide) hlt)

theorem units_injective {code other : Nat} (h : f.units code = f.units other) : code = other := by
  obtain ⟨shift, significand, rfl, hunits, hlt, hle⟩ := f.exists_significand code
  obtain ⟨shift', significand', rfl, hunits', hlt', hle'⟩ := f.exists_significand other
  rw [hunits, hunits'] at h
  rcases Nat.lt_trichotomy shift shift' with hshift | rfl | hshift
  · exact absurd h (Nat.ne_of_lt (mul_pow_lt hshift hlt (hle' (by omega))))
  · rw [Nat.eq_of_mul_eq_mul_right (Nat.two_pow_pos shift) h]
  · exact absurd h.symm (Nat.ne_of_lt (mul_pow_lt hshift hlt' (hle (by omega))))

/-- A significand may be rounded up to the next power of two. -/
theorem units_add {shift significand : Nat} (hle : significand ≤ 2 ^ (f.fractionBits + 1))
    (hshift : 0 < shift → 2 ^ f.fractionBits ≤ significand) :
    f.units (shift * 2 ^ f.fractionBits + significand) = significand * 2 ^ shift := by
  have hpos : 0 < 2 ^ f.fractionBits := Nat.two_pow_pos _
  have hspelled (exponent fraction : Nat) (hlt : fraction < 2 ^ f.fractionBits)
      (h : fraction + 2 ^ f.fractionBits * exponent =
        shift * 2 ^ f.fractionBits + significand) :
      f.units (shift * 2 ^ f.fractionBits + significand) =
        if exponent = 0 then fraction else (2 ^ f.fractionBits + fraction) * 2 ^ (exponent - 1) := by
    obtain ⟨hdiv, hmod⟩ := (Nat.div_mod_unique hpos).mpr ⟨h, hlt⟩
    simp only [units, Nat.pow_eq, hdiv, hmod]
  rw [pow_succ] at hle
  by_cases hsmall : significand < 2 ^ f.fractionBits
  · obtain rfl : shift = 0 := by omega
    rw [hspelled 0 _ hsmall (by omega), if_pos rfl, pow_zero, mul_one]
  · by_cases hlarge : significand = 2 * 2 ^ f.fractionBits
    · rw [hspelled (shift + 2) 0 hpos (by rw [hlarge]; ring), if_neg (by omega), hlarge]
      rw [show shift + 2 - 1 = shift + 1 from rfl, pow_succ]
      ring
    · rw [hspelled (shift + 1) (significand - 2 ^ f.fractionBits) (by omega)
        (by rw [Nat.mul_add, Nat.mul_comm]; omega), if_neg (by omega), Nat.add_sub_cancel]
      rw [Nat.add_sub_cancel' (by omega)]

/-! The parts of the code of a ratio. -/

def shift (f : Format) (num den : Nat) : Nat :=
  (num * f.scale / den).log2 - f.fractionBits

def significand (f : Format) (num den : Nat) : Nat :=
  roundEven (num * f.scale) (den * 2 ^ f.shift num den)

/-- The code of a ratio in a format without an end. -/
def rounded (f : Format) (num den : Nat) : Nat :=
  f.shift num den * 2 ^ f.fractionBits + f.significand num den

theorem codeOfRatio_eq (f : Format) (num den : Nat) :
    f.codeOfRatio num den = min (f.rounded num den) f.infinity := rfl

theorem rounded_of_finite {num den code : Nat} (h : f.codeOfRatio num den = code)
    (hfinite : code < f.infinity) : f.rounded num den = code := by
  rw [codeOfRatio_eq] at h
  omega

variable {num den : Nat}

theorem size_lt_nat (hden : 0 < den) :
    num * f.scale < den * (2 ^ (f.fractionBits + 1) * 2 ^ f.shift num den) := by
  have hlog := @Nat.lt_log2_self (num * f.scale / den)
  have hle : (num * f.scale / den).log2 + 1 ≤ f.fractionBits + 1 + f.shift num den := by
    unfold shift
    omega
  rw [← pow_add, mul_comm den]
  refine (Nat.div_lt_iff_lt_mul hden).mp (Nat.lt_of_lt_of_le hlog ?_)
  exact Nat.pow_le_pow_right (by decide) hle

theorem le_size_nat (hden : 0 < den) (hshift : 0 < f.shift num den) :
    den * (2 ^ f.fractionBits * 2 ^ f.shift num den) ≤ num * f.scale := by
  have hle : (num * f.scale / den).log2 = f.fractionBits + f.shift num den := by
    unfold shift at hshift ⊢
    omega
  have hne : num * f.scale / den ≠ 0 := by
    intro hzero
    rw [hzero, Nat.log2_zero] at hle
    omega
  rw [← pow_add, mul_comm den, ← hle]
  exact (Nat.le_div_iff_mul_le hden).mp (Nat.log2_self_le hne)

theorem significand_le (hden : 0 < den) :
    f.significand num den ≤ 2 ^ (f.fractionBits + 1) := by
  refine le_trans roundEven_le (Nat.succ_le_of_lt ?_)
  refine (Nat.div_lt_iff_lt_mul (Nat.mul_pos hden (Nat.two_pow_pos _))).mpr ?_
  calc num * f.scale < _ := size_lt_nat hden
    _ = _ := by ring

theorem le_significand (hden : 0 < den) (hshift : 0 < f.shift num den) :
    2 ^ f.fractionBits ≤ f.significand num den := by
  refine le_trans ?_ le_roundEven
  refine (Nat.le_div_iff_mul_le (Nat.mul_pos hden (Nat.two_pow_pos _))).mpr ?_
  calc 2 ^ f.fractionBits * (den * 2 ^ f.shift num den)
      = den * (2 ^ f.fractionBits * 2 ^ f.shift num den) := by ring
    _ ≤ num * f.scale := le_size_nat hden hshift

theorem units_rounded (hden : 0 < den) :
    f.units (f.rounded num den) = f.significand num den * 2 ^ f.shift num den :=
  units_add (significand_le hden) (le_significand hden)

theorem rounded_mul_right {factor : Nat} (hfactor : 0 < factor) :
    f.rounded (num * factor) (den * factor) = f.rounded num den := by
  have hsize : num * factor * f.scale = num * f.scale * factor := by ring
  have hshift : f.shift (num * factor) (den * factor) = f.shift num den := by
    rw [shift, shift, hsize, Nat.mul_div_mul_right _ _ hfactor]
  have hden : den * factor * 2 ^ f.shift num den = den * 2 ^ f.shift num den * factor := by ring
  rw [rounded, rounded, significand, significand, hshift, hsize, hden, roundEven_mul_right hfactor]

/-- What a ratio is rounded to depends on the number alone. -/
theorem rounded_congr {num' den' : Nat} (hden : 0 < den) (hden' : 0 < den')
    (h : (num / den : ℚ) = num' / den') : f.rounded num den = f.rounded num' den' := by
  rw [div_eq_div_iff (by exact_mod_cast hden.ne') (by exact_mod_cast hden'.ne')] at h
  have hnum : num * den' = num' * den := by exact_mod_cast h
  rw [← rounded_mul_right hden', hnum, Nat.mul_comm den, rounded_mul_right hden]

/-! A ratio beside the numbers of the format, in least positive ones. -/

theorem size_lt (hden : 0 < den) :
    (num / den : ℚ) * f.scale < 2 ^ (f.fractionBits + 1) * 2 ^ f.shift num den := by
  have hlt := @size_lt_nat f num den hden
  rw [div_mul_eq_mul_div, div_lt_iff₀ (by exact_mod_cast hden), mul_comm (_ * _ : ℚ)]
  exact_mod_cast hlt

theorem le_size (hden : 0 < den) (hshift : 0 < f.shift num den) :
    2 ^ f.fractionBits * 2 ^ f.shift num den ≤ (num / den : ℚ) * f.scale := by
  have hle := le_size_nat hden hshift
  rw [div_mul_eq_mul_div, le_div_iff₀ (by exact_mod_cast hden), mul_comm (_ * _ : ℚ)]
  exact_mod_cast hle

/-- Rounding moves a ratio by half a step at most. -/
theorem abs_sub_units_le (hden : 0 < den) :
    |(num / den : ℚ) * f.scale - f.units (f.rounded num den)| ≤ 2 ^ f.shift num den / 2 := by
  have hpos : (0 : ℚ) < den := by exact_mod_cast hden
  have hstep : 0 < den * 2 ^ f.shift num den := Nat.mul_pos hden (Nat.two_pow_pos _)
  have hle := @two_mul_le_roundEven (num * f.scale) _ hstep
  have hge := @roundEven_le_two_mul (num * f.scale) _ hstep
  have hle : (2 * (num * f.scale) : ℚ) ≤
      (2 * f.significand num den + 1) * (den * 2 ^ f.shift num den) := by exact_mod_cast hle
  have hge : (2 * f.significand num den * (den * 2 ^ f.shift num den) : ℚ) ≤
      2 * (num * f.scale) + den * 2 ^ f.shift num den := by exact_mod_cast hge
  rw [units_rounded hden, div_mul_eq_mul_div, Nat.cast_mul, Nat.cast_pow, Nat.cast_ofNat, abs_le]
  constructor
  · rw [le_sub_iff_add_le, le_div_iff₀ hpos]
    nlinarith
  · rw [sub_le_iff_le_add, div_le_iff₀ hpos]
    nlinarith

/-- Every number but the one that a ratio is rounded to is half a step away from it, or more. -/
theorem le_abs_sub_units (hden : 0 < den) {code : Nat} (hne : code ≠ f.rounded num den) :
    2 ^ f.shift num den / 2 ≤ |(num / den : ℚ) * f.scale - f.units code| := by
  have hnear := @abs_sub_units_le f num den hden
  have hunits : f.units code ≠ f.units (f.rounded num den) := fun h => hne (units_injective h)
  obtain ⟨shift, significand, _, hcode, hlt, _⟩ := f.exists_significand code
  rw [hcode] at hunits ⊢
  rcases Nat.lt_or_ge shift (f.shift num den) with hshift | hshift
  · -- The ratio is above the numbers that take a smaller power of two.
    have hsize := @le_size f num den hden (by omega)
    have hbelow : (significand + 1) * 2 ^ f.shift num den ≤
        2 ^ (f.fractionBits + 1) * 2 ^ f.shift num den := Nat.mul_le_mul_right _ hlt
    have hstep : significand * 2 ^ (shift + 1) ≤ significand * 2 ^ f.shift num den :=
      Nat.mul_le_mul_left _ (Nat.pow_le_pow_right (by decide) hshift)
    rw [pow_succ] at hbelow hstep
    have hbelow : ((significand + 1) * 2 ^ f.shift num den : ℚ) ≤
        2 ^ f.fractionBits * 2 * 2 ^ f.shift num den := by exact_mod_cast hbelow
    have hstep : (significand * (2 ^ shift * 2) : ℚ) ≤ significand * 2 ^ f.shift num den := by
      exact_mod_cast hstep
    refine le_trans ?_ (le_abs_self _)
    rw [Nat.cast_mul, Nat.cast_pow, Nat.cast_ofNat]
    linarith
  · -- Both numbers are multiples of the power of two that the ratio takes.
    obtain ⟨more, rfl⟩ := Nat.exists_eq_add_of_le hshift
    rw [units_rounded hden] at hunits hnear
    rw [pow_add, mul_comm (2 ^ f.shift num den), ← mul_assoc] at hunits ⊢
    generalize significand * 2 ^ more = multiple at hunits ⊢
    have hne : (multiple : ℤ) - f.significand num den ≠ 0 := by
      intro hzero
      exact hunits (by rw [show multiple = f.significand num den by omega])
    have hone : (1 : ℚ) ≤ |(multiple : ℚ) - f.significand num den| := by
      exact_mod_cast Int.one_le_abs hne
    have hpos : (0 : ℚ) < 2 ^ f.shift num den := by positivity
    have happart : (2 ^ f.shift num den : ℚ) ≤
        |(multiple : ℚ) * 2 ^ f.shift num den - f.significand num den * 2 ^ f.shift num den| := by
      rw [← sub_mul, abs_mul, abs_of_pos hpos]
      exact le_mul_of_one_le_left hpos.le hone
    have htriangle := abs_sub_le ((multiple : ℚ) * 2 ^ f.shift num den)
      ((num / den : ℚ) * f.scale) (f.significand num den * 2 ^ f.shift num den)
    simp only [Nat.cast_mul, Nat.cast_pow, Nat.cast_ofNat] at hnear ⊢
    rw [abs_sub_comm]
    linarith

/-- A number of the format is its own rounding. -/
theorem codeOfRatio_of_units (hden : 0 < den) {code : Nat} (hfinite : code < f.infinity)
    (h : (num / den : ℚ) * f.scale = f.units code) : f.codeOfRatio num den = code := by
  have hcode : code = f.rounded num den := by
    by_contra hne
    have hle := le_abs_sub_units hden hne
    have hpos : (0 : ℚ) < 2 ^ f.shift num den := by positivity
    rw [h, sub_self, abs_zero] at hle
    linarith
  rw [codeOfRatio_eq, ← hcode]
  exact Nat.min_eq_left hfinite.le

end Format

end Textproto.Ieee
