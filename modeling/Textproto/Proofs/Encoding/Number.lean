import Mathlib
import Textproto.Encoding.WellKnown
import Textproto.Proofs.Ieee.Decimal
import Textproto.Proofs.Json.Same

namespace Textproto

/-! No two numbers are written alike. -/

namespace Ieee

variable {x y : Single} {d e : Decimal}

theorem pos_den (d : Decimal) : 0 < Nat.pow 10 (-d.exponent).toNat :=
  Nat.pow_pos (by decide)

/-- What a decimal is read as in a format without an end. -/
def Format.readOf (f : Format) (d : Decimal) : Nat :=
  f.rounded (d.digits * Nat.pow 10 d.exponent.toNat) (Nat.pow 10 (-d.exponent).toNat)

def Format.shiftOf (f : Format) (d : Decimal) : Nat :=
  f.shift (d.digits * Nat.pow 10 d.exponent.toNat) (Nat.pow 10 (-d.exponent).toNat)

section

variable {f : Format}

theorem value_nonneg (d : Decimal) : 0 ≤ d.value := by
  unfold Decimal.value
  positivity

theorem readOf_congr (h : d.value = e.value) : f.readOf d = f.readOf e := by
  refine Format.rounded_congr (pos_den d) (pos_den e) ?_
  rw [Decimal.ratio_eq, Decimal.ratio_eq, h]

theorem value_lt (d : Decimal) :
    d.value * f.scale < 2 ^ (f.fractionBits + 1) * 2 ^ f.shiftOf d := by
  rw [← Decimal.ratio_eq]
  exact Format.size_lt (pos_den d)

theorem two_pow_shiftOf_le (d : Decimal) :
    2 ^ f.fractionBits * 2 ^ f.shiftOf d ≤ 2 ^ f.fractionBits + d.value * f.scale := by
  have hsize : 0 ≤ d.value * f.scale := mul_nonneg (value_nonneg d) (Nat.cast_nonneg _)
  rcases Nat.eq_zero_or_pos (f.shiftOf d) with h | h
  · rw [h, pow_zero, mul_one]
    linarith
  · have hle := Format.le_size (pos_den d) h
    rw [Decimal.ratio_eq] at hle
    have hpos : (0 : ℚ) < 2 ^ f.fractionBits := by positivity
    exact le_trans hle (by linarith)

theorem abs_sub_readOf_le (d : Decimal) :
    |d.value * f.scale - f.units (f.readOf d)| ≤ 2 ^ f.shiftOf d / 2 := by
  rw [← Decimal.ratio_eq]
  exact Format.abs_sub_units_le (pos_den d)

theorem le_abs_sub_units {code : Nat} (h : code ≠ f.readOf d) :
    2 ^ f.shiftOf d / 2 ≤ |d.value * f.scale - f.units code| := by
  rw [← Decimal.ratio_eq]
  exact Format.le_abs_sub_units (pos_den d) h

theorem Spells.readOf {x : Ieee f} (h : Spells d x) (hfinite : x.isFinite = true) :
    f.readOf d = x.code :=
  Format.rounded_of_finite h.reads (of_decide_eq_true hfinite)

/-- Different decimals are a step of the finer grid apart. -/
theorem pow_le_abs_sub (hexponent : d.exponent ≤ e.exponent) (hne : d.value ≠ e.value) :
    10 ^ d.exponent ≤ |d.value - e.value| := by
  obtain ⟨more, hmore⟩ := Int.eq_ofNat_of_zero_le (Int.sub_nonneg.mpr hexponent)
  have hpos : (0 : ℚ) < 10 ^ d.exponent := by positivity
  have hcoarse : e.value = (e.digits * 10 ^ more : ℤ) * 10 ^ d.exponent := by
    rw [Decimal.value, show e.exponent = more + d.exponent by omega,
      zpow_add₀ (by norm_num), zpow_natCast]
    push_cast
    ring
  have hfine : d.value = (d.digits : ℤ) * 10 ^ d.exponent := by
    rw [Decimal.value, Int.cast_natCast]
  rw [hfine, hcoarse] at hne ⊢
  generalize (e.digits * 10 ^ more : ℤ) = multiple at hne ⊢
  have hmultiple : (d.digits : ℤ) - multiple ≠ 0 := by
    intro hzero
    exact hne (by rw [show (d.digits : ℤ) = multiple by omega])
  have hone : (1 : ℚ) ≤ |((d.digits : ℤ) : ℚ) - multiple| := by
    exact_mod_cast Int.one_le_abs hmultiple
  rw [← sub_mul, abs_mul, abs_of_pos hpos]
  exact le_mul_of_one_le_left hpos.le hone

end

theorem scale_single : (Format.single.scale : ℚ) = 2 ^ 149 := by
  rw [Format.scale, show Format.single.unitBits = 149 from rfl, Nat.pow_eq, Nat.cast_pow,
    Nat.cast_ofNat]

theorem scale_double : (Format.double.scale : ℚ) = 2 ^ 149 * 2 ^ 925 := by
  have hpow (m n : Nat) : (Nat.pow 2 (m + n) : ℚ) = 2 ^ m * 2 ^ n := by
    rw [Nat.pow_eq, pow_add, Nat.cast_mul, Nat.cast_pow, Nat.cast_pow, Nat.cast_ofNat]
  rw [Format.scale, show Format.double.unitBits = 149 + 925 from rfl]
  exact hpow 149 925

/-- Decimals of the same double are as near to one another as its digits tell. -/
theorem abs_sub_le_of_readOf (h : Format.double.readOf d = Format.double.readOf e) :
    |d.value - e.value| * (2 ^ 149 * 2 ^ 925) ≤
      1 + (d.value + e.value) * (2 ^ 149 * 2 ^ 925) / 2 ^ 53 := by
  have hd := @abs_sub_readOf_le .double d
  have he := @abs_sub_readOf_le .double e
  have hd' := @two_pow_shiftOf_le .double d
  have he' := @two_pow_shiftOf_le .double e
  rw [scale_double] at hd he hd' he'
  rw [h] at hd
  rw [abs_sub_comm] at he
  have hpos : (0 : ℚ) < 2 ^ 149 * 2 ^ 925 := by positivity
  have htriangle := abs_sub_le (d.value * (2 ^ 149 * 2 ^ 925))
    ((Format.double.units (Format.double.readOf e) : ℕ) : ℚ) (e.value * (2 ^ 149 * 2 ^ 925))
  rw [← sub_mul, abs_mul, abs_of_pos hpos] at htriangle
  rw [show Format.double.fractionBits = 52 from rfl] at hd' he'
  generalize (2 : ℚ) ^ 149 * 2 ^ 925 = scale at *
  linarith

/-- A decimal that does not read as a single is away from it by what a single's digits tell. -/
theorem lt_abs_sub_of_readOf {code : Nat} (h : code ≠ Format.single.readOf e) :
    1 ≤ 2 * |e.value * 2 ^ 149 - Format.single.units code| ∧
      e.value * 2 ^ 149 < 2 ^ 25 * |e.value * 2 ^ 149 - Format.single.units code| := by
  have happart := le_abs_sub_units h
  have hlt := @value_lt .single e
  rw [scale_single] at happart hlt
  have hone : (1 : ℚ) ≤ 2 ^ Format.single.shiftOf e := one_le_pow₀ (by norm_num)
  rw [show Format.single.fractionBits + 1 = 24 from rfl] at hlt
  generalize (2 : ℚ) ^ Format.single.shiftOf e = step at happart hlt hone
  generalize |e.value * 2 ^ 149 - Format.single.units code| = gap at happart ⊢
  constructor
  · linarith
  · linarith

/-- Decimals that read as the same double spell the same single. -/
theorem code_eq_of_exponent_le (hd : Spells d x) (he : Spells e y) (hx : x.isFinite = true)
    (hy : y.isFinite = true) (hexponent : d.exponent ≤ e.exponent)
    (h : Format.double.readOf d = Format.double.readOf e) : x.code = y.code := by
  by_contra hne
  have hvalues : d.value ≠ e.value := by
    intro heq
    exact hne (by rw [← hd.readOf hx, readOf_congr heq, he.readOf hy])
  have hgap := pow_le_abs_sub hexponent hvalues
  have hnear := hd.near
  have hdouble := abs_sub_le_of_readOf h
  obtain ⟨hunit, hsingle⟩ := @lt_abs_sub_of_readOf e x.code (by rwa [he.readOf hy])
  have hscale : (0 : ℚ) < 2 ^ 149 := by positivity
  rw [scale_single] at hnear
  -- The coarser decimal is away from the other's single by twice the distance of the two at most.
  have hdistance : |e.value * 2 ^ 149 - Format.single.units x.code| ≤
      2 * |d.value - e.value| * 2 ^ 149 := by
    have htriangle := abs_sub_le e.value d.value (x.units / 2 ^ 149)
    rw [abs_sub_comm e.value d.value] at htriangle
    have hfactor : e.value * 2 ^ 149 - Format.single.units x.code =
        (e.value - x.units / 2 ^ 149) * 2 ^ 149 := by
      rw [sub_mul, div_mul_cancel₀ _ hscale.ne']
      rfl
    rw [hfactor, abs_mul, abs_of_pos hscale]
    refine mul_le_mul_of_nonneg_right ?_ hscale.le
    linarith
  have hle := abs_sub_abs_le_abs_sub d.value e.value
  rw [abs_of_nonneg (value_nonneg d), abs_of_nonneg (value_nonneg e)] at hle
  generalize |d.value - e.value| = gap at hdistance hle hdouble
  have hmany : (2 : ℚ) ^ 60 ≤ 2 ^ 925 := pow_le_pow_right₀ (by norm_num) (by norm_num)
  generalize (2 : ℚ) ^ 925 = many at hdouble hmany
  have hvalue : e.value < 2 ^ 26 * gap := by
    refine lt_of_mul_lt_mul_right ?_ hscale.le
    linarith
  generalize (2 : ℚ) ^ 149 = scale at hunit hsingle hdistance hdouble hscale
  have hsum : (d.value + e.value) * (scale * many) ≤ (2 ^ 27 + 1) * (gap * (scale * many)) := by
    rw [← mul_assoc (2 ^ 27 + 1 : ℚ)]
    refine mul_le_mul_of_nonneg_right ?_ (by positivity)
    linarith
  have hlarge : 2 ^ 58 ≤ gap * (scale * many) := by
    have hquarter : 1 / 4 ≤ gap * scale := by linarith
    calc (2 : ℚ) ^ 58 = 1 / 4 * 2 ^ 60 := by norm_num
      _ ≤ gap * scale * many := mul_le_mul hquarter hmany (by positivity) (by linarith)
      _ = gap * (scale * many) := mul_assoc _ _ _
  linarith

/-- Decimals that read as the same double spell the same single. -/
theorem code_eq_of_readOf (hd : Spells d x) (he : Spells e y) (hx : x.isFinite = true)
    (hy : y.isFinite = true) (h : Format.double.readOf d = Format.double.readOf e) :
    x.code = y.code := by
  rcases Int.le_total d.exponent e.exponent with hexponent | hexponent
  · exact code_eq_of_exponent_le hd he hx hy hexponent h
  · exact (code_eq_of_exponent_le he hd hy hx hexponent h.symm).symm

/-- The doubles that singles are read as are far from infinity. -/
theorem readOf_lt_infinity (hd : Spells d x) (hx : x.isFinite = true) :
    Format.double.readOf d < Format.double.infinity := by
  have hcode : Format.single.readOf d < Format.single.infinity := by
    rw [hd.readOf hx]
    exact of_decide_eq_true hx
  have hshift : Format.single.shiftOf d < 255 := by
    have hle : Format.single.shiftOf d * 2 ^ 23 ≤ Format.single.readOf d := Nat.le_add_right _ _
    have hinfinity : Format.single.infinity = 255 * 2 ^ 23 := by decide
    omega
  have hvalue := @value_lt .single d
  have hdouble := @two_pow_shiftOf_le .double d
  rw [scale_single, show Format.single.fractionBits + 1 = 24 from rfl] at hvalue
  rw [scale_double, show Format.double.fractionBits = 52 from rfl] at hdouble
  have hstep : (2 : ℚ) ^ Format.single.shiftOf d ≤ 2 ^ 254 :=
    pow_le_pow_right₀ (by norm_num) (by omega)
  have hbound : Format.double.shiftOf d < 254 + 925 + 100 := by
    by_contra hlarge
    have hpow : (2 : ℚ) ^ 254 * 2 ^ 925 * 2 ^ 100 ≤ 2 ^ Format.double.shiftOf d := by
      rw [← pow_add, ← pow_add]
      exact pow_le_pow_right₀ (by norm_num) (by omega)
    have hsize : d.value * 2 ^ 149 * 2 ^ 925 ≤ 2 ^ 24 * (2 ^ 254 * 2 ^ 925) := by
      rw [← mul_assoc (2 ^ 24 : ℚ)]
      refine mul_le_mul_of_nonneg_right ?_ (by positivity)
      exact le_trans hvalue.le (mul_le_mul_of_nonneg_left hstep (by positivity))
    have hone : (1 : ℚ) ≤ 2 ^ 254 * 2 ^ 925 := by
      rw [← pow_add]
      exact one_le_pow₀ (by norm_num)
    rw [← mul_assoc] at hdouble
    generalize d.value * 2 ^ 149 * 2 ^ 925 = size at hdouble hsize
    generalize (2 : ℚ) ^ 254 * 2 ^ 925 = large at hone hpow hsize
    linarith
  have hsignificand : Format.double.readOf d ≤ Format.double.shiftOf d * 2 ^ 52 + 2 ^ 53 :=
    Nat.add_le_add_left (Format.significand_le (pos_den d)) _
  have hinfinity : Format.double.infinity = 2047 * 2 ^ 52 := by decide
  omega

end Ieee

namespace Encoding

variable {x y : Single}

/-- A finite single is widened through a decimal that spells it. -/
theorem exists_spells_widen (hx : x.isFinite = true) : ∃ d, Ieee.Spells d x ∧
    (widen x).negative = x.negative ∧ (widen x).code = Ieee.Format.double.readOf d := by
  obtain ⟨d, hspells, hvalue⟩ := Ieee.exists_spells hx .up
  refine ⟨d, hspells, ?_, ?_⟩
  · rw [widen, if_pos hx]
    rfl
  · have hlt := Ieee.readOf_lt_infinity hspells hx
    rw [← Ieee.readOf_congr hvalue] at hlt ⊢
    rw [widen, if_pos hx]
    exact Nat.min_eq_left hlt.le

theorem widen_of_not_finite (hx : x.isFinite = false) : widen x = x.convert := by
  rw [widen, hx]
  rfl

theorem eq_of_code {f : Ieee.Format} {v w : Ieee f} (hnegative : v.negative = w.negative) (hcode : v.code = w.code) : v = w := by
  obtain ⟨negative, code, _⟩ := v
  obtain ⟨negative', code', _⟩ := w
  simp only at hnegative hcode
  subst hnegative hcode
  rfl

/-- What is neither finite nor a NaN is infinite. -/
theorem isInfinite_of {f : Ieee.Format} {x : Ieee f} (hfinite : x.isFinite = false)
    (hnan : x.isNaN = false) : x.isInfinite = true := by
  simp only [Ieee.isNaN, Ieee.isFinite, Ieee.isInfinite, decide_eq_false_iff_not,
    decide_eq_true_eq] at hfinite hnan ⊢
  omega

theorem isNaN_of_isFinite {f : Ieee.Format} {x : Ieee f} (hfinite : x.isFinite = true) :
    x.isNaN = false := by
  simp only [Ieee.isNaN, Ieee.isFinite, decide_eq_false_iff_not, decide_eq_true_eq] at hfinite ⊢
  omega

theorem isNaN_widen (x : Single) : (widen x).isNaN = x.isNaN := by
  cases hfinite : x.isFinite with
  | true =>
      obtain ⟨d, hspells, _, hcode⟩ := exists_spells_widen hfinite
      rw [isNaN_of_isFinite hfinite, Ieee.isNaN, hcode]
      exact decide_eq_false (Nat.not_lt.mpr (Ieee.readOf_lt_infinity hspells hfinite).le)
  | false =>
      rw [widen_of_not_finite hfinite, Ieee.convert]
      cases hnan : x.isNaN with
      | true => rfl
      | false =>
          rw [isInfinite_of hfinite hnan]
          rfl

theorem negative_widen (hx : x.isNaN = false) : (widen x).negative = x.negative := by
  cases hfinite : x.isFinite with
  | true =>
      obtain ⟨_, _, hnegative, _⟩ := exists_spells_widen hfinite
      exact hnegative
  | false =>
      rw [widen_of_not_finite hfinite, Ieee.convert, hx, isInfinite_of hfinite hx]
      rfl

theorem isFinite_widen (hx : x.isNaN = false) : (widen x).isFinite = x.isFinite := by
  cases hfinite : x.isFinite with
  | true =>
      obtain ⟨d, hspells, _, hcode⟩ := exists_spells_widen hfinite
      rw [Ieee.isFinite, hcode]
      exact decide_eq_true (Ieee.readOf_lt_infinity hspells hfinite)
  | false =>
      rw [widen_of_not_finite hfinite, Ieee.convert, hx, isInfinite_of hfinite hx]
      rfl

theorem widen_injective (hx : x.isNaN = false) (hy : y.isNaN = false) (h : widen x = widen y) :
    x = y := by
  have hnegative : x.negative = y.negative := by
    rw [← negative_widen hx, h, negative_widen hy]
  have hcode : x.code = y.code := by
    have hfinite : x.isFinite = y.isFinite := by
      rw [← isFinite_widen hx, h, isFinite_widen hy]
    cases hx' : x.isFinite with
    | true =>
        rw [hx'] at hfinite
        obtain ⟨d, hd, _, hwiden⟩ := exists_spells_widen hx'
        obtain ⟨e, he, _, hwiden'⟩ := exists_spells_widen hfinite.symm
        refine Ieee.code_eq_of_readOf hd he hx' hfinite.symm ?_
        rw [← hwiden, h, hwiden']
    | false =>
        rw [hx'] at hfinite
        have hinfinite := isInfinite_of hx' hx
        have hinfinite' := isInfinite_of hfinite.symm hy
        simp only [Ieee.isInfinite, decide_eq_true_eq] at hinfinite hinfinite'
        rw [hinfinite, hinfinite']
  exact eq_of_code hnegative hcode

/-! How a double is written tells which one it is. -/

variable {v w : Double}

/-- A whole number has a size and a sign, unless it is zero. -/
theorem units_of_toInt? {n : Int} (h : v.toInt? = some n)
    (hzero : (v.negative && decide (n = 0)) = false) :
    v.units = n.natAbs * Ieee.Format.double.scale ∧ (v.negative = true ↔ n < 0) := by
  unfold Ieee.toInt? at h
  split at h
  next hwhole =>
    simp only [Bool.and_eq_true, decide_eq_true_eq] at hwhole
    have hunits := Nat.div_mul_cancel (Nat.dvd_of_mod_eq_zero hwhole.2)
    simp only [Option.some.injEq] at h
    generalize v.units / Ieee.Format.double.scale = size at h hunits
    subst h
    rw [← hunits]
    cases hnegative : v.negative with
    | true =>
        rw [hnegative] at hzero
        simp only [if_true, Bool.true_and, decide_eq_false_iff_not] at hzero ⊢
        exact ⟨by rw [Int.natAbs_neg, Int.natAbs_natCast], iff_of_true trivial (by omega)⟩
    | false =>
        simp only [Bool.false_eq_true, if_false, false_iff]
        exact ⟨by rw [Int.natAbs_natCast], by omega⟩
  next => cases h

theorem eq_of_toInt? {n : Int} (hv : v.toInt? = some n) (hw : w.toInt? = some n)
    (hv' : (v.negative && decide (n = 0)) = false) (hw' : (w.negative && decide (n = 0)) = false) :
    v = w := by
  obtain ⟨hunits, hsign⟩ := units_of_toInt? hv hv'
  obtain ⟨hunits', hsign'⟩ := units_of_toInt? hw hw'
  refine eq_of_code ?_ (Ieee.Format.units_injective (hunits.trans hunits'.symm))
  rw [Bool.eq_iff_iff, hsign, hsign']

theorem toInt?_zero (hcode : v.code = 0) : v.toInt? = some 0 := by
  have hunits : v.units = 0 := by
    rw [Ieee.units, hcode, Ieee.Format.units_zero]
  have hfinite : v.isFinite = true := by
    rw [Ieee.isFinite, hcode]
    decide
  simp [Ieee.toInt?, hunits, hfinite]

/-- The forms of a double. Of the two zeros only the negative one is a double in JSON. -/
theorem doubleJson_cases (v : Double) :
    (v.isNaN = true ∧ doubleJson v = .string "NaN") ∨
      (v.isInfinite = true ∧
        doubleJson v = .string (if v.negative then "-Infinity" else "Infinity")) ∨
      (∃ n, v.toInt? = some n ∧ (v.negative && decide (n = 0)) = false ∧ doubleJson v = .int n) ∨
      ((v.code = 0 → v.negative = true) ∧ doubleJson v = .double v) := by
  unfold doubleJson
  split
  next hnan => exact .inl ⟨hnan, rfl⟩
  next =>
    split
    next hinfinite => exact .inr (.inl ⟨hinfinite, rfl⟩)
    next =>
      split
      next n hn =>
        split
        next hwhole =>
          simp only [Bool.and_eq_true, Bool.not_eq_true'] at hwhole
          exact .inr (.inr (.inl ⟨n, hn, hwhole.2, rfl⟩))
        next hwhole =>
          refine .inr (.inr (.inr ⟨fun hcode => ?_, rfl⟩))
          rw [toInt?_zero hcode, Option.some.injEq] at hn
          subst hn
          simpa [wholeLimit] using hwhole
      next hn =>
        refine .inr (.inr (.inr ⟨fun hcode => ?_, rfl⟩))
        rw [toInt?_zero hcode] at hn
        cases hn

theorem doubleJson_same (h : Json.Same (doubleJson v) (doubleJson w)) :
    v = w ∨ v.isNaN = true ∧ w.isNaN = true := by
  have hname {negative : Bool} : "NaN" ≠ if negative then "-Infinity" else "Infinity" := by
    cases negative <;> decide
  rcases doubleJson_cases v with ⟨hv, hjson⟩ | ⟨hv, hjson⟩ | ⟨n, hv, hzero, hjson⟩ | ⟨hv, hjson⟩ <;>
    rcases doubleJson_cases w with ⟨hw, hjson'⟩ | ⟨hw, hjson'⟩ | ⟨m, hw, hzero', hjson'⟩ |
      ⟨hw, hjson'⟩ <;>
    rw [hjson, hjson'] at h
  case inl.inl => exact .inr ⟨hv, hw⟩
  case inl.inr.inl => exact absurd h.string_inj hname
  case inr.inl.inl => exact absurd h.string_inj.symm hname
  case inr.inl.inr.inl =>
    refine .inl (eq_of_code ?_ ?_)
    · have hsign := h.string_inj
      cases hv' : v.negative <;> cases hw' : w.negative <;> rw [hv', hw'] at hsign <;>
        first | rfl | exact absurd hsign (by decide)
    · simp only [Ieee.isInfinite, decide_eq_true_eq] at hv hw
      rw [hv, hw]
  case inr.inr.inl.inr.inr.inl =>
    obtain rfl := h.int_inj
    exact .inl (eq_of_toInt? hv hw hzero hzero')
  case inr.inr.inr.inr.inr.inr =>
    cases h with
    | double h =>
        simp only [Ieee.equals, Bool.and_eq_true, Bool.or_eq_true, decide_eq_true_eq] at h
        rcases h.2 with heq | ⟨hcode, hcode'⟩
        · exact .inl heq
        · exact .inl (eq_of_code (by rw [hv hcode, hw hcode']) (by rw [hcode, hcode']))
  all_goals cases h

end Encoding

end Textproto
