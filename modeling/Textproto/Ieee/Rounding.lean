import Textproto.Ieee.Basic

namespace Textproto.Ieee

/-! Ratios, decimals and numbers of one format rounded to another, ties to the even code. -/

/-- `num / den` to the nearest whole number, a half to the even one. -/
def roundEven (num den : Nat) : Nat :=
  let quotient := num / den
  let twice := 2 * (num % den)
  if twice < den || (twice = den && quotient % 2 = 0) then quotient else quotient + 1

theorem roundEven_one (num : Nat) : roundEven num 1 = num := by
  simp [roundEven, Nat.mod_one]

/-- The code nearest to `num / den`: the quotient is counted in least positive numbers, or
in their least multiple by a power of two that leaves no more bits than a code carries. -/
def Format.codeOfRatio (f : Format) (num den : Nat) : Nat :=
  let size := num * f.scale
  let shift := (size / den).log2 - f.fractionBits
  min (shift * Nat.pow 2 f.fractionBits + roundEven size (den * Nat.pow 2 shift)) f.infinity

variable {f g : Format}

def ofRatio (negative : Bool) (num den : Nat) : Ieee f :=
  ⟨negative, f.codeOfRatio num den, Nat.lt_of_le_of_lt (Nat.min_le_right _ _) f.infinity_lt⟩

def ofNat (n : Nat) : Ieee f :=
  ofRatio false n 1

/-- `digits * 10 ^ exponent`. -/
def ofDecimal (negative : Bool) (digits : Nat) (exponent : Int) : Ieee f :=
  ofRatio negative (digits * Nat.pow 10 exponent.toNat) (Nat.pow 10 (-exponent).toNat)

/-- The nearest number of another format. -/
def convert (x : Ieee f) : Ieee g :=
  if x.isNaN then { (nan : Ieee g) with negative := x.negative }
  else if x.isInfinite then infinity x.negative
  else ofRatio x.negative x.units f.scale

@[simp] theorem negative_ofRatio (negative : Bool) (num den : Nat) :
    (ofRatio negative num den : Ieee f).negative = negative := rfl

theorem not_isNaN_ofRatio (negative : Bool) (num den : Nat) :
    (ofRatio negative num den : Ieee f).isNaN = false := by
  simp only [isNaN, decide_eq_false_iff_not, Nat.not_lt]
  exact Nat.min_le_right _ _

end Textproto.Ieee
