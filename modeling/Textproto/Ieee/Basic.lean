namespace Textproto

/-! Binary floating-point numbers as their bits. -/

structure Ieee.Format where
  fractionBits : Nat
  exponentBits : Nat
  deriving Repr, DecidableEq

namespace Ieee.Format

def single : Format := ⟨23, 8⟩

def double : Format := ⟨52, 11⟩

/-- The code of infinity: every exponent bit set and no fraction. -/
def infinity (f : Format) : Nat :=
  (Nat.pow 2 f.exponentBits - 1) * Nat.pow 2 f.fractionBits

/-- How many codes there are below the sign. -/
def codes (f : Format) : Nat :=
  Nat.pow 2 (f.exponentBits + f.fractionBits)

theorem codes_pos (f : Format) : 0 < f.codes :=
  Nat.two_pow_pos _

theorem infinity_lt (f : Format) : f.infinity < f.codes := by
  simp only [infinity, codes, Nat.pow_eq, Nat.pow_add]
  exact Nat.mul_lt_mul_of_pos_right
    (Nat.sub_lt (Nat.two_pow_pos _) Nat.one_pos) (Nat.two_pow_pos _)

/-- The least positive number is `1 / 2 ^ f.unitBits`. -/
def unitBits (f : Format) : Nat :=
  Nat.pow 2 (f.exponentBits - 1) - 1 + f.fractionBits - 1

/-- How many times the least positive number goes into one. -/
def scale (f : Format) : Nat :=
  Nat.pow 2 f.unitBits

theorem scale_pos (f : Format) : 0 < f.scale :=
  Nat.two_pow_pos _

/-- The size of the number with a code, counted in least positive numbers. -/
def units (f : Format) (code : Nat) : Nat :=
  let exponent := code / Nat.pow 2 f.fractionBits
  let fraction := code % Nat.pow 2 f.fractionBits
  if exponent = 0 then fraction
  else (Nat.pow 2 f.fractionBits + fraction) * Nat.pow 2 (exponent - 1)

@[simp] theorem units_zero (f : Format) : f.units 0 = 0 := by
  simp [units]

end Ieee.Format

/-- A number of a format. Its code is what the bits below the sign spell, so that larger
codes are larger numbers, then infinity, then what is no number. -/
structure Ieee (f : Ieee.Format) where
  negative : Bool
  code : Nat
  code_lt : code < f.codes
  deriving DecidableEq

abbrev Single := Ieee .single

abbrev Double := Ieee .double

namespace Ieee

variable {f : Format}

def zero : Ieee f :=
  ⟨false, 0, f.codes_pos⟩

instance : Inhabited (Ieee f) :=
  ⟨zero⟩

def infinity (negative : Bool) : Ieee f :=
  ⟨negative, f.infinity, f.infinity_lt⟩

/-- The code of a quiet NaN, reduced so that it fits any format. -/
def nan : Ieee f :=
  ⟨false, (f.infinity + Nat.pow 2 (f.fractionBits - 1)) % f.codes, Nat.mod_lt _ f.codes_pos⟩

def neg (x : Ieee f) : Ieee f :=
  { x with negative := !x.negative }

def isNaN (x : Ieee f) : Bool :=
  f.infinity < x.code

def isInfinite (x : Ieee f) : Bool :=
  x.code = f.infinity

def isFinite (x : Ieee f) : Bool :=
  x.code < f.infinity

/-- The size in least positive numbers, for a finite number. -/
def units (x : Ieee f) : Nat :=
  f.units x.code

/-- All bits, the sign first. -/
def bits (x : Ieee f) : Nat :=
  (if x.negative then f.codes else 0) + x.code

def ofBits (bits : Nat) : Ieee f :=
  ⟨f.codes ≤ bits, bits % f.codes, Nat.mod_lt _ f.codes_pos⟩

/-- Whether two numbers compare as equal: what is no number equals nothing, and the two
zeros are equal. -/
def equals (x y : Ieee f) : Bool :=
  !x.isNaN && !y.isNaN && (x = y || (x.code = 0 && y.code = 0))

/-- The whole number that `x` is, if it is one. -/
def toInt? (x : Ieee f) : Option Int :=
  if x.isFinite && x.units % f.scale = 0 then
    let size : Int := (x.units / f.scale : Nat)
    some (if x.negative then -size else size)
  else none

@[simp] theorem neg_neg (x : Ieee f) : x.neg.neg = x := by
  simp [neg]

@[simp] theorem units_neg (x : Ieee f) : x.neg.units = x.units := rfl

theorem equals_comm (x y : Ieee f) : x.equals y = y.equals x := by
  simp only [equals, eq_comm (a := x), Bool.and_comm (!x.isNaN),
    Bool.and_comm (decide (x.code = 0))]

theorem equals_self (x : Ieee f) : x.equals x = !x.isNaN := by
  simp [equals]

end Ieee

end Textproto
