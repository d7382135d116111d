import Textproto.Ieee.Rounding

namespace Textproto

/-- `digits * 10 ^ exponent`. -/
structure Decimal where
  digits : Nat
  exponent : Int
  deriving Repr, DecidableEq

namespace Decimal

/-- The same decimal without zeros at its end. -/
def trim (d : Decimal) : Decimal :=
  if h : d.digits ≠ 0 ∧ d.digits % 10 = 0 then trim ⟨d.digits / 10, d.exponent + 1⟩
  else d
termination_by d.digits
decreasing_by exact Nat.div_lt_self (Nat.pos_of_ne_zero h.1) (by decide)

def digitChars (d : Decimal) : List Char :=
  Nat.toDigits 10 d.digits

/-- The power of ten of the first digit. -/
def leading (d : Decimal) : Int :=
  d.exponent + d.digitChars.length - 1

/-- All places up to the last digit, or to the point. -/
def positional (d : Decimal) : List Char :=
  let places := d.digitChars
  if 0 ≤ d.exponent then places ++ List.replicate d.exponent.toNat '0'
  else
    let after := (-d.exponent).toNat
    if after < places.length then
      places.take (places.length - after) ++ '.' :: places.drop (places.length - after)
    else '0' :: '.' :: List.replicate (after - places.length) '0' ++ places

/-- One digit before the point, and the power of ten with its sign. -/
def scientific (d : Decimal) : List Char :=
  let mantissa := match d.digitChars with
    | first :: second :: rest => first :: '.' :: second :: rest
    | short => short
  mantissa ++ 'e' :: (if d.leading < 0 then '-' else '+') ::
    Nat.toDigits 10 d.leading.natAbs

end Decimal

namespace Ieee

/-!
The fewest digits that read back as a number, and of those the nearest to it. Both
neighbours of the number on the grid of so many digits are tried: if any point of a grid
reads back, one of these does.
-/

/-- The power of ten above the first digit of `num / den`. -/
def magnitudeBelow (num den : Nat) : Nat → Nat → Int
  | 0, zeros => -zeros
  | fuel + 1, zeros =>
      if den ≤ num * 10 then -zeros else magnitudeBelow (num * 10) den fuel (zeros + 1)

def magnitude (num den : Nat) : Int :=
  if den ≤ num then (Nat.toDigits 10 (num / den)).length
  else magnitudeBelow num den den.log2 0

/-- Which of two equally near decimals is taken. -/
inductive Tie where
  | even
  | up
  deriving Repr, DecidableEq

variable {f : Format}

/-- Whether a decimal under the sign of `x` reads as `x`. -/
def readsBack (x : Ieee f) (d : Decimal) : Bool :=
  ofDecimal x.negative d.digits d.exponent = x

/-- The multiple of `10 ^ exponent` that stands for `x` on that grid. -/
def onGrid (x : Ieee f) (tie : Tie) (exponent : Int) : Option Decimal :=
  let size := x.units * Nat.pow 10 (-exponent).toNat
  let step := f.scale * Nat.pow 10 exponent.toNat
  let below : Decimal := ⟨size / step, exponent⟩
  let above : Decimal := ⟨size / step + 1, exponent⟩
  let twice := 2 * (size % step)
  match x.readsBack below, x.readsBack above with
  | false, false => none
  | true, false => some below
  | false, true => some above
  | true, true =>
      if twice < step || (twice = step && tie = .even && below.digits % 2 = 0) then some below
      else some above

/-- Seventeen digits tell any two doubles apart, and any two singles. -/
def digitLimit : Nat := 17

/-- The size of a finite number, digit by digit. -/
def exact (x : Ieee f) : Decimal :=
  ⟨x.units * Nat.pow 5 f.unitBits, -f.unitBits⟩

/-- The size of a finite number in the fewest digits. -/
def shortest (x : Ieee f) (tie : Tie) : Decimal :=
  if x.units = 0 then ⟨0, 0⟩
  else
    let top := magnitude x.units f.scale
    let found := (List.range digitLimit).findSome? fun n => x.onGrid tie (top - (n + 1 : Nat))
    (found.getD x.exact).trim

theorem readsBack_of_onGrid {x : Ieee f} {tie : Tie} {exponent : Int} {d : Decimal}
    (h : x.onGrid tie exponent = some d) : x.readsBack d = true := by
  simp only [onGrid] at h
  split at h
  · cases h
  · cases h
    assumption
  · cases h
    assumption
  · split at h <;> cases h <;> assumption

def signed (x : Ieee f) (text : List Char) : String :=
  String.ofList (if x.negative then '-' :: text else text)

/-- The text of a number inside a sentence: never an exponent. -/
def plainText (x : Ieee f) : String :=
  if x.isNaN then "NaN"
  else if x.isInfinite then x.signed ['i', 'n', 'f']
  else x.signed (x.shortest .up).positional

end Ieee

end Textproto
