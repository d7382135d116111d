namespace Textproto

/-- A day of the Gregorian calendar, carried on before its beginning. -/
structure Date where
  year : Int
  month : Nat
  day : Nat
  deriving Repr, DecidableEq

namespace Date

/-!
Days are counted from 1 March of the year 0, so that leap days come last in their years. Four
hundred years always have as many days.
-/

def daysOfEra : Nat := 146097

/-- From 1 March 0000 to 1 January 1970. -/
def epoch : Nat := 719468

/-- The year of an era that a day of it falls in. -/
def yearOfEra (day : Nat) : Nat :=
  (day - day / 1460 + day / 36524 - day / 146096) / 365

/-- The days of an era before one of its years. -/
def daysBeforeYear (year : Nat) : Nat :=
  365 * year + year / 4 - year / 100

/-- The days of a year before one of its months, March being month 0. -/
def daysBeforeMonth (month : Nat) : Nat :=
  (153 * month + 2) / 5

/-- The date so many days after 1 January 1970. -/
def ofDays (days : Int) : Date :=
  let shifted := days + epoch
  let era := shifted.fdiv daysOfEra
  let dayOfEra := (shifted.fmod daysOfEra).toNat
  let yearOfEra := yearOfEra dayOfEra
  let dayOfYear := dayOfEra - daysBeforeYear yearOfEra
  let month := (5 * dayOfYear + 2) / 153
  let year : Int := era * 400 + yearOfEra
  { year := if month < 10 then year else year + 1
    month := if month < 10 then month + 3 else month - 9
    day := dayOfYear - daysBeforeMonth month + 1 }

/-- How many days after 1 January 1970 a date is. -/
def days (date : Date) : Int :=
  let year := if date.month ≤ 2 then date.year - 1 else date.year
  let month := if date.month ≤ 2 then date.month + 9 else date.month - 3
  let era := year.fdiv 400
  let yearOfEra := (year.fmod 400).toNat
  era * daysOfEra + daysBeforeYear yearOfEra + daysBeforeMonth month + (date.day - 1 : Nat)
    - epoch

end Date

end Textproto
