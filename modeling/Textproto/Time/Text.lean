import Textproto.Time.Calendar

namespace Textproto.Time

/-! Durations and timestamps as text. -/

/-- A number in at least so many digits. -/
def padded (width n : Nat) : String :=
  let digits := Nat.toDigits 10 n
  String.ofList (List.replicate (width - digits.length) '0' ++ digits)

/-- Part of a second in 0, 3, 6 or 9 digits, the fewest that are exact. -/
def fraction (nanos : Nat) : String :=
  if nanos = 0 then ""
  else if nanos % 1000000 = 0 then "." ++ padded 3 (nanos / 1000000)
  else if nanos % 1000 = 0 then "." ++ padded 6 (nanos / 1000)
  else "." ++ padded 9 nanos

def secondsLimit : Int := 315576000000

/-- Seconds and nanoseconds of one sign, within about ten thousand years. -/
def duration? (seconds nanos : Int) : Option String :=
  if -secondsLimit ≤ seconds ∧ seconds ≤ secondsLimit ∧ -999999999 ≤ nanos ∧ nanos ≤ 999999999
      ∧ ¬(0 < seconds ∧ nanos < 0) ∧ ¬(seconds < 0 ∧ 0 < nanos) then
    let sign := if seconds < 0 ∨ nanos < 0 then "-" else ""
    some (sign ++ toString seconds.natAbs ++ fraction nanos.natAbs ++ "s")
  else none

/-- The first and the last second that have a date. -/
def firstSecond : Int := Date.days ⟨-262143, 1, 1⟩ * 86400

def lastSecond : Int := Date.days ⟨262142, 12, 31⟩ * 86400 + 86399

/-- Years of four digits stand alone, others with a sign. -/
def yearText (year : Int) : String :=
  if 0 ≤ year ∧ year ≤ 9999 then padded 4 year.toNat
  else (if year < 0 then "-" else "+") ++ padded 4 year.natAbs

/-- The time so many seconds after the start of 1970, which has to have a date. -/
def timestamp (seconds : Int) (nanos : Nat) : String :=
  let date := Date.ofDays (seconds.fdiv 86400)
  let second := (seconds.fmod 86400).toNat
  yearText date.year ++ "-" ++ padded 2 date.month ++ "-" ++ padded 2 date.day ++ "T"
    ++ padded 2 (second / 3600) ++ ":" ++ padded 2 (second / 60 % 60) ++ ":"
    ++ padded 2 (second % 60) ++ fraction nanos ++ "Z"

end Textproto.Time
