import Textproto.Proofs.Encoding.Forms
import Textproto.Schema.Bundled
import Textproto.Proofs.Time.Distance
import Textproto.Proofs.Time.Duration

namespace Textproto

/-! The parts that a time is written in, and the moment that they tell. -/

/-- A second of a day. -/
structure Moment where
  date : Date
  hour : Nat
  minute : Nat
  second : Nat

namespace Moment

/-- A date and a time of day that there are, leap seconds left out. -/
structure Valid (moment : Moment) : Prop where
  date : moment.date.Valid
  hour : moment.hour < 24
  minute : moment.minute < 60
  second : moment.second < 60

/-- The seconds from the start of 1970 to a moment, or back to it. -/
noncomputable def distance (moment : Moment) : Int :=
  moment.date.distance * 86400 + moment.hour * 3600 + moment.minute * 60 + moment.second

end Moment

structure TwoDigits (digits : List Char) : Prop where
  decimal : digits.all Char.isDigit = true
  width : digits.length = 2

/-- Digits of a year: four of them, or more without zeros in front. -/
structure YearDigits (digits : List Char) : Prop where
  decimal : digits.all Char.isDigit = true
  width : 4 ≤ digits.length
  plain : 4 < digits.length → digits.head? ≠ some '0'

/-- Years from 0 to 9999 stand without a sign. -/
def yearSign (year : Int) : Option Char :=
  if year < 0 then some '-' else if 9999 < year then some '+' else none

structure TimestampText where
  sign : Option Char
  year : List Char
  month : List Char
  day : List Char
  hour : List Char
  minute : List Char
  second : List Char
  fraction : List Char

namespace TimestampText

/-- What stands behind the minutes. -/
def seconds (written : TimestampText) : List Char :=
  written.second ++ ((if written.fraction = [] then [] else '.' :: written.fraction) ++ ['Z'])

/-- What stands behind the year. -/
def rest (written : TimestampText) : List Char :=
  '-' :: (written.month ++ '-' :: (written.day ++ 'T' :: (written.hour ++ ':' ::
    (written.minute ++ ':' :: written.seconds))))

def text (written : TimestampText) : List Char :=
  written.sign.toList ++ (written.year ++ written.rest)

def moment (written : TimestampText) : Moment where
  date.year := (if written.sign = some '-' then -1 else 1) * numberOf written.year
  date.month := numberOf written.month
  date.day := numberOf written.day
  hour := numberOf written.hour
  minute := numberOf written.minute
  second := numberOf written.second

def nanos (written : TimestampText) : Nat :=
  numberOf written.fraction * 10 ^ (9 - written.fraction.length)

/-- Months, days and times of day in two digits each. -/
structure Spelled (written : TimestampText) : Prop where
  month : TwoDigits written.month
  day : TwoDigits written.day
  hour : TwoDigits written.hour
  minute : TwoDigits written.minute
  second : TwoDigits written.second
  valid : written.moment.Valid

structure Canonical (written : TimestampText) : Prop extends Spelled written where
  year : YearDigits written.year
  sign : written.sign = yearSign written.moment.date.year
  short : written.sign = none → written.year.length = 4
  fraction : FractionDigits written.fraction

/-- A date and time of RFC 3339 in universal time. -/
structure Rfc3339 (written : TimestampText) : Prop extends Spelled written where
  year : written.year.all Char.isDigit = true ∧ written.year.length = 4
  sign : written.sign = none
  fraction : written.fraction.all Char.isDigit = true

end TimestampText

/-- The moment and the nanoseconds that a text tells. Only the year is of no fixed width. -/
def readTimestamp (text : List Char) : Moment × Nat :=
  let unsigned := if text.head? = some '-' ∨ text.head? = some '+' then text.tail else text
  let year := unsigned.takeWhile Char.isDigit
  let rest := unsigned.drop year.length
  let two := fun start => numberOf ((rest.drop start).take 2)
  let fraction := (rest.drop 16).takeWhile Char.isDigit
  let sign : Int := if text.head? = some '-' then -1 else 1
  (⟨⟨sign * numberOf year, two 1, two 4⟩, two 7, two 10, two 13⟩,
    numberOf fraction * 10 ^ (9 - fraction.length))

theorem yearSign_cases (year : Int) :
    yearSign year = none ∨ yearSign year = some '-' ∨ yearSign year = some '+' := by
  unfold yearSign
  split
  next => exact .inr (.inl rfl)
  next =>
    split
    next => exact .inr (.inr rfl)
    next => exact .inl rfl

theorem yearSign_eq_minus_iff {year : Int} : yearSign year = some '-' ↔ year < 0 := by
  unfold yearSign
  split
  next hneg => exact iff_of_true rfl hneg
  next hneg =>
    split
    next => exact iff_of_false (by decide) hneg
    next => exact iff_of_false (by decide) hneg

theorem yearSign_eq_none_iff {year : Int} : yearSign year = none ↔ 0 ≤ year ∧ year ≤ 9999 := by
  unfold yearSign
  split
  next => exact iff_of_false (by decide) (by omega)
  next =>
    split
    next => exact iff_of_false (by decide) (by omega)
    next => exact iff_of_true rfl (by omega)

namespace TimestampText

variable {written : TimestampText}

theorem sign_cases (h : written.Canonical) :
    written.sign = none ∨ written.sign = some '-' ∨ written.sign = some '+' :=
  h.sign ▸ yearSign_cases _

/-- A sign is told from its absence, since a digit follows it. -/
theorem head?_text (h : written.Canonical) :
    (written.text.head? = some '-' ↔ written.sign = some '-') ∧
      (written.text.head? = some '+' ↔ written.sign = some '+') := by
  have hnonempty : written.year ≠ [] := List.ne_nil_of_length_pos (by have := h.year.width; omega)
  obtain ⟨x, year, hx⟩ := List.exists_cons_of_ne_nil hnonempty
  have hdigit : x.isDigit = true := by
    have hall := h.year.decimal
    rw [hx, List.all_cons, Bool.and_eq_true] at hall
    exact hall.1
  rw [text, hx]
  rcases sign_cases h with hsign | hsign | hsign <;> rw [hsign]
  · simp only [Option.toList_none, List.nil_append, List.cons_append, List.head?_cons,
      Option.some.injEq, reduceCtorEq, iff_false]
    constructor <;> rintro rfl <;> cases hdigit
  · simp
  · simp

/-- The digits behind the point, which the character behind the seconds stands for. -/
theorem takeWhile_seconds (hsecond : TwoDigits written.second)
    (hfraction : FractionDigits written.fraction) :
    (written.seconds.drop 3).takeWhile Char.isDigit = written.fraction := by
  have hstops : Stops Char.isDigit ['Z'] := Stops.cons_iff.mpr rfl
  have hbehind : written.second.drop 3 = [] :=
    List.drop_eq_nil_of_le (by rw [hsecond.width]; decide)
  rw [seconds, List.drop_append, hsecond.width, hbehind, List.nil_append]
  split
  next hnone => rw [hnone]; rfl
  next => exact hstops.takeWhile_append hfraction.decimal

/-- Everything behind the year stands at its own place. -/
theorem rest_parts (h : written.Spelled) :
    ((written.rest.drop 1).take 2 = written.month ∧ (written.rest.drop 4).take 2 = written.day ∧
      (written.rest.drop 7).take 2 = written.hour ∧
      (written.rest.drop 10).take 2 = written.minute ∧
      (written.rest.drop 13).take 2 = written.second) ∧
    written.rest.drop 13 = written.seconds := by
  obtain ⟨a, b, hmonth⟩ := List.length_eq_two.mp h.month.width
  obtain ⟨c, d, hday⟩ := List.length_eq_two.mp h.day.width
  obtain ⟨e, f, hhour⟩ := List.length_eq_two.mp h.hour.width
  obtain ⟨i, j, hminute⟩ := List.length_eq_two.mp h.minute.width
  obtain ⟨k, l, hsecond⟩ := List.length_eq_two.mp h.second.width
  simp [rest, seconds, hmonth, hday, hhour, hminute, hsecond]

theorem readTimestamp_text (h : written.Canonical) :
    readTimestamp written.text = (written.moment, written.nanos) := by
  obtain ⟨hminus, hplus⟩ := head?_text h
  have hunsigned : (if written.text.head? = some '-' ∨ written.text.head? = some '+'
      then written.text.tail else written.text) = written.year ++ written.rest := by
    simp only [hminus, hplus]
    rcases sign_cases h with hsign | hsign | hsign <;> simp [hsign, text]
  have hstops : Stops Char.isDigit written.rest := Stops.cons_iff.mpr rfl
  obtain ⟨⟨hmonth, hday, hhour, hminute, hsecond⟩, hseconds⟩ := rest_parts h.toSpelled
  have hfraction : (written.rest.drop 16).takeWhile Char.isDigit = written.fraction := by
    rw [← takeWhile_seconds h.second h.fraction, ← hseconds, List.drop_drop]
  simp only [readTimestamp, hunsigned, hstops.takeWhile_append h.year.decimal, List.drop_left,
    hmonth, hday, hhour, hminute, hsecond, hfraction]
  simp only [hminus]
  rfl

end TimestampText

/-! Times. -/

theorem exists_twoDigits {n : Nat} (h : n < 100) : ∃ digits,
    (Time.padded 2 n).toList = digits ∧ TwoDigits digits ∧ numberOf digits = n := by
  refine ⟨_, rfl, ⟨Time.all_isDigit_padded 2 n, ?_⟩, Time.ofDigitChars_padded 2 n⟩
  exact Time.length_padded ((Nat.length_toDigits_le_iff (by decide) (by decide)).mpr h)

theorem yearDigits_padded (n : Nat) : YearDigits (Time.padded 4 n).toList where
  decimal := Time.all_isDigit_padded 4 n
  width := by
    rw [Time.toList_padded, List.length_append, List.length_replicate]
    omega
  plain := by
    intro hlong hzero
    have hplain : (Time.padded 4 n).toList = Nat.toDigits 10 n := by
      rw [Time.toList_padded] at hlong ⊢
      rw [List.length_append, List.length_replicate] at hlong
      rw [Nat.sub_eq_zero_of_le (by omega), List.replicate_zero, List.nil_append]
    rw [hplain] at hlong hzero
    rw [(wholeDigits_toDigits n).plain hzero] at hlong
    exact absurd hlong (by decide)

theorem exists_yearDigits (year : Int) : ∃ digits,
    (Time.yearText year).toList = (yearSign year).toList ++ digits ∧ YearDigits digits ∧
      (yearSign year = none → digits.length = 4) ∧
      (if yearSign year = some '-' then -1 else 1) * (numberOf digits : Int) = year := by
  refine ⟨(Time.padded 4 year.natAbs).toList, ?_, yearDigits_padded _, ?_, ?_⟩
  · unfold Time.yearText
    split
    next hshort =>
      rw [yearSign_eq_none_iff.mpr hshort, show year.natAbs = year.toNat by omega,
        Option.toList_none, List.nil_append]
    next hlong =>
      have hminus : "-".toList = ['-'] := by simp
      have hplus : "+".toList = ['+'] := by simp
      rw [String.toList_append, yearSign]
      split
      next => rw [hminus, Option.toList_some]
      next => rw [if_pos (by omega), hplus, Option.toList_some]
  · intro hshort
    rw [yearSign_eq_none_iff] at hshort
    apply Time.length_padded
    rw [Nat.length_toDigits_le_iff (by decide) (by decide)]
    omega
  · rw [numberOf, Time.ofDigitChars_padded]
    simp only [yearSign_eq_minus_iff]
    split <;> omega

/-- A second of a day as a time of day. -/
def momentOf (date : Date) (second : Nat) : Moment :=
  ⟨date, second / 3600, second / 60 % 60, second % 60⟩

theorem valid_momentOf {date : Date} (hdate : date.Valid) {second : Nat} (h : second < 86400) :
    (momentOf date second).Valid :=
  ⟨hdate, (Nat.div_lt_iff_lt_mul (by decide)).mpr h, Nat.mod_lt _ (by decide),
    Nat.mod_lt _ (by decide)⟩

theorem distance_momentOf (date : Date) (second : Nat) :
    (momentOf date second).distance = date.distance * 86400 + second := by
  simp only [Moment.distance, momentOf]
  omega

/-- Every moment is written in digits that tell it. -/
theorem exists_canonical {moment : Moment} (h : moment.Valid) {fraction : List Char}
    (hfraction : FractionDigits fraction) : ∃ written : TimestampText,
      (Time.yearText moment.date.year).toList ++ '-' :: ((Time.padded 2 moment.date.month).toList ++
        '-' :: ((Time.padded 2 moment.date.day).toList ++
        'T' :: ((Time.padded 2 moment.hour).toList ++
        ':' :: ((Time.padded 2 moment.minute).toList ++
        ':' :: ((Time.padded 2 moment.second).toList ++
          ((if fraction = [] then [] else '.' :: fraction) ++ ['Z'])))))) = written.text ∧
      written.Canonical ∧ written.moment = moment ∧ written.fraction = fraction := by
  obtain ⟨hdate, hhour, hminute, hsecond⟩ := h
  have hmonths := hdate.month
  have hdays := hdate.day.2
  have hlongest := Date.daysInMonth_le moment.date.year moment.date.month
  obtain ⟨year, hyearText, hyear, hshort, hyearNumber⟩ := exists_yearDigits moment.date.year
  obtain ⟨month, hmonthText, hmonth, hmonthNumber⟩ :=
    @exists_twoDigits moment.date.month (by omega)
  obtain ⟨day, hdayText, hday, hdayNumber⟩ := @exists_twoDigits moment.date.day (by omega)
  obtain ⟨hours, hhourText, hhours, hhourNumber⟩ := @exists_twoDigits moment.hour (by omega)
  obtain ⟨minutes, hminuteText, hminutes, hminuteNumber⟩ :=
    @exists_twoDigits moment.minute (by omega)
  obtain ⟨seconds, hsecondText, hseconds, hsecondNumber⟩ :=
    @exists_twoDigits moment.second (by omega)
  let written : TimestampText :=
    ⟨yearSign moment.date.year, year, month, day, hours, minutes, seconds, fraction⟩
  have hmoment : written.moment = moment := by
    simp only [TimestampText.moment, written, hyearNumber, hmonthNumber, hdayNumber, hhourNumber,
      hminuteNumber, hsecondNumber]
  refine ⟨written, ?_,
    ⟨⟨hmonth, hday, hhours, hminutes, hseconds, ?_⟩, hyear, ?_, hshort, hfraction⟩, hmoment, rfl⟩
  · rw [hyearText, hmonthText, hdayText, hhourText, hminuteText, hsecondText, List.append_assoc]
    rfl
  · rw [hmoment]
    exact ⟨hdate, hhour, hminute, hsecond⟩
  · rw [hmoment]

/-- What a time is written as. -/
theorem exists_timestampText (seconds : Int) {nanos : Nat} (hnanos : nanos < 1000000000) :
    ∃ written : TimestampText, (Time.timestamp seconds nanos).toList = written.text ∧
      written.Canonical ∧ written.moment.distance = seconds ∧ written.nanos = nanos := by
  obtain ⟨digits, hdigits, hfraction, hnumber⟩ := exists_fractionDigits hnanos
  have hdate := Date.valid_ofDays (seconds.fdiv 86400)
  have hdays := hdate.days_eq
  rw [Date.days_ofDays] at hdays
  have hsecond : (seconds.fmod 86400).toNat < 86400 ∧
      seconds = seconds.fdiv 86400 * 86400 + (seconds.fmod 86400).toNat := by
    rw [Int.fdiv_eq_ediv_of_nonneg _ (by decide), Int.fmod_eq_emod_of_nonneg _ (by decide)]
    omega
  rw [Time.timestamp]
  generalize Date.ofDays (seconds.fdiv 86400) = date at hdate hdays ⊢
  generalize (seconds.fmod 86400).toNat = second at hsecond ⊢
  obtain ⟨written, htext, hcanonical, hmoment, rfl⟩ :=
    exists_canonical (valid_momentOf hdate hsecond.1) hfraction
  refine ⟨written, ?_, hcanonical, ?_, hnumber⟩
  · have hdash : "-".toList = ['-'] := by simp
    have htime : "T".toList = ['T'] := by simp
    have hcolon : ":".toList = [':'] := by simp
    have hzone : "Z".toList = ['Z'] := by simp
    rw [← htext]
    simp only [String.toList_append, hdigits, hdash, htime, hcolon, hzone, List.append_assoc,
      List.cons_append, List.nil_append, momentOf]
  · rw [hmoment, distance_momentOf, ← hdays]
    exact hsecond.2.symm

theorem Moment.distance_mk {date : Date} (h : date.Valid) (hour minute second : Nat) :
    Moment.distance ⟨date, hour, minute, second⟩ =
      date.days * 86400 + hour * 3600 + minute * 60 + second := by
  rw [h.days_eq]
  rfl

theorem distance_firstSecond : Moment.distance ⟨⟨-262143, 1, 1⟩, 0, 0, 0⟩ = Time.firstSecond := by
  rw [Moment.distance_mk ⟨by decide, by decide⟩]
  decide

theorem distance_lastSecond : Moment.distance ⟨⟨262142, 12, 31⟩, 23, 59, 59⟩ = Time.lastSecond := by
  rw [Moment.distance_mk ⟨by decide, by decide⟩]
  decide

namespace Encoding

theorem timestampJson_eq_ok_iff {seconds nanos : Int} {json : Json} :
    timestampJson seconds nanos = .ok json ↔
      0 ≤ nanos ∧ nanos ≤ 999999999 ∧ Time.firstSecond ≤ seconds ∧ seconds ≤ Time.lastSecond ∧
        json = .string (Time.timestamp seconds nanos.toNat) := by
  unfold timestampJson
  simp only [Bool.or_eq_true, decide_eq_true_eq]
  split
  next hnanos => exact iff_of_false nofun (by omega)
  next hnanos =>
    split
    next hseconds => exact iff_of_false nofun (by omega)
    next hseconds =>
      rw [Except.ok.injEq, eq_comm]
      exact ⟨fun h => ⟨by omega, by omega, by omega, by omega, h⟩, fun h => h.2.2.2.2⟩

/-- Times of the years that the calendar reaches are written, with nanoseconds of less than a
second. The text is a date and a time of day at just that distance from the start of 1970, and they
are read back from it, so no other pair has it. -/
theorem timestampJson_text (seconds nanos : Int) :
    ((∃ json, timestampJson seconds nanos = .ok json) ↔
      0 ≤ nanos ∧ nanos ≤ 999999999 ∧
        Moment.distance ⟨⟨-262143, 1, 1⟩, 0, 0, 0⟩ ≤ seconds ∧
        seconds ≤ Moment.distance ⟨⟨262142, 12, 31⟩, 23, 59, 59⟩) ∧
    ∀ json, timestampJson seconds nanos = .ok json →
      (∃ written : TimestampText, json = .string (String.ofList written.text) ∧
        written.Canonical ∧ written.moment.distance = seconds ∧ written.nanos = nanos ∧
        readTimestamp written.text = (written.moment, written.nanos)) ∧
      ∀ other more, timestampJson other more = .ok json → other = seconds ∧ more = nanos := by
  rw [distance_firstSecond, distance_lastSecond]
  constructor
  · simp only [timestampJson_eq_ok_iff, exists_and_left, exists_eq, and_true]
  · intro json hjson
    obtain ⟨hnanos, hless, _, _, rfl⟩ := timestampJson_eq_ok_iff.mp hjson
    constructor
    · obtain ⟨written, htext, hcanonical, hseconds, hwritten⟩ :=
        @exists_timestampText seconds nanos.toNat (by omega)
      refine ⟨written, ?_, hcanonical, hseconds, by omega,
        TimestampText.readTimestamp_text hcanonical⟩
      rw [← htext, String.ofList_toList]
    · intro other more hother
      obtain ⟨hmore, hmoreless, _, _, heq⟩ := timestampJson_eq_ok_iff.mp hother
      have hsame := Time.timestamp_injective (by omega) (by omega) (Json.string.inj heq)
      omega

end Encoding

/-! Times of four-digit years. -/

/-- A text that is a date and time of RFC 3339 in universal time. -/
def IsRfc3339 (text : List Char) : Prop :=
  ∃ written : TimestampText, written.Rfc3339 ∧ text = written.text

theorem TimestampText.isRfc3339_iff {written : TimestampText} (h : written.Canonical) :
    IsRfc3339 written.text ↔
      0 ≤ written.moment.date.year ∧ written.moment.date.year ≤ 9999 := by
  rw [← yearSign_eq_none_iff, ← h.sign]
  constructor
  · rintro ⟨other, hother, htext⟩
    obtain ⟨hminus, hplus⟩ := head?_text h
    obtain ⟨x, year, hx⟩ : ∃ x year, other.year = x :: year :=
      List.exists_cons_of_length_pos (by have := hother.year.2; omega)
    have hhead : written.text.head? = some x := by
      rw [htext, text, hother.sign, hx]
      rfl
    have hdigit : x.isDigit = true := by
      have hall := hother.year.1
      rw [hx, List.all_cons, Bool.and_eq_true] at hall
      exact hall.1
    rw [hhead] at hminus hplus
    rcases sign_cases h with hsign | hsign | hsign
    · exact hsign
    · cases hminus.mpr hsign
      cases hdigit
    · cases hplus.mpr hsign
      cases hdigit
  · intro hsign
    exact ⟨written, ⟨h.toSpelled, ⟨h.year.decimal, h.short hsign⟩, hsign, h.fraction.decimal⟩, rfl⟩

theorem Moment.Valid.distance_lt_iff {moment : Moment} (h : moment.Valid) (year : Int) :
    moment.distance < Date.days ⟨year, 1, 1⟩ * 86400 ↔ moment.date.year < year := by
  obtain ⟨hdate, hhour, hminute, hsecond⟩ := h
  rw [hdate.year_lt_iff, hdate.days_eq, Moment.distance]
  omega

theorem isRfc3339_timestamp (seconds : Int) {nanos : Nat} (hnanos : nanos < 1000000000) :
    IsRfc3339 (Time.timestamp seconds nanos).toList ↔
      Moment.distance ⟨⟨0, 1, 1⟩, 0, 0, 0⟩ ≤ seconds ∧
        seconds ≤ Moment.distance ⟨⟨9999, 12, 31⟩, 23, 59, 59⟩ := by
  obtain ⟨written, htext, hcanonical, hseconds, _⟩ := exists_timestampText seconds hnanos
  have hbefore := hcanonical.valid.distance_lt_iff 0
  have hbehind := hcanonical.valid.distance_lt_iff 10000
  have hlast : Date.days ⟨10000, 1, 1⟩ = Date.days ⟨9999, 12, 31⟩ + 1 := by decide
  rw [htext, TimestampText.isRfc3339_iff hcanonical, Moment.distance_mk ⟨by decide, by decide⟩,
    Moment.distance_mk ⟨by decide, by decide⟩]
  rw [hseconds] at hbefore hbehind
  omega

open Encoding in
/-- A timestamp is written as a date and time of RFC 3339 in the years from 0 to 9999. Those of all
other years that the calendar reaches are written too, although they have no such form. -/
theorem toJson_timestamp {registry : Registry} {m : Message}
    (h : m.descriptor.wellKnown? = some .timestamp) :
    ((∃ text : String, m.toJson registry = .ok (.string text) ∧ IsRfc3339 text.toList) ↔
      0 ≤ nanos m ∧ nanos m ≤ 999999999 ∧
        Moment.distance ⟨⟨0, 1, 1⟩, 0, 0, 0⟩ ≤ seconds m ∧
        seconds m ≤ Moment.distance ⟨⟨9999, 12, 31⟩, 23, 59, 59⟩) ∧
    ((∃ text : String, m.toJson registry = .ok (.string text) ∧ ¬IsRfc3339 text.toList) ↔
      0 ≤ nanos m ∧ nanos m ≤ 999999999 ∧
        (Moment.distance ⟨⟨-262143, 1, 1⟩, 0, 0, 0⟩ ≤ seconds m ∧
            seconds m < Moment.distance ⟨⟨0, 1, 1⟩, 0, 0, 0⟩ ∨
          Moment.distance ⟨⟨9999, 12, 31⟩, 23, 59, 59⟩ < seconds m ∧
            seconds m ≤ Moment.distance ⟨⟨262142, 12, 31⟩, 23, 59, 59⟩)) := by
  have hwritten (text : String) : m.toJson registry = .ok (.string text) ↔
      0 ≤ nanos m ∧ nanos m ≤ 999999999 ∧ Time.firstSecond ≤ seconds m ∧
        seconds m ≤ Time.lastSecond ∧ text = Time.timestamp (seconds m) (nanos m).toNat := by
    rw [Message.toJson, messageJson_timestamp h, timestampJson_eq_ok_iff, Json.string.injEq]
  have hfirst : Time.firstSecond ≤ Moment.distance ⟨⟨0, 1, 1⟩, 0, 0, 0⟩ := by
    rw [Moment.distance_mk ⟨by decide, by decide⟩]
    decide
  have hlast : Moment.distance ⟨⟨9999, 12, 31⟩, 23, 59, 59⟩ ≤ Time.lastSecond := by
    rw [Moment.distance_mk ⟨by decide, by decide⟩]
    decide
  have hmiddle : Moment.distance ⟨⟨0, 1, 1⟩, 0, 0, 0⟩ ≤
      Moment.distance ⟨⟨9999, 12, 31⟩, 23, 59, 59⟩ := by
    rw [Moment.distance_mk ⟨by decide, by decide⟩, Moment.distance_mk ⟨by decide, by decide⟩]
    decide
  -- The years of four digits lie inside the range, and what is outside them is on either side.
  simp only [hwritten, distance_firstSecond, distance_lastSecond]
  constructor
  · constructor
    · rintro ⟨_, ⟨hnanos, hless, _, _, rfl⟩, htext⟩
      exact ⟨hnanos, hless, (isRfc3339_timestamp _ (by omega)).mp htext⟩
    · rintro ⟨hnanos, hless, hseconds⟩
      refine ⟨_, ⟨hnanos, hless, by omega, by omega, rfl⟩, ?_⟩
      exact (isRfc3339_timestamp _ (by omega)).mpr hseconds
  · constructor
    · rintro ⟨_, ⟨hnanos, hless, _, _, rfl⟩, htext⟩
      rw [isRfc3339_timestamp _ (by omega)] at htext
      exact ⟨hnanos, hless, by omega⟩
    · rintro ⟨hnanos, hless, hseconds⟩
      refine ⟨_, ⟨hnanos, hless, by omega, by omega, rfl⟩, ?_⟩
      rw [isRfc3339_timestamp _ (by omega)]
      omega

/-- The first second of the year 10000. -/
theorem toJson_timestamp_late :
    let m : Message := ⟨⟨Bundled.timestamp, .wellKnown .timestamp Bundled.secondsAndNanos⟩,
      [(1, .single (.int64 253402300800))], none⟩
    m.descriptor.wellKnown? = some .timestamp ∧
      ∃ text : String, m.toJson .bundled = .ok (.string text) ∧ ¬IsRfc3339 text.toList := by
  intro m
  have hseconds : Encoding.seconds m = 253402300800 := by rfl
  have hnanos : Encoding.nanos m = 0 := by rfl
  refine ⟨rfl, (@toJson_timestamp .bundled m rfl).2.mpr ?_⟩
  rw [hseconds, hnanos, Moment.distance_mk ⟨by decide, by decide⟩, Moment.distance_mk ⟨by decide, by decide⟩,
    Moment.distance_mk ⟨by decide, by decide⟩, Moment.distance_mk ⟨by decide, by decide⟩]
  decide

end Textproto
