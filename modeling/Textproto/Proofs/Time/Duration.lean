import Mathlib
import Textproto.Encoding.WellKnown
import Textproto.Proofs.Time.Text

namespace Textproto

/-! The parts that a duration is written in, and what they are worth. -/

/-- The number that decimal digits spell. -/
def numberOf (digits : List Char) : Nat :=
  Nat.ofDigitChars 10 digits 0

/-- Digits of a whole number without zeros in front. -/
structure WholeDigits (digits : List Char) : Prop where
  decimal : digits.all Char.isDigit = true
  nonempty : digits ≠ []
  plain : digits.head? = some '0' → digits = ['0']

/-- Digits behind a point: none, three, six or nine, and no fewer of these would do. -/
structure FractionDigits (digits : List Char) : Prop where
  decimal : digits.all Char.isDigit = true
  width : digits.length = 0 ∨ digits.length = 3 ∨ digits.length = 6 ∨ digits.length = 9
  fewest : ∀ width ∈ [0, 3, 6], width < digits.length → ∃ x ∈ digits.drop width, x ≠ '0'

structure DurationText where
  negative : Bool
  whole : List Char
  fraction : List Char

namespace DurationText

/-- The digits behind the whole number, with the point in front of them. -/
def pointed (written : DurationText) : List Char :=
  if written.fraction = [] then [] else '.' :: written.fraction

def text (written : DurationText) : List Char :=
  (if written.negative then ['-'] else []) ++ (written.whole ++ (written.pointed ++ ['s']))

def value (written : DurationText) : ℚ :=
  (if written.negative then -1 else 1) *
    (numberOf written.whole + numberOf written.fraction / 10 ^ written.fraction.length)

structure Canonical (written : DurationText) : Prop where
  whole : WholeDigits written.whole
  fraction : FractionDigits written.fraction
  negative : written.negative = true ↔ written.value < 0

end DurationText

/-- The seconds and the nanoseconds that a text tells: a sign for both, digits, and digits behind
the character that follows them. -/
def readDuration (text : List Char) : Int × Int :=
  let unsigned := if text.head? = some '-' then text.tail else text
  let whole := unsigned.takeWhile Char.isDigit
  let fraction := (unsigned.drop (whole.length + 1)).takeWhile Char.isDigit
  let sign : Int := if text.head? = some '-' then -1 else 1
  (sign * numberOf whole, sign * (numberOf fraction * 10 ^ (9 - fraction.length) : Nat))

/-! Digits. -/

theorem wholeDigits_toDigits (n : Nat) : WholeDigits (Nat.toDigits 10 n) where
  decimal := Time.all_isDigit_toDigits n
  nonempty := Nat.toDigits_ne_nil
  plain := by
    -- By the size of the number, whose last digit is split off.
    induction n using Nat.strongRecOn with
    | ind n ih =>
        intro h
        by_cases hn : n < 10
        · rw [Nat.toDigits_of_lt_base hn] at h ⊢
          exact congrArg (fun x => [x]) (Option.some.inj h)
        · rw [Nat.toDigits_of_base_le (by decide) (Nat.not_lt.mp hn),
            List.head?_append_of_ne_nil _ Nat.toDigits_ne_nil] at h
          have hlead := congrArg numberOf (ih (n / 10) (by omega) h)
          rw [numberOf, Nat.ofDigitChars_ten_toDigits] at hlead
          have : n / 10 = 0 := hlead
          omega

/-- Zeros at the end of digits are factors of their number. -/
theorem pow_dvd_numberOf {digits : List Char} {width : Nat}
    (h : ∀ x ∈ digits.drop width, x = '0') :
    10 ^ (digits.length - width) ∣ numberOf digits := by
  have hzeros : digits.drop width = List.replicate (digits.length - width) '0' := by
    rw [List.eq_replicate_iff]
    exact ⟨List.length_drop, h⟩
  have hnumber : numberOf digits =
      10 ^ (digits.length - width) * numberOf (digits.take width) := by
    conv_lhs => rw [numberOf, ← List.take_append_drop width digits, hzeros]
    rw [Nat.ofDigitChars_append, Nat.ofDigitChars_replicate_zero, numberOf]
  exact Dvd.intro _ hnumber.symm

/-- Digits are needed where the number is no multiple of the power of ten that shorter ones leave
out. -/
theorem exists_ne_zero {digits : List Char} {width : Nat}
    (h : ¬10 ^ (digits.length - width) ∣ numberOf digits) :
    ∃ x ∈ digits.drop width, x ≠ '0' := by
  by_contra hzeros
  push Not at hzeros
  exact h (pow_dvd_numberOf hzeros)

/-- So many digits for a number that all of them are needed for. -/
theorem fractionDigits_padded {width part : Nat} (hlt : part < 10 ^ width) (hpart : part ≠ 0)
    (hwidth : width = 3 ∨ (width = 6 ∨ width = 9) ∧ part % 1000 ≠ 0) :
    FractionDigits (Time.padded width part).toList ∧
      (Time.padded width part).toList.length = width := by
  have hlength : (Time.padded width part).toList.length = width :=
    Time.length_padded ((Nat.length_toDigits_le_iff (by decide) (by omega)).mpr hlt)
  refine ⟨⟨Time.all_isDigit_padded width part, by omega, ?_⟩, hlength⟩
  intro shorter hshorter hless
  apply exists_ne_zero
  rw [numberOf, Time.ofDigitChars_padded, hlength]
  rw [hlength] at hless
  simp only [List.mem_cons, List.not_mem_nil, or_false] at hshorter
  rcases hwidth with rfl | ⟨rfl | rfl, hpart⟩ <;> rcases hshorter with rfl | rfl | rfl <;> omega

/-- A part of a second is written in the fewest digits that are worth it. -/
theorem exists_fractionDigits {nanos : Nat} (hlt : nanos < 1000000000) :
    ∃ digits, (Time.fraction nanos).toList = (if digits = [] then [] else '.' :: digits) ∧
      FractionDigits digits ∧ numberOf digits * 10 ^ (9 - digits.length) = nanos := by
  have hpadded {width part : Nat} (hless : part < 10 ^ width) (hpart : part ≠ 0)
      (hwidth : width = 3 ∨ (width = 6 ∨ width = 9) ∧ part % 1000 ≠ 0)
      (hnanos : part * 10 ^ (9 - width) = nanos) :
      ∃ digits, ("." ++ Time.padded width part).toList =
          (if digits = [] then [] else '.' :: digits) ∧
        FractionDigits digits ∧ numberOf digits * 10 ^ (9 - digits.length) = nanos := by
    obtain ⟨hdigits, hlength⟩ := fractionDigits_padded hless hpart hwidth
    refine ⟨(Time.padded width part).toList, ?_, hdigits, ?_⟩
    · rw [if_neg (Time.padded_ne_nil width part), String.toList_append]
      rfl
    · rw [hlength, numberOf, Time.ofDigitChars_padded, hnanos]
  unfold Time.fraction
  split
  next hzero =>
    refine ⟨[], rfl, ⟨rfl, .inl rfl, ?_⟩, hzero.symm⟩
    intro width _ hwidth
    cases hwidth
  next hzero =>
    split
    next hmillis => exact hpadded (by omega) (by omega) (.inl rfl) (by omega)
    next hmillis =>
      split
      next hmicros => exact hpadded (by omega) (by omega) (.inr ⟨.inl rfl, by omega⟩) (by omega)
      next hmicros => exact hpadded (by omega) (by omega) (.inr ⟨.inr rfl, by omega⟩) (by omega)

/-! Durations. -/

namespace DurationText

variable {written : DurationText}

def sign (written : DurationText) : Int :=
  if written.negative then -1 else 1

theorem stops_pointed (written : DurationText) :
    Stops Char.isDigit (written.pointed ++ ['s']) := by
  rw [pointed]
  split
  next => exact Stops.cons_iff.mpr rfl
  next => exact Stops.cons_iff.mpr rfl

/-- The sign is told from its absence, since a digit follows it. -/
theorem head?_text (hwhole : WholeDigits written.whole) :
    written.text.head? = some '-' ↔ written.negative = true := by
  obtain ⟨x, whole, hx⟩ := List.exists_cons_of_ne_nil hwhole.nonempty
  have hdigit : x.isDigit = true := by
    have hall := hwhole.decimal
    rw [hx, List.all_cons, Bool.and_eq_true] at hall
    exact hall.1
  rw [text, hx]
  cases written.negative with
  | true => simp
  | false =>
      simp only [Bool.false_eq_true, if_false, List.nil_append, List.cons_append, List.head?_cons,
        Option.some.injEq, iff_false]
      rintro rfl
      cases hdigit

/-- The digits behind the point, which the character behind the whole number stands for. -/
theorem takeWhile_pointed (hfraction : FractionDigits written.fraction) :
    ((written.pointed ++ ['s']).drop 1).takeWhile Char.isDigit = written.fraction := by
  rw [pointed]
  split
  next hnone => rw [hnone]; rfl
  next =>
    have hstops : Stops Char.isDigit ['s'] := Stops.cons_iff.mpr rfl
    exact hstops.takeWhile_append hfraction.decimal

theorem readDuration_text (hwhole : WholeDigits written.whole)
    (hfraction : FractionDigits written.fraction) :
    readDuration written.text =
      (written.sign * numberOf written.whole,
        written.sign * (numberOf written.fraction * 10 ^ (9 - written.fraction.length) : Nat)) := by
  have hunsigned : (if written.text.head? = some '-' then written.text.tail else written.text) =
      written.whole ++ (written.pointed ++ ['s']) := by
    simp only [head?_text hwhole]
    rw [text]
    cases written.negative <;> rfl
  have htake := written.stops_pointed.takeWhile_append hwhole.decimal
  have hdrop : (written.whole ++ (written.pointed ++ ['s'])).drop (written.whole.length + 1) =
      (written.pointed ++ ['s']).drop 1 := by
    rw [List.drop_append, List.drop_eq_nil_of_le (Nat.le_succ _), List.nil_append,
      Nat.add_sub_cancel_left]
  simp only [readDuration, hunsigned, htake, hdrop, takeWhile_pointed hfraction]
  simp only [head?_text hwhole, sign]

/-- The value of what is written, told from what is read. -/
theorem value_eq {seconds nanos : Int} (hfraction : FractionDigits written.fraction)
    (hseconds : written.sign * numberOf written.whole = seconds)
    (hnanos : written.sign *
      (numberOf written.fraction * 10 ^ (9 - written.fraction.length) : Nat) = nanos) :
    written.value = seconds + nanos / 10 ^ 9 := by
  have hlength : written.fraction.length ≤ 9 := by
    have := hfraction.width
    omega
  have hscale : (10 : ℚ) ^ 9 =
      10 ^ (9 - written.fraction.length) * 10 ^ written.fraction.length := by
    rw [← pow_add, Nat.sub_add_cancel hlength]
  have hsign : (if written.negative then -1 else 1 : ℚ) = written.sign := by
    rw [sign]
    split <;> simp
  rw [value, hsign, ← hseconds, ← hnanos, hscale]
  push_cast
  field_simp

end DurationText

theorem negative_value_iff {seconds nanos : Int} (h : ¬(0 < seconds ∧ nanos < 0))
    (h' : ¬(seconds < 0 ∧ 0 < nanos)) :
    (seconds + nanos / 10 ^ 9 : ℚ) < 0 ↔ seconds < 0 ∨ nanos < 0 := by
  have hscale : (seconds + nanos / 10 ^ 9 : ℚ) = (seconds * 10 ^ 9 + nanos : Int) / 10 ^ 9 := by
    push_cast
    field_simp
    norm_num
  rw [hscale, div_neg_iff]
  simp only [Int.cast_pos, Int.cast_lt_zero]
  norm_num
  omega

/-- What a duration is written as, and that its sign and digits tell it. -/
theorem exists_durationText {seconds nanos : Int} {text : String}
    (h : Time.duration? seconds nanos = some text) :
    ∃ written : DurationText, text.toList = written.text ∧ written.Canonical ∧
      written.value = seconds + nanos / 10 ^ 9 ∧
      readDuration written.text = (seconds, nanos) := by
  unfold Time.duration? at h
  split at h
  next hrange =>
    cases h
    obtain ⟨digits, hdigits, hfraction, hnumber⟩ :=
      @exists_fractionDigits nanos.natAbs (by omega)
    have hwhole := wholeDigits_toDigits seconds.natAbs
    let written : DurationText :=
      ⟨decide (seconds < 0 ∨ nanos < 0), Nat.toDigits 10 seconds.natAbs, digits⟩
    have hsign : written.sign = if seconds < 0 ∨ nanos < 0 then -1 else 1 := by
      simp [written, DurationText.sign]
    have hseconds : written.sign * numberOf written.whole = seconds := by
      rw [hsign, numberOf, Nat.ofDigitChars_ten_toDigits]
      split <;> omega
    have hnanos : written.sign *
        (numberOf written.fraction * 10 ^ (9 - written.fraction.length) : Nat) = nanos := by
      rw [hsign, hnumber]
      split <;> omega
    have hvalue := written.value_eq hfraction hseconds hnanos
    refine ⟨written, ?_, ⟨hwhole, hfraction, ?_⟩, hvalue, ?_⟩
    · simp only [String.toList_append, hdigits, written, DurationText.text, DurationText.pointed,
        Nat.toString_eq_repr, Nat.toList_repr, List.append_assoc]
      by_cases hnegative : seconds < 0 ∨ nanos < 0
      · simp [hnegative]
      · simp [hnegative]
    · rw [hvalue, negative_value_iff (by omega) (by omega)]
      exact decide_eq_true_iff
    · rw [written.readDuration_text hwhole hfraction, hseconds, hnanos]
  next => cases h

namespace Encoding

theorem durationJson_eq_ok_iff {seconds nanos : Int} {json : Json} :
    durationJson seconds nanos = .ok json ↔
      ∃ text, Time.duration? seconds nanos = some text ∧ json = .string text := by
  unfold durationJson
  cases Time.duration? seconds nanos with
  | none => simp
  | some text => simp [eq_comm]

/-- Seconds and nanoseconds of one sign are written within the range of durations. The text is
worth exactly what they are, and they are read back from it, so no other pair has it. -/
theorem durationJson_text (seconds nanos : Int) :
    ((∃ json, durationJson seconds nanos = .ok json) ↔
      |seconds| ≤ 315576000000 ∧ |nanos| ≤ 999999999 ∧
        ¬(0 < seconds ∧ nanos < 0) ∧ ¬(seconds < 0 ∧ 0 < nanos)) ∧
    ∀ json, durationJson seconds nanos = .ok json →
      (∃ written : DurationText, json = .string (String.ofList written.text) ∧
        written.Canonical ∧ written.value = seconds + nanos / 10 ^ 9 ∧
        readDuration written.text = (seconds, nanos)) ∧
      ∀ other more, durationJson other more = .ok json → other = seconds ∧ more = nanos := by
  constructor
  · simp only [durationJson_eq_ok_iff]
    unfold Time.duration? Time.secondsLimit
    rw [abs_le, abs_le]
    split
    next hrange =>
      refine iff_of_true ⟨_, _, rfl, rfl⟩ (by omega)
    next hrange =>
      refine iff_of_false ?_ (by omega)
      rintro ⟨_, _, ⟨⟩, _⟩
  · intro json hjson
    obtain ⟨text, htext, rfl⟩ := durationJson_eq_ok_iff.mp hjson
    constructor
    · obtain ⟨written, hwritten, hcanonical, hvalue, hread⟩ := exists_durationText htext
      exact ⟨written, by rw [← hwritten, String.ofList_toList], hcanonical, hvalue, hread⟩
    · intro other more hother
      obtain ⟨_, hother, heq⟩ := durationJson_eq_ok_iff.mp hother
      cases heq
      exact Time.duration?_injective hother htext

end Encoding

end Textproto
