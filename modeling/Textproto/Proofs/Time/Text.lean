import Textproto.Proofs.Data.Runs
import Textproto.Proofs.Time.Calendar
import Textproto.Time.Text

namespace Textproto.Time

/-! No two times, and no two durations, are written alike. -/

theorem toList_padded (width n : Nat) : (padded width n).toList =
    List.replicate (width - (Nat.toDigits 10 n).length) '0' ++ Nat.toDigits 10 n := by
  simp only [padded, String.toList_ofList]

/-- The zeros in front do not count. -/
theorem ofDigitChars_padded (width n : Nat) :
    Nat.ofDigitChars 10 (padded width n).toList 0 = n := by
  rw [toList_padded, Nat.ofDigitChars_append, Nat.ofDigitChars_replicate_zero, Nat.mul_zero,
    Nat.ofDigitChars_ten_toDigits]

theorem padded_injective {width other m n : Nat}
    (h : (padded width m).toList = (padded other n).toList) : m = n := by
  rw [← ofDigitChars_padded width m, h, ofDigitChars_padded]

theorem all_isDigit_toDigits (n : Nat) : (Nat.toDigits 10 n).all Char.isDigit = true := by
  rw [List.all_eq_true]
  intro c hc
  exact Nat.isDigit_of_mem_toDigits (by decide) (by decide) hc

theorem all_isDigit_padded (width n : Nat) : (padded width n).toList.all Char.isDigit = true := by
  rw [toList_padded, List.all_append, all_isDigit_toDigits, Bool.and_true, List.all_eq_true]
  intro c hc
  rw [List.eq_of_mem_replicate hc]
  rfl

theorem length_padded {width n : Nat} (h : (Nat.toDigits 10 n).length ≤ width) :
    (padded width n).toList.length = width := by
  rw [toList_padded, List.length_append, List.length_replicate]
  omega

theorem padded_ne_nil (width n : Nat) : (padded width n).toList ≠ [] := by
  rw [toList_padded]
  exact List.append_ne_nil_of_right_ne_nil _ Nat.toDigits_ne_nil

/-- Digits at the start of a text, up to what is no digit, tell their number. -/
theorem padded_append_inj {width other m n : Nat} {rest more : List Char}
    (hrest : Stops Char.isDigit rest) (hmore : Stops Char.isDigit more)
    (h : (padded width m).toList ++ rest = (padded other n).toList ++ more) :
    m = n ∧ rest = more := by
  obtain ⟨hdigits, hsame⟩ :=
    hrest.append_inj hmore (all_isDigit_padded width m) (all_isDigit_padded other n) h
  exact ⟨padded_injective hdigits, hsame⟩

/-! Parts of a second. -/

/-- Three digits, or six, or nine, that stand for all of a number below `10 ^ 9`. -/
theorem toList_fraction {nanos : Nat} (hlt : nanos < 1000000000) (hne : nanos ≠ 0) :
    ∃ width part unit, (fraction nanos).toList = '.' :: (padded width part).toList ∧
      (Nat.toDigits 10 part).length ≤ width ∧ nanos = part * unit ∧
      (width = 3 ∧ unit = 1000000 ∨ width = 6 ∧ unit = 1000 ∨ width = 9 ∧ unit = 1) := by
  unfold fraction
  rw [if_neg hne]
  split
  next h =>
    refine ⟨3, nanos / 1000000, 1000000, ?_, ?_, by omega, by simp⟩
    · rw [String.toList_append]
      rfl
    · exact (Nat.length_toDigits_le_iff (by decide) (by decide)).mpr (by omega)
  next =>
    split
    next h =>
      refine ⟨6, nanos / 1000, 1000, ?_, ?_, by omega, by simp⟩
      · rw [String.toList_append]
        rfl
      · exact (Nat.length_toDigits_le_iff (by decide) (by decide)).mpr (by omega)
    next =>
      refine ⟨9, nanos, 1, ?_, ?_, by omega, by simp⟩
      · rw [String.toList_append]
        rfl
      · exact (Nat.length_toDigits_le_iff (by decide) (by decide)).mpr (by omega)

theorem fraction_zero : (fraction 0).toList = [] := by
  decide

theorem fraction_injective {m n : Nat} (hm : m < 1000000000) (hn : n < 1000000000)
    (h : (fraction m).toList = (fraction n).toList) : m = n := by
  by_cases hm0 : m = 0
  · by_cases hn0 : n = 0
    · rw [hm0, hn0]
    · obtain ⟨width, part, unit, htext, _⟩ := toList_fraction hn hn0
      rw [htext, hm0, fraction_zero] at h
      cases h
  · obtain ⟨width, part, unit, htext, hlength, hpart, hwidth⟩ := toList_fraction hm hm0
    by_cases hn0 : n = 0
    · rw [htext, hn0, fraction_zero] at h
      cases h
    · obtain ⟨width', part', unit', htext', hlength', hpart', hwidth'⟩ := toList_fraction hn hn0
      rw [htext, htext', List.cons.injEq] at h
      have hparts := padded_injective h.2
      have hwidths : width = width' := by
        rw [← length_padded hlength, h.2, length_padded hlength']
      have hunits : unit = unit' := by omega
      rw [hpart, hpart', hparts, hunits]

theorem stops_fraction (nanos : Nat) {rest : List Char} (hrest : Stops Char.isDigit rest) :
    Stops Char.isDigit ((fraction nanos).toList ++ rest) := by
  refine Stops.append_right ?_ hrest
  unfold fraction
  split
  next => exact Stops.nil
  next =>
    split
    next => simp [String.toList_append]
    next => split <;> simp [String.toList_append]

/-! Durations. -/

theorem toList_toString (n : Nat) : (toString n).toList = (padded 0 n).toList := by
  rw [toList_padded, Nat.zero_sub, List.replicate_zero, List.nil_append, Nat.toString_eq_repr,
    Nat.toList_repr]

theorem ne_of_padded_append {width n : Nat} {c : Char} (hc : c.isDigit = false)
    {rest more : List Char} : (padded width n).toList ++ rest ≠ c :: more := by
  cases hdigits : (padded width n).toList with
  | nil => exact absurd hdigits (padded_ne_nil width n)
  | cons d digits =>
      intro h
      rw [List.cons_append, List.cons.injEq] at h
      have hd := List.all_eq_true.mp (all_isDigit_padded width n) d (by simp [hdigits])
      rw [h.1, hc] at hd
      cases hd

/-- A sign is told from its absence, since digits follow it. -/
theorem minus_append_inj {p q : Prop} [Decidable p] [Decidable q] {width other m n : Nat}
    {rest more : List Char}
    (h : (if p then "-" else "").toList ++ ((padded width m).toList ++ rest) =
      (if q then "-" else "").toList ++ ((padded other n).toList ++ more)) :
    (p ↔ q) ∧ (padded width m).toList ++ rest = (padded other n).toList ++ more := by
  have hminus : "-".toList = ['-'] := by simp
  have hnone : "".toList = [] := by simp
  by_cases hp : p
  · by_cases hq : q
    · rw [if_pos hp, if_pos hq] at h
      exact ⟨iff_of_true hp hq, List.append_cancel_left h⟩
    · rw [if_pos hp, if_neg hq, hminus, hnone] at h
      exact absurd h.symm (ne_of_padded_append (by decide))
  · by_cases hq : q
    · rw [if_neg hp, if_pos hq, hminus, hnone] at h
      exact absurd h (ne_of_padded_append (by decide))
    · rw [if_neg hp, if_neg hq] at h
      exact ⟨iff_of_false hp hq, List.append_cancel_left h⟩

theorem duration?_injective {seconds nanos seconds' nanos' : Int} {text : String}
    (h : duration? seconds nanos = some text) (h' : duration? seconds' nanos' = some text) :
    seconds = seconds' ∧ nanos = nanos' := by
  unfold duration? at h h'
  split at h
  next hrange =>
    split at h'
    next hrange' =>
      have heq := congrArg String.toList ((Option.some.inj h).trans (Option.some.inj h').symm)
      simp only [String.toList_append, List.append_assoc, toList_toString] at heq
      obtain ⟨hsign, heq⟩ := minus_append_inj heq
      obtain ⟨hseconds, heq⟩ := padded_append_inj (stops_fraction _ (by simp))
        (stops_fraction _ (by simp)) heq
      have hnanos := fraction_injective (by omega) (by omega) (List.append_cancel_right heq)
      omega
    next => cases h'
  next => cases h

/-! Times. -/

theorem yearText_append_inj {year other : Int} {rest more : List Char}
    (hrest : Stops Char.isDigit rest) (hmore : Stops Char.isDigit more)
    (h : (yearText year).toList ++ rest = (yearText other).toList ++ more) :
    year = other ∧ rest = more := by
  have hminus : "-".toList = ['-'] := by simp
  have hplus : "+".toList = ['+'] := by simp
  have hshort {year : Int} (hyear : 0 ≤ year ∧ year ≤ 9999) :
      (yearText year).toList = (padded 4 year.toNat).toList := by
    rw [yearText, if_pos hyear]
  have hlong {year : Int} (hyear : ¬(0 ≤ year ∧ year ≤ 9999)) : (yearText year).toList =
      (if year < 0 then '-' else '+') :: (padded 4 year.natAbs).toList := by
    rw [yearText, if_neg hyear, String.toList_append]
    split <;> simp [hminus, hplus]
  have hsign {year : Int} : (if year < 0 then '-' else '+').isDigit = false := by
    split <;> rfl
  by_cases hyear : 0 ≤ year ∧ year ≤ 9999
  · by_cases hother : 0 ≤ other ∧ other ≤ 9999
    · rw [hshort hyear, hshort hother] at h
      obtain ⟨hsame, hmore⟩ := padded_append_inj hrest hmore h
      exact ⟨by omega, hmore⟩
    · rw [hshort hyear, hlong hother] at h
      exact absurd h (ne_of_padded_append hsign)
  · by_cases hother : 0 ≤ other ∧ other ≤ 9999
    · rw [hlong hyear, hshort hother] at h
      exact absurd h.symm (ne_of_padded_append hsign)
    · rw [hlong hyear, hlong hother, List.cons_append, List.cons_append, List.cons.injEq] at h
      obtain ⟨hsame, hmore⟩ := padded_append_inj hrest hmore h.2
      have hsigns : year < 0 ↔ other < 0 := by
        have hfirst := h.1
        split at hfirst
        next hneg =>
          split at hfirst
          next hneg' => exact iff_of_true hneg hneg'
          next => exact absurd hfirst (by decide)
        next hpos =>
          split at hfirst
          next => exact absurd hfirst (by decide)
          next hpos' => exact iff_of_false hpos hpos'
      exact ⟨by omega, hmore⟩

theorem timestamp_injective {seconds seconds' : Int} {nanos nanos' : Nat}
    (hnanos : nanos < 1000000000) (hnanos' : nanos' < 1000000000)
    (h : timestamp seconds nanos = timestamp seconds' nanos') :
    seconds = seconds' ∧ nanos = nanos' := by
  have hdash : "-".toList = ['-'] := by simp
  have htime : "T".toList = ['T'] := by simp
  have hcolon : ":".toList = [':'] := by simp
  have heq := congrArg String.toList h
  simp only [timestamp, String.toList_append, List.append_assoc, hdash, htime, hcolon,
    List.singleton_append] at heq
  obtain ⟨hyear, heq⟩ := yearText_append_inj (by simp) (by simp) heq
  obtain ⟨hmonth, heq⟩ := padded_append_inj (by simp) (by simp) (List.cons.inj heq).2
  obtain ⟨hday, heq⟩ := padded_append_inj (by simp) (by simp) (List.cons.inj heq).2
  obtain ⟨hhour, heq⟩ := padded_append_inj (by simp) (by simp) (List.cons.inj heq).2
  obtain ⟨hminute, heq⟩ := padded_append_inj (by simp) (by simp) (List.cons.inj heq).2
  obtain ⟨hsecond, heq⟩ := padded_append_inj (stops_fraction _ (by simp))
    (stops_fraction _ (by simp)) (List.cons.inj heq).2
  have hfraction := fraction_injective hnanos hnanos' (List.append_cancel_right heq)
  refine ⟨?_, hfraction⟩
  have hdate : Date.ofDays (seconds.fdiv 86400) = Date.ofDays (seconds'.fdiv 86400) := by
    generalize Date.ofDays (seconds.fdiv 86400) = date at hyear hmonth hday ⊢
    generalize Date.ofDays (seconds'.fdiv 86400) = date' at hyear hmonth hday ⊢
    obtain ⟨year, month, day⟩ := date
    obtain ⟨year', month', day'⟩ := date'
    simp only at hyear hmonth hday
    rw [hyear, hmonth, hday]
  have hdays := congrArg Date.days hdate
  rw [Date.days_ofDays, Date.days_ofDays] at hdays
  rw [Int.fdiv_eq_ediv_of_nonneg _ (by decide), Int.fdiv_eq_ediv_of_nonneg _ (by decide)] at hdays
  rw [Int.fmod_eq_emod_of_nonneg _ (by decide), Int.fmod_eq_emod_of_nonneg _ (by decide)]
    at hhour hminute hsecond
  omega

end Textproto.Time
