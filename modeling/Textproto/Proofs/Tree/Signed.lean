import Mathlib.Data.Nat.Digits.Defs
import Textproto.Ieee.Decimal
import Textproto.Proofs.Tree.Token
import Textproto.Proofs.Tree.Readings

namespace Textproto.Tree

/-! Numbers with their signs, and what they are read as. -/

/-- A minus sign and the layout behind it, or nothing at all. -/
inductive MinusText : Bool → List Char → Prop
  | absent : MinusText false []
  | present {gap : List Char} : Layout gap → MinusText true ('-' :: gap)

theorem MinusText.stops_isQuote {negative : Bool} {lead rest : List Char}
    (h : MinusText negative lead) (hrest : Stops isQuote rest) : Stops isQuote (lead ++ rest) := by
  cases h with
  | absent => exact hrest
  | present => exact Stops.cons_iff.mpr rfl

/-- The number begins where the sign and the layout behind it end. -/
theorem sign_of_minusText {c : Cursor} {negative : Bool} {lead rest : List Char}
    (h : MinusText negative lead) (hc : c.rest = lead ++ rest) (hminus : Stops (· = '-') rest)
    (hbegins : Layout.begins rest = false) :
    (sign c).value = negative ∧ (sign c).next = c.advance lead.length := by
  cases h with
  | absent =>
      rw [List.nil_append] at hc
      exact sign_of_stops (hc ▸ hminus)
  | @present gap hgap =>
      have hrest : (c.advance 1).rest = gap ++ rest := by
        rw [Cursor.advance_rest, hc]
        rfl
      rcases sign_cases c with ⟨hvalue, d, hd, hnext⟩ | ⟨_, _, habsent⟩
      · obtain ⟨_, _, _, rfl⟩ := reads_accept.mp hd
        refine ⟨hvalue, ?_⟩
        rw [hnext, Cursor.skipLayout_eq_advance hrest hgap hbegins]
        rw [Cursor.advance_advance, Nat.add_comm, List.length_cons]
      · rw [accept_eq_absent, hc] at habsent
        cases Stops.cons_iff.mp habsent

/-- What a number begins with is no quote, no minus sign and no layout. -/
theorem Numeral.Spells.begins {numeral : Numeral} {text : List Char}
    (h : Numeral.Spells numeral text) (rest : List Char) :
    Stops isQuote (text ++ rest) ∧ Stops (· = '-') (text ++ rest) ∧
      Layout.begins (text ++ rest) = false := by
  refine ⟨?_, ?_, Token.begins_layout_eq_false (.number h) rest⟩ <;>
    obtain ⟨x, more, rfl, hx⟩ := Token.begins_number h <;> refine Stops.cons_iff.mpr ?_
  · simp only [isQuote, Bool.or_eq_false_iff, decide_eq_false_iff_not]
    constructor <;> rintro rfl <;> simp [Char.isAlphanum, Char.isAlpha] at hx
  · refine decide_eq_false ?_
    rintro rfl
    simp [Char.isAlphanum, Char.isAlpha] at hx

theorem string_eq_absent {c : Cursor} (h : Stops isQuote c.rest) : string c = .absent := by
  rw [string, literal_eq_absent h]
  rfl

/-- A number with its sign is read as what it spells, up to its end. -/
theorem scalar_of_spells {c : Cursor} {negative : Bool} {lead text rest : List Char}
    {numeral : Numeral} (hminus : MinusText negative lead) (h : Numeral.Spells numeral text)
    (hc : c.rest = lead ++ (text ++ rest)) (hrest : Stops Numeral.isJoining rest) :
    (scalar c).Reads (numeral.withSign negative) (c.advance (lead ++ text).length) := by
  obtain ⟨hquote, hsign, hbegins⟩ := h.begins rest
  obtain ⟨hvalue, hnext⟩ := sign_of_minusText hminus hc hsign hbegins
  have hstart : (sign c).next.rest = text ++ rest := by
    rw [hnext, Cursor.advance_rest, hc, List.drop_left]
  have hstring : string c = .absent := string_eq_absent (hc ▸ hminus.stops_isQuote hquote)
  simp only [scalar, Attempt.reads_within, Attempt.reads_orElse]
  refine .inr ⟨hstring, .inl (reads_numeral.mpr ⟨numeral, text.length, ?_, ?_, ?_, ?_⟩)⟩
  · rw [hstart, Numeral.scan_of_spells h hrest]
  · rwa [hstart, List.drop_left]
  · rw [hvalue]
  · rw [hnext, Cursor.advance_advance, List.length_append]

/-! Integers. -/

/-- The number that digits spell, each place with its weight. -/
def positional (base : Nat) (digits : List Char) : Nat :=
  Nat.ofDigits base (digits.reverse.map digitValue)

theorem valueOf_eq_positional (base : Nat) (digits : List Char) :
    valueOf base digits = positional base digits := by
  induction digits using List.reverseRecOn with
  | nil => rfl
  | append_singleton digits x ih =>
      rw [valueOf, List.foldl_append, ← valueOf, ih, positional, positional, List.reverse_append,
        List.reverse_singleton, List.singleton_append, List.map_cons, Nat.ofDigits_cons]
      simp only [List.foldl_cons, List.foldl_nil]
      rw [Nat.add_comm, Nat.mul_comm]

/-- An integer with its sign, its radix and its size: in decimal digits without a zero in front, in
hexadecimal digits behind a mark, or in octal digits behind a zero. -/
inductive IntegerText (negative : Bool) : Radix → Nat → List Char → Prop
  | decimal {lead digits : List Char} :
      MinusText negative lead → digits ≠ [] → digits.all Char.isDigit = true →
      digits.head? ≠ some '0' →
      IntegerText negative .decimal (positional 10 digits) (lead ++ digits)
  | hexadecimal {lead digits : List Char} {mark : Char} :
      MinusText negative lead → mark = 'x' ∨ mark = 'X' → digits ≠ [] →
      digits.all isHexDigit = true →
      IntegerText negative .hexadecimal (positional 16 digits) (lead ++ '0' :: mark :: digits)
  | octal {lead digits : List Char} :
      MinusText negative lead → digits.all isOctalDigit = true →
      IntegerText negative .octal (positional 8 digits) (lead ++ '0' :: digits)

theorem IntegerText.exists_spells {negative : Bool} {radix : Radix} {size : Nat}
    {text : List Char} (h : IntegerText negative radix size text) : ∃ lead digits number,
      MinusText negative lead ∧ Numeral.Spells (.integer digits radix) number ∧
        text = lead ++ number ∧ valueOf radix.base digits = size := by
  cases h with
  | decimal hminus hne hdigits hzero =>
      exact ⟨_, _, _, hminus, .decimal hne hdigits hzero, rfl, valueOf_eq_positional _ _⟩
  | hexadecimal hminus hmark hne hdigits =>
      exact ⟨_, _, _, hminus, .hexadecimal hmark hne hdigits, rfl, valueOf_eq_positional _ _⟩
  | @octal lead digits hminus hdigits =>
      by_cases hne : digits = []
      · subst hne
        exact ⟨_, _, _, hminus, .zero, rfl, rfl⟩
      · exact ⟨_, _, _, hminus, .octal hne hdigits, rfl, valueOf_eq_positional _ _⟩

/-- An integer is read with all its digits. -/
theorem scalar_of_integerText {c : Cursor} {negative : Bool} {radix : Radix} {size : Nat}
    {text rest : List Char} (h : IntegerText negative radix size text)
    (hc : c.rest = text ++ rest) (hrest : Stops Numeral.isJoining rest) :
    ∃ digits, valueOf radix.base digits = size ∧
      (scalar c).Reads (.integer negative digits radix) (c.advance text.length) := by
  obtain ⟨lead, digits, number, hminus, hspells, rfl, hsize⟩ := h.exists_spells
  rw [List.append_assoc] at hc
  exact ⟨digits, hsize, scalar_of_spells hminus hspells hc hrest⟩

/-! Numbers with a point, an exponent or both. -/

/-- A number with its sign, perhaps with a suffix, and the decimal that it is read as. -/
inductive FloatingText (negative : Bool) : Decimal → List Char → Prop
  | point {lead whole fraction text suffix : List Char} {exponent : Int} :
      MinusText negative lead → whole.all Char.isDigit = true → fraction.all Char.isDigit = true →
      whole ++ fraction ≠ [] → Numeral.OptionalExponent exponent text →
      Numeral.SuffixText suffix →
      FloatingText negative ⟨positional 10 (whole ++ fraction), exponent - fraction.length⟩
        (lead ++ (whole ++ '.' :: (fraction ++ text) ++ suffix))
  | exponent {lead whole text suffix : List Char} {exponent : Int} :
      MinusText negative lead → whole.all Char.isDigit = true → whole ≠ [] →
      Numeral.ExponentText exponent text → Numeral.SuffixText suffix →
      FloatingText negative ⟨positional 10 whole, exponent⟩ (lead ++ (whole ++ text ++ suffix))

theorem FloatingText.exists_spells {negative : Bool} {d : Decimal} {text : List Char}
    (h : FloatingText negative d text) : ∃ lead number, MinusText negative lead ∧
      Numeral.Spells (.float (Ieee.ofDecimal false d.digits d.exponent)) number ∧
        text = lead ++ number := by
  cases h with
  | @point lead whole fraction text suffix exponent hminus hwhole hfraction hne hexponent hsuffix =>
      refine ⟨_, _, hminus, ?_, rfl⟩
      rw [← valueOf_eq_positional]
      exact .float (.point hwhole hfraction hne hexponent) hsuffix
  | @exponent lead whole text suffix exponent hminus hwhole hne hexponent hsuffix =>
      refine ⟨_, _, hminus, ?_, rfl⟩
      have hfloat := Numeral.FloatText.exponent hwhole hne hexponent
      rw [Numeral.ofParts, List.append_nil, valueOf_eq_positional, List.length_nil,
        Int.ofNat_zero, Int.sub_zero] at hfloat
      exact .float hfloat hsuffix

/-- A number that is no integer is rounded to a double. -/
theorem scalar_of_floatingText {c : Cursor} {negative : Bool} {d : Decimal} {text rest : List Char}
    (h : FloatingText negative d text) (hc : c.rest = text ++ rest)
    (hrest : Stops Numeral.isJoining rest) :
    (scalar c).Reads (.float (Ieee.ofDecimal negative d.digits d.exponent))
      (c.advance text.length) := by
  obtain ⟨lead, number, hminus, hspells, rfl⟩ := h.exists_spells
  rw [List.append_assoc] at hc
  have hread := scalar_of_spells hminus hspells hc hrest
  cases negative with
  | false => exact hread
  | true => exact hread

/-! Decimal digits behind a zero. -/

/-- Octal digits behind a zero end where another digit stands, and the number would run into it. -/
theorem wholeNumber_of_not_octal {digits : List Char} (hdigits : digits.all Char.isDigit = true)
    (hoctal : digits.all isOctalDigit = false) (rest : List Char) :
    ∃ numeral length, Numeral.wholeNumber ('0' :: (digits ++ rest)) = .numeral numeral length ∧
      runsOn (('0' :: (digits ++ rest)).drop length) = true := by
  obtain ⟨before, x, after, rfl, hbefore, hx⟩ : ∃ before x after, digits = before ++ x :: after ∧
      before.all isOctalDigit = true ∧ isOctalDigit x = false := by
    cases hdrop : digits.dropWhile isOctalDigit with
    | nil =>
        rw [List.dropWhile_eq_nil_iff, ← List.all_eq_true, hoctal] at hdrop
        cases hdrop
    | cons x after =>
        refine ⟨digits.takeWhile isOctalDigit, x, after, ?_, List.all_takeWhile, ?_⟩
        · rw [← hdrop, List.takeWhile_append_dropWhile]
        · have hne : digits.dropWhile isOctalDigit ≠ [] := by
            rw [hdrop]
            exact List.cons_ne_nil x after
          simpa [hdrop] using List.head_dropWhile_not isOctalDigit hne
  have hmark : Stops Numeral.isMark ((before ++ x :: after) ++ rest) := by
    cases hfirst : before ++ x :: after with
    | nil => simp at hfirst
    | cons y more =>
        rw [hfirst, List.all_cons, Bool.and_eq_true] at hdigits
        refine Stops.cons_iff.mpr ?_
        rw [← Bool.not_eq_true]
        intro hy
        simp only [Numeral.isMark, Bool.or_eq_true, decide_eq_true_eq] at hy
        rcases hy with rfl | rfl <;> exact absurd hdigits.1 (by decide)
  rw [List.all_append, List.all_cons, Bool.and_eq_true, Bool.and_eq_true] at hdigits
  have hjoins : runsOn (x :: (after ++ rest)) = true := by
    rw [← Bool.not_eq_false, Numeral.runsOn_eq_false_iff, Stops.cons_iff,
      Numeral.isJoining_of_isDigit hdigits.2.1]
    decide
  have hstops : Stops isOctalDigit (x :: (after ++ rest)) := Stops.cons_iff.mpr hx
  rw [Numeral.wholeNumber_zero hmark]
  rw [List.append_assoc, List.cons_append, hstops.takeWhile_append hbefore]
  cases before with
  | nil => exact ⟨_, _, rfl, hjoins⟩
  | cons first before =>
      refine ⟨_, _, rfl, ?_⟩
      rw [List.drop_succ_cons, List.drop_left]
      exact hjoins

theorem float?_isFloat {text : List Char} {numeral : Numeral} {length : Nat}
    (h : Numeral.float? text = some (numeral, length)) : ∃ x, numeral = .float x := by
  simp only [Numeral.float?, Option.map_eq_some_iff, Prod.mk.injEq] at h
  obtain ⟨⟨found, size⟩, hfound, rfl, _⟩ := h
  split at hfound
  next =>
    split at hfound
    next => cases hfound
    next =>
      cases hfound
      exact ⟨_, rfl⟩
  next =>
    split at hfound
    next => cases hfound
    next =>
      obtain ⟨_, _, heq⟩ := Option.map_eq_some_iff.mp hfound
      cases heq
      exact ⟨_, rfl⟩

theorem numeral_of_runsOn {c : Cursor} {found : Numeral} {length : Nat}
    (hscan : Numeral.scan (sign c).next.rest = .numeral found length)
    (hruns : runsOn ((sign c).next.rest.drop length) = true) :
    numeral c = .failed (.complain .invalidNumber (sign c).next) := by
  unfold numeral
  simp only
  split
  next h => rw [h] at hscan; cases hscan
  next h => rw [h] at hscan; cases hscan
  next h =>
    rw [h] at hscan
    cases hscan
    rw [if_pos hruns]

/-- Digits behind a zero that are not all octal are no integer: they are refused, unless they begin
a number with a point or an exponent. -/
theorem scalar_of_not_octal {c : Cursor} {negative : Bool} {lead digits rest : List Char}
    (hminus : MinusText negative lead) (hdigits : digits.all Char.isDigit = true)
    (hoctal : digits.all isOctalDigit = false) (hc : c.rest = lead ++ '0' :: (digits ++ rest)) :
    (∀ read d, (scalar c).Reads read d → ∃ x, read = .float x) ∧
      (Stops Numeral.isJoining rest →
        scalar c = .failed (.complain .invalidNumber (c.advance lead.length))) := by
  obtain ⟨_, hnext⟩ := sign_of_minusText hminus hc (Stops.cons_iff.mpr rfl) rfl
  have hstart : (sign c).next.rest = '0' :: (digits ++ rest) := by
    rw [hnext, Cursor.advance_rest, hc, List.drop_left]
  have hstring : string c = .absent :=
    string_eq_absent (hc ▸ hminus.stops_isQuote (Stops.cons_iff.mpr rfl))
  obtain ⟨found, length, hwhole, hruns⟩ := wholeNumber_of_not_octal hdigits hoctal rest
  have hrefused (hfloat : Numeral.float? ('0' :: (digits ++ rest)) = none) :
      numeral c = .failed (.complain .invalidNumber (c.advance lead.length)) := by
    rw [← hnext]
    refine @numeral_of_runsOn c found length ?_ ?_
    · rw [hstart, Numeral.scan_of_wholeNumber hfloat hwhole]
    · rw [hstart, hruns]
  constructor
  · intro read d hread
    rw [scalar, Attempt.reads_within, Attempt.reads_orElse, hstring, Attempt.reads_orElse] at hread
    cases hfloat : Numeral.float? ('0' :: (digits ++ rest)) with
    | none => simp [hrefused hfloat] at hread
    | some other =>
        obtain ⟨x, hx⟩ := @float?_isFloat _ other.1 other.2 hfloat
        have hscan : Numeral.scan (sign c).next.rest = .numeral (.float x) other.2 := by
          rw [hstart, Numeral.scan, hfloat, ← hx]
        rcases hread with hread | ⟨_, hread | ⟨habsent, _⟩⟩
        · cases Attempt.not_reads_absent _ hread
        · obtain ⟨_, _, hother, _, rfl, _⟩ := reads_numeral.mp hread
          rw [hscan] at hother
          cases hother
          exact ⟨_, rfl⟩
        · rw [numeral_eq_absent, hscan] at habsent
          cases habsent
  · intro hrest
    have hall : ('0' :: digits).all Char.isDigit = true := by
      rw [List.all_cons, hdigits]
      rfl
    rw [scalar, hstring, hrefused (Numeral.float?_eq_none_of_stops hall hrest)]
    rfl

end Textproto.Tree
