import Mathlib
import Textproto.Proofs.Tree.Attempt
import Textproto.Tree.Numeral

namespace Textproto.Tree.Numeral

/-! The language of numbers, and that numbers are scanned exactly by it. -/

inductive SignText : Bool → List Char → Prop
  | absent : SignText false []
  | plus : SignText false ['+']
  | minus : SignText true ['-']

inductive ExponentText : Int → List Char → Prop
  | mk {mark : Char} {negative : Bool} {sign digits : List Char} :
      mark = 'e' ∨ mark = 'E' → SignText negative sign → digits ≠ [] →
      digits.all Char.isDigit = true →
      ExponentText
        (if negative then -(exponentValue digits : Int) else exponentValue digits)
        (mark :: (sign ++ digits))

inductive OptionalExponent : Int → List Char → Prop
  | absent : OptionalExponent 0 []
  | present {exponent : Int} {text : List Char} :
      ExponentText exponent text → OptionalExponent exponent text

/-- Digits with a point, an exponent or both. -/
inductive FloatText : Numeral → List Char → Prop
  | point {whole fraction text : List Char} {exponent : Int} :
      whole.all Char.isDigit = true → fraction.all Char.isDigit = true →
      whole ++ fraction ≠ [] → OptionalExponent exponent text →
      FloatText (ofParts whole fraction exponent) (whole ++ '.' :: (fraction ++ text))
  | exponent {whole text : List Char} {exponent : Int} :
      whole.all Char.isDigit = true → whole ≠ [] → ExponentText exponent text →
      FloatText (ofParts whole [] exponent) (whole ++ text)

inductive SuffixText : List Char → Prop
  | absent : SuffixText []
  | lower : SuffixText ['f']
  | upper : SuffixText ['F']

/-- The words for infinity and for what is no number, in letters of any case. -/
def specialWord? (word : List Char) : Option Double :=
  let lower := word.map Char.toLower
  if lower = "infinity".toList || lower = "inf".toList then some (Ieee.infinity false)
  else if lower = "nan".toList then some Ieee.nan
  else none

/-- A number without its sign, and a text that spells it. -/
inductive Spells : Numeral → List Char → Prop
  | decimal {digits : List Char} :
      digits ≠ [] → digits.all Char.isDigit = true → digits.head? ≠ some '0' →
      Spells (.integer digits .decimal) digits
  | hexadecimal {mark : Char} {digits : List Char} :
      mark = 'x' ∨ mark = 'X' → digits ≠ [] → digits.all isHexDigit = true →
      Spells (.integer digits .hexadecimal) ('0' :: mark :: digits)
  | octal {digits : List Char} :
      digits ≠ [] → digits.all isOctalDigit = true →
      Spells (.integer digits .octal) ('0' :: digits)
  | zero : Spells (.integer ['0'] .octal) ['0']
  | float {numeral : Numeral} {text suffix : List Char} :
      FloatText numeral text → SuffixText suffix → Spells numeral (text ++ suffix)
  | special {word : List Char} {x : Double} :
      specialWord? word = some x → Spells (.float x) word

/-! What is scanned is spelled so. -/

theorem signText_exponentSign (text : List Char) :
    SignText (exponentSign text).1 (text.take (exponentSign text).2) := by
  unfold exponentSign
  split
  · exact .minus
  · exact .plus
  · exact .absent

theorem exponentText_of_exponent? {text : List Char} {exponent : Int} {length : Nat}
    (h : exponent? text = some (exponent, length)) :
    ∃ read rest, text = read ++ rest ∧ read.length = length ∧ ExponentText exponent read := by
  unfold exponent? at h
  split at h
  next => cases h
  next mark rest =>
    split at h
    next hmark =>
      simp only at h
      split at h
      next => cases h
      next hdigits =>
        simp only [Option.some.injEq, Prod.mk.injEq] at h
        obtain ⟨rfl, rfl⟩ := h
        have hsign := signText_exponentSign rest
        have hsignLength : (rest.take (exponentSign rest).2).length = (exponentSign rest).2 := by
          unfold exponentSign
          split <;> simp
        refine ⟨mark :: (rest.take (exponentSign rest).2
            ++ (rest.drop (exponentSign rest).2).takeWhile Char.isDigit),
          (rest.drop (exponentSign rest).2).drop
            ((rest.drop (exponentSign rest).2).takeWhile Char.isDigit).length, ?_, ?_, ?_⟩
        · rw [List.cons_append, List.append_assoc, takeWhile_append_drop,
            List.take_append_drop]
        · simp only [List.length_cons, List.length_append, hsignLength]
          omega
        · exact .mk (by simpa using hmark) hsign hdigits List.all_takeWhile
    next => cases h

theorem suffixText_suffixLength (text : List Char) :
    SuffixText (text.take (suffixLength text)) := by
  unfold suffixLength
  split
  · exact .lower
  · exact .upper
  · exact .absent

theorem optionalExponent_getD (text : List Char) :
    ∃ read rest, text = read ++ rest ∧ read.length = ((exponent? text).getD (0, 0)).2 ∧
      OptionalExponent ((exponent? text).getD (0, 0)).1 read := by
  cases h : exponent? text with
  | none => exact ⟨[], text, rfl, rfl, .absent⟩
  | some found =>
      obtain ⟨read, rest, htext, hlength, hexponent⟩ := exponentText_of_exponent? h
      exact ⟨read, rest, htext, hlength, .present hexponent⟩

theorem spells_of_floatText {text read rest : List Char} {numeral : Numeral}
    (htext : text = read ++ rest) (h : FloatText numeral read) :
    ∃ spelled more, text = spelled ++ more ∧
      spelled.length = read.length + suffixLength (text.drop read.length) ∧
      Spells numeral spelled := by
  subst htext
  rw [List.drop_left]
  refine ⟨read ++ rest.take (suffixLength rest), rest.drop (suffixLength rest), ?_, ?_,
    .float h (suffixText_suffixLength rest)⟩
  · rw [List.append_assoc, List.take_append_drop]
  · have : (rest.take (suffixLength rest)).length = suffixLength rest := by
      unfold suffixLength
      split <;> simp
    rw [List.length_append, this]

theorem spells_of_float? {text : List Char} {numeral : Numeral} {length : Nat}
    (h : float? text = some (numeral, length)) :
    ∃ read rest, text = read ++ rest ∧ read.length = length ∧ Spells numeral read := by
  have hwhole := takeWhile_append_drop Char.isDigit text
  simp only [float?, Option.map_eq_some_iff, Prod.mk.injEq] at h
  obtain ⟨⟨found, size⟩, hfound, hnumeral, hlength⟩ := h
  simp only at hnumeral hlength
  subst hnumeral
  -- With a point there may be an exponent, and without one there has to be.
  split at hfound
  next rest hrest =>
    split at hfound
    next => cases hfound
    next hdigits =>
      obtain ⟨exponent, more, hmore, hsize, hexponent⟩ :=
        optionalExponent_getD (rest.drop (rest.takeWhile Char.isDigit).length)
      simp only [Option.some.injEq, Prod.mk.injEq] at hfound
      obtain ⟨rfl, rfl⟩ := hfound
      have hfraction := takeWhile_append_drop Char.isDigit rest
      rw [hmore] at hfraction
      have htext : text = (text.takeWhile Char.isDigit ++
          '.' :: (rest.takeWhile Char.isDigit ++ exponent)) ++ more := by
        rw [hrest, ← hfraction] at hwhole
        simpa using hwhole.symm
      have hne : text.takeWhile Char.isDigit ++ rest.takeWhile Char.isDigit ≠ [] := by
        simpa using hdigits
      obtain ⟨spelled, after, hspelled, hspelledLength, hspells⟩ := spells_of_floatText htext
        (.point List.all_takeWhile List.all_takeWhile hne hexponent)
      refine ⟨spelled, after, hspelled, ?_, hspells⟩
      have hread : (text.takeWhile Char.isDigit ++
          '.' :: (rest.takeWhile Char.isDigit ++ exponent)).length =
          (text.takeWhile Char.isDigit).length + 1 + (rest.takeWhile Char.isDigit).length
            + ((exponent? (rest.drop (rest.takeWhile Char.isDigit).length)).getD (0, 0)).2 := by
        simp only [List.length_append, List.length_cons, hsize]
        omega
      rw [hspelledLength, hread, hlength]
  next =>
    split at hfound
    next => cases hfound
    next hne =>
      simp only [Option.map_eq_some_iff, Prod.mk.injEq] at hfound
      obtain ⟨⟨exponent, size'⟩, hexponent, rfl, rfl⟩ := hfound
      obtain ⟨read, more, hmore, hsize, hexponent⟩ := exponentText_of_exponent? hexponent
      have htext : text = (text.takeWhile Char.isDigit ++ read) ++ more := by
        rw [List.append_assoc, ← hmore, hwhole]
      obtain ⟨spelled, after, hspelled, hspelledLength, hspells⟩ := spells_of_floatText htext
        (.exponent List.all_takeWhile hne hexponent)
      refine ⟨spelled, after, hspelled, ?_, hspells⟩
      rw [hspelledLength, List.length_append, hsize, hlength]

def isMark (x : Char) : Bool := x = 'x' || x = 'X'

theorem wholeNumber_marked {mark : Char} (hmark : isMark mark = true) (rest : List Char) :
    wholeNumber ('0' :: mark :: rest) =
      match rest.takeWhile isHexDigit with
      | [] => .bareMark 2
      | digits => .numeral (.integer digits .hexadecimal) (digits.length + 2) := by
  simp only [isMark, Bool.or_eq_true, decide_eq_true_eq] at hmark
  rcases hmark with rfl | rfl <;> rfl

theorem wholeNumber_zero {rest : List Char} (hmark : Stops isMark rest) :
    wholeNumber ('0' :: rest) =
      match rest.takeWhile isOctalDigit with
      | [] => .numeral (.integer ['0'] .octal) 1
      | digits => .numeral (.integer digits .octal) (digits.length + 1) := by
  simp only [wholeNumber]
  split
  next => cases Stops.cons_iff.mp hmark
  next => cases Stops.cons_iff.mp hmark
  next =>
    cases rest.takeWhile isOctalDigit <;> simp only [Bool.false_eq_true, if_false]

theorem wholeNumber_decimal {text : List Char} (hzero : text.head? ≠ some '0') :
    wholeNumber text =
      match text.takeWhile Char.isDigit with
      | [] => .nothing
      | digits => .numeral (.integer digits .decimal) digits.length := by
  cases text with
  | nil => rfl
  | cons x rest =>
      have hx : x ≠ '0' := fun heq => hzero (by rw [heq]; rfl)
      unfold wholeNumber
      simp only
      split
      next heq => exact absurd (List.cons.inj heq).1 hx
      next => rfl

theorem spells_of_wholeNumber_zero {rest : List Char} {numeral : Numeral} {length : Nat}
    (h : wholeNumber ('0' :: rest) = .numeral numeral length) :
    ∃ read more, '0' :: rest = read ++ more ∧ read.length = length ∧ Spells numeral read := by
  by_cases hmark : Stops isMark rest
  · rw [wholeNumber_zero hmark] at h
    split at h
    next =>
      cases h
      exact ⟨['0'], rest, rfl, rfl, .zero⟩
    next hdigits =>
      cases h
      exact ⟨'0' :: rest.takeWhile isOctalDigit, _, by
          rw [List.cons_append, takeWhile_append_drop], rfl,
        .octal hdigits List.all_takeWhile⟩
  · cases rest with
    | nil => exact absurd Stops.nil hmark
    | cons mark rest =>
        rw [Stops.cons_iff, Bool.not_eq_false] at hmark
        rw [wholeNumber_marked hmark] at h
        split at h
        next => cases h
        next hdigits =>
          cases h
          exact ⟨'0' :: mark :: rest.takeWhile isHexDigit, _, by
              rw [List.cons_append, List.cons_append, takeWhile_append_drop], rfl,
            .hexadecimal (by simpa [isMark] using hmark) hdigits List.all_takeWhile⟩

theorem spells_of_wholeNumber {text : List Char} {numeral : Numeral} {length : Nat}
    (h : wholeNumber text = .numeral numeral length) :
    ∃ read rest, text = read ++ rest ∧ read.length = length ∧ Spells numeral read := by
  by_cases hzero : text.head? = some '0'
  · obtain ⟨rest, rfl⟩ := List.head?_eq_some_iff.mp hzero
    exact spells_of_wholeNumber_zero h
  · rw [wholeNumber_decimal hzero] at h
    split at h
    next => cases h
    next hdigits =>
      cases h
      refine ⟨text.takeWhile Char.isDigit, _, (takeWhile_append_drop _ _).symm, rfl,
        .decimal hdigits List.all_takeWhile ?_⟩
      rw [List.head?_takeWhile]
      intro hfirst
      exact hzero (Option.filter_eq_some_iff.mp hfirst).1

theorem specialWord?_of_beginsWith {word text : List Char} (h : beginsWith word text = true)
    (hword : word ∈ ["infinity".toList, "inf".toList, "nan".toList]) :
    specialWord? (text.take word.length) =
      some (if word = "nan".toList then Ieee.nan else Ieee.infinity false) := by
  have hlower : (text.take word.length).map Char.toLower = word := by
    simpa [beginsWith] using h
  rw [specialWord?, hlower]
  simp only [List.mem_cons, List.not_mem_nil, or_false] at hword
  rcases hword with rfl | rfl | rfl <;> rfl

theorem length_of_beginsWith {word text : List Char} (h : beginsWith word text = true) :
    (text.take word.length).length = word.length := by
  have hlower : (text.take word.length).map Char.toLower = word := by
    simpa [beginsWith] using h
  rw [← List.length_map Char.toLower, hlower]

/-- The word that a special number was scanned from is not carried on. -/
theorem specialWord?_of_special? {text : List Char} {numeral : Numeral} {length : Nat}
    (h : special? text = some (numeral, length)) :
    ∃ read rest x, text = read ++ rest ∧ read.length = length ∧ numeral = .float x ∧
      specialWord? read = some x ∧ Stops isIdentifierChar rest := by
  simp only [special?, Option.filter_eq_some_iff] at h
  obtain ⟨hfound, hnext⟩ := h
  have word (word : List Char) (hbegins : beginsWith word text = true)
      (hword : word ∈ ["infinity".toList, "inf".toList, "nan".toList])
      (hnumeral : numeral =
        .float (if word = "nan".toList then Ieee.nan else Ieee.infinity false))
      (hlength : length = word.length) :
      ∃ read rest x, text = read ++ rest ∧ read.length = length ∧ numeral = .float x ∧
        specialWord? read = some x ∧ Stops isIdentifierChar rest := by
    subst hnumeral hlength
    refine ⟨text.take word.length, text.drop word.length, _, (List.take_append_drop _ _).symm,
      length_of_beginsWith hbegins, rfl, specialWord?_of_beginsWith hbegins hword, ?_⟩
    intro y hy
    simpa [hy] using hnext
  split at hfound
  next hbegins =>
    obtain ⟨rfl, rfl⟩ := Prod.mk.inj (Option.some.inj hfound)
    exact word _ hbegins (by simp) rfl rfl
  next =>
    split at hfound
    next hbegins =>
      obtain ⟨rfl, rfl⟩ := Prod.mk.inj (Option.some.inj hfound)
      exact word _ hbegins (by simp) rfl rfl
    next =>
      split at hfound
      next hbegins =>
        obtain ⟨rfl, rfl⟩ := Prod.mk.inj (Option.some.inj hfound)
        exact word _ hbegins (by simp) rfl rfl
      next => cases hfound

theorem spells_of_scan {text : List Char} {numeral : Numeral} {length : Nat}
    (h : scan text = .numeral numeral length) :
    ∃ read rest, text = read ++ rest ∧ read.length = length ∧ Spells numeral read := by
  unfold scan at h
  split at h
  next hfloat =>
    cases h
    exact spells_of_float? hfloat
  next =>
    split at h
    next =>
      split at h
      next hspecial =>
        cases h
        obtain ⟨read, rest, x, htext, hlength, rfl, hword, _⟩ := specialWord?_of_special? hspecial
        exact ⟨read, rest, htext, hlength, .special hword⟩
      next => cases h
    next => exact spells_of_wholeNumber h

/-! What is spelled so is scanned, if nothing carries the number on. -/

/-- The characters that a number must not run into. -/
def isJoining (x : Char) : Bool := isIdentifierChar x || x = '.'

def isExponentMark (x : Char) : Bool := x = 'e' || x = 'E'

def isSuffix (x : Char) : Bool := x = 'f' || x = 'F'

theorem runsOn_eq_false_iff {text : List Char} : runsOn text = false ↔ Stops isJoining text := by
  cases text with
  | nil => simp [runsOn]
  | cons x rest => simp [runsOn, isJoining]

theorem isJoining_of_isAlphanum {x : Char} (h : x.isAlphanum = true) : isJoining x = true := by
  simp [isJoining, isIdentifierChar, h]

theorem isJoining_of_isDigit {x : Char} (h : x.isDigit = true) : isJoining x = true :=
  isJoining_of_isAlphanum (by simp [Char.isAlphanum, h])

theorem isJoining_of_isOctalDigit {x : Char} (h : isOctalDigit x = true) :
    isJoining x = true := by
  simp only [isOctalDigit, Bool.and_eq_true, decide_eq_true_eq] at h
  refine isJoining_of_isDigit ?_
  simp only [Char.isDigit, Bool.and_eq_true, decide_eq_true_eq]
  exact ⟨h.1, Nat.le_trans h.2 (by decide)⟩

theorem isJoining_of_isHexDigit {x : Char} (h : isHexDigit x = true) : isJoining x = true := by
  simp only [isHexDigit, Bool.or_eq_true, Bool.and_eq_true, decide_eq_true_eq] at h
  rcases h with (h | h) | h
  · exact isJoining_of_isDigit h
  · refine isJoining_of_isAlphanum ?_
    have : x.isLower = true := by
      simp only [Char.isLower, Bool.and_eq_true, decide_eq_true_eq]
      exact ⟨h.1, Nat.le_trans h.2 (by decide)⟩
    simp [Char.isAlphanum, Char.isAlpha, this]
  · refine isJoining_of_isAlphanum ?_
    have : x.isUpper = true := by
      simp only [Char.isUpper, decide_eq_true_eq]
      exact ⟨h.1, Nat.le_trans h.2 (by decide)⟩
    simp [Char.isAlphanum, Char.isAlpha, this]

theorem isJoining_of_isExponentMark {x : Char} (h : isExponentMark x = true) :
    isJoining x = true := by
  simp only [isExponentMark, Bool.or_eq_true, decide_eq_true_eq] at h
  rcases h with rfl | rfl <;> rfl

theorem isJoining_of_isSuffix {x : Char} (h : isSuffix x = true) : isJoining x = true := by
  simp only [isSuffix, Bool.or_eq_true, decide_eq_true_eq] at h
  rcases h with rfl | rfl <;> rfl

theorem isJoining_of_isMark {x : Char} (h : isMark x = true) : isJoining x = true := by
  simp only [isMark, Bool.or_eq_true, decide_eq_true_eq] at h
  rcases h with rfl | rfl <;> rfl

theorem exponent?_eq_none {text : List Char} (h : Stops isExponentMark text) :
    exponent? text = none := by
  cases text with
  | nil => rfl
  | cons x rest =>
      have hx := Stops.cons_iff.mp h
      simp only [isExponentMark] at hx
      simp [exponent?, hx]

theorem exponentSign_signText {negative : Bool} {sign : List Char}
    (h : SignText negative sign) {digits : List Char} (hne : digits ≠ [])
    (hdigits : digits.all Char.isDigit = true) (rest : List Char) :
    exponentSign (sign ++ (digits ++ rest)) = (negative, sign.length) := by
  cases h with
  | plus => rfl
  | minus => rfl
  | absent =>
      obtain ⟨x, digits, rfl⟩ := List.exists_cons_of_ne_nil hne
      rw [List.all_cons, Bool.and_eq_true] at hdigits
      simp only [List.nil_append, List.cons_append, exponentSign]
      split
      next heq =>
        rw [(List.cons.inj heq).1] at hdigits
        exact absurd hdigits.1 (by decide)
      next heq =>
        rw [(List.cons.inj heq).1] at hdigits
        exact absurd hdigits.1 (by decide)
      next => rfl

theorem exponent?_of_exponentText {exponent : Int} {read rest : List Char}
    (h : ExponentText exponent read) (hrest : Stops Char.isDigit rest) :
    exponent? (read ++ rest) = some (exponent, read.length) := by
  cases h with
  | @mk mark negative sign digits hmark hsign hne hdigits =>
      have hmark : (mark = 'e' || mark = 'E') = true := by simpa using hmark
      simp only [List.cons_append, List.append_assoc, exponent?, hmark, if_true,
        exponentSign_signText hsign hne hdigits, List.drop_left,
        hrest.takeWhile_append hdigits, hne, if_false, List.length_cons, List.length_append]
      rw [Nat.add_comm 1, Nat.add_right_comm]

theorem getD_exponent? {exponent : Int} {read rest : List Char}
    (h : OptionalExponent exponent read) (hdigit : Stops Char.isDigit rest)
    (hmark : Stops isExponentMark rest) :
    (exponent? (read ++ rest)).getD (0, 0) = (exponent, read.length) := by
  cases h with
  | absent =>
      rw [List.nil_append, exponent?_eq_none hmark]
      rfl
  | present h =>
      rw [exponent?_of_exponentText h hdigit]
      rfl

theorem suffixLength_append {suffix rest : List Char} (h : SuffixText suffix)
    (hrest : Stops isSuffix rest) : suffixLength (suffix ++ rest) = suffix.length := by
  cases h with
  | lower => rfl
  | upper => rfl
  | absent =>
      cases rest with
      | nil => rfl
      | cons x rest =>
          have hx := Stops.cons_iff.mp hrest
          simp only [isSuffix, Bool.or_eq_false_iff, decide_eq_false_iff_not] at hx
          simp [suffixLength, hx.1, hx.2]

theorem stops_suffix_append {isWanted : Char → Bool} {suffix rest : List Char}
    (h : SuffixText suffix) (hrest : Stops isWanted rest) (hlower : isWanted 'f' = false)
    (hupper : isWanted 'F' = false) : Stops isWanted (suffix ++ rest) := by
  cases h with
  | absent => exact hrest
  | lower => exact Stops.cons_iff.mpr hlower
  | upper => exact Stops.cons_iff.mpr hupper

theorem stops_digit_of_exponentText {exponent : Int} {read : List Char}
    (h : ExponentText exponent read) (rest : List Char) :
    Stops Char.isDigit (read ++ rest) := by
  cases h with
  | mk hmark =>
      rcases hmark with rfl | rfl <;> exact Stops.cons_iff.mpr rfl

theorem float?_of_floatText {numeral : Numeral} {read suffix rest : List Char}
    (h : FloatText numeral read) (hsuffix : SuffixText suffix) (hrest : Stops isJoining rest) :
    float? (read ++ (suffix ++ rest)) = some (numeral, (read ++ suffix).length) := by
  have hdigit : Stops Char.isDigit (suffix ++ rest) :=
    stops_suffix_append hsuffix (hrest.mono fun _ => isJoining_of_isDigit) rfl rfl
  have hmark : Stops isExponentMark (suffix ++ rest) :=
    stops_suffix_append hsuffix (hrest.mono fun _ => isJoining_of_isExponentMark) rfl rfl
  have hlength := suffixLength_append hsuffix (hrest.mono fun _ => isJoining_of_isSuffix)
  cases h with
  | @point whole fraction text exponent hwhole hfraction hne hexponent =>
      have hend : Stops Char.isDigit (text ++ (suffix ++ rest)) := by
        cases hexponent with
        | absent => exact hdigit
        | present hexponent => exact stops_digit_of_exponentText hexponent _
      have hpoint : Stops Char.isDigit ('.' :: (fraction ++ (text ++ (suffix ++ rest)))) :=
        Stops.cons_iff.mpr rfl
      have hdrop : (whole ++ '.' :: (fraction ++ (text ++ (suffix ++ rest)))).drop
          (whole.length + 1 + fraction.length + text.length) = suffix ++ rest := by
        rw [show whole ++ '.' :: (fraction ++ (text ++ (suffix ++ rest))) =
          (whole ++ '.' :: (fraction ++ text)) ++ (suffix ++ rest) by simp]
        apply List.drop_left'
        simp only [List.length_append, List.length_cons]
        omega
      have hne : ¬ (whole = [] ∧ fraction = []) := by simpa using hne
      simp only [float?, List.append_assoc, List.cons_append, hpoint.takeWhile_append hwhole,
        List.drop_left, hend.takeWhile_append hfraction, getD_exponent? hexponent hdigit hmark,
        Bool.and_eq_true, decide_eq_true_eq, hne, if_false, Option.map_some, hdrop, hlength,
        List.length_append, List.length_cons]
      congr 2
      omega
  | @exponent whole text exponent hwhole hne hexponent =>
      have hend := stops_digit_of_exponentText hexponent (suffix ++ rest)
      have hfound := exponent?_of_exponentText hexponent hdigit
      have hdrop : (whole ++ (text ++ (suffix ++ rest))).drop (whole.length + text.length)
          = suffix ++ rest := by
        rw [← List.append_assoc]
        apply List.drop_left'
        rw [List.length_append]
      simp only [float?, List.append_assoc, hend.takeWhile_append hwhole, List.drop_left]
      split
      next heq =>
        rw [heq] at hfound
        cases hfound
      next =>
        simp only [hne, if_false, hfound, Option.map_some, hdrop, hlength, List.length_append,
          Nat.add_assoc]

/-- Without a point or an exponent there is no float. -/
theorem float?_eq_none {digits rest : List Char} (hdigits : digits.all Char.isDigit = true)
    (hdigit : Stops Char.isDigit rest) (hpoint : Stops (· = '.') rest)
    (hmark : Stops isExponentMark rest) : float? (digits ++ rest) = none := by
  simp only [float?, hdigit.takeWhile_append hdigits, List.drop_left]
  split
  next => cases Stops.cons_iff.mp hpoint
  next =>
    split
    next => rfl
    next => rw [exponent?_eq_none hmark]; rfl

theorem float?_eq_none_of_stops {digits rest : List Char}
    (hdigits : digits.all Char.isDigit = true) (hrest : Stops isJoining rest) :
    float? (digits ++ rest) = none :=
  float?_eq_none hdigits (hrest.mono fun _ => isJoining_of_isDigit)
    (hrest.mono fun x hx => by rw [isJoining, Bool.or_eq_true]; exact .inr hx)
    (hrest.mono fun _ => isJoining_of_isExponentMark)

theorem scan_of_wholeNumber {text : List Char} {numeral : Numeral} {length : Nat}
    (hfloat : float? text = none) (h : wholeNumber text = .numeral numeral length) :
    scan text = .numeral numeral length := by
  simp only [scan, hfloat, h]

theorem all_isDigit_of_octal {digits : List Char} (h : digits.all isOctalDigit = true) :
    digits.all Char.isDigit = true := by
  rw [List.all_eq_true] at h ⊢
  intro x hx
  have hoctal := h x hx
  simp only [isOctalDigit, Bool.and_eq_true, decide_eq_true_eq] at hoctal
  simp only [Char.isDigit, Bool.and_eq_true, decide_eq_true_eq]
  exact ⟨hoctal.1, Nat.le_trans hoctal.2 (by decide)⟩

theorem scan_decimal {digits rest : List Char} (hne : digits ≠ [])
    (hdigits : digits.all Char.isDigit = true) (hzero : digits.head? ≠ some '0')
    (hrest : Stops isJoining rest) :
    scan (digits ++ rest) = .numeral (.integer digits .decimal) digits.length := by
  apply scan_of_wholeNumber (float?_eq_none_of_stops hdigits hrest)
  obtain ⟨x, digits, rfl⟩ := List.exists_cons_of_ne_nil hne
  have hhead : (x :: digits ++ rest).head? ≠ some '0' := hzero
  rw [wholeNumber_decimal hhead,
    (hrest.mono fun _ => isJoining_of_isDigit).takeWhile_append hdigits]

theorem scan_hexadecimal {mark : Char} {digits rest : List Char} (hmark : isMark mark = true)
    (hne : digits ≠ []) (hdigits : digits.all isHexDigit = true)
    (hrest : Stops isJoining rest) :
    scan ('0' :: mark :: (digits ++ rest)) =
      .numeral (.integer digits .hexadecimal) (digits.length + 2) := by
  have hfloat : float? (['0'] ++ mark :: (digits ++ rest)) = none := by
    simp only [isMark, Bool.or_eq_true, decide_eq_true_eq] at hmark
    apply float?_eq_none rfl <;> rcases hmark with rfl | rfl <;> exact Stops.cons_iff.mpr rfl
  refine scan_of_wholeNumber hfloat ?_
  obtain ⟨x, digits, rfl⟩ := List.exists_cons_of_ne_nil hne
  rw [wholeNumber_marked hmark,
    (hrest.mono fun _ => isJoining_of_isHexDigit).takeWhile_append hdigits]

theorem scan_octal {digits rest : List Char} (hdigits : digits.all isOctalDigit = true)
    (hrest : Stops isJoining rest) :
    scan ('0' :: (digits ++ rest)) =
      .numeral (.integer (if digits = [] then ['0'] else digits) .octal) (digits.length + 1) := by
  have hall : ('0' :: digits).all Char.isDigit = true := by
    rw [List.all_cons, all_isDigit_of_octal hdigits]
    rfl
  apply scan_of_wholeNumber (float?_eq_none_of_stops hall hrest)
  have hmark : Stops isMark (digits ++ rest) := by
    cases digits with
    | nil => exact hrest.mono fun _ => isJoining_of_isMark
    | cons x digits =>
        rw [List.all_cons, Bool.and_eq_true] at hdigits
        refine Stops.cons_iff.mpr ?_
        cases hx : isMark x with
        | false => rfl
        | true =>
            simp only [isMark, Bool.or_eq_true, decide_eq_true_eq] at hx
            rcases hx with rfl | rfl <;> exact absurd hdigits.1 (by decide)
  rw [List.cons_append, wholeNumber_zero hmark,
    (hrest.mono fun _ => isJoining_of_isOctalDigit).takeWhile_append hdigits]
  cases digits <;> rfl

/-! The words for infinity and for what is no number. -/

theorem not_isDigit_of_isAlpha {x : Char} (h : x.isAlpha = true) : x.isDigit = false := by
  cases hdigit : x.isDigit with
  | false => rfl
  | true =>
      simp only [Char.isAlpha, Char.isUpper, Char.isLower, Char.isDigit, Bool.or_eq_true,
        Bool.and_eq_true, decide_eq_true_eq, ge_iff_le, UInt32.le_iff_toNat_le] at h hdigit
      have hzero : '0'.val.toNat = 48 := rfl
      have hnine : '9'.val.toNat = 57 := rfl
      have hA : 'A'.val.toNat = 65 := rfl
      have ha : 'a'.val.toNat = 97 := rfl
      omega

theorem specialWord?_eq_some {word : List Char} {x : Double}
    (h : specialWord? word = some x) :
    (word.map Char.toLower = "infinity".toList ∧ x = Ieee.infinity false) ∨
      (word.map Char.toLower = "inf".toList ∧ x = Ieee.infinity false) ∨
      (word.map Char.toLower = "nan".toList ∧ x = Ieee.nan) := by
  simp only [specialWord?] at h
  split at h
  next hword =>
    simp only [Bool.or_eq_true, decide_eq_true_eq] at hword
    exact hword.elim (fun hword => .inl ⟨hword, (Option.some.inj h).symm⟩)
      fun hword => .inr (.inl ⟨hword, (Option.some.inj h).symm⟩)
  next =>
    split at h
    next hword => exact .inr (.inr ⟨hword, (Option.some.inj h).symm⟩)
    next => cases h

theorem special_head {word : List Char} {x : Double} (h : specialWord? word = some x) :
    ∃ first more, word = first :: more ∧ first.isAlpha = true ∧
      (first.toLower = 'i' ∨ first.toLower = 'n') := by
  have hmap : ∃ first more, word = first :: more ∧
      (first.toLower = 'i' ∨ first.toLower = 'n') := by
    cases word with
    | nil => cases h
    | cons first more =>
        refine ⟨first, more, rfl, ?_⟩
        rcases specialWord?_eq_some h with ⟨h, _⟩ | ⟨h, _⟩ | ⟨h, _⟩
        · exact .inl (List.cons.inj h).1
        · exact .inl (List.cons.inj h).1
        · exact .inr (List.cons.inj h).1
  obtain ⟨first, more, rfl, hfirst⟩ := hmap
  refine ⟨first, more, rfl, first.isLower_toLower_eq_isAlpha ▸ ?_, hfirst⟩
  rcases hfirst with h | h <;> rw [h] <;> rfl

theorem beginsWith_append {word text : List Char} (h : text.map Char.toLower = word)
    (rest : List Char) : beginsWith word (text ++ rest) = true := by
  subst h
  simp [beginsWith]

/-- A longer word would carry a shorter one on. -/
theorem beginsWith_longer {word text rest : List Char} {next : Char} (longer : List Char)
    (h : text.map Char.toLower = word) (hrest : Stops isIdentifierChar rest)
    (hnext : next.isLower = true) :
    beginsWith (word ++ next :: longer) (text ++ rest) = false := by
  cases hbegins : beginsWith (word ++ next :: longer) (text ++ rest) with
  | false => rfl
  | true =>
      subst h
      simp only [beginsWith, decide_eq_true_eq, List.length_append, List.length_map,
        List.length_cons, List.take_append] at hbegins
      rw [List.take_of_length_le (by omega), List.map_append, List.append_cancel_left_eq] at hbegins
      cases rest with
      | nil => simp at hbegins
      | cons x rest =>
          have hx := Stops.cons_iff.mp hrest
          have hsize : text.length + (longer.length + 1) - text.length = longer.length + 1 := by
            omega
          rw [hsize, List.take_succ_cons, List.map_cons] at hbegins
          have halpha : x.isAlpha = true := by
            rw [← Char.isLower_toLower_eq_isAlpha]
            rw [(List.cons.inj hbegins).1, hnext]
          simp [isIdentifierChar, Char.isAlphanum, halpha] at hx

theorem beginsWith_of_head_ne {word text : List Char} {x y : Char}
    (h : text.map Char.toLower = x :: word) (hne : x ≠ y) (other rest : List Char) :
    beginsWith (y :: other) (text ++ rest) = false := by
  cases text with
  | nil => cases h
  | cons first text =>
      have hfirst : first.toLower ≠ y := by
        rw [(List.cons.inj h).1]
        exact hne
      simp [beginsWith, hfirst]

theorem special?_of_specialWord? {word rest : List Char} {x : Double}
    (h : specialWord? word = some x) (hrest : Stops isIdentifierChar rest) :
    special? (word ++ rest) = some (.float x, word.length) := by
  have hnext : (rest.head?.any isIdentifierChar) = false := by
    cases rest with
    | nil => rfl
    | cons y rest => exact Stops.cons_iff.mp hrest
  have found {lower : List Char} (hlower : word.map Char.toLower = lower) :
      Option.filter (fun found : Numeral × Nat =>
          !((word ++ rest).drop found.2).head?.any isIdentifierChar)
        (some (.float x, lower.length)) = some (.float x, word.length) := by
    have hlength : lower.length = word.length := by rw [← hlower, List.length_map]
    rw [hlength]
    simp [Option.filter, hnext]
  rcases specialWord?_eq_some h with ⟨hlower, rfl⟩ | ⟨hlower, rfl⟩ | ⟨hlower, rfl⟩
  · simp only [special?, beginsWith_append hlower rest, if_true]
    exact found hlower
  · have hlonger : beginsWith "infinity".toList (word ++ rest) = false :=
      beginsWith_longer "nity".toList hlower hrest rfl
    simp only [special?, hlonger, beginsWith_append hlower rest, if_true, Bool.false_eq_true,
      if_false]
    exact found hlower
  · have hinfinity : beginsWith "infinity".toList (word ++ rest) = false :=
      beginsWith_of_head_ne hlower (by decide) _ rest
    have hinf : beginsWith "inf".toList (word ++ rest) = false :=
      beginsWith_of_head_ne hlower (by decide) _ rest
    simp only [special?, hinfinity, hinf, beginsWith_append hlower rest, if_true,
      Bool.false_eq_true, if_false]
    exact found hlower

/-- What begins with neither a digit nor a point is a special number if it is one at all. -/
theorem scan_of_stops {text : List Char} (hdigit : Stops Char.isDigit text)
    (hpoint : Stops (· = '.') text) :
    scan text = match special? text with
      | some (numeral, length) => .numeral numeral length
      | none => .nothing := by
  have hfloat : float? text = none := by
    simp only [float?, hdigit.takeWhile_eq_nil, List.length_nil, List.drop_zero]
    split
    next => cases Stops.cons_iff.mp hpoint
    next => rfl
  have hwhole : wholeNumber text = .nothing := by
    have hzero : text.head? ≠ some '0' := by
      intro hhead
      cases hdigit '0' hhead
    rw [wholeNumber_decimal hzero, hdigit.takeWhile_eq_nil]
  cases hspecial : special? text with
  | none => simp only [scan, hfloat, hwhole, hspecial]
  | some found => simp only [scan, hfloat, hwhole, hspecial]

theorem ne_point_of_isAlpha {x : Char} (h : x.isAlpha = true) : x ≠ '.' := by
  rintro rfl
  cases h

theorem scan_special {word rest : List Char} {x : Double} (h : specialWord? word = some x)
    (hrest : Stops isIdentifierChar rest) :
    scan (word ++ rest) = .numeral (.float x) word.length := by
  have hspecial := special?_of_specialWord? h hrest
  obtain ⟨first, more, rfl, halpha, _⟩ := special_head h
  have hdigit : Stops Char.isDigit (first :: more ++ rest) :=
    Stops.cons_iff.mpr (not_isDigit_of_isAlpha halpha)
  have hpoint : Stops (· = '.') (first :: more ++ rest) :=
    Stops.cons_iff.mpr (decide_eq_false (ne_point_of_isAlpha halpha))
  rw [scan_of_stops hdigit hpoint, hspecial]

/-! Texts that no number begins. -/

theorem scan_eq_nothing {text : List Char} (h : Stops (fun x => x.isAlphanum || x = '.') text) :
    scan text = .nothing := by
  have hdigit : Stops Char.isDigit text := h.mono fun x hx => by simp [Char.isAlphanum, hx]
  have hpoint : Stops (· = '.') text := h.mono fun x hx => by simp_all
  rw [scan_of_stops hdigit hpoint]
  cases hspecial : special? text with
  | none => rfl
  | some found =>
      obtain ⟨read, rest, x, rfl, _, _, hword, _⟩ := specialWord?_of_special? hspecial
      obtain ⟨first, more, rfl, halpha, _⟩ := special_head hword
      have hfirst := Stops.cons_iff.mp h
      simp [Char.isAlphanum, halpha] at hfirst

theorem all_isIdentifierChar_of_specialWord? {word : List Char} {x : Double}
    (h : specialWord? word = some x) : word.all isIdentifierChar = true := by
  have hlower : ∀ y ∈ word.map Char.toLower, y.isLower = true := by
    rcases specialWord?_eq_some h with ⟨hword, _⟩ | ⟨hword, _⟩ | ⟨hword, _⟩ <;>
      (rw [hword]; simp)
  rw [List.all_eq_true]
  intro y hy
  have halpha : y.isAlpha = true := by
    rw [← y.isLower_toLower_eq_isAlpha]
    exact hlower _ (List.mem_map_of_mem hy)
  simp [isIdentifierChar, Char.isAlphanum, halpha]

/-- A word that is not special is no number, although it may begin with a special one. -/
theorem scan_word {x : Char} {more rest : List Char} (hx : isIdentifierStart x = true)
    (hmore : more.all isIdentifierChar = true) (hrest : Stops isIdentifierChar rest)
    (h : specialWord? (x :: more) = none) : scan (x :: more ++ rest) = .nothing := by
  have hdigit : Stops Char.isDigit (x :: more ++ rest) := by
    refine Stops.cons_iff.mpr ?_
    rw [isIdentifierStart, Bool.or_eq_true, decide_eq_true_eq] at hx
    rcases hx with halpha | rfl
    · exact not_isDigit_of_isAlpha halpha
    · rfl
  have hpoint : Stops (· = '.') (x :: more ++ rest) := by
    refine Stops.cons_iff.mpr (decide_eq_false ?_)
    rintro rfl
    cases hx
  rw [scan_of_stops hdigit hpoint]
  cases hspecial : special? (x :: more ++ rest) with
  | none => rfl
  | some found =>
      obtain ⟨read, left, y, htext, _, _, hword, hleft⟩ := specialWord?_of_special? hspecial
      have hall : (x :: more).all isIdentifierChar = true := by
        rw [List.all_cons, hmore, Bool.and_true]
        rw [isIdentifierStart, Bool.or_eq_true] at hx
        rw [isIdentifierChar, Bool.or_eq_true, Char.isAlphanum, Bool.or_eq_true]
        exact hx.imp_left .inl
      have hread := hleft.takeWhile_append (all_isIdentifierChar_of_specialWord? hword)
      rw [← htext, hrest.takeWhile_append hall] at hread
      rw [← hread, h] at hword
      cases hword

/-! What is spelled is scanned. -/

theorem scan_of_spells {numeral : Numeral} {read rest : List Char} (h : Spells numeral read)
    (hrest : Stops isJoining rest) : scan (read ++ rest) = .numeral numeral read.length := by
  cases h with
  | decimal hne hdigits hzero => exact scan_decimal hne hdigits hzero hrest
  | hexadecimal hmark hne hdigits =>
      exact scan_hexadecimal (by simpa [isMark] using hmark) hne hdigits hrest
  | octal hne hdigits =>
      have := scan_octal hdigits hrest
      rwa [if_neg hne] at this
  | zero => exact @scan_octal [] rest rfl hrest
  | float hfloat hsuffix =>
      rw [List.append_assoc, scan, float?_of_floatText hfloat hsuffix hrest]
  | special hspecial =>
      exact scan_special hspecial
        (hrest.mono fun x hx => by rw [isJoining, Bool.or_eq_true]; exact .inl hx)

end Textproto.Tree.Numeral
