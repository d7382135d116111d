import Textproto.Proofs.Tree.Readings
import Textproto.Proofs.Tree.Signed

namespace Textproto.Tree

/-! Escapes that spell nothing, and what is wrong with them. -/

namespace Escape

/-- So many hexadecimal digits come first. -/
def HexFirst (count : Nat) (text : List Char) : Prop :=
  ∃ digits rest, text = digits ++ rest ∧ digits.length = count ∧ digits.all isHexDigit = true

/-- What stands behind a backslash and spells nothing, and what is wrong with it. -/
inductive Flaw : Complaint → List Char → Prop
  | octal {digits rest : List Char} :
      digits.length = 3 → digits.all isOctalDigit = true → 0xFF < valueOf 8 digits →
      Flaw (.octalOutOfRange digits) (digits ++ rest)
  | hex {mark : Char} {rest : List Char} :
      mark = 'x' ∨ mark = 'X' → Stops isHexDigit rest → Flaw .missingHexDigits (mark :: rest)
  | short {rest : List Char} : ¬ HexFirst 4 rest → Flaw (.tooFewHexDigits 4) ('u' :: rest)
  | long {rest : List Char} : ¬ HexFirst 8 rest → Flaw (.tooFewHexDigits 8) ('U' :: rest)
  | unpaired {high rest : List Char} :
      high.length = 4 → high.all isHexDigit = true → isHighSurrogate (valueOf 16 high) = true →
      (∀ more, rest ≠ '\\' :: 'u' :: more) → Flaw .unpairedSurrogate ('u' :: (high ++ rest))
  | shortLow {high rest : List Char} :
      high.length = 4 → high.all isHexDigit = true → isHighSurrogate (valueOf 16 high) = true →
      ¬ HexFirst 4 rest → Flaw (.tooFewHexDigits 4) ('u' :: (high ++ '\\' :: 'u' :: rest))
  | invalidLow {high low rest : List Char} :
      high.length = 4 → high.all isHexDigit = true → isHighSurrogate (valueOf 16 high) = true →
      low.length = 4 → low.all isHexDigit = true → isLowSurrogate (valueOf 16 low) = false →
      Flaw .invalidLowSurrogate ('u' :: (high ++ '\\' :: 'u' :: (low ++ rest)))
  | shortCode {digits rest : List Char} :
      digits.length = 4 → digits.all isHexDigit = true →
      isHighSurrogate (valueOf 16 digits) = false → ¬ (valueOf 16 digits).isValidChar →
      Flaw (.invalidCodePoint (valueOf 16 digits)) ('u' :: (digits ++ rest))
  | longCode {digits rest : List Char} :
      digits.length = 8 → digits.all isHexDigit = true → ¬ (valueOf 16 digits).isValidChar →
      Flaw (.invalidCodePoint (valueOf 16 digits)) ('U' :: (digits ++ rest))
  | other {x : Char} {rest : List Char} :
      (∀ byte, (x, byte) ∉ letters) → isOctalDigit x = false → x ∉ ['x', 'X', 'u', 'U'] →
      Flaw (.invalidEscape x) (x :: rest)

theorem fixedHex?_eq_none_iff {count : Nat} {text : List Char} :
    fixedHex? count text = none ↔ ¬ HexFirst count text := by
  constructor
  · rintro h ⟨digits, rest, rfl, hlength, hdigits⟩
    rw [fixedHex?_append rest hlength hdigits] at h
    cases h
  · intro h
    cases hcode : fixedHex? count text with
    | none => rfl
    | some code =>
        obtain ⟨digits, rest, htext, hlength, hdigits, _⟩ := fixedHex?_eq_some hcode
        exact absurd ⟨digits, rest, htext, hlength, hdigits⟩ h

theorem codePoint_eq_wrong_iff {code length : Nat} {complaint : Complaint} :
    codePoint code length = .wrong complaint ↔
      ¬ code.isValidChar ∧ complaint = .invalidCodePoint code := by
  unfold codePoint
  split
  next h => simp [h]
  next h => simp [h, eq_comm]

theorem digitValue_lt_of_isOctalDigit {x : Char} (h : isOctalDigit x = true) :
    digitValue x < 8 := by
  simp only [isOctalDigit, Bool.and_eq_true, decide_eq_true_eq] at h
  have hle : x.toNat ≤ '7'.toNat := h.2
  have hdigit : x.isDigit = true := by
    simp only [Char.isDigit, Bool.and_eq_true, decide_eq_true_eq]
    exact ⟨h.1, Nat.le_trans h.2 (by decide)⟩
  rw [digitValue, if_pos hdigit]
  exact Nat.lt_of_le_of_lt (Nat.sub_le_sub_right hle _) (by decide)

/-- Fewer than three octal digits are in range. -/
theorem length_of_octal_large {digits : List Char} (hlength : digits.length ≤ 3)
    (hdigits : digits.all isOctalDigit = true) (hlarge : 0xFF < valueOf 8 digits) :
    digits.length = 3 := by
  have hvalue : valueOf 8 digits < 8 ^ digits.length := by
    have hbound : ∀ value ∈ digits.reverse.map digitValue, value < 8 := by
      intro value hvalue
      obtain ⟨x, hx, rfl⟩ := List.mem_map.mp hvalue
      exact digitValue_lt_of_isOctalDigit
        (List.all_eq_true.mp hdigits x (List.mem_reverse.mp hx))
    have := Nat.ofDigits_lt_base_pow_length (by decide : 1 < 8) hbound
    rwa [List.length_map, List.length_reverse, ← positional, ← valueOf_eq_positional] at this
  by_contra hne
  have hle : 8 ^ digits.length ≤ 8 ^ 2 := Nat.pow_le_pow_right (by decide) (by omega)
  omega

theorem flaw_of_octal {first : Char} {rest : List Char} {complaint : Complaint}
    (hfirst : isOctalDigit first = true) (h : octal first rest = .wrong complaint) :
    Flaw complaint (first :: rest) := by
  have hall : (first :: (rest.takeWhile isOctalDigit).take 2).all isOctalDigit = true := by
    rw [List.all_cons, hfirst, all_take_takeWhile, Bool.and_self]
  have hlength : (first :: (rest.takeWhile isOctalDigit).take 2).length ≤ 3 :=
    Nat.succ_le_succ (List.length_take_le 2 _)
  unfold octal at h
  simp only at h
  split at h
  next => cases h
  next hlarge =>
    cases h
    have := @Flaw.octal _ (rest.drop ((rest.takeWhile isOctalDigit).take 2).length)
      (length_of_octal_large hlength hall (Nat.lt_of_not_le hlarge)) hall (Nat.lt_of_not_le hlarge)
    rwa [List.cons_append, take_takeWhile_append_drop] at this

theorem flaw_of_hex {mark : Char} {rest : List Char} {complaint : Complaint}
    (hmark : mark = 'x' ∨ mark = 'X') (h : hex rest = .wrong complaint) :
    Flaw complaint (mark :: rest) := by
  unfold hex at h
  split at h
  next hnone =>
    cases h
    refine .hex hmark ?_
    have := Ended.take_takeWhile isHexDigit 2 rest
    rw [hnone] at this
    exact this.resolve_left (by decide)
  next => cases h

theorem flaw_of_surrogatePair {high rest : List Char} {complaint : Complaint}
    (hlength : high.length = 4) (hdigits : high.all isHexDigit = true)
    (hhigh : isHighSurrogate (valueOf 16 high) = true)
    (h : surrogatePair (valueOf 16 high) rest = .wrong complaint) :
    Flaw complaint ('u' :: (high ++ rest)) := by
  unfold surrogatePair at h
  split at h
  next rest =>
    split at h
    next hnone =>
      cases h
      exact .shortLow hlength hdigits hhigh (fixedHex?_eq_none_iff.mp hnone)
    next low hlow =>
      obtain ⟨digits, more, rfl, hlowLength, hlowDigits, rfl⟩ := fixedHex?_eq_some hlow
      split at h
      next hlow => exact absurd (isValidChar_pair hhigh hlow) (codePoint_eq_wrong_iff.mp h).1
      next hlow =>
        cases h
        exact .invalidLow hlength hdigits hhigh hlowLength hlowDigits (Bool.eq_false_iff.mpr hlow)
  next hother =>
    cases h
    exact .unpaired hlength hdigits hhigh hother

theorem flaw_of_short {rest : List Char} {complaint : Complaint}
    (h : short rest = .wrong complaint) : Flaw complaint ('u' :: rest) := by
  unfold short at h
  split at h
  next hnone =>
    cases h
    exact .short (fixedHex?_eq_none_iff.mp hnone)
  next code hcode =>
    obtain ⟨digits, more, rfl, hlength, hdigits, rfl⟩ := fixedHex?_eq_some hcode
    split at h
    next hhigh =>
      rw [List.drop_left' hlength] at h
      exact flaw_of_surrogatePair hlength hdigits hhigh h
    next hhigh =>
      obtain ⟨hinvalid, rfl⟩ := codePoint_eq_wrong_iff.mp h
      exact .shortCode hlength hdigits (Bool.eq_false_iff.mpr hhigh) hinvalid

theorem flaw_of_long {rest : List Char} {complaint : Complaint}
    (h : long rest = .wrong complaint) : Flaw complaint ('U' :: rest) := by
  unfold long at h
  split at h
  next hnone =>
    cases h
    exact .long (fixedHex?_eq_none_iff.mp hnone)
  next code hcode =>
    obtain ⟨digits, more, rfl, hlength, hdigits, rfl⟩ := fixedHex?_eq_some hcode
    obtain ⟨hinvalid, rfl⟩ := codePoint_eq_wrong_iff.mp h
    exact .longCode hlength hdigits hinvalid

theorem flaw_of_read {text : List Char} {complaint : Complaint}
    (h : read text = .wrong complaint) : Flaw complaint text := by
  unfold read at h
  split at h
  case h_13 => exact flaw_of_hex (.inl rfl) h
  case h_14 => exact flaw_of_hex (.inr rfl) h
  case h_15 => exact flaw_of_short h
  case h_16 => exact flaw_of_long h
  case h_17 =>
    split at h
    next hoctal => exact flaw_of_octal hoctal h
    next hoctal =>
      cases h
      refine .other (fun byte => ?_) (Bool.eq_false_iff.mpr hoctal) ?_
      · simp_all [letters]
      · simp_all
  all_goals cases h

theorem read_of_high {high : List Char} (rest : List Char) (hlength : high.length = 4)
    (hdigits : high.all isHexDigit = true) (hhigh : isHighSurrogate (valueOf 16 high) = true) :
    read ('u' :: (high ++ rest)) = surrogatePair (valueOf 16 high) rest := by
  have hread : read ('u' :: (high ++ rest)) = short (high ++ rest) := rfl
  rw [hread, short, fixedHex?_append rest hlength hdigits]
  simp only [hhigh, if_true, List.drop_left' hlength]

theorem read_of_flaw {text : List Char} {complaint : Complaint} (h : Flaw complaint text) :
    read text = .wrong complaint := by
  cases h with
  | @octal digits rest hlength hdigits hlarge =>
      obtain ⟨first, more, rfl⟩ := List.exists_cons_of_length_eq_add_one hlength
      rw [List.all_cons, Bool.and_eq_true] at hdigits
      have hmore : Ended isOctalDigit 2 more rest := .inl (Nat.succ.inj hlength)
      rw [List.cons_append, read_of_isOctalDigit hdigits.1, octal,
        hmore.take_takeWhile_eq hdigits.2 (Nat.le_of_eq (Nat.succ.inj hlength))]
      exact if_neg (Nat.not_le_of_lt hlarge)
  | @hex mark rest hmark hstops =>
      have hread : read (mark :: rest) = Escape.hex rest := by
        rcases hmark with rfl | rfl <;> rfl
      rw [hread, Escape.hex, hstops.takeWhile_eq_nil]
      rfl
  | @short rest hnone =>
      have hread : read ('u' :: rest) = Escape.short rest := rfl
      rw [hread, Escape.short, fixedHex?_eq_none_iff.mpr hnone]
  | @long rest hnone =>
      have hread : read ('U' :: rest) = Escape.long rest := rfl
      rw [hread, Escape.long, fixedHex?_eq_none_iff.mpr hnone]
  | @unpaired high rest hlength hdigits hhigh hother =>
      rw [read_of_high rest hlength hdigits hhigh]
      unfold surrogatePair
      split
      next => exact absurd rfl (hother _)
      next => rfl
  | @shortLow high rest hlength hdigits hhigh hnone =>
      rw [read_of_high _ hlength hdigits hhigh]
      simp only [surrogatePair, fixedHex?_eq_none_iff.mpr hnone]
  | @invalidLow high low rest hlength hdigits hhigh hlowLength hlowDigits hlow =>
      rw [read_of_high _ hlength hdigits hhigh]
      simp only [surrogatePair, fixedHex?_append rest hlowLength hlowDigits, hlow,
        Bool.false_eq_true, if_false]
  | @shortCode digits rest hlength hdigits hhigh hinvalid =>
      have hread : read ('u' :: (digits ++ rest)) = Escape.short (digits ++ rest) := rfl
      rw [hread, Escape.short, fixedHex?_append rest hlength hdigits]
      simp only [hhigh, Bool.false_eq_true, if_false]
      exact codePoint_eq_wrong_iff.mpr ⟨hinvalid, rfl⟩
  | @longCode digits rest hlength hdigits hinvalid =>
      have hread : read ('U' :: (digits ++ rest)) = Escape.long (digits ++ rest) := rfl
      rw [hread, Escape.long, fixedHex?_append rest hlength hdigits]
      exact codePoint_eq_wrong_iff.mpr ⟨hinvalid, rfl⟩
  | @other x rest hletters hoctal hmarks =>
      unfold read
      split
      case h_1 heq => cases heq
      case h_17 heq =>
        cases heq
        rw [hoctal]
        rfl
      all_goals
        next heq =>
          cases heq
          first
            | exact absurd (by decide) hmarks
            | simp [letters] at hletters

theorem read_eq_wrong_iff {text : List Char} {complaint : Complaint} :
    read text = .wrong complaint ↔ Flaw complaint text :=
  ⟨flaw_of_read, read_of_flaw⟩

theorem codePoint_ne_unfinished (code length : Nat) : codePoint code length ≠ .unfinished := by
  unfold codePoint
  split <;> exact nofun

theorem short_ne_unfinished (rest : List Char) : short rest ≠ .unfinished := by
  unfold short surrogatePair
  split
  next => exact nofun
  next =>
    split
    next =>
      split
      next =>
        split
        next => exact nofun
        next =>
          split
          next => exact codePoint_ne_unfinished _ _
          next => exact nofun
      next => exact nofun
    next => exact codePoint_ne_unfinished _ _

/-- Only where the text ends there is no escape behind a backslash. -/
theorem eq_nil_of_read_unfinished {text : List Char} (h : read text = .unfinished) : text = [] := by
  unfold read at h
  split at h
  case h_1 => rfl
  case h_13 | h_14 =>
    unfold hex at h
    split at h <;> cases h
  case h_15 => exact absurd h (short_ne_unfinished _)
  case h_16 =>
    unfold long at h
    split at h
    next => cases h
    next => exact absurd h (codePoint_ne_unfinished _ _)
  case h_17 =>
    split at h
    next =>
      unfold octal at h
      simp only at h
      split at h <;> cases h
    next => cases h
  all_goals cases h

end Escape

/-! Literals that break off, and where. -/

/-- What a literal does not go on with: a raw line end, the end of the text, or an escape that
spells nothing. Only of such an escape the place is told. -/
inductive Broken : Complaint → Bool → List Char → Prop
  | newline {rest : List Char} : Broken .newlineInString false ('\n' :: rest)
  | ended : Broken .unterminatedString false []
  | unfinished : Broken .unterminatedString false ['\\']
  | escape {complaint : Complaint} {rest : List Char} :
      Escape.Flaw complaint rest → Broken complaint true ('\\' :: rest)

/-- A literal that goes wrong, with what complaint, and how far behind its beginning. -/
inductive LiteralFlaw : Complaint → Nat → List Char → Prop
  | mk {quote : Char} {body rest : List Char} {bytes : List UInt8} {complaint : Complaint}
      {atEscape : Bool} :
      isQuote quote = true → LiteralBody quote body bytes → Broken complaint atEscape rest →
      LiteralFlaw complaint (if atEscape then body.length + 1 else 0) (quote :: (body ++ rest))

theorem Broken.stops {complaint : Complaint} {atEscape : Bool} {rest : List Char}
    (h : Broken complaint atEscape rest) : Stops isHexDigit rest := by
  cases h with
  | ended => exact .nil
  | _ => exact Stops.cons_iff.mpr rfl

theorem broken_of_literalFrom {start c : Cursor} {quote : Char} {read : List UInt8}
    {failure : Failure} (h : literalFrom start quote read c = .error failure) :
    ∃ body bytes rest complaint atEscape, LiteralBody quote body bytes ∧ c.rest = body ++ rest ∧
      Broken complaint atEscape rest ∧
        failure = .complain complaint (if atEscape then c.advance body.length else start) := by
  fun_induction literalFrom start quote read c with
  | case1 read c hrest =>
      cases h
      exact ⟨[], [], [], _, _, .nil, hrest, .ended, rfl⟩
  | case2 => cases h
  | case3 read c rest hrest =>
      cases h
      exact ⟨[], [], _, _, _, .nil, hrest, .newline, rfl⟩
  | case4 read c rest hescape hrest =>
      cases h
      rw [Escape.eq_nil_of_read_unfinished hescape] at hrest
      exact ⟨[], [], _, _, _, .nil, hrest, .unfinished, rfl⟩
  | case5 read c rest complaint hescape hrest =>
      cases h
      exact ⟨[], [], _, _, _, .nil, hrest, .escape (Escape.read_eq_wrong_iff.mp hescape), rfl⟩
  | case6 read c rest bytes length hescape other hother hrest hquote hline ih =>
      cases h
      obtain ⟨body, tail, more, complaint, atEscape, hbody, hmore, hbroken, rfl⟩ := ih hother
      obtain ⟨escaped, after, rfl, rfl, hspells⟩ := Escape.spells_of_read hescape
      rw [Cursor.advance_rest, hrest, List.drop_succ_cons, List.drop_left] at hmore
      subst hmore
      refine ⟨'\\' :: (escaped ++ body), bytes ++ tail, more, complaint, atEscape,
        .escape hspells.of_append hbody, ?_, hbroken, ?_⟩
      · rw [hrest, List.cons_append, List.append_assoc]
      · rw [Cursor.advance_advance, List.length_cons, List.length_append, Nat.add_right_comm]
  | case7 => cases h
  | case8 read c x rest hrest hquote hline hescape other hother ih =>
      cases h
      obtain ⟨body, tail, more, complaint, atEscape, hbody, hmore, hbroken, rfl⟩ := ih hother
      rw [Cursor.advance_rest, hrest, List.drop_one, List.tail_cons] at hmore
      subst hmore
      refine ⟨x :: body, Utf8.encodeChar x ++ tail, more, complaint, atEscape,
        .plain hquote hline hescape hbody, hrest, hbroken, ?_⟩
      rw [Cursor.advance_advance, List.length_cons, Nat.add_comm]
  | case9 => cases h

theorem literalFrom_of_broken {start c : Cursor} {quote : Char} {read bytes : List UInt8}
    {body rest : List Char} {complaint : Complaint} {atEscape : Bool}
    (hquote : isQuote quote = true) (hbody : LiteralBody quote body bytes)
    (hbroken : Broken complaint atEscape rest) (hc : c.rest = body ++ rest) :
    literalFrom start quote read c =
      .error (.complain complaint (if atEscape then c.advance body.length else start)) := by
  have hline : quote ≠ '\n' := by
    rintro rfl
    cases hquote
  have hescape : quote ≠ '\\' := by
    rintro rfl
    cases hquote
  have hother : ¬ '\\' = '\n' := by decide
  -- By the body, behind which the cursor stands in the end, while the start stays.
  induction hbody generalizing read c with
  | nil =>
      obtain ⟨p, chars⟩ := c
      subst hc
      cases hbroken with
      | newline =>
          rw [literalFrom]
          simp only [hline.symm, if_false, if_true, Bool.false_eq_true]
      | ended =>
          rw [literalFrom]
          simp only [Bool.false_eq_true, if_false]
      | unfinished =>
          rw [literalFrom]
          simp only [hescape.symm, hother, if_false, if_true, Escape.read, Bool.false_eq_true]
      | escape hflaw =>
          rw [literalFrom]
          simp only [hescape.symm, hother, if_false, if_true,
            Escape.read_eq_wrong_iff.mpr hflaw, List.length_nil, Cursor.advance]
  | @plain x body bytes hx hxline hxescape _ ih =>
      have hadvance : (c.advance 1).rest = body ++ rest := by
        rw [Cursor.advance_rest, hc, List.cons_append, List.drop_one, List.tail_cons]
      obtain ⟨p, chars⟩ := c
      subst hc
      rw [literalFrom]
      simp only [List.cons_append, hx, hxline, hxescape, if_false] at hadvance ⊢
      rw [ih hadvance, Cursor.advance_advance, List.length_cons, Nat.add_comm]
  | @escape escaped body meaning bytes hspells _ ih =>
      have hread := Escape.read_of_spells (hspells.append hbroken.stops)
      have hadvance : (c.advance (escaped.length + 1)).rest = body ++ rest := by
        rw [Cursor.advance_rest, hc, List.cons_append, List.drop_succ_cons, List.append_assoc,
          List.drop_left]
      obtain ⟨p, chars⟩ := c
      rw [List.cons_append, List.append_assoc] at hc
      subst hc
      rw [literalFrom]
      simp only [hescape.symm, hother, if_false, if_true, hread]
      rw [ih hadvance, Cursor.advance_advance, List.length_cons, List.length_append,
        Nat.add_right_comm]

theorem literal_eq_absent_iff {c : Cursor} : literal c = .absent ↔ Stops isQuote c.rest := by
  refine ⟨fun h => ?_, literal_eq_absent⟩
  rw [← accept_eq_absent]
  cases haccept : accept isQuote c with
  | absent => rfl
  | failed failure => exact absurd haccept accept_ne_failed
  | read quote d before =>
      rw [literal, haccept] at h
      simp only [Attempt.andThen] at h
      split at h <;> cases h

theorem literal_eq_failed_iff {c : Cursor} {failure : Failure} :
    literal c = .failed failure ↔ ∃ complaint offset, LiteralFlaw complaint offset c.rest ∧
      failure = .complain complaint (c.advance offset) := by
  rw [literal, Attempt.andThen_eq_failed]
  constructor
  · rintro (hfailed | ⟨quote, d, before, haccept, h⟩)
    · exact absurd hfailed accept_ne_failed
    · obtain ⟨rest, hc, hquote, rfl⟩ := reads_accept.mp ⟨before, haccept⟩
      split at h
      next other hother =>
        cases h
        obtain ⟨body, bytes, more, complaint, atEscape, hbody, hmore, hbroken, rfl⟩ :=
          broken_of_literalFrom hother
        rw [Cursor.advance_rest, hc, List.drop_one, List.tail_cons] at hmore
        subst hmore
        rw [hc]
        refine ⟨complaint, _, .mk hquote hbody hbroken, ?_⟩
        cases atEscape with
        | false => rfl
        | true => simp only [if_true, Cursor.advance_advance, Nat.add_comm]
      next => cases h
  · rintro ⟨complaint, offset, hflaw, rfl⟩
    generalize htext : c.rest = text at hflaw
    obtain ⟨hquote, hbody, hbroken⟩ := hflaw
    rename_i quote body rest bytes atEscape
    obtain ⟨before, haccept⟩ := reads_accept.mpr ⟨_, htext, hquote, rfl⟩
    have hc : (c.advance 1).rest = body ++ rest := by
      rw [Cursor.advance_rest, htext, List.drop_one, List.tail_cons]
    have hfailed := @literalFrom_of_broken c _ quote [] _ _ _ _ _ hquote hbody hbroken hc
    refine .inr ⟨quote, c.advance 1, before, haccept, ?_⟩
    simp only [hfailed]
    cases atEscape with
    | false => rfl
    | true => simp only [if_true, Cursor.advance_advance, Nat.add_comm]

/-! Strings, from literals with layout between them. -/

/-- Literals, each behind some layout, and the bytes that they spell together. -/
inductive FurtherLiterals : List Char → List UInt8 → Prop
  | nil : FurtherLiterals [] []
  | cons {gap text rest : List Char} {bytes more : List UInt8} :
      Layout gap → LiteralText text bytes → FurtherLiterals rest more →
      FurtherLiterals (gap ++ (text ++ rest)) (bytes ++ more)

/-- At least one literal, others behind it, and the bytes that they spell together. -/
inductive LiteralTexts : List Char → List UInt8 → Prop
  | mk {text rest : List Char} {bytes more : List UInt8} :
      LiteralText text bytes → FurtherLiterals rest more →
      LiteralTexts (text ++ rest) (bytes ++ more)

/-- No literal follows, with or without layout before it. -/
def LiteralsEnd (text : List Char) : Prop :=
  ∀ gap rest, Layout gap → text = gap ++ rest → Stops isQuote rest

/-- A string one of whose literals goes wrong. -/
inductive StringFlaw : Complaint → Nat → List Char → Prop
  | first {complaint : Complaint} {offset : Nat} {text : List Char} :
      LiteralFlaw complaint offset text → StringFlaw complaint offset text
  | later {before gap text : List Char} {bytes : List UInt8} {complaint : Complaint}
      {offset : Nat} :
      LiteralTexts before bytes → Layout gap → LiteralFlaw complaint offset text →
      StringFlaw complaint ((before ++ gap).length + offset) (before ++ (gap ++ text))

theorem begins_eq_false_of_isQuote {x : Char} (h : isQuote x = true) (rest : List Char) :
    Layout.begins (x :: rest) = false := by
  simp only [isQuote, Bool.or_eq_true, decide_eq_true_eq] at h
  rcases h with rfl | rfl <;> rfl

theorem stops_skipLayout_iff_literalsEnd {c : Cursor} :
    Stops isQuote c.skipLayout.rest ↔ LiteralsEnd c.rest :=
  Cursor.stops_skipLayout_iff fun _ hx => begins_eq_false_of_isQuote hx []

theorem LiteralText.begins {text : List Char} {bytes : List UInt8} (h : LiteralText text bytes)
    (rest : List Char) : Layout.begins (text ++ rest) = false := by
  obtain ⟨hquote, _⟩ := h
  exact begins_eq_false_of_isQuote hquote _

theorem LiteralText.append_ne_nil {text : List Char} {bytes : List UInt8}
    (h : LiteralText text bytes) (rest : List Char) : text ++ rest ≠ [] := by
  obtain ⟨_, _⟩ := h
  exact nofun

theorem LiteralFlaw.ne_nil {complaint : Complaint} {offset : Nat} {text : List Char}
    (h : LiteralFlaw complaint offset text) : text ≠ [] := by
  obtain ⟨_, _, _⟩ := h
  exact nofun

theorem LiteralFlaw.begins {complaint : Complaint} {offset : Nat} {text : List Char}
    (h : LiteralFlaw complaint offset text) : Layout.begins text = false := by
  obtain ⟨hquote, _, _⟩ := h
  exact begins_eq_false_of_isQuote hquote _

theorem reads_literal_iff {c d : Cursor} {bytes : List UInt8} :
    (literal c).Reads bytes d ↔ ∃ text, LiteralText text bytes ∧ c.rest = text ++ d.rest ∧
      d = c.advance text.length := by
  constructor
  · intro h
    obtain ⟨text, hc, htext⟩ := literalText_of_literal h
    exact ⟨text, htext, hc, h.before.reaches.eq_advance hc⟩
  · rintro ⟨text, htext, hc, rfl⟩
    obtain ⟨d, hread, hd⟩ := literal_of_literalText htext hc
    rw [← hd] at hc
    rwa [← hread.before.reaches.eq_advance hc]

/-- What layout and a literal leave behind them. -/
theorem reads_skipLayout_literal_iff {c d : Cursor} {bytes : List UInt8} :
    (literal c.skipLayout).Reads bytes d ↔
      ∃ gap text, Layout gap ∧ LiteralText text bytes ∧ c.rest = gap ++ (text ++ d.rest) ∧
        d = c.advance (gap ++ text).length := by
  rw [reads_literal_iff]
  constructor
  · rintro ⟨text, htext, hrest, hd⟩
    obtain ⟨gap, hgap, hc, hskip⟩ := c.exists_gap (hrest ▸ htext.append_ne_nil _)
    refine ⟨gap, text, hgap, htext, hrest ▸ hc, ?_⟩
    rw [hd, hskip, Cursor.advance_advance, List.length_append]
  · rintro ⟨gap, text, hgap, htext, hc, hd⟩
    have hskip := Cursor.skipLayout_eq_advance hc hgap (htext.begins _)
    refine ⟨text, htext, Cursor.skipLayout_rest hc hgap (htext.begins _), ?_⟩
    rw [hd, hskip, Cursor.advance_advance, List.length_append]

theorem skipLayout_literal_eq_failed_iff {c : Cursor} {failure : Failure} :
    literal c.skipLayout = .failed failure ↔ ∃ complaint offset gap text, Layout gap ∧
      LiteralFlaw complaint offset text ∧ c.rest = gap ++ text ∧
        failure = .complain complaint (c.advance (gap.length + offset)) := by
  rw [literal_eq_failed_iff]
  constructor
  · rintro ⟨complaint, offset, hflaw, rfl⟩
    obtain ⟨gap, hgap, hc, hskip⟩ := c.exists_gap hflaw.ne_nil
    refine ⟨complaint, offset, gap, _, hgap, hflaw, hc, ?_⟩
    rw [hskip, Cursor.advance_advance]
  · rintro ⟨complaint, offset, gap, text, hgap, hflaw, hc, rfl⟩
    have hskip := Cursor.skipLayout_eq_advance hc hgap hflaw.begins
    rw [Cursor.skipLayout_rest hc hgap hflaw.begins]
    refine ⟨complaint, offset, hflaw, ?_⟩
    rw [hskip, Cursor.advance_advance]

theorem run_iff {c d : Cursor} {bytes : List UInt8} :
    (∃ values, values.flatten = bytes ∧
        Run (fun e => (literal e.skipLayout).since e.reaches_skipLayout) c values d) ↔
      ∃ text, FurtherLiterals text bytes ∧ c.rest = text ++ d.rest ∧ LiteralsEnd d.rest ∧
        d = c.advance text.length := by
  constructor
  · rintro ⟨values, rfl, run⟩
    induction run with
    | stop habsent =>
        refine ⟨[], .nil, rfl, ?_, rfl⟩
        rwa [← stops_skipLayout_iff_literalsEnd, ← literal_eq_absent_iff,
          ← Attempt.since_eq_absent]
    | go hread _ ih =>
        obtain ⟨gap, first, hgap, hfirst, hc, hd⟩ :=
          reads_skipLayout_literal_iff.mp (Attempt.reads_since.mp hread)
        obtain ⟨text, htext, hrest, hends, he⟩ := ih
        refine ⟨_, .cons hgap hfirst htext, ?_, hends, ?_⟩
        · rw [hc, hrest, List.append_assoc, List.append_assoc]
        · rw [he, hd, Cursor.advance_advance, ← List.length_append, List.append_assoc]
  · rintro ⟨text, htext, hc, hends, hd⟩
    induction htext generalizing c with
    | nil =>
        obtain rfl : d = c := hd
        refine ⟨[], rfl, .stop ?_⟩
        rwa [Attempt.since_eq_absent, literal_eq_absent_iff, stops_skipLayout_iff_literalsEnd]
    | @cons gap first rest bytes more hgap hfirst _ ih =>
        have hsplit : c.rest = (gap ++ first) ++ (rest ++ d.rest) := by
          rw [hc]
          simp only [List.append_assoc]
        have hnext : (c.advance (gap ++ first).length).rest = rest ++ d.rest := by
          rw [Cursor.advance_rest, hsplit, List.drop_left]
        have hread : (literal c.skipLayout).Reads bytes (c.advance (gap ++ first).length) := by
          refine reads_skipLayout_literal_iff.mpr ⟨gap, first, hgap, hfirst, ?_, rfl⟩
          rw [hnext, hsplit, List.append_assoc]
        obtain ⟨values, rfl, run⟩ := ih hnext (by
          rw [hd, Cursor.advance_advance, ← List.length_append, List.append_assoc])
        exact ⟨bytes :: values, rfl, .go (Attempt.reads_since.mpr hread) run⟩

/-- Among literals with layout between them one goes wrong. -/
theorem breaks_iff {c : Cursor} {failure : Failure} :
    Breaks (fun e => (literal e.skipLayout).since e.reaches_skipLayout) c failure ↔
      ∃ before bytes gap text complaint offset, FurtherLiterals before bytes ∧ Layout gap ∧
        LiteralFlaw complaint offset text ∧ c.rest = before ++ (gap ++ text) ∧
          failure = .complain complaint (c.advance ((before ++ gap).length + offset)) := by
  constructor
  · intro breaks
    induction breaks with
    | here hfailed =>
        obtain ⟨complaint, offset, gap, text, hgap, hflaw, hc, rfl⟩ :=
          skipLayout_literal_eq_failed_iff.mp (Attempt.since_eq_failed.mp hfailed)
        exact ⟨[], [], gap, text, complaint, offset, .nil, hgap, hflaw, hc, rfl⟩
    | later hread _ ih =>
        obtain ⟨lead, first, hlead, hfirst, hc, hd⟩ :=
          reads_skipLayout_literal_iff.mp (Attempt.reads_since.mp hread)
        obtain ⟨before, bytes, gap, text, complaint, offset, hbefore, hgap, hflaw, hrest, rfl⟩ := ih
        refine ⟨_, _, gap, text, complaint, offset, .cons hlead hfirst hbefore, hgap, hflaw, ?_, ?_⟩
        · rw [hc, hrest]
          simp only [List.append_assoc]
        · rw [hd, Cursor.advance_advance]
          simp only [List.length_append, Nat.add_assoc]
  · rintro ⟨before, bytes, gap, text, complaint, offset, hbefore, hgap, hflaw, hc, rfl⟩
    induction hbefore generalizing c with
    | nil =>
        refine .here (Attempt.since_eq_failed.mpr (skipLayout_literal_eq_failed_iff.mpr ?_))
        exact ⟨complaint, offset, gap, text, hgap, hflaw, hc, rfl⟩
    | @cons lead first rest bytes more hlead hfirst _ ih =>
        have hsplit : c.rest = (lead ++ first) ++ (rest ++ (gap ++ text)) := by
          rw [hc]
          simp only [List.append_assoc]
        have hnext : (c.advance (lead ++ first).length).rest = rest ++ (gap ++ text) := by
          rw [Cursor.advance_rest, hsplit, List.drop_left]
        have hread : (literal c.skipLayout).Reads bytes (c.advance (lead ++ first).length) := by
          refine reads_skipLayout_literal_iff.mpr ⟨lead, first, hlead, hfirst, ?_, rfl⟩
          rw [hnext, hsplit, List.append_assoc]
        refine .later (Attempt.reads_since.mpr hread) ?_
        have := ih hnext
        rw [Cursor.advance_advance] at this
        simpa only [List.length_append, Nat.add_assoc] using this

/-! What becomes of a string. -/

theorem reads_string_iff {c d : Cursor} {scalar : Scalar} :
    (string c).Reads scalar d ↔ ∃ text bytes, LiteralTexts text bytes ∧ scalar = .string bytes ∧
      c.rest = text ++ d.rest ∧ LiteralsEnd d.rest ∧ d = c.advance text.length := by
  rw [reads_string]
  constructor
  · rintro ⟨first, more, e, hfirst, hrun, rfl⟩
    obtain ⟨text, htext, hc, he⟩ := reads_literal_iff.mp hfirst
    obtain ⟨rest, hrest, hmore, hends, hd⟩ := run_iff.mp ⟨more, rfl, hrun⟩
    refine ⟨_, _, .mk htext hrest, rfl, ?_, hends, ?_⟩
    · rw [hc, hmore, List.append_assoc]
    · rw [hd, he, Cursor.advance_advance, List.length_append]
  · rintro ⟨_, _, ⟨htext, hrest⟩, rfl, hc, hends, rfl⟩
    rename_i text rest bytes more
    rw [List.append_assoc] at hc
    have hnext : (c.advance text.length).rest = rest ++ (c.advance (text ++ rest).length).rest := by
      rw [Cursor.advance_rest, hc, List.drop_left]
    obtain ⟨values, rfl, run⟩ := run_iff.mpr ⟨rest, hrest, hnext, hends, by
      rw [Cursor.advance_advance, List.length_append]⟩
    refine ⟨bytes, values, _, reads_literal_iff.mpr ⟨text, htext, ?_, rfl⟩, run, rfl⟩
    rw [hnext, hc]

theorem string_eq_absent_iff {c : Cursor} : string c = .absent ↔ Stops isQuote c.rest := by
  refine ⟨fun h => ?_, string_eq_absent⟩
  rw [← literal_eq_absent_iff]
  cases hliteral : literal c with
  | absent => rfl
  | failed failure =>
      rw [string, hliteral] at h
      cases h
  | read first d before =>
      rw [string, hliteral] at h
      simp only [Attempt.andThen] at h
      split at h <;> cases h

theorem string_eq_failed_iff {c : Cursor} {failure : Failure} :
    string c = .failed failure ↔ ∃ complaint offset, StringFlaw complaint offset c.rest ∧
      failure = .complain complaint (c.advance offset) := by
  rw [string, Attempt.andThen_eq_failed]
  constructor
  · rintro (hfailed | ⟨first, d, before, hfirst, h⟩)
    · obtain ⟨complaint, offset, hflaw, rfl⟩ := literal_eq_failed_iff.mp hfailed
      exact ⟨complaint, offset, .first hflaw, rfl⟩
    · split at h
      next other hother =>
        cases h
        obtain ⟨text, htext, hc, hd⟩ := reads_literal_iff.mp ⟨before, hfirst⟩
        obtain ⟨between, bytes, gap, last, complaint, offset, hbetween, hgap, hflaw, hrest, rfl⟩ :=
          breaks_iff.mp (many_eq_error_iff.mp hother)
        have hlater := StringFlaw.later (.mk htext hbetween) hgap hflaw
        rw [List.append_assoc text between (gap ++ last), ← hrest, ← hc] at hlater
        refine ⟨complaint, _, hlater, ?_⟩
        rw [hd, Cursor.advance_advance]
        simp only [List.length_append, Nat.add_assoc]
      next => cases h
  · rintro ⟨complaint, offset, hflaw, rfl⟩
    generalize hc : c.rest = whole at hflaw
    cases hflaw with
    | first hflaw =>
        rw [← hc] at hflaw
        exact .inl (literal_eq_failed_iff.mpr ⟨complaint, offset, hflaw, rfl⟩)
    | @later _ gap last _ _ _ hbefore hgap hflaw =>
        obtain ⟨htext, hrest⟩ := hbefore
        rename_i offset text rest bytes more
        have hsplit : c.rest = text ++ (rest ++ (gap ++ last)) := by
          rw [hc, List.append_assoc]
        have hnext : (c.advance text.length).rest = rest ++ (gap ++ last) := by
          rw [Cursor.advance_rest, hsplit, List.drop_left]
        obtain ⟨before, hfirst⟩ : (literal c).Reads bytes (c.advance text.length) :=
          reads_literal_iff.mpr ⟨text, htext, by rw [hnext, hsplit], rfl⟩
        refine .inr ⟨bytes, _, before, hfirst, ?_⟩
        have := many_eq_error_iff.mpr (breaks_iff.mpr
          ⟨rest, more, gap, last, complaint, offset, hrest, hgap, hflaw, hnext, rfl⟩)
        simp only [this, Cursor.advance_advance]
        simp only [List.length_append, Nat.add_assoc]

end Textproto.Tree
