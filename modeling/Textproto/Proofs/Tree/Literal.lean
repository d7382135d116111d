import Textproto.Proofs.Tree.Attempt
import Textproto.Tree.Quoted

namespace Textproto.Tree

/-! The language of quoted literals, and that literals are read exactly by it. -/

/-- The characters that stand for one byte behind a backslash. -/
def Escape.letters : List (Char × UInt8) :=
  [ ('a', 0x07), ('b', 0x08), ('f', 0x0C), ('n', 0x0A), ('r', 0x0D), ('t', 0x09), ('v', 0x0B),
    ('\\', 0x5C), ('\'', 0x27), ('"', 0x22), ('?', 0x3F) ]

/-- No further digit follows a run that could still grow. -/
def Escape.Ended (isDigit : Char → Bool) (longest : Nat) (digits rest : List Char) : Prop :=
  digits.length = longest ∨ Stops isDigit rest

/-- What may stand behind a backslash, the bytes it spells, and the text that follows it. -/
inductive Escape.Spells : List Char → List UInt8 → List Char → Prop
  | letter {x : Char} {byte : UInt8} {rest : List Char} :
      (x, byte) ∈ letters → Spells [x] [byte] rest
  | octal {digits rest : List Char} :
      digits ≠ [] → digits.length ≤ 3 → digits.all isOctalDigit = true →
      valueOf 8 digits ≤ 0xFF → Ended isOctalDigit 3 digits rest →
      Spells digits [UInt8.ofNat (valueOf 8 digits)] rest
  | hex {mark : Char} {digits rest : List Char} :
      mark = 'x' ∨ mark = 'X' → digits ≠ [] → digits.length ≤ 2 →
      digits.all isHexDigit = true → Ended isHexDigit 2 digits rest →
      Spells (mark :: digits) [UInt8.ofNat (valueOf 16 digits)] rest
  | short {digits rest : List Char} :
      digits.length = 4 → digits.all isHexDigit = true → (valueOf 16 digits).isValidChar →
      Spells ('u' :: digits) (Utf8.encodeChar (Char.ofNat (valueOf 16 digits))) rest
  | pair {high low rest : List Char} :
      high.length = 4 → high.all isHexDigit = true → low.length = 4 →
      low.all isHexDigit = true → isHighSurrogate (valueOf 16 high) = true →
      isLowSurrogate (valueOf 16 low) = true →
      Spells ('u' :: (high ++ '\\' :: 'u' :: low))
        (Utf8.encodeChar (Char.ofNat
          (0x10000 + (valueOf 16 high - 0xD800) * 0x400 + (valueOf 16 low - 0xDC00)))) rest
  | long {digits rest : List Char} :
      digits.length = 8 → digits.all isHexDigit = true → (valueOf 16 digits).isValidChar →
      Spells ('U' :: digits) (Utf8.encodeChar (Char.ofNat (valueOf 16 digits))) rest

/-- What stands between the quotes of a literal, and the bytes it spells. -/
inductive LiteralBody (quote : Char) : List Char → List UInt8 → Prop
  | nil : LiteralBody quote [] []
  | plain {x : Char} {rest : List Char} {bytes : List UInt8} :
      x ≠ quote → x ≠ '\n' → x ≠ '\\' → LiteralBody quote rest bytes →
      LiteralBody quote (x :: rest) (Utf8.encodeChar x ++ bytes)
  | escape {escaped rest : List Char} {meaning bytes : List UInt8} :
      Escape.Spells escaped meaning rest → LiteralBody quote rest bytes →
      LiteralBody quote ('\\' :: (escaped ++ rest)) (meaning ++ bytes)

namespace Escape

theorem Ended.take_takeWhile (isDigit : Char → Bool) (longest : Nat) (text : List Char) :
    Ended isDigit longest ((text.takeWhile isDigit).take longest)
      (text.drop ((text.takeWhile isDigit).take longest).length) := by
  by_cases hlong : longest ≤ (text.takeWhile isDigit).length
  · exact .inl (by simp [hlong])
  · rw [List.take_of_length_le (by omega)]
    exact .inr (.drop_takeWhile text)

theorem Ended.take_takeWhile_eq {isDigit : Char → Bool} {longest : Nat}
    {digits rest : List Char} (h : Ended isDigit longest digits rest)
    (hdigits : digits.all isDigit = true) (hlength : digits.length ≤ longest) :
    ((digits ++ rest).takeWhile isDigit).take longest = digits := by
  rcases h with rfl | hstops
  · rw [List.takeWhile_append_of_pos (by simpa using hdigits), List.take_left]
  · rw [hstops.takeWhile_append hdigits, List.take_of_length_le hlength]

theorem Ended.of_append {isDigit : Char → Bool} {longest : Nat}
    {digits rest more : List Char} (h : Ended isDigit longest digits (rest ++ more)) :
    Ended isDigit longest digits rest :=
  h.imp_right Stops.of_append

theorem Ended.append {isDigit : Char → Bool} {longest : Nat} {digits rest more : List Char}
    (h : Ended isDigit longest digits rest) (hmore : Stops isDigit more) :
    Ended isDigit longest digits (rest ++ more) :=
  h.imp_right fun hstops => hstops.append_right hmore

theorem take_takeWhile_append_drop (isDigit : Char → Bool) (longest : Nat)
    (text : List Char) :
    (text.takeWhile isDigit).take longest
        ++ text.drop ((text.takeWhile isDigit).take longest).length = text :=
  List.prefix_iff_eq_append.mp
    ((List.take_prefix longest _).trans (List.takeWhile_prefix isDigit))

theorem all_take_takeWhile (isDigit : Char → Bool) (longest : Nat) (text : List Char) :
    ((text.takeWhile isDigit).take longest).all isDigit = true := by
  rw [List.all_eq_true]
  intro x hx
  have := List.all_takeWhile (p := isDigit) (l := text)
  rw [List.all_eq_true] at this
  exact this x (List.mem_of_mem_take hx)

/-! Escapes that are read are spelled so. -/

theorem fixedHex?_eq_some {count : Nat} {text : List Char} {code : Nat}
    (h : fixedHex? count text = some code) :
    ∃ digits rest, text = digits ++ rest ∧ digits.length = count ∧
      digits.all isHexDigit = true ∧ code = valueOf 16 digits := by
  simp only [fixedHex?, Bool.and_eq_true, decide_eq_true_eq] at h
  split at h
  next hdigits =>
    cases h
    exact ⟨text.take count, text.drop count, (List.take_append_drop count text).symm,
      hdigits.1, hdigits.2, rfl⟩
  next => cases h

theorem fixedHex?_append {count : Nat} {digits : List Char} (rest : List Char)
    (hlength : digits.length = count) (hdigits : digits.all isHexDigit = true) :
    fixedHex? count (digits ++ rest) = some (valueOf 16 digits) := by
  subst hlength
  simp [fixedHex?, hdigits]

theorem codePoint_eq_bytes {code length size : Nat} {bytes : List UInt8}
    (h : codePoint code length = .bytes bytes size) :
    code.isValidChar ∧ bytes = Utf8.encodeChar (Char.ofNat code) ∧ size = length := by
  unfold codePoint at h
  split at h
  next hvalid =>
    cases h
    exact ⟨hvalid, rfl, rfl⟩
  next => cases h

theorem codePoint_of_isValidChar {code : Nat} (h : code.isValidChar) (length : Nat) :
    codePoint code length = .bytes (Utf8.encodeChar (Char.ofNat code)) length :=
  if_pos h

theorem spells_of_octal {first : Char} {rest : List Char} {bytes : List UInt8} {n : Nat}
    (hfirst : isOctalDigit first = true) (h : octal first rest = .bytes bytes n) :
    ∃ escaped more, first :: rest = escaped ++ more ∧ escaped.length = n ∧
      Spells escaped bytes more := by
  unfold octal at h
  simp only at h
  split at h
  next hvalue =>
    cases h
    refine ⟨first :: (rest.takeWhile isOctalDigit).take 2,
      rest.drop ((rest.takeWhile isOctalDigit).take 2).length, ?_, rfl, ?_⟩
    · rw [List.cons_append, take_takeWhile_append_drop]
    · refine .octal (List.cons_ne_nil _ _) ?_ ?_ hvalue ?_
      · simp only [List.length_cons, List.length_take]
        omega
      · rw [List.all_cons, hfirst, all_take_takeWhile, Bool.and_self]
      · exact (Ended.take_takeWhile isOctalDigit 2 rest).imp_left (congrArg (· + 1))
  next => cases h

theorem spells_of_hex {mark : Char} {rest : List Char} {bytes : List UInt8} {n : Nat}
    (hmark : mark = 'x' ∨ mark = 'X') (h : hex rest = .bytes bytes n) :
    ∃ escaped more, mark :: rest = escaped ++ more ∧ escaped.length = n ∧
      Spells escaped bytes more := by
  unfold hex at h
  split at h
  next => cases h
  next hne =>
    cases h
    refine ⟨mark :: (rest.takeWhile isHexDigit).take 2,
      rest.drop ((rest.takeWhile isHexDigit).take 2).length, ?_, rfl, ?_⟩
    · rw [List.cons_append, take_takeWhile_append_drop]
    · exact .hex hmark hne (List.length_take_le 2 _) (all_take_takeWhile _ _ _)
        (Ended.take_takeWhile isHexDigit 2 rest)

theorem spells_of_surrogatePair {high rest : List Char} {bytes : List UInt8} {n : Nat}
    (hlength : high.length = 4) (hdigits : high.all isHexDigit = true)
    (hhigh : isHighSurrogate (valueOf 16 high) = true)
    (h : surrogatePair (valueOf 16 high) rest = .bytes bytes n) :
    ∃ escaped more, 'u' :: (high ++ rest) = escaped ++ more ∧ escaped.length = n ∧
      Spells escaped bytes more := by
  unfold surrogatePair at h
  split at h
  next rest =>
    split at h
    next => cases h
    next low hlow =>
      obtain ⟨digits, more, rfl, hlowLength, hlowDigits, rfl⟩ := fixedHex?_eq_some hlow
      split at h
      next hlow =>
        have hcode := codePoint_eq_bytes h
        rw [hcode.2.1, hcode.2.2]
        refine ⟨'u' :: (high ++ '\\' :: 'u' :: digits), more, by simp, ?_,
          .pair hlength hdigits hlowLength hlowDigits hhigh hlow⟩
        simp [hlength, hlowLength]
      next => cases h
  next => cases h

theorem spells_of_short {rest : List Char} {bytes : List UInt8} {n : Nat}
    (h : short rest = .bytes bytes n) :
    ∃ escaped more, 'u' :: rest = escaped ++ more ∧ escaped.length = n ∧
      Spells escaped bytes more := by
  unfold short at h
  split at h
  next => cases h
  next code hcode =>
    obtain ⟨digits, more, rfl, hlength, hdigits, rfl⟩ := fixedHex?_eq_some hcode
    split at h
    next hhigh =>
      rw [List.drop_left' hlength] at h
      exact spells_of_surrogatePair hlength hdigits hhigh h
    next =>
      obtain ⟨hvalid, rfl, rfl⟩ := codePoint_eq_bytes h
      exact ⟨'u' :: digits, more, rfl, by simp [hlength], .short hlength hdigits hvalid⟩

theorem spells_of_long {rest : List Char} {bytes : List UInt8} {n : Nat}
    (h : long rest = .bytes bytes n) :
    ∃ escaped more, 'U' :: rest = escaped ++ more ∧ escaped.length = n ∧
      Spells escaped bytes more := by
  unfold long at h
  split at h
  next => cases h
  next code hcode =>
    obtain ⟨digits, more, rfl, hlength, hdigits, rfl⟩ := fixedHex?_eq_some hcode
    obtain ⟨hvalid, rfl, rfl⟩ := codePoint_eq_bytes h
    exact ⟨'U' :: digits, more, rfl, by simp [hlength], .long hlength hdigits hvalid⟩

theorem spells_of_read {text : List Char} {bytes : List UInt8} {n : Nat}
    (h : read text = .bytes bytes n) :
    ∃ escaped rest, text = escaped ++ rest ∧ escaped.length = n ∧
      Spells escaped bytes rest := by
  have letter (x : Char) (byte : UInt8) (rest : List Char) (hx : (x, byte) ∈ letters)
      (h : Escape.bytes [byte] 1 = .bytes bytes n) :
      ∃ escaped more, x :: rest = escaped ++ more ∧ escaped.length = n ∧
        Spells escaped bytes more := by
    cases h
    exact ⟨[x], rest, rfl, rfl, .letter hx⟩
  unfold read at h
  split at h
  case h_1 => cases h
  case h_13 => exact spells_of_hex (.inl rfl) h
  case h_14 => exact spells_of_hex (.inr rfl) h
  case h_15 => exact spells_of_short h
  case h_16 => exact spells_of_long h
  case h_17 =>
    split at h
    next hoctal => exact spells_of_octal hoctal h
    next => cases h
  all_goals exact letter _ _ _ (by decide) h

/-! What is spelled so is read. -/

theorem read_of_isOctalDigit {first : Char} (h : isOctalDigit first = true)
    (rest : List Char) : read (first :: rest) = octal first rest := by
  unfold read
  split
  case h_17 heq =>
    cases heq
    exact if_pos h
  case h_1 heq => cases heq
  all_goals
    next heq =>
      cases heq
      exact absurd h (by decide)

theorem isHighSurrogate_lt {code : Nat} (h : isHighSurrogate code = true) :
    0xD800 ≤ code ∧ code < 0xDC00 := by
  simpa [isHighSurrogate] using h

theorem isLowSurrogate_lt {code : Nat} (h : isLowSurrogate code = true) :
    0xDC00 ≤ code ∧ code < 0xE000 := by
  simpa [isLowSurrogate] using h

theorem not_isHighSurrogate_of_isValidChar {code : Nat} (h : code.isValidChar) :
    isHighSurrogate code = false := by
  simp only [isHighSurrogate, Bool.and_eq_false_iff, decide_eq_false_iff_not]
  rcases h with h | h <;> omega

theorem isValidChar_pair {high low : Nat} (hhigh : isHighSurrogate high = true)
    (hlow : isLowSurrogate low = true) :
    (0x10000 + (high - 0xD800) * 0x400 + (low - 0xDC00)).isValidChar := by
  have := isHighSurrogate_lt hhigh
  have := isLowSurrogate_lt hlow
  exact .inr (by omega)

theorem read_of_spells {escaped rest : List Char} {bytes : List UInt8}
    (h : Spells escaped bytes rest) : read (escaped ++ rest) = .bytes bytes escaped.length := by
  cases h with
  | letter h =>
      simp only [letters, List.mem_cons, List.not_mem_nil, Prod.mk.injEq, or_false] at h
      rcases h with ⟨rfl, rfl⟩ | ⟨rfl, rfl⟩ | ⟨rfl, rfl⟩ | ⟨rfl, rfl⟩ | ⟨rfl, rfl⟩ | ⟨rfl, rfl⟩ |
        ⟨rfl, rfl⟩ | ⟨rfl, rfl⟩ | ⟨rfl, rfl⟩ | ⟨rfl, rfl⟩ | ⟨rfl, rfl⟩ <;> rfl
  | octal hne hlength hdigits hvalue hended =>
      obtain ⟨first, more, rfl⟩ := List.exists_cons_of_ne_nil hne
      rw [List.all_cons, Bool.and_eq_true] at hdigits
      have hmore : Ended isOctalDigit 2 more rest := hended.imp_left Nat.succ.inj
      rw [List.cons_append, read_of_isOctalDigit hdigits.1, octal,
        hmore.take_takeWhile_eq hdigits.2 (Nat.le_of_succ_le_succ hlength)]
      exact if_pos hvalue
  | @hex mark digits _ hmark hne hlength hdigits hended =>
      have hread : read (mark :: (digits ++ rest)) = hex (digits ++ rest) := by
        rcases hmark with rfl | rfl <;> rfl
      rw [List.cons_append, hread, hex, hended.take_takeWhile_eq hdigits hlength]
      split
      next => contradiction
      next => rfl
  | @short digits _ hlength hdigits hvalid =>
      have hread : read ('u' :: (digits ++ rest)) = short (digits ++ rest) := rfl
      rw [List.cons_append, hread, short, fixedHex?_append rest hlength hdigits]
      simp only [not_isHighSurrogate_of_isValidChar hvalid, Bool.false_eq_true, if_false]
      rw [codePoint_of_isValidChar hvalid, List.length_cons, hlength]
  | @pair high low _ hhighLength hhighDigits hlowLength hlowDigits hhigh hlow =>
      have hread : read ('u' :: (high ++ '\\' :: 'u' :: low ++ rest)) =
        short (high ++ ('\\' :: 'u' :: (low ++ rest))) := by simp [read]
      rw [List.cons_append, hread, short, fixedHex?_append _ hhighLength hhighDigits]
      simp only [hhigh, if_true, List.drop_left' hhighLength, surrogatePair,
        fixedHex?_append rest hlowLength hlowDigits, hlow]
      rw [codePoint_of_isValidChar (isValidChar_pair hhigh hlow)]
      simp [hhighLength, hlowLength]
  | @long digits _ hlength hdigits hvalid =>
      have hread : read ('U' :: (digits ++ rest)) = long (digits ++ rest) := rfl
      rw [List.cons_append, hread, long, fixedHex?_append rest hlength hdigits]
      simp only [codePoint_of_isValidChar hvalid, List.length_cons, hlength]

/-! The text behind an escape matters only where it could carry on its digits. -/

theorem Spells.of_append {escaped rest more : List Char} {bytes : List UInt8}
    (h : Spells escaped bytes (rest ++ more)) : Spells escaped bytes rest := by
  cases h with
  | letter h => exact .letter h
  | octal hne hlength hdigits hvalue hended =>
      exact .octal hne hlength hdigits hvalue hended.of_append
  | hex hmark hne hlength hdigits hended =>
      exact .hex hmark hne hlength hdigits hended.of_append
  | short hlength hdigits hvalid => exact .short hlength hdigits hvalid
  | pair hhighLength hhighDigits hlowLength hlowDigits hhigh hlow =>
      exact .pair hhighLength hhighDigits hlowLength hlowDigits hhigh hlow
  | long hlength hdigits hvalid => exact .long hlength hdigits hvalid

theorem isHexDigit_of_isOctalDigit {x : Char} (h : isOctalDigit x = true) :
    isHexDigit x = true := by
  simp only [isOctalDigit, Bool.and_eq_true, decide_eq_true_eq] at h
  simp only [isHexDigit, Char.isDigit, Bool.or_eq_true, Bool.and_eq_true, decide_eq_true_eq]
  exact .inl (.inl ⟨h.1, Nat.le_trans h.2 (by decide)⟩)

theorem Spells.append {escaped rest more : List Char} {bytes : List UInt8}
    (h : Spells escaped bytes rest) (hmore : Stops isHexDigit more) :
    Spells escaped bytes (rest ++ more) := by
  cases h with
  | letter h => exact .letter h
  | octal hne hlength hdigits hvalue hended =>
      exact .octal hne hlength hdigits hvalue
        (hended.append (hmore.mono fun _ => isHexDigit_of_isOctalDigit))
  | hex hmark hne hlength hdigits hended =>
      exact .hex hmark hne hlength hdigits (hended.append hmore)
  | short hlength hdigits hvalid => exact .short hlength hdigits hvalid
  | pair hhighLength hhighDigits hlowLength hlowDigits hhigh hlow =>
      exact .pair hhighLength hhighDigits hlowLength hlowDigits hhigh hlow
  | long hlength hdigits hvalid => exact .long hlength hdigits hvalid

end Escape

/-! Literals are read from quote to quote. -/

theorem body_of_literalFrom {start c d : Cursor} {quote : Char} {read value : List UInt8}
    {reaches : c.Reaches d} (h : literalFrom start quote read c = .ok ⟨value, d, reaches⟩) :
    ∃ body bytes, c.rest = body ++ quote :: d.rest ∧ LiteralBody quote body bytes ∧
      value = read.reverse ++ bytes := by
  fun_induction literalFrom start quote read c generalizing value d with
  | case1 => cases h
  | case2 read c rest hrest =>
      cases h
      exact ⟨[], [], by simp [Cursor.advance_rest, hrest], .nil, by simp⟩
  | case3 => cases h
  | case4 => cases h
  | case5 => cases h
  | case6 => cases h
  | case7 read c rest bytes length hescape more e hreaches hmore hrest hquote hline ih =>
      cases h
      obtain ⟨body, tail, hbody, hliteral, rfl⟩ := ih hmore
      obtain ⟨escaped, after, rfl, rfl, hspells⟩ := Escape.spells_of_read hescape
      rw [Cursor.advance_rest, hrest, List.drop_succ_cons, List.drop_left] at hbody
      subst hbody
      refine ⟨'\\' :: (escaped ++ body), bytes ++ tail, ?_, .escape hspells.of_append hliteral, ?_⟩
      · rw [hrest, List.cons_append, List.append_assoc]
      · simp
  | case8 => cases h
  | case9 read c x rest hrest hquote hline hescape more e hreaches hmore ih =>
      cases h
      obtain ⟨body, tail, hbody, hliteral, rfl⟩ := ih hmore
      rw [Cursor.advance_rest, hrest, List.drop_succ_cons, List.drop_zero] at hbody
      subst hbody
      exact ⟨x :: body, Utf8.encodeChar x ++ tail, hrest,
        .plain hquote hline hescape hliteral, by simp⟩

/-- The literal is read to its end, which is at `after`. -/
def ReadsLiteral (start : Cursor) (quote : Char) (read : List UInt8) (c : Cursor)
    (value : List UInt8) (after : List Char) : Prop :=
  ∃ d reaches, literalFrom start quote read c = .ok ⟨value, d, reaches⟩ ∧ d.rest = after

theorem readsLiteral_quote {start c : Cursor} {quote : Char} {read : List UInt8}
    {rest : List Char} (hc : c.rest = quote :: rest) :
    ReadsLiteral start quote read c read.reverse rest := by
  obtain ⟨p, chars⟩ := c
  subst hc
  refine ⟨_, Cursor.reaches_advance 1 _, by rw [literalFrom]; simp, ?_⟩
  simp [Cursor.advance_rest]

theorem readsLiteral_plain {start c : Cursor} {quote x : Char} {read value : List UInt8}
    {rest after : List Char} (hquote : x ≠ quote) (hline : x ≠ '\n') (hescape : x ≠ '\\')
    (hc : c.rest = x :: rest)
    (h : ReadsLiteral start quote ((Utf8.encodeChar x).reverse ++ read) (c.advance 1) value
      after) :
    ReadsLiteral start quote read c value after := by
  obtain ⟨p, chars⟩ := c
  subst hc
  obtain ⟨d, reaches, hread, hd⟩ := h
  refine ⟨d, (Cursor.reaches_advance 1 _).trans reaches, ?_, hd⟩
  rw [literalFrom]
  simp only [hquote, hline, hescape, if_false, hread]

theorem readsLiteral_escape {start c : Cursor} {quote : Char} {read value bytes : List UInt8}
    {rest after : List Char} {length : Nat} (hquote : quote ≠ '\\')
    (hescape : Escape.read rest = .bytes bytes length) (hc : c.rest = '\\' :: rest)
    (h : ReadsLiteral start quote (bytes.reverse ++ read) (c.advance (length + 1)) value
      after) :
    ReadsLiteral start quote read c value after := by
  obtain ⟨p, chars⟩ := c
  subst hc
  obtain ⟨d, reaches, hread, hd⟩ := h
  refine ⟨d, (Cursor.reaches_advance (length + 1) _).trans reaches, ?_, hd⟩
  rw [literalFrom]
  simp only [Ne.symm hquote, if_false, show ¬ '\\' = '\n' by decide, if_true, hescape, hread]

theorem stops_hexDigit_of_isQuote {quote : Char} (h : isQuote quote = true)
    (after : List Char) : Stops isHexDigit (quote :: after) := by
  simp only [isQuote, Bool.or_eq_true, decide_eq_true_eq] at h
  rcases h with rfl | rfl <;> exact Stops.cons_iff.mpr rfl

theorem readsLiteral_of_body {start c : Cursor} {quote : Char} {read : List UInt8}
    {body after : List Char} {bytes : List UInt8} (hquote : isQuote quote = true)
    (h : LiteralBody quote body bytes) (hc : c.rest = body ++ quote :: after) :
    ReadsLiteral start quote read c (read.reverse ++ bytes) after := by
  induction h generalizing read c with
  | nil =>
      rw [List.append_nil]
      exact readsLiteral_quote hc
  | @plain x rest bytes hx hline hescape _ ih =>
      apply readsLiteral_plain hx hline hescape hc
      have := @ih (c.advance 1) ((Utf8.encodeChar x).reverse ++ read)
        (by rw [Cursor.advance_rest, hc, List.cons_append, List.drop_one, List.tail_cons])
      simpa using this
  | @escape escaped rest meaning bytes hspells _ ih =>
      have hread := Escape.read_of_spells
        (hspells.append (stops_hexDigit_of_isQuote hquote after))
      rw [List.cons_append, List.append_assoc] at hc
      refine readsLiteral_escape ?_ hread hc ?_
      · rintro rfl
        revert hquote
        decide
      · have := @ih (c.advance (escaped.length + 1)) (meaning.reverse ++ read)
          (by rw [Cursor.advance_rest, hc, List.drop_succ_cons, List.drop_left])
        simpa using this

/-- A quoted literal and the bytes it spells. -/
inductive LiteralText : List Char → List UInt8 → Prop
  | mk {quote : Char} {body : List Char} {bytes : List UInt8} :
      isQuote quote = true → LiteralBody quote body bytes →
      LiteralText (quote :: (body ++ [quote])) bytes

theorem literalText_of_literal {c d : Cursor} {bytes : List UInt8}
    (h : (literal c).Reads bytes d) :
    ∃ text, c.rest = text ++ d.rest ∧ LiteralText text bytes := by
  obtain ⟨quote, e, before, haccept, h⟩ := Attempt.reads_andThen.mp h
  obtain ⟨rest, hrest, hquote, rfl⟩ := reads_accept.mp ⟨before, haccept⟩
  split at h
  next => simp at h
  next value next reaches hread =>
    simp only [Attempt.reads_read_iff] at h
    obtain ⟨rfl, rfl⟩ := h
    obtain ⟨body, tail, hbody, hliteral, rfl⟩ := body_of_literalFrom hread
    rw [Cursor.advance_rest, hrest, List.drop_one, List.tail_cons] at hbody
    subst hbody
    exact ⟨quote :: (body ++ [quote]), by simp [hrest], .mk hquote hliteral⟩

theorem literal_of_literalText {c : Cursor} {text after : List Char} {bytes : List UInt8}
    (h : LiteralText text bytes) (hc : c.rest = text ++ after) :
    ∃ d, (literal c).Reads bytes d ∧ d.rest = after := by
  obtain ⟨hquote, hbody⟩ := h
  rename_i quote body
  have hrest : c.rest = quote :: (body ++ quote :: after) := by simp [hc]
  obtain ⟨before, haccept⟩ :=
    reads_accept.mpr (⟨_, hrest, hquote, rfl⟩ : ∃ rest, c.rest = quote :: rest ∧
      isQuote quote = true ∧ c.advance 1 = c.advance 1)
  obtain ⟨d, reaches, hread, hd⟩ : ReadsLiteral c quote [] (c.advance 1) bytes after :=
    readsLiteral_of_body hquote hbody
      (by rw [Cursor.advance_rest, hrest, List.drop_one, List.tail_cons])
  refine ⟨d, Attempt.reads_andThen.mpr ⟨quote, c.advance 1, before, haccept, ?_⟩, hd⟩
  simp only [hread]
  exact Attempt.reads_read _ _

end Textproto.Tree
