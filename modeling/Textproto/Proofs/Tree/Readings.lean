import Textproto.Proofs.Tree.Number
import Textproto.Proofs.Tree.Literal
import Textproto.Tree.Parser

namespace Textproto.Tree

/-! What each part of the parser reads, and where it ends. -/

theorem reads_string {c d : Cursor} {scalar : Scalar} :
    (string c).Reads scalar d ↔
      ∃ first more e, (literal c).Reads first e ∧
        Run (fun e => (literal e.skipLayout).since e.reaches_skipLayout) e more d ∧
        scalar = .string (first ++ more.flatten) := by
  rw [string, Attempt.reads_andThen]
  constructor
  · rintro ⟨first, e, before, hfirst, h⟩
    split at h
    next => simp at h
    next more next reaches hmore =>
      rw [Attempt.reads_read_iff] at h
      obtain ⟨rfl, rfl⟩ := h
      exact ⟨first, more, e, ⟨before, hfirst⟩, many_eq_ok_iff.mp ⟨reaches, hmore⟩, rfl⟩
  · rintro ⟨first, more, e, ⟨before, hfirst⟩, hmore, rfl⟩
    obtain ⟨reaches, hmore⟩ := many_eq_ok_iff.mpr hmore
    refine ⟨first, e, before, hfirst, ?_⟩
    simp only [hmore]
    exact Attempt.reads_read _ _

theorem literal_eq_absent {c : Cursor} (h : Stops isQuote c.rest) : literal c = .absent := by
  rw [literal, accept_eq_absent.mpr h]
  rfl

theorem identifier_eq_absent {c : Cursor} (h : Stops isIdentifierStart c.rest) :
    identifier c = .absent := by
  rw [identifier, accept_eq_absent.mpr h]
  rfl

theorem reads_identifier {c d : Cursor} {x : Char} {name rest : List Char}
    (hrest : c.rest = x :: rest) (hx : isIdentifierStart x = true) :
    (identifier c).Reads name d ↔
      name = x :: rest.takeWhile isIdentifierChar ∧
        d = (c.advance 1).advance (rest.takeWhile isIdentifierChar).length := by
  have hadvance : (c.advance 1).rest = rest := by simp [Cursor.advance_rest, hrest]
  obtain ⟨before, haccept⟩ : (accept isIdentifierStart c).Reads x (c.advance 1) :=
    reads_accept.mpr ⟨rest, hrest, hx, rfl⟩
  simp only [identifier, haccept, Attempt.andThen]
  cases hrun : acceptRun isIdentifierChar (c.advance 1) with
  | failed failure => exact absurd hrun acceptRun_ne_failed
  | absent =>
      have hstops := acceptRun_eq_absent.mp hrun
      rw [hadvance] at hstops
      simp [hstops.takeWhile_eq_nil, Cursor.advance]
  | read more next after =>
      obtain ⟨_, hmore, hnext⟩ := reads_acceptRun.mp ⟨after, hrun⟩
      rw [hadvance] at hmore
      subst hmore hnext
      simp

theorem reads_numeral {c d : Cursor} {scalar : Scalar} :
    (numeral c).Reads scalar d ↔
      ∃ numeral length,
        Numeral.scan (sign c).next.rest = .numeral numeral length ∧
        Stops Numeral.isJoining ((sign c).next.rest.drop length) ∧
        scalar = numeral.withSign (sign c).value ∧ d = (sign c).next.advance length := by
  unfold numeral
  simp only
  split
  next hscan => simp [hscan]
  next hscan => simp [hscan]
  next hscan =>
    split
    next hruns =>
      simp only [Attempt.not_reads_failed, hscan, Scan.numeral.injEq, false_iff, not_exists]
      rintro n size ⟨⟨rfl, rfl⟩, hstops, _⟩
      rw [Numeral.runsOn_eq_false_iff.mpr hstops] at hruns
      cases hruns
    next hruns =>
      rw [Bool.not_eq_true, Numeral.runsOn_eq_false_iff] at hruns
      simp only [Attempt.reads_read_iff, hscan, Scan.numeral.injEq]
      constructor
      · rintro ⟨rfl, rfl⟩
        exact ⟨_, _, ⟨rfl, rfl⟩, hruns, rfl, rfl⟩
      · rintro ⟨_, _, ⟨rfl, rfl⟩, _, rfl, rfl⟩
        exact ⟨rfl, rfl⟩

theorem sign_cases (c : Cursor) :
    ((sign c).value = true ∧
        ∃ d, (accept (· = '-') c).Reads '-' d ∧ (sign c).next = d.skipLayout) ∨
      ((sign c).value = false ∧ (sign c).next = c ∧ accept (· = '-') c = .absent) := by
  unfold sign
  cases haccept : accept (· = '-') c with
  | failed failure => exact absurd haccept accept_ne_failed
  | absent => exact .inr ⟨rfl, rfl, rfl⟩
  | read x d before =>
      obtain ⟨_, _, hx, _⟩ := reads_accept.mp ⟨before, haccept⟩
      obtain rfl : x = '-' := by simpa using hx
      exact .inl ⟨rfl, d, Attempt.reads_read _ _, rfl⟩

theorem numeral_eq_absent {c : Cursor} :
    numeral c = .absent ↔ Numeral.scan (sign c).next.rest = .nothing := by
  unfold numeral
  simp only
  split
  next hscan => simp [hscan]
  next hscan => simp [hscan]
  next hscan => split <;> simp [hscan]

theorem sign_of_stops {c : Cursor} (h : Stops (· = '-') c.rest) :
    (sign c).value = false ∧ (sign c).next = c := by
  have habsent := accept_eq_absent.mpr h
  unfold sign
  rw [habsent]
  exact ⟨rfl, rfl⟩

/-- The characters that a scalar may begin with. -/
def beginsScalar (x : Char) : Bool :=
  isQuote x || x.isAlphanum || x ∈ ['.', '-', '_']

theorem scalar_eq_absent {c : Cursor} (h : Stops beginsScalar c.rest) : scalar c = .absent := by
  have hquote : Stops isQuote c.rest := h.mono fun x hx => by simp [beginsScalar, hx]
  have hsign : Stops (· = '-') c.rest := h.mono fun x hx => by simp_all [beginsScalar]
  have hnumber : Stops (fun x => x.isAlphanum || x = '.') c.rest :=
    h.mono fun x hx => by simp only [beginsScalar]; grind
  have hword : Stops isIdentifierStart c.rest := h.mono fun x hx => by
    simp only [isIdentifierStart, Bool.or_eq_true, decide_eq_true_eq] at hx
    rcases hx with hx | rfl
    · simp [beginsScalar, Char.isAlphanum, hx]
    · rfl
  have hnumeral : numeral c = .absent := by
    rw [numeral_eq_absent, (sign_of_stops hsign).2, Numeral.scan_eq_nothing hnumber]
  rw [scalar, Attempt.within_eq_absent, Attempt.orElse_eq_absent, Attempt.orElse_eq_absent,
    Attempt.map_eq_absent]
  refine ⟨?_, hnumeral, identifier_eq_absent hword⟩
  rw [string, literal_eq_absent hquote]
  rfl

/-! Messages and lists. -/

variable {c d : Cursor}

theorem message_eq_absent {body : Option Body}
    (h : Stops (fun x => (closingOf? x).isSome) c.rest) : message body c = .absent := by
  rw [message, accept_eq_absent.mpr h]
  rfl

theorem furtherElement_eq_absent {element : (c : Cursor) → Attempt c Value}
    (h : Stops (· = ',') c.skipLayout.rest) : furtherElement element c = .absent := by
  rw [furtherElement, accept_eq_absent.mpr h]
  rfl

theorem list_eq_absent {element : (c : Cursor) → Attempt c Value}
    (h : Stops (· = '[') c.rest) : list element c = .absent := by
  rw [list, accept_eq_absent.mpr h]
  rfl

theorem scalarValue_eq_absent (h : Stops beginsScalar c.rest) : scalarValue c = .absent := by
  rw [scalarValue, scalar_eq_absent h]
  rfl

theorem reads_message {body : Option Body} {value : Value} :
    (message body c).Reads value d ↔
      ∃ opening closing fields members c' e,
        (accept (fun x => (closingOf? x).isSome) c).Reads opening c' ∧
        closingOf? opening = some closing ∧ body = some fields ∧
        (∃ reaches, fields c' = .ok ⟨members, e, reaches⟩) ∧
        (accept (fun x => closingOf? opening = some x) e.skipLayout).Reads closing d ∧
        value = .message members c.position := by
  rw [message, Attempt.reads_andThen]
  constructor
  · rintro ⟨opening, c', before, hopening, h⟩
    cases body with
    | none => simp at h
    | some fields =>
        simp only at h
        split at h
        next => simp at h
        next members e reaches hfields =>
          simp only [Attempt.reads_since, Attempt.reads_map, Attempt.reads_orFail] at h
          obtain ⟨closing, hclosing, rfl⟩ := h
          obtain ⟨_, _, hx, _⟩ := reads_accept.mp hclosing
          exact ⟨opening, closing, fields, members, c', e, ⟨before, hopening⟩, by simpa using hx,
            rfl, ⟨reaches, hfields⟩, hclosing, rfl⟩
  · rintro ⟨opening, closing, fields, members, c', e, ⟨before, hopening⟩, _, rfl,
      ⟨reaches, hfields⟩, hclosing, rfl⟩
    refine ⟨opening, c', before, hopening, ?_⟩
    simp only [hfields, Attempt.reads_since, Attempt.reads_map, Attempt.reads_orFail]
    exact ⟨closing, hclosing, trivial⟩

theorem reads_furtherElement {element : (c : Cursor) → Attempt c Value} {value : Value} :
    (furtherElement element c).Reads value d ↔
      ∃ c', (accept (· = ',') c.skipLayout).Reads ',' c' ∧
        (element c'.skipLayout).Reads value d := by
  rw [furtherElement, Attempt.reads_since, Attempt.reads_andThen]
  constructor
  · rintro ⟨x, c', before, hcomma, h⟩
    obtain ⟨_, _, hx, _⟩ := reads_accept.mp ⟨before, hcomma⟩
    obtain rfl : x = ',' := by simpa using hx
    rw [Attempt.reads_since] at h
    exact ⟨c', ⟨before, hcomma⟩, h⟩
  · rintro ⟨c', ⟨before, hcomma⟩, h⟩
    exact ⟨',', c', before, hcomma, Attempt.reads_since.mpr h⟩

theorem elements_eq_ok_iff {element : (c : Cursor) → Attempt c Value} {values : List Value} :
    (∃ reaches, elements element c = .ok ⟨values, d, reaches⟩) ↔
      (element c.skipLayout = .absent ∧ values = [] ∧ d = c) ∨
        ∃ first more e, (element c.skipLayout).Reads first e ∧
          Run (furtherElement element) e more d ∧ values = first :: more := by
  unfold elements
  cases helement : element c.skipLayout with
  | failed failure => simp
  | absent =>
      constructor
      · rintro ⟨_, h⟩
        cases h
        exact .inl ⟨rfl, rfl, rfl⟩
      · rintro (⟨_, rfl, rfl⟩ | ⟨_, _, _, h, _⟩)
        · exact ⟨.refl _, rfl⟩
        · cases Attempt.not_reads_absent _ h
  | read first e before =>
      simp only [reduceCtorEq, false_and, false_or, Attempt.reads_read_iff]
      constructor
      · rintro ⟨_, h⟩
        split at h
        next => cases h
        next more e' reaches hmore =>
          cases h
          exact ⟨first, more, e, ⟨rfl, rfl⟩, many_eq_ok_iff.mp ⟨reaches, hmore⟩, rfl⟩
      · rintro ⟨_, more, _, ⟨rfl, rfl⟩, hmore, rfl⟩
        obtain ⟨reaches, hmore⟩ := many_eq_ok_iff.mpr hmore
        exact ⟨c.reaches_skipLayout.trans (before.reaches.trans reaches), by simp only [hmore]⟩

theorem reads_list {element : (c : Cursor) → Attempt c Value} {value : Value} :
    (list element c).Reads value d ↔
      ∃ c' values e, (accept (· = '[') c).Reads '[' c' ∧
        (∃ reaches, elements element c' = .ok ⟨values, e, reaches⟩) ∧
        (accept (· = ']') e.skipLayout).Reads ']' d ∧ value = .list values c.position := by
  rw [list, Attempt.reads_andThen]
  constructor
  · rintro ⟨x, c', before, hopening, h⟩
    obtain ⟨_, _, hx, _⟩ := reads_accept.mp ⟨before, hopening⟩
    obtain rfl : x = '[' := by simpa using hx
    split at h
    next => simp at h
    next values e reaches helements =>
      simp only [Attempt.reads_since, Attempt.reads_map, Attempt.reads_orFail] at h
      obtain ⟨y, hclosing, rfl⟩ := h
      obtain ⟨_, _, hy, _⟩ := reads_accept.mp hclosing
      obtain rfl : y = ']' := by simpa using hy
      exact ⟨c', values, e, ⟨before, hopening⟩, ⟨reaches, helements⟩, hclosing, rfl⟩
  · rintro ⟨c', values, e, ⟨before, hopening⟩, ⟨reaches, helements⟩, hclosing, rfl⟩
    refine ⟨'[', c', before, hopening, ?_⟩
    simp only [helements, Attempt.reads_since, Attempt.reads_map, Attempt.reads_orFail]
    exact ⟨']', hclosing, trivial⟩

/-! Fields. -/

theorem reads_expandedName {name : Name} :
    (expandedName c).Reads name d ↔
      ∃ c' url e, (accept (· = '[') c).Reads '[' c' ∧
        (acceptRun isUrlChar c'.skipLayout).Reads url e ∧
        (accept (· = ']') e.skipLayout).Reads ']' d ∧ name = .expanded url := by
  rw [expandedName, Attempt.reads_andThen]
  constructor
  · rintro ⟨x, c', before, hopening, h⟩
    obtain ⟨_, _, hx, _⟩ := reads_accept.mp ⟨before, hopening⟩
    obtain rfl : x = '[' := by simpa using hx
    split at h
    next url e after hurl =>
      simp only [Attempt.reads_since, Attempt.reads_map, Attempt.reads_orFail] at h
      obtain ⟨y, hclosing, rfl⟩ := h
      obtain ⟨_, _, hy, _⟩ := reads_accept.mp hclosing
      obtain rfl : y = ']' := by simpa using hy
      exact ⟨c', url, e, ⟨before, hopening⟩, ⟨after, hurl⟩, hclosing, rfl⟩
    next => simp at h
  · rintro ⟨c', url, e, ⟨before, hopening⟩, ⟨after, hurl⟩, hclosing, rfl⟩
    refine ⟨'[', c', before, hopening, ?_⟩
    simp only [hurl, Attempt.reads_since, Attempt.reads_map, Attempt.reads_orFail]
    exact ⟨']', hclosing, trivial⟩

theorem field_eq_absent {body : Option Body} (hword : Stops isIdentifierStart c.skipLayout.rest)
    (hbracket : Stops (· = '[') c.skipLayout.rest) : field body c = .absent := by
  have hexpanded : expandedName c.skipLayout = .absent := by
    rw [expandedName, accept_eq_absent.mpr hbracket]
    rfl
  have hname : fieldName c.skipLayout = .absent := by
    rw [fieldName, identifier_eq_absent hword]
    exact hexpanded
  simp only [field, hname]
  rfl

theorem reads_fieldName {name : Name} :
    (fieldName c).Reads name d ↔
      (∃ plain, (identifier c).Reads plain d ∧ name = .plain plain) ∨
        (identifier c = .absent ∧ (expandedName c).Reads name d) := by
  rw [fieldName, Attempt.reads_orElse, Attempt.reads_map, Attempt.map_eq_absent]
  simp only [eq_comm]

theorem reads_valueAfterColon {body : Option Body} {value : Value} :
    (valueAfterColon body c).Reads value d ↔
      (message body c).Reads value d ∨
      (message body c = .absent ∧
        ((list (fun d => (message body d).orElse fun _ => scalarValue d) c).Reads value d ∨
        (list (fun d => (message body d).orElse fun _ => scalarValue d) c = .absent ∧
          (scalarValue c).Reads value d))) := by
  simp only [valueAfterColon, Attempt.reads_within, Attempt.reads_orElse, Attempt.reads_orFail]

theorem reads_valueWithoutColon {body : Option Body} {value : Value} :
    (valueWithoutColon body c).Reads value d ↔
      (message body c).Reads value d ∨
        (message body c = .absent ∧ (list (message body) c).Reads value d) := by
  simp only [valueWithoutColon, Attempt.reads_within, Attempt.reads_orElse,
    Attempt.reads_orFail]

theorem reads_scalarValue {value : Value} :
    (scalarValue c).Reads value d ↔
      ∃ s, (scalar c).Reads s d ∧ value = .scalar s c.position := by
  simp only [scalarValue, Attempt.reads_map, eq_comm]

theorem reads_fieldValue {body : Option Body} {value : Value} :
    (fieldValue body c).Reads value d ↔
      (∃ c', (accept (· = ':') c.skipLayout).Reads ':' c' ∧
          (valueAfterColon body c'.skipLayout).Reads value d) ∨
        (accept (· = ':') c.skipLayout = .absent ∧
          (valueWithoutColon body c.skipLayout).Reads value d) := by
  simp only [fieldValue, Attempt.reads_since]
  cases hcolon : accept (· = ':') c.skipLayout with
  | failed failure => exact absurd hcolon accept_ne_failed
  | absent => simp
  | read x c' before =>
      obtain ⟨_, _, hx, _⟩ := reads_accept.mp ⟨before, hcolon⟩
      obtain rfl : x = ':' := by simpa using hx
      simp

/-- A separator behind layout is skipped, if there is one. -/
theorem skipSeparator_cases (c : Cursor) :
    (∃ x, (x = ',' ∨ x = ';') ∧
        (accept (fun x => x = ',' || x = ';') c.skipLayout).Reads x (skipSeparator c).next) ∨
      ((skipSeparator c).next = c ∧
        accept (fun x => x = ',' || x = ';') c.skipLayout = .absent) := by
  unfold skipSeparator
  cases haccept : accept (fun x => x = ',' || x = ';') c.skipLayout with
  | failed failure => exact absurd haccept accept_ne_failed
  | absent => exact .inr ⟨rfl, rfl⟩
  | read x d before =>
      obtain ⟨_, _, hx, _⟩ := reads_accept.mp ⟨before, haccept⟩
      exact .inl ⟨x, by simpa using hx, Attempt.reads_read _ _⟩

theorem reads_field {body : Option Body} {f : Field} :
    (field body c).Reads f d ↔
      ∃ name e value e', (fieldName c.skipLayout).Reads name e ∧
        (fieldValue body e).Reads value e' ∧ d = (skipSeparator e').next ∧
        f = ⟨name, c.skipLayout.position, value⟩ := by
  simp only [field, Attempt.reads_since, Attempt.reads_andThen]
  constructor
  · rintro ⟨name, e, before, hname, value, e', after, hvalue, h⟩
    rw [Attempt.reads_read_iff] at h
    exact ⟨name, e, value, e', ⟨before, hname⟩, Attempt.reads_since.mp ⟨after, hvalue⟩, h.2, h.1⟩
  · rintro ⟨name, e, value, e', ⟨before, hname⟩, hvalue, rfl, rfl⟩
    obtain ⟨after, hvalue⟩ := Attempt.reads_since.mpr hvalue
    exact ⟨name, e, before, hname, value, e', after, hvalue, Attempt.reads_read _ _⟩

end Textproto.Tree
