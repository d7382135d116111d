import Textproto.Proofs.Tree.Readings
import Textproto.Proofs.Tree.Strings

namespace Textproto.Tree

/-! Everything that can go wrong in each part of the parser. -/

namespace Attempt

variable {c : Cursor} {α β : Type} {attempt : Attempt c α} {failure : Failure}

@[simp] theorem map_eq_failed {f : α → β} :
    attempt.map f = .failed failure ↔ attempt = .failed failure := by
  cases attempt <;> simp [map]

theorem orElse_eq_failed {second : Unit → Attempt c α} :
    attempt.orElse second = .failed failure ↔
      attempt = .failed failure ∨ attempt = .absent ∧ second () = .failed failure := by
  cases attempt <;> simp [orElse]

theorem within_fails_iff {construct : Construct} :
    attempt.within construct = .failed failure ↔
      ∃ inner, attempt = .failed inner ∧ failure = inner.within construct := by
  cases attempt <;> simp [within, eq_comm]

theorem orFail_fails_iff {missing : Failure} :
    attempt.orFail missing = .failed failure ↔
      attempt = .failed failure ∨ attempt = .absent ∧ failure = missing := by
  cases attempt <;> simp [orFail, eq_comm]

theorem orFail_ne_absent {missing : Failure} : attempt.orFail missing ≠ .absent := by
  cases attempt <;> simp [orFail]

/-- What has to stand at a place is missing there. -/
theorem expect_fails_iff {isWanted : Char → Bool} {missing : Failure} {f : Char → β} :
    ((accept isWanted c).orFail missing).map f = .failed failure ↔
      Stops isWanted c.rest ∧ failure = missing := by
  rw [map_eq_failed, orFail_fails_iff, accept_eq_absent]
  exact ⟨fun h => h.resolve_left accept_ne_failed, .inr⟩

end Attempt

/-! Scalars. -/

namespace Numeral

/-- Behind the mark of a hexadecimal number stands no digit. -/
inductive BareMark : List Char → Prop
  | mk {mark : Char} {rest : List Char} :
      isMark mark = true → Stops isHexDigit rest → BareMark ('0' :: mark :: rest)

theorem wholeNumber_eq_bareMark {text : List Char} {length : Nat}
    (h : wholeNumber text = .bareMark length) : length = 2 ∧ BareMark text := by
  by_cases hzero : text.head? = some '0'
  · obtain ⟨rest, rfl⟩ := List.head?_eq_some_iff.mp hzero
    by_cases hmark : Stops isMark rest
    · rw [wholeNumber_zero hmark] at h
      split at h <;> cases h
    · cases rest with
      | nil => exact absurd Stops.nil hmark
      | cons mark rest =>
          rw [Stops.cons_iff, Bool.not_eq_false] at hmark
          rw [wholeNumber_marked hmark] at h
          split at h
          next hdigits =>
            cases h
            have hstops := @Stops.drop_takeWhile isHexDigit rest
            rw [hdigits] at hstops
            exact ⟨rfl, .mk hmark hstops⟩
          next => cases h
  · rw [wholeNumber_decimal hzero] at h
    split at h <;> cases h

theorem scan_eq_bareMark_iff {text : List Char} {length : Nat} :
    scan text = .bareMark length ↔ length = 2 ∧ BareMark text := by
  constructor
  · intro h
    unfold scan at h
    split at h
    next => cases h
    next =>
      split at h
      next => split at h <;> cases h
      next => exact wholeNumber_eq_bareMark h
  · rintro ⟨rfl, ⟨hmark, hstops⟩⟩
    rename_i mark rest
    have hfloat : float? (['0'] ++ mark :: rest) = none := by
      simp only [isMark, Bool.or_eq_true, decide_eq_true_eq] at hmark
      apply float?_eq_none rfl <;> rcases hmark with rfl | rfl <;> exact Stops.cons_iff.mpr rfl
    have hwhole := wholeNumber_marked hmark rest
    rw [hstops.takeWhile_eq_nil] at hwhole
    rw [List.singleton_append] at hfloat
    simp only [scan, hfloat, hwhole]

/-- A number begins where a digit stands. -/
theorem stops_isDigit_of_scan {text : List Char} (h : scan text = .nothing) :
    Stops Char.isDigit text := by
  have hwhole : wholeNumber text = .nothing := by
    unfold scan at h
    split at h
    next => cases h
    next =>
      split at h
      next hnothing => exact hnothing
      next => exact h
  by_cases hzero : text.head? = some '0'
  · obtain ⟨rest, rfl⟩ := List.head?_eq_some_iff.mp hzero
    by_cases hmark : Stops isMark rest
    · rw [wholeNumber_zero hmark] at hwhole
      split at hwhole <;> cases hwhole
    · cases rest with
      | nil => exact absurd Stops.nil hmark
      | cons mark rest =>
          rw [Stops.cons_iff, Bool.not_eq_false] at hmark
          rw [wholeNumber_marked hmark] at hwhole
          split at hwhole <;> cases hwhole
  · rw [wholeNumber_decimal hzero] at hwhole
    split at hwhole
    next hdigits =>
      have hstops := @Stops.drop_takeWhile Char.isDigit text
      rwa [hdigits] at hstops
    next => cases hwhole

end Numeral

section

variable {c : Cursor} {failure : Failure}

theorem numeral_fails_iff :
    numeral c = .failed failure ↔
      (Numeral.BareMark (sign c).next.rest ∧
          failure = .unexpected [] ((sign c).next.advance 2)) ∨
        ∃ number length, Numeral.scan (sign c).next.rest = .numeral number length ∧
          ¬ Stops Numeral.isJoining ((sign c).next.rest.drop length) ∧
          failure = .complain .invalidNumber (sign c).next := by
  unfold numeral
  simp only
  split
  next hscan =>
    have hmark : ¬ Numeral.BareMark (sign c).next.rest := by
      intro hmark
      rw [Numeral.scan_eq_bareMark_iff.mpr ⟨rfl, hmark⟩] at hscan
      cases hscan
    simp [hscan, hmark]
  next length hscan =>
    obtain ⟨rfl, hmark⟩ := Numeral.scan_eq_bareMark_iff.mp hscan
    simp [hscan, hmark, eq_comm]
  next number length hscan =>
    have hmark : ¬ Numeral.BareMark (sign c).next.rest := by
      intro hmark
      rw [Numeral.scan_eq_bareMark_iff.mpr ⟨rfl, hmark⟩] at hscan
      cases hscan
    split
    next hruns =>
      have hstops : ¬ Stops Numeral.isJoining ((sign c).next.rest.drop length) := by
        rw [← Numeral.runsOn_eq_false_iff, hruns]
        exact Bool.noConfusion
      simp [hscan, hmark, hstops, eq_comm]
    next hruns =>
      rw [Bool.not_eq_true, Numeral.runsOn_eq_false_iff] at hruns
      simp [hscan, hmark, hruns]

theorem identifier_ne_failed : identifier c ≠ .failed failure := by
  rw [identifier, Ne, Attempt.andThen_eq_failed]
  rintro (hfailed | ⟨first, d, before, _, hfailed⟩)
  · exact accept_ne_failed hfailed
  · split at hfailed <;> cases hfailed

theorem scalarValue_fails_iff :
    scalarValue c = .failed failure ↔
      ∃ inner, failure = inner.within .scalarValue ∧
        (string c = .failed inner ∨ string c = .absent ∧ numeral c = .failed inner) := by
  rw [scalarValue, scalar, Attempt.map_eq_failed, Attempt.within_fails_iff]
  simp only [Attempt.orElse_eq_failed, Attempt.map_eq_failed, identifier_ne_failed, and_false,
    or_false]
  exact exists_congr fun _ => and_comm

theorem identifier_eq_absent_iff : identifier c = .absent ↔ Stops isIdentifierStart c.rest := by
  refine ⟨fun h => ?_, identifier_eq_absent⟩
  unfold identifier at h
  rw [← accept_eq_absent]
  cases hfirst : accept isIdentifierStart c with
  | absent => rfl
  | failed other => exact absurd hfirst accept_ne_failed
  | read first d before =>
      simp only [hfirst, Attempt.andThen] at h
      split at h <;> cases h

theorem message_eq_absent_iff {body : Option Body} :
    message body c = .absent ↔ Stops (fun x => (closingOf? x).isSome) c.rest := by
  refine ⟨fun h => ?_, message_eq_absent⟩
  rw [← accept_eq_absent]
  unfold message at h
  cases hopening : accept (fun x => (closingOf? x).isSome) c with
  | absent => rfl
  | failed other => exact absurd hopening accept_ne_failed
  | read opening d before =>
      simp only [hopening, Attempt.andThen] at h
      split at h
      next => cases h
      next =>
        split at h
        next => cases h
        next e reaches _ =>
          rw [Attempt.since_eq_absent, Attempt.map_eq_absent] at h
          exact absurd h Attempt.orFail_ne_absent

theorem list_eq_absent_iff {element : (c : Cursor) → Attempt c Value} :
    list element c = .absent ↔ Stops (· = '[') c.rest := by
  refine ⟨fun h => ?_, list_eq_absent⟩
  rw [← accept_eq_absent]
  unfold list at h
  cases hopening : accept (· = '[') c with
  | absent => rfl
  | failed other => exact absurd hopening accept_ne_failed
  | read opening d before =>
      simp only [hopening, Attempt.andThen] at h
      split at h
      next => cases h
      next e reaches _ =>
        rw [Attempt.since_eq_absent, Attempt.map_eq_absent] at h
        exact absurd h Attempt.orFail_ne_absent

/-- The characters that a value begins with wherever they stand. -/
def beginsValue (x : Char) : Bool :=
  (closingOf? x).isSome || x = '[' || isQuote x || isIdentifierStart x || x.isDigit

theorem stops_beginsValue {body : Option Body} {element : (c : Cursor) → Attempt c Value}
    (hmessage : message body c = .absent) (hlist : list element c = .absent)
    (hscalar : scalarValue c = .absent) : Stops beginsValue c.rest := by
  rw [scalarValue, Attempt.map_eq_absent, scalar, Attempt.within_eq_absent,
    Attempt.orElse_eq_absent, Attempt.orElse_eq_absent, Attempt.map_eq_absent,
    string_eq_absent_iff, identifier_eq_absent_iff] at hscalar
  obtain ⟨hquote, hnumeral, hword⟩ := hscalar
  have hmessage := message_eq_absent_iff.mp hmessage
  have hlist := list_eq_absent_iff.mp hlist
  have hdigit : Stops Char.isDigit c.rest := by
    rcases sign_cases c with ⟨_, d, hminus, _⟩ | ⟨_, hnext, _⟩
    · obtain ⟨rest, hrest, _⟩ := reads_accept.mp hminus
      rw [hrest]
      exact Stops.cons_iff.mpr rfl
    · have hscan := numeral_eq_absent.mp hnumeral
      rw [hnext] at hscan
      exact Numeral.stops_isDigit_of_scan hscan
  intro x hx
  simp only [beginsValue, hmessage x hx, hlist x hx, hquote x hx, hword x hx, hdigit x hx,
    Bool.or_self]

end

/-! Messages, lists and fields. -/

section

variable {c : Cursor} {body : Option Body} {element : (c : Cursor) → Attempt c Value}
  {failure : Failure}

/-- Messages lie too deep, something in the message goes wrong, or it is not closed. -/
theorem message_fails_iff :
    message body c = .failed failure ↔
      ∃ opening d, (accept (fun x => (closingOf? x).isSome) c).Reads opening d ∧
        ((body = none ∧ failure = .complain .nestedTooDeep c) ∨
          ∃ fields, body = some fields ∧
            (fields d = .error failure ∨
              ∃ members e, (∃ reaches, fields d = .ok ⟨members, e, reaches⟩) ∧
                Stops (fun x => closingOf? opening = some x) e.skipLayout.rest ∧
                failure = .unexpected [.closingBrace] e.skipLayout)) := by
  rw [message, Attempt.andThen_eq_failed]
  constructor
  · rintro (hfailed | ⟨opening, d, before, hopening, hfailed⟩)
    · exact absurd hfailed accept_ne_failed
    · refine ⟨opening, d, ⟨before, hopening⟩, ?_⟩
      cases body with
      | none =>
          cases hfailed
          exact .inl ⟨rfl, rfl⟩
      | some fields =>
          refine .inr ⟨fields, rfl, ?_⟩
          simp only at hfailed
          split at hfailed
          next other hother =>
            cases hfailed
            exact .inl hother
          next members e reaches hfields =>
            rw [Attempt.since_eq_failed, Attempt.expect_fails_iff] at hfailed
            exact .inr ⟨members, e, ⟨reaches, hfields⟩, hfailed⟩
  · rintro ⟨opening, d, ⟨before, hopening⟩, hfailed⟩
    refine .inr ⟨opening, d, before, hopening, ?_⟩
    rcases hfailed with ⟨rfl, rfl⟩ | ⟨fields, rfl, hfields | ⟨_, _, ⟨_, hfields⟩, hfailed⟩⟩
    · rfl
    · simp only [hfields]
    · simp only [hfields, Attempt.since_eq_failed]
      exact Attempt.expect_fails_iff.mpr hfailed

theorem furtherElement_eq_failed_iff :
    furtherElement element c = .failed failure ↔
      ∃ d, (accept (· = ',') c.skipLayout).Reads ',' d ∧
        element d.skipLayout = .failed failure := by
  rw [furtherElement, Attempt.since_eq_failed, Attempt.andThen_eq_failed]
  constructor
  · rintro (hfailed | ⟨x, d, before, hcomma, hfailed⟩)
    · exact absurd hfailed accept_ne_failed
    · obtain ⟨_, _, hx, _⟩ := reads_accept.mp ⟨before, hcomma⟩
      obtain rfl : x = ',' := by simpa using hx
      exact ⟨d, ⟨before, hcomma⟩, Attempt.since_eq_failed.mp hfailed⟩
  · rintro ⟨d, ⟨before, hcomma⟩, hfailed⟩
    exact .inr ⟨',', d, before, hcomma, Attempt.since_eq_failed.mpr hfailed⟩

/-- The first element goes wrong, or one behind others. -/
theorem elements_eq_error_iff :
    elements element c = .error failure ↔ element c.skipLayout = .failed failure ∨
      ∃ first more d e, (element c.skipLayout).Reads first d ∧
        Chain (furtherElement element) d more e ∧ furtherElement element e = .failed failure := by
  unfold elements
  cases helement : element c.skipLayout with
  | absent => simp
  | failed other => simp
  | read first d before =>
      simp only [reduceCtorEq, false_or, Attempt.reads_read_iff]
      constructor
      · intro herror
        split at herror
        next other hother =>
          cases herror
          obtain ⟨more, e, hchain, hfailed⟩ :=
            breaks_iff_chain.mp (many_eq_error_iff.mp hother)
          exact ⟨first, more, d, e, ⟨rfl, rfl⟩, hchain, hfailed⟩
        next => cases herror
      · rintro ⟨_, more, _, e, ⟨rfl, rfl⟩, hchain, hfailed⟩
        have hmany := many_eq_error_iff.mpr (breaks_iff_chain.mpr ⟨more, e, hchain, hfailed⟩)
        simp only [hmany]

/-- An element goes wrong, or the list is not closed. -/
theorem list_fails_iff :
    list element c = .failed failure ↔
      ∃ d, (accept (· = '[') c).Reads '[' d ∧
        (elements element d = .error failure ∨
          ∃ values e, (∃ reaches, elements element d = .ok ⟨values, e, reaches⟩) ∧
            Stops (· = ']') e.skipLayout.rest ∧
            failure = .unexpected [.closingBracket] e.skipLayout) := by
  rw [list, Attempt.andThen_eq_failed]
  constructor
  · rintro (hfailed | ⟨x, d, before, hopening, hfailed⟩)
    · exact absurd hfailed accept_ne_failed
    · obtain ⟨_, _, hx, _⟩ := reads_accept.mp ⟨before, hopening⟩
      obtain rfl : x = '[' := by simpa using hx
      refine ⟨d, ⟨before, hopening⟩, ?_⟩
      split at hfailed
      next other hother =>
        cases hfailed
        exact .inl hother
      next values e reaches helements =>
        rw [Attempt.since_eq_failed, Attempt.expect_fails_iff] at hfailed
        exact .inr ⟨values, e, ⟨reaches, helements⟩, hfailed⟩
  · rintro ⟨d, ⟨before, hopening⟩, hfailed⟩
    refine .inr ⟨'[', d, before, hopening, ?_⟩
    rcases hfailed with herror | ⟨_, _, ⟨_, helements⟩, hfailed⟩
    · simp only [herror]
    · simp only [helements, Attempt.since_eq_failed]
      exact Attempt.expect_fails_iff.mpr hfailed

theorem valueAfterColon_fails_iff :
    valueAfterColon body c = .failed failure ↔
      ∃ inner, failure = inner.within .fieldValue ∧
        (message body c = .failed inner ∨ message body c = .absent ∧
          (list (fun d => (message body d).orElse fun _ => scalarValue d) c = .failed inner ∨
          list (fun d => (message body d).orElse fun _ => scalarValue d) c = .absent ∧
            (scalarValue c = .failed inner ∨
              scalarValue c = .absent ∧ inner = .unexpected [.scalarValue] c))) := by
  rw [valueAfterColon, Attempt.within_fails_iff]
  simp only [Attempt.orElse_eq_failed, Attempt.orFail_fails_iff]
  exact exists_congr fun _ => and_comm

theorem valueWithoutColon_fails_iff :
    valueWithoutColon body c = .failed failure ↔
      ∃ inner, failure = inner.within .messageValue ∧
        (message body c = .failed inner ∨ message body c = .absent ∧
          (list (message body) c = .failed inner ∨
            list (message body) c = .absent ∧ inner = .unexpected [] c)) := by
  rw [valueWithoutColon, Attempt.within_fails_iff]
  simp only [Attempt.orElse_eq_failed, Attempt.orFail_fails_iff, Attempt.orElse_eq_absent]
  refine exists_congr fun inner => ?_
  tauto

theorem fieldValue_eq_failed_iff :
    fieldValue body c = .failed failure ↔
      (∃ d, (accept (· = ':') c.skipLayout).Reads ':' d ∧
          valueAfterColon body d.skipLayout = .failed failure) ∨
        accept (· = ':') c.skipLayout = .absent ∧
          valueWithoutColon body c.skipLayout = .failed failure := by
  simp only [fieldValue, Attempt.since_eq_failed]
  cases hcolon : accept (· = ':') c.skipLayout with
  | failed other => exact absurd hcolon accept_ne_failed
  | absent => simp
  | read x d before =>
      obtain ⟨_, _, hx, _⟩ := reads_accept.mp ⟨before, hcolon⟩
      obtain rfl : x = ':' := by simpa using hx
      simp

/-- Only the bracket that ends a type URL can be missed in a name. -/
theorem fieldName_fails_iff :
    fieldName c = .failed failure ↔
      ∃ d url e, (accept (· = '[') c).Reads '[' d ∧ (acceptRun isUrlChar d.skipLayout).Reads url e ∧
        Stops (· = ']') e.skipLayout.rest ∧ failure = .unexpected [] e.skipLayout := by
  have hexpanded : expandedName c = .failed failure ↔
      ∃ d url e, (accept (· = '[') c).Reads '[' d ∧ (acceptRun isUrlChar d.skipLayout).Reads url e ∧
        Stops (· = ']') e.skipLayout.rest ∧ failure = .unexpected [] e.skipLayout := by
    rw [expandedName, Attempt.andThen_eq_failed]
    constructor
    · rintro (hfailed | ⟨x, d, before, hopening, hfailed⟩)
      · exact absurd hfailed accept_ne_failed
      · obtain ⟨_, _, hx, _⟩ := reads_accept.mp ⟨before, hopening⟩
        obtain rfl : x = '[' := by simpa using hx
        split at hfailed
        next url e after hurl =>
          rw [Attempt.since_eq_failed, Attempt.expect_fails_iff] at hfailed
          exact ⟨d, url, e, ⟨before, hopening⟩, ⟨after, hurl⟩, hfailed⟩
        next => cases hfailed
    · rintro ⟨d, url, e, ⟨before, hopening⟩, ⟨after, hurl⟩, hfailed⟩
      refine .inr ⟨'[', d, before, hopening, ?_⟩
      simp only [hurl, Attempt.since_eq_failed]
      exact Attempt.expect_fails_iff.mpr hfailed
  rw [fieldName, Attempt.orElse_eq_failed, Attempt.map_eq_failed, Attempt.map_eq_absent, hexpanded]
  constructor
  · rintro (hfailed | ⟨_, h⟩)
    · exact absurd hfailed identifier_ne_failed
    · exact h
  · rintro ⟨d, url, e, hopening, h⟩
    refine .inr ⟨identifier_eq_absent ?_, d, url, e, hopening, h⟩
    obtain ⟨rest, hrest, _⟩ := reads_accept.mp hopening
    rw [hrest]
    exact Stops.cons_iff.mpr rfl

theorem field_fails_iff :
    field body c = .failed failure ↔
      fieldName c.skipLayout = .failed failure ∨
        ∃ name d, (fieldName c.skipLayout).Reads name d ∧ fieldValue body d = .failed failure := by
  simp only [field, Attempt.since_eq_failed, Attempt.andThen_eq_failed]
  constructor
  · rintro (hfailed | ⟨name, d, before, hname, hfailed | ⟨_, _, _, _, hfailed⟩⟩)
    · exact .inl hfailed
    · exact .inr ⟨name, d, ⟨before, hname⟩, hfailed⟩
    · cases hfailed
  · rintro (hfailed | ⟨name, d, ⟨before, hname⟩, hfailed⟩)
    · exact .inl hfailed
    · exact .inr ⟨name, d, before, hname, .inl hfailed⟩

end

/-- A text is refused for what its fields are refused for, or for what follows them. -/
theorem parse_eq_error_iff {text : List Char} {failure : Failure} :
    parse text = .error failure ↔
      fields nestingLimit (.ofText text) = .error failure ∨
        ∃ members d, (∃ reaches, fields nestingLimit (.ofText text) = .ok ⟨members, d, reaches⟩) ∧
          d.skipLayout.rest ≠ [] ∧ failure = ⟨.trailing, [], d.skipLayout⟩ := by
  unfold parse
  cases hfields : fields nestingLimit (.ofText text) with
  | error other => simp
  | ok extent =>
      obtain ⟨members, d, reaches⟩ := extent
      simp only [reduceCtorEq, false_or, Except.ok.injEq, Extent.mk.injEq]
      cases hrest : d.skipLayout.rest with
      | nil =>
          simp only [Cursor.next?, hrest, List.head?_nil, reduceCtorEq, false_iff]
          rintro ⟨_, _, ⟨_, rfl, rfl⟩, hne, _⟩
          exact hne hrest
      | cons x rest =>
          simp only [Cursor.next?, hrest, List.head?_cons, Except.error.injEq]
          constructor
          · rintro rfl
            exact ⟨members, d, ⟨reaches, rfl, rfl⟩, by simp [hrest], rfl⟩
          · rintro ⟨_, _, ⟨_, rfl, rfl⟩, _, rfl⟩
            rfl

end Textproto.Tree
