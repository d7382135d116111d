import Textproto.Proofs.Tree.Failures
import Textproto.Proofs.Tree.Overrun
import Textproto.Proofs.Tree.Places

namespace Textproto.Tree

/-!
Texts that are spelled as the grammar says up to a place where something is missing. Of the fields
that are open there only the beginnings are known.
-/

/-- A field whose value is being read. -/
structure OpenField where
  name : Name
  hasColon : Bool

def OpenField.construct (field : OpenField) : Construct :=
  if field.hasColon then .fieldValue else .messageValue

/-- What is missing at a place: the value behind a colon, the message behind a name without one,
the digits of a hexadecimal number, or what closes a message, a list or a type URL. -/
inductive Gap where
  | value
  | message
  | digits (mark : Char)
  | brace (closing : Char)
  | bracket
  | urlBracket

namespace Gap

/-- What is named as missing. -/
def innermost : Gap → List Construct
  | value => [.scalarValue]
  | digits _ => [.scalarValue]
  | brace _ => [.closingBrace]
  | bracket => [.closingBracket]
  | message => []
  | urlBracket => []

/-- What there is of it. -/
def begun : Gap → List Char
  | digits mark => ['0', mark]
  | _ => []

/-- Whether it would go on with a character, or what it closes would. -/
def goesOn : Gap → Char → Bool
  | value, x => beginsValue x
  | message, x => x = ':' || x = '[' || (closingOf? x).isSome
  | digits _, x => isHexDigit x
  | brace closing, x => x = closing || isIdentifierStart x
  | bracket, x => x = ']'
  | urlBracket, x => x = ']'

end Gap

def colonTokens (hasColon : Bool) : List Token :=
  if hasColon then [.mark ':'] else []

/-- What may stand in the list that is the value of a field. -/
def isElement (hasColon : Bool) (value : Outline.Value) : Bool :=
  hasColon || value.isMessage

/-- What stands in a body in front of the value of a field: fields that are nested in at most so
many levels, and the name of the field with its colon. -/
inductive StartTokens (levels : Nat) : OpenField → List Token → Prop
  | mk {members : List Outline.Field} {field : OpenField} {front nameTokens : List Token} :
      FieldsTokens members front → Outline.Field.nestings members ≤ levels →
      NameTokens field.name nameTokens →
      StartTokens levels field (front ++ (nameTokens ++ colonTokens field.hasColon))

/-- What stands in a value in front of a message or a scalar: nothing, or the beginning of a
list. -/
inductive BeforeTokens (levels : Nat) (hasColon : Bool) : List Token → Prop
  | value : BeforeTokens levels hasColon []
  | element {values : List Outline.Value} {tokens : List Token} :
      values.all (isElement hasColon) = true → Outline.Value.nestings values ≤ levels →
      BeforeElementTokens values tokens → BeforeTokens levels hasColon (.mark '[' :: tokens)

mutual

/-- What stands in a body up to a place where something is missing, with the fields that are open
there, outermost first. So many levels of messages may lie below. -/
inductive InterruptedTokens : Nat → List OpenField → Gap → List Token → Prop
  | url {levels : Nat} {members : List Outline.Field} {front : List Token} {url : List Char} :
      FieldsTokens members front → Outline.Field.nestings members ≤ levels →
      InterruptedTokens levels [] .urlBracket (front ++ [.mark '[', .url url])
  | field {levels : Nat} {field : OpenField} {opened : List OpenField} {gap : Gap}
      {start tokens : List Token} :
      StartTokens levels field start → InterruptedValue levels field.hasColon opened gap tokens →
      InterruptedTokens levels (field :: opened) gap (start ++ tokens)

/-- The same in the value of a field. -/
inductive InterruptedValue : Nat → Bool → List OpenField → Gap → List Token → Prop
  | value {levels : Nat} : InterruptedValue levels true [] .value []
  | message {levels : Nat} : InterruptedValue levels false [] .message []
  | digits {levels : Nat} {before sign : List Token} {mark : Char} :
      BeforeTokens levels true before → sign = [] ∨ sign = [.mark '-'] →
      Numeral.isMark mark = true →
      InterruptedValue levels true [] (.digits mark) (before ++ sign)
  | bracket {levels : Nat} {hasColon : Bool} {values : List Outline.Value}
      {tokens : List Token} :
      values.all (isElement hasColon) = true → Outline.Value.nestings values ≤ levels →
      ElementsTokens values tokens →
      InterruptedValue levels hasColon [] .bracket (.mark '[' :: tokens)
  | brace {levels : Nat} {hasColon : Bool} {members : List Outline.Field}
      {opening closing : Char} {before tokens : List Token} :
      BeforeTokens (levels + 1) hasColon before → closingOf? opening = some closing →
      FieldsTokens members tokens → Outline.Field.nestings members ≤ levels →
      InterruptedValue (levels + 1) hasColon [] (.brace closing) (before ++ .mark opening :: tokens)
  | inside {levels : Nat} {hasColon : Bool} {opened : List OpenField} {gap : Gap}
      {opening : Char} {before tokens : List Token} :
      BeforeTokens (levels + 1) hasColon before → (closingOf? opening).isSome = true →
      InterruptedTokens levels opened gap tokens →
      InterruptedValue (levels + 1) hasColon opened gap (before ++ .mark opening :: tokens)

end

/-- Behind `before` something is missing. Up to what there is of it, the text is spelled as the
grammar says. -/
structure Interrupted (levels : Nat) (opened : List OpenField) (gap : Gap)
    (before after : List Char) : Prop where
  missing : Stops gap.goesOn after
  spelled : ∃ tokens, InterruptedTokens levels opened gap tokens ∧
    WrittenTo (gap.begun ++ after) tokens (before ++ after)

/-! What is refused for something missing is spelled so. -/

/-- Up to the place of the failure the text is spelled so, and the path names the fields that are
open there. -/
inductive Failure.Halts (Spelled : List OpenField → Gap → List Token → Prop) (c : Cursor) :
    Failure → Prop
  | mk {opened : List OpenField} {gap : Gap} {tokens : List Token} {d place : Cursor} :
      Spelled opened gap tokens → Leads tokens c d → d.rest = gap.begun ++ place.rest →
      Layout.begins d.rest = false → Stops gap.goesOn place.rest →
      Halts Spelled c (.unexpected (opened.map OpenField.construct ++ gap.innermost) place)

section

variable {levels : Nat} {hasColon : Bool} {body : Option Body} {c d : Cursor}
  {failure : Failure} {element : (c : Cursor) → Attempt c Value} {members : List Field}

theorem Failure.Halts.behind {Spelled Other : List OpenField → Gap → List Token → Prop}
    {front : List Token} (h : failure.Halts Spelled d) (hleads : Leads front c d)
    (hspelled : ∀ opened gap tokens, Spelled opened gap tokens →
      Other opened gap (front ++ tokens)) :
    failure.Halts Other c := by
  obtain ⟨htokens, htokensLead, hrest, hbegins, hmissing⟩ := h
  exact .mk (hspelled _ _ _ htokens) (hleads.trans htokensLead) hrest hbegins hmissing

/-- In front of layout something is missing that has not begun. -/
theorem Failure.Halts.missing {Spelled : List OpenField → Gap → List Token → Prop}
    (gap : Gap) {tokens : List Token} (hspelled : Spelled [] gap tokens)
    (hleads : Leads tokens c d.skipLayout) (hbegun : gap.begun = [])
    (hmissing : Stops gap.goesOn d.skipLayout.rest) :
    (Failure.unexpected gap.innermost d.skipLayout).Halts Spelled c :=
  .mk hspelled hleads (by rw [hbegun, List.nil_append]) d.begins_skipLayout hmissing

/-- What stands in a value from a message or scalar of it on. -/
def InterruptedElement (levels : Nat) (hasColon : Bool) (opened : List OpenField) (gap : Gap)
    (tokens : List Token) : Prop :=
  ∀ before, BeforeTokens levels hasColon before →
    InterruptedValue levels hasColon opened gap (before ++ tokens)

/-- Wherever such an attempt is refused for something missing, it is spelled so. -/
def AttemptHalts (Spelled : List OpenField → Gap → List Token → Prop)
    (attempt : (c : Cursor) → Attempt c Value) : Prop :=
  ∀ ⦃c failure⦄, failure.cause = .unexpected → attempt c = .failed failure →
    failure.Halts Spelled c

/-- The same of a body below the top one of so many levels, and no field begins where it ends. -/
structure BodyHalts (levels : Nat) (body : Option Body) : Prop where
  halts : ∀ fields, body = some fields → ∃ below, levels = below + 1 ∧
    ∀ ⦃c failure⦄, failure.cause = .unexpected → fields c = .error failure →
      failure.Halts (InterruptedTokens below) c
  ends : ∀ fields, body = some fields → ∀ ⦃c d members⦄,
    (∃ reaches, fields c = .ok ⟨members, d, reaches⟩) → Stops isIdentifierStart d.skipLayout.rest

theorem message_halts (hsound : BodySound levels body) (hbody : BodyHalts levels body) :
    AttemptHalts (InterruptedElement levels hasColon) (message body) := by
  intro c failure hcause h
  obtain ⟨opening, d, hreads, hfailed⟩ := message_fails_iff.mp h
  obtain ⟨_, _, hopening, _⟩ := reads_accept.mp hreads
  obtain ⟨closing, hpair⟩ := Option.isSome_iff_exists.mp hopening
  have hopens := Leads.mark hreads (isPunctuation_of_closingOf? hpair).1
  rcases hfailed with ⟨_, rfl⟩ | ⟨fields, hfields, herror | ⟨members, e, hok, hclosing, rfl⟩⟩
  · cases hcause
  · obtain ⟨below, rfl, hhalts⟩ := hbody.halts fields hfields
    exact (hhalts hcause herror).behind hopens fun _ _ _ htokens before hbefore =>
      .inside hbefore hopening htokens
  · obtain ⟨below, rfl, hstand⟩ := hsound fields hfields
    obtain ⟨⟨tokens, htokens, hleads⟩, hnesting⟩ := hstand hok
    have hends := hbody.ends fields hfields hok
    refine Failure.Halts.missing (.brace closing)
      (fun before hbefore => .brace hbefore hpair htokens hnesting)
      (hopens.trans hleads).skipLayout rfl fun x hx => ?_
    have hother := hclosing x hx
    simp only [hpair, Option.some.injEq, decide_eq_false_iff_not] at hother
    simp only [Gap.goesOn, hends x hx, Bool.or_false, decide_eq_false_iff_not]
    exact fun heq => hother heq.symm

theorem scalarValue_halts : AttemptHalts (InterruptedElement levels true) scalarValue := by
  intro c failure hcause h
  obtain ⟨inner, rfl, hstring | ⟨_, hnumeral⟩⟩ := scalarValue_fails_iff.mp h
  · obtain ⟨_, _, _, rfl⟩ := string_eq_failed_iff.mp hstring
    cases hcause
  · rcases numeral_fails_iff.mp hnumeral with ⟨hmark, rfl⟩ | ⟨_, _, _, _, rfl⟩
    · generalize hrest : (sign c).next.rest = rest at hmark
      obtain ⟨hmark, hstops⟩ := hmark
      rename_i mark rest
      have hplace : ((sign c).next.advance 2).rest = rest := by
        rw [Cursor.advance_rest, hrest]
        rfl
      have hspelled {sign : List Token} (hsign : sign = [] ∨ sign = [.mark '-']) :
          InterruptedElement levels true [] (.digits mark) sign :=
        fun before hbefore => .digits hbefore hsign hmark
      have hbegins : Layout.begins (sign c).next.rest = false := by
        rw [hrest]
        rfl
      have hmissing : Stops (Gap.digits mark).goesOn ((sign c).next.advance 2).rest := by
        rwa [hplace]
      have hbegun : (sign c).next.rest =
          (Gap.digits mark).begun ++ ((sign c).next.advance 2).rest := by
        rw [hrest, hplace]
        rfl
      rcases sign_cases c with ⟨_, d, hminus, hnext⟩ | ⟨_, hnext, _⟩
      · have hleads : Leads [.mark '-'] c (sign c).next := by
          rw [hnext]
          exact (Leads.mark hminus rfl).skipLayout
        exact Failure.Halts.mk (hspelled (.inr rfl)) hleads hbegun hbegins hmissing
      · have hleads : Leads [] c (sign c).next := by
          rw [hnext]
          exact .refl c
        exact Failure.Halts.mk (hspelled (.inl rfl)) hleads hbegun hbegins hmissing
    · cases hcause

theorem elementAfterColon_halts (hsound : BodySound levels body) (hbody : BodyHalts levels body) :
    AttemptHalts (InterruptedElement levels true)
      (fun d => (message body d).orElse fun _ => scalarValue d) := by
  intro c failure hcause h
  rcases Attempt.orElse_eq_failed.mp h with h | ⟨_, h⟩
  · exact message_halts hsound hbody hcause h
  · exact scalarValue_halts hcause h

theorem elements_halt (hsound : ElementSound levels (isElement hasColon) element)
    (hhalts : AttemptHalts (InterruptedElement levels hasColon) element)
    (hcause : failure.cause = .unexpected) (h : elements element c = .error failure) :
    failure.Halts (fun opened gap tokens =>
      InterruptedValue levels hasColon opened gap (.mark '[' :: tokens)) c := by
  have hlayout : Leads [] c c.skipLayout := (Leads.refl c).skipLayout
  rcases elements_eq_error_iff.mp h with hfailed | ⟨first, more, d, e, hfirst, hmore, hfailed⟩
  · exact (hhalts hcause hfailed).behind hlayout fun _ _ _ htokens =>
      htokens _ (.element rfl (Nat.zero_le _) .first)
  · obtain ⟨⟨⟨tokens, htokens, hleads⟩, hnesting⟩, hlist, hwanted⟩ := hsound hfirst
    obtain ⟨⟨rest, hrest, hleads'⟩, hnestings, hall⟩ := furtherElements_sound hsound hmore
    obtain ⟨f, hcomma, hfailed⟩ := furtherElement_eq_failed_iff.mp hfailed
    have hcomma : Leads [.mark ','] e f.skipLayout :=
      (Leads.mark hcomma rfl).of_skipLayout.skipLayout
    refine (hhalts hcause hfailed).behind
      (hlayout.trans ((hleads.trans hleads').trans hcomma)) fun _ _ _ htail => ?_
    have hvalues : (first.outline :: Value.outlines more).all (isElement hasColon) = true := by
      rw [List.all_cons, hwanted, hall, Bool.and_self]
    have hbefore := htail _ (.element hvalues (Nat.max_le.mpr ⟨hnesting, hnestings⟩)
      (.further (.cons hlist htokens hrest)))
    exact hbefore

theorem elements_sound (hsound : ElementSound levels (isElement hasColon) element)
    {values : List Value} (h : ∃ reaches, elements element c = .ok ⟨values, d, reaches⟩) :
    (∃ tokens, ElementsTokens (Value.outlines values) tokens ∧ Leads tokens c d) ∧
      Outline.Value.nestings (Value.outlines values) ≤ levels ∧
      (Value.outlines values).all (isElement hasColon) = true := by
  rcases elements_eq_ok_iff.mp h with ⟨_, rfl, rfl⟩ | ⟨first, more, e, hfirst, hmore, rfl⟩
  · exact ⟨⟨[], .nil, .refl _⟩, Nat.zero_le _, rfl⟩
  · obtain ⟨⟨⟨tokens, htokens, hleads⟩, hnesting⟩, hlist, hwanted⟩ := hsound hfirst
    obtain ⟨⟨rest, hrest, hleads'⟩, hnestings, hall⟩ := furtherElements_sound hsound hmore.chain
    refine ⟨⟨_, .cons hlist htokens hrest, hleads.of_skipLayout.trans hleads'⟩,
      Nat.max_le.mpr ⟨hnesting, hnestings⟩, ?_⟩
    simp only [Value.outlines, List.all_cons, hwanted, hall, Bool.and_self]

theorem list_halts (hsound : ElementSound levels (isElement hasColon) element)
    (hhalts : AttemptHalts (InterruptedElement levels hasColon) element) :
    AttemptHalts (InterruptedValue levels hasColon) (list element) := by
  intro c failure hcause h
  obtain ⟨d, hopening, herror | ⟨values, e, hok, hclosing, rfl⟩⟩ := list_fails_iff.mp h
  · exact (elements_halt hsound hhalts hcause herror).behind (Leads.mark hopening rfl)
      fun _ _ _ htokens => htokens
  · obtain ⟨⟨tokens, htokens, hleads⟩, hnesting, hall⟩ := elements_sound hsound hok
    exact Failure.Halts.missing .bracket (.bracket hall hnesting htokens)
      ((Leads.mark hopening rfl).trans hleads).skipLayout rfl hclosing

/-- What stands in a field from behind its name on. -/
inductive InterruptedField (levels : Nat) (name : Name) : List OpenField → Gap → List Token → Prop
  | mk {hasColon : Bool} {opened : List OpenField} {gap : Gap} {tokens : List Token} :
      InterruptedValue levels hasColon opened gap tokens →
      InterruptedField levels name (⟨name, hasColon⟩ :: opened) gap (colonTokens hasColon ++ tokens)

/-- The value that is being read makes its field an open one. -/
theorem Failure.Halts.within {failure : Failure} (hasColon : Bool)
    (h : failure.Halts (InterruptedValue levels hasColon) d) (name : Name)
    (hleads : Leads (colonTokens hasColon) c d) :
    (failure.within (OpenField.mk name hasColon).construct).Halts (InterruptedField levels name)
      c := by
  obtain ⟨htokens, htokensLead, hrest, hbegins, hmissing⟩ := h
  exact .mk (InterruptedField.mk htokens) (hleads.trans htokensLead) hrest hbegins hmissing

theorem Failure.Halts.value {failure : Failure}
    (h : failure.Halts (InterruptedElement levels hasColon) d) :
    failure.Halts (InterruptedValue levels hasColon) d :=
  h.behind (.refl d) fun _ _ _ htokens => htokens [] .value

theorem fieldValue_halts (hsound : BodySound levels body) (hbody : BodyHalts levels body)
    (name : Name) : AttemptHalts (InterruptedField levels name) (fieldValue body) := by
  intro c failure hcause h
  rcases fieldValue_eq_failed_iff.mp h with ⟨d, hcolon, h⟩ | ⟨hcolon, h⟩
  · have hleads : Leads (colonTokens true) c d.skipLayout :=
      (Leads.mark hcolon rfl).of_skipLayout.skipLayout
    obtain ⟨inner, rfl, hinner⟩ := valueAfterColon_fails_iff.mp h
    rw [Failure.cause_within] at hcause
    refine Failure.Halts.within true ?_ name hleads
    rcases hinner with h | ⟨hmessage, h | ⟨hlist, h | ⟨hscalar, rfl⟩⟩⟩
    · exact (message_halts hsound hbody hcause h).value
    · exact list_halts (elementAfterColon_sound hsound) (elementAfterColon_halts hsound hbody)
        hcause h
    · exact (scalarValue_halts hcause h).value
    · exact Failure.Halts.missing .value .value (Leads.refl _) rfl
        (stops_beginsValue hmessage hlist hscalar)
  · have hleads : Leads (colonTokens false) c c.skipLayout := (Leads.refl c).skipLayout
    obtain ⟨inner, rfl, hinner⟩ := valueWithoutColon_fails_iff.mp h
    rw [Failure.cause_within] at hcause
    refine Failure.Halts.within false ?_ name hleads
    rcases hinner with h | ⟨hmessage, h | ⟨hlist, rfl⟩⟩
    · exact (message_halts hsound hbody hcause h).value
    · exact list_halts (message_sound hsound) (message_halts hsound hbody) hcause h
    · have hcolon := accept_eq_absent.mp hcolon
      have hmessage := message_eq_absent_iff.mp hmessage
      have hlist := list_eq_absent_iff.mp hlist
      refine Failure.Halts.missing .message .message (Leads.refl _) rfl fun x hx => ?_
      simp only [Gap.goesOn, hcolon x hx, hmessage x hx, hlist x hx, Bool.or_self]

theorem field_halts (hsound : BodySound levels body) (hbody : BodyHalts levels body)
    (hcause : failure.cause = .unexpected) (h : field body c = .failed failure) :
    failure.Halts (InterruptedTokens levels) c := by
  rcases field_fails_iff.mp h with h | ⟨name, d, hname, h⟩
  · obtain ⟨d, url, e, hopening, hurl, hclosing, rfl⟩ := fieldName_fails_iff.mp h
    have hleads := (Leads.mark hopening rfl).trans (leads_of_url hurl).of_skipLayout
    exact Failure.Halts.missing .urlBracket (.url .nil (Nat.zero_le _))
      hleads.of_skipLayout.skipLayout rfl hclosing
  · obtain ⟨nameTokens, hnameTokens, hname⟩ := fieldName_sound hname
    refine (fieldValue_halts hsound hbody name hcause h).behind hname.of_skipLayout ?_
    rintro _ gap _ (@⟨hasColon, _, _, _, hvalue⟩)
    have hstart : StartTokens levels ⟨name, hasColon⟩ (nameTokens ++ colonTokens hasColon) :=
      .mk .nil (Nat.zero_le _) hnameTokens
    rw [← List.append_assoc]
    exact .field hstart hvalue

/-- Fields may stand in front. -/
theorem InterruptedTokens.cons {field : Outline.Field} {opened : List OpenField} {gap : Gap}
    {first tokens : List Token} (hfield : FieldTokens field first)
    (hnesting : field.nesting ≤ levels) (h : InterruptedTokens levels opened gap tokens) :
    InterruptedTokens levels opened gap (first ++ tokens) := by
  cases h with
  | url hfields hnestings =>
      rw [← List.append_assoc]
      exact .url (.cons hfield hfields) (Nat.max_le.mpr ⟨hnesting, hnestings⟩)
  | field hstart hvalue =>
      obtain ⟨hfields, hnestings, hname⟩ := hstart
      have hstart := StartTokens.mk (.cons hfield hfields) (Nat.max_le.mpr ⟨hnesting, hnestings⟩)
        hname
      simpa only [List.append_assoc] using InterruptedTokens.field hstart hvalue

theorem manyFields_halt (hsound : BodySound levels body) (hbody : BodyHalts levels body)
    (hcause : failure.cause = .unexpected) (h : Breaks (field body) c failure) :
    failure.Halts (InterruptedTokens levels) c := by
  induction h with
  | here h => exact field_halts hsound hbody hcause h
  | later hread _ ih =>
      obtain ⟨hnesting, first, hfirst, hleads⟩ := field_sound hsound hread
      exact (ih hcause).behind hleads fun _ _ _ htokens => htokens.cons hfirst hnesting

theorem fieldValue_ne_absent : fieldValue body c ≠ .absent := by
  have hafter (c : Cursor) : valueAfterColon body c ≠ .absent := by
    simp [valueAfterColon, Attempt.orFail_ne_absent]
  have hwithout (c : Cursor) : valueWithoutColon body c ≠ .absent := by
    simp [valueWithoutColon, Attempt.orFail_ne_absent]
  rw [fieldValue, Ne, Attempt.since_eq_absent]
  split
  next => rw [Attempt.since_eq_absent]; exact hafter _
  next => exact hwithout _

/-- Where fields end no further one begins. -/
theorem manyFields_end (h : ∃ reaches, many (field body) c = .ok ⟨members, d, reaches⟩) :
    Stops isIdentifierStart d.skipLayout.rest := by
  have habsent := (run_iff_chain.mp (many_eq_ok_iff.mp h)).2
  cases hname : fieldName d.skipLayout with
  | absent =>
      rw [fieldName, Attempt.orElse_eq_absent, Attempt.map_eq_absent] at hname
      exact identifier_eq_absent_iff.mp hname.1
  | failed other => simp [field, hname, Attempt.andThen, Attempt.since] at habsent
  | read name e before =>
      simp only [field, hname, Attempt.andThen, Attempt.since_eq_absent] at habsent
      split at habsent
      next hvalue =>
        rw [Attempt.since_eq_absent] at hvalue
        exact absurd hvalue fieldValue_ne_absent
      next => cases habsent
      next => cases habsent

end

theorem fields_end (levels : Nat) {c d : Cursor} {members : List Field}
    (h : ∃ reaches, fields levels c = .ok ⟨members, d, reaches⟩) :
    Stops isIdentifierStart d.skipLayout.rest := by
  cases levels <;> exact manyFields_end h

theorem fields_halt (levels : Nat) {c : Cursor} {failure : Failure}
    (hcause : failure.cause = .unexpected) (h : fields levels c = .error failure) :
    failure.Halts (InterruptedTokens levels) c := by
  -- By the levels, with the tokens up to the failure told for one level fewer in a body.
  induction levels generalizing c failure with
  | zero =>
      have hsound : BodySound 0 none := fun _ heq => nomatch heq
      have hbody : BodyHalts 0 none := ⟨fun _ heq => (nomatch heq), fun _ heq => (nomatch heq)⟩
      exact manyFields_halt hsound hbody hcause (many_eq_error_iff.mp h)
  | succ levels ih =>
      refine manyFields_halt (bodySound_fields levels) ⟨?_, ?_⟩ hcause (many_eq_error_iff.mp h)
      · rintro _ ⟨⟩
        exact ⟨levels, rfl, fun _ _ => ih⟩
      · rintro _ ⟨⟩ c d members hok
        exact fields_end levels hok

/-- A text that is refused for something missing is interrupted there, and the path of the failure
names the fields that are open, and what is missing. -/
theorem interrupted_of_parse {before : List Char} {failure : Failure}
    (h : parse (before ++ failure.place.rest) = .error failure)
    (hcause : failure.cause = .unexpected) :
    ∃ opened gap, Interrupted nestingLimit opened gap before failure.place.rest ∧
      failure.path = opened.map OpenField.construct ++ gap.innermost := by
  rcases parse_eq_error_iff.mp h with h | ⟨_, _, _, _, rfl⟩
  · cases fields_halt nestingLimit hcause h with
    | @mk opened gap tokens d place htokens hleads hrest hbegins hmissing =>
        have hdone : WrittenTo d.rest [] d.rest := @WrittenTo.done _ [] hbegins (.inl .nil)
        have hwritten := hleads [] hdone
        rw [List.append_nil, hrest] at hwritten
        exact ⟨opened, gap, ⟨hmissing, tokens, htokens, hwritten⟩, rfl⟩
  · cases hcause

end Textproto.Tree
