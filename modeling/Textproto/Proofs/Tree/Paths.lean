import Textproto.Proofs.Tree.Interrupted
import Textproto.Proofs.Tree.Nesting

namespace Textproto.Tree

/-! A text that ends where something is missing is refused for that at its end. -/

/-- Something is missing at the end of the text. -/
structure Failure.AtEnd (path : List Construct) (failure : Failure) : Prop where
  eq_unexpected : failure = .unexpected path failure.place
  rest_eq : failure.place.rest = []

theorem Failure.atEnd_unexpected {path : List Construct} {place : Cursor} (h : place.rest = []) :
    (Failure.unexpected path place).AtEnd path :=
  ⟨rfl, h⟩

theorem Failure.AtEnd.within {path : List Construct} {failure : Failure} (h : failure.AtEnd path)
    (construct : Construct) : (failure.within construct).AtEnd (construct :: path) := by
  obtain ⟨heq, hrest⟩ := h
  rw [heq]
  exact ⟨rfl, hrest⟩

section

variable {left : List Char} {levels : Nat} {hasColon : Bool} {body : Option Body} {c : Cursor}
  {tokens more : List Token} {element : (c : Cursor) → Attempt c Value}
  {isWanted : Outline.Value → Bool} {path : List Construct} {opened : List OpenField} {gap : Gap}

/-- A list goes wrong with an element of it. -/
theorem list_fails {P : Failure → Prop} (helement : ElementComplete left levels isWanted element)
    (hmore : Fails left P more element) {values : List Outline.Value}
    (htokens : BeforeElementTokens values tokens) (hnesting : Outline.Value.nestings values ≤ levels)
    (hall : values.all isWanted = true) :
    Fails left P (.mark '[' :: (tokens ++ more)) (list element) := by
  intro c h
  obtain ⟨d, hopening, hinside⟩ := accept_of_written (· = '[') h rfl
  obtain ⟨failure, hfailure, helements⟩ := elements_fail helement hmore htokens hnesting hall hinside
  exact ⟨failure, hfailure, list_fails_iff.mpr ⟨d, hopening, .inl helements⟩⟩

/-- A list goes wrong with its elements at an end. -/
theorem list_fails_bracket (helement : ElementComplete [] levels isWanted element)
    (habsent : ∀ c : Cursor, c.rest = [] → element c = .absent) {values : List Outline.Value}
    (htokens : ElementsTokens values tokens) (hnesting : Outline.Value.nestings values ≤ levels)
    (hall : values.all isWanted = true) :
    Fails [] (Failure.AtEnd [.closingBracket]) (.mark '[' :: tokens) (list element) := by
  intro c h
  obtain ⟨d, hopening, hinside⟩ := accept_of_written (· = '[') h rfl
  obtain ⟨read, e, helements, hend⟩ : ∃ read e,
      (∃ reaches, elements element d = .ok ⟨read, e, reaches⟩) ∧ e.skipLayout.rest = [] := by
    simp only [elements_eq_ok_iff]
    cases htokens with
    | nil => exact ⟨[], d, .inl ⟨habsent _ hinside.rest_eq, rfl, rfl⟩, hinside.rest_eq⟩
    | @cons value values first rest hlist hfirst hrest =>
        rw [List.all_cons, Bool.and_eq_true] at hall
        obtain ⟨hvalue, hvalues⟩ := Nat.max_le.mp hnesting
        have hnil : Token.Avoid isQuote ([] ++ Token.ahead []) := .nil
        obtain ⟨read, e, hread, _, hleft⟩ := helement.reads hfirst hvalue hlist hall.1
          (List.append_nil rest ▸ avoid_isQuote_of_furtherTokens hrest hnil) hinside
        obtain ⟨others, e', hchain, _, hlast⟩ := furtherElements_complete helement hrest hvalues
          hall.2 hnil ((List.append_nil rest).symm ▸ hleft)
        have hrun : Run (furtherElement element) e others e' :=
          run_iff_chain.mpr ⟨hchain, furtherElement_eq_absent (hlast.stops .nil)⟩
        exact ⟨read :: others, e', .inr ⟨read, others, e, hread, hrun, rfl⟩, hlast.rest_eq⟩
  refine ⟨_, Failure.atEnd_unexpected hend, list_fails_iff.mpr
    ⟨d, hopening, .inr ⟨read, e, helements, ?_, rfl⟩⟩⟩
  rw [hend]
  exact .nil

theorem message_fails_brace (hbody : BodyComplete [] (levels + 1) body)
    {members : List Outline.Field} {opening closing : Char}
    (hpair : closingOf? opening = some closing) (htokens : FieldsTokens members tokens)
    (hnesting : Outline.Field.nestings members ≤ levels) :
    Fails [] (Failure.AtEnd [.closingBrace]) (.mark opening :: tokens) (message body) := by
  intro c h
  obtain ⟨fields, hfields, hreads⟩ := hbody levels rfl
  obtain ⟨d, hopening, hinside⟩ := accept_of_written (fun x => (closingOf? x).isSome) h
    (by rw [hpair]; rfl)
  obtain ⟨read, e, hok, _, hend⟩ := @hreads _ _ _ [] htokens hnesting .nil
    ((List.append_nil tokens).symm ▸ hinside)
  refine ⟨_, Failure.atEnd_unexpected hend.rest_eq, message_fails_iff.mpr
    ⟨opening, d, hopening, .inr ⟨fields, hfields, .inr ⟨read, e, hok, ?_, rfl⟩⟩⟩⟩
  rw [hend.rest_eq]
  exact .nil

/-- A number of which there is only the mark. -/
theorem scalarValue_fails_digits {mark : Char} {sign : List Token}
    (hsign : sign = [] ∨ sign = [.mark '-']) (hmark : Numeral.isMark mark = true) :
    Fails ['0', mark] (Failure.AtEnd [.scalarValue]) sign scalarValue := by
  intro c h
  have hbare : Numeral.BareMark ['0', mark] := .mk hmark .nil
  obtain ⟨hstring, hrest⟩ : string c.skipLayout = .absent ∧
      (Tree.sign c.skipLayout).next.rest = ['0', mark] := by
    rcases hsign with rfl | rfl
    · refine ⟨string_eq_absent (h.stops (.mark rfl _)), ?_⟩
      rw [sign_of_avoid h (.mark rfl _)]
      exact h.rest_eq
    · refine ⟨string_eq_absent (h.stops (.mark rfl _)), ?_⟩
      obtain ⟨d, hminus, hafter⟩ := accept_of_written (· = '-') h rfl
      rcases sign_cases c.skipLayout with ⟨_, e, he, hnext⟩ | ⟨_, _, habsent⟩
      · obtain ⟨_, _, _, rfl⟩ := reads_accept.mp hminus
        obtain ⟨_, _, _, rfl⟩ := reads_accept.mp he
        rw [hnext]
        exact hafter.rest_eq
      · rw [habsent] at hminus
        cases Attempt.not_reads_absent _ hminus
  have hplace : ((Tree.sign c.skipLayout).next.advance 2).rest = [] := by
    rw [Cursor.advance_rest, hrest]
    rfl
  refine ⟨_, (Failure.atEnd_unexpected hplace).within .scalarValue, ?_⟩
  exact scalarValue_fails_iff.mpr
    ⟨_, rfl, .inr ⟨hstring, numeral_fails_iff.mpr (.inl ⟨hrest ▸ hbare, rfl⟩)⟩⟩

/-- A value behind a colon goes wrong with its message or scalar, or with one in its list. -/
theorem valueAfterColon_fails {P : Failure → Prop} (hbody : BodyComplete left levels body)
    (hmore : Fails left P more (fun d => (message body d).orElse fun _ => scalarValue d))
    (hbracket : Token.Avoid (· = '[') (more ++ Token.ahead left))
    (hbefore : BeforeTokens levels true tokens) (h : WrittenTo left (tokens ++ more) c.rest) :
    ∃ inner, P inner ∧
      valueAfterColon body c.skipLayout = .failed (inner.within .fieldValue) := by
  simp only [valueAfterColon_fails_iff]
  cases hbefore with
  | value =>
      obtain ⟨inner, hinner, hfailed⟩ := hmore h
      refine ⟨inner, hinner, inner, rfl, ?_⟩
      rcases Attempt.orElse_eq_failed.mp hfailed with hfailed | ⟨hmessage, hfailed⟩
      · exact .inl hfailed
      · exact .inr ⟨hmessage, .inr ⟨list_eq_absent (h.stops hbracket), .inl hfailed⟩⟩
  | element hall hnesting hfront =>
      have hmessage : message body c.skipLayout = .absent :=
        message_absent_of_avoid (.mark rfl _) h
      obtain ⟨inner, hinner, hfailed⟩ :=
        list_fails (messageOrScalar_complete hbody) hmore hfront hnesting hall h
      exact ⟨inner, hinner, inner, rfl, .inr ⟨hmessage, .inl hfailed⟩⟩

theorem valueWithoutColon_fails {P : Failure → Prop} (hbody : BodyComplete left levels body)
    (hmore : Fails left P more (message body)) (hbefore : BeforeTokens levels false tokens)
    (h : WrittenTo left (tokens ++ more) c.rest) :
    ∃ inner, P inner ∧
      valueWithoutColon body c.skipLayout = .failed (inner.within .messageValue) := by
  simp only [valueWithoutColon_fails_iff]
  cases hbefore with
  | value =>
      obtain ⟨inner, hinner, hfailed⟩ := hmore h
      exact ⟨inner, hinner, inner, rfl, .inl hfailed⟩
  | element hall hnesting hfront =>
      have hmessage : message body c.skipLayout = .absent :=
        message_absent_of_avoid (.mark rfl _) h
      obtain ⟨inner, hinner, hfailed⟩ :=
        list_fails (message_complete hbody) hmore hfront hnesting hall h
      exact ⟨inner, hinner, inner, rfl, .inr ⟨hmessage, .inl hfailed⟩⟩

/-- The bodies below the top one of so many levels go wrong with what is missing in them. -/
def BodyFails (levels : Nat) (body : Option Body) : Prop :=
  ∀ below, levels = below + 1 → ∃ fields, body = some fields ∧
    ∀ ⦃c : Cursor⦄ ⦃opened gap tokens⦄, InterruptedTokens below opened gap tokens →
      WrittenTo gap.begun tokens c.rest →
      ∃ failure, Failure.AtEnd (opened.map OpenField.construct ++ gap.innermost) failure ∧
        fields c = .error failure

theorem message_fails_inside (hfails : BodyFails (levels + 1) body) {opening : Char}
    (hopening : (closingOf? opening).isSome = true)
    (htokens : InterruptedTokens levels opened gap tokens) :
    Fails gap.begun (Failure.AtEnd (opened.map OpenField.construct ++ gap.innermost))
      (.mark opening :: tokens) (message body) := by
  intro c h
  obtain ⟨fields, hfields, hinner⟩ := hfails levels rfl
  obtain ⟨d, hopens, hinside⟩ := accept_of_written (fun x => (closingOf? x).isSome) h hopening
  obtain ⟨failure, hfailure, herror⟩ := hinner htokens hinside
  exact ⟨failure, hfailure, message_fails_iff.mpr
    ⟨opening, d, hopens, .inr ⟨fields, hfields, .inl herror⟩⟩⟩

theorem avoid_of_opening {isOther : Char → Bool} {opening : Char}
    (hopening : (closingOf? opening).isSome = true) (hbrace : isOther '{' = false)
    (hangle : isOther '<' = false) (tokens : List Token) :
    Token.Avoid isOther (.mark opening :: tokens) := by
  rcases closingOf?_isSome hopening with rfl | rfl
  · exact .mark hbrace tokens
  · exact .mark hangle tokens

theorem Fails.orElse {P : Failure → Prop} (h : Fails left P more (message body)) :
    Fails left P more (fun d => (message body d).orElse fun _ => scalarValue d) := by
  intro c hc
  obtain ⟨failure, hfailure, hfailed⟩ := h hc
  exact ⟨failure, hfailure, Attempt.orElse_eq_failed.mpr (.inl hfailed)⟩

theorem element_absent_of_end (hrest : c.rest = []) :
    ((message body c).orElse fun _ => scalarValue c) = .absent := by
  rw [Attempt.orElse_eq_absent]
  exact ⟨message_eq_absent (hrest ▸ .nil), scalarValue_eq_absent (hrest ▸ .nil)⟩

theorem valueAfterColon_interrupted (hbody : ∀ left, BodyComplete left levels body)
    (hfails : BodyFails levels body) (htokens : InterruptedValue levels true opened gap tokens)
    (h : WrittenTo gap.begun tokens c.rest) :
    ∃ inner, Failure.AtEnd (opened.map OpenField.construct ++ gap.innermost) inner ∧
      valueAfterColon body c.skipLayout = .failed (inner.within .fieldValue) := by
  cases htokens with
  | value =>
      have hrest := h.rest_eq
      refine ⟨_, Failure.atEnd_unexpected hrest, valueAfterColon_fails_iff.mpr ⟨_, rfl, .inr
        ⟨message_eq_absent ?_, .inr ⟨list_eq_absent ?_, .inr ⟨scalarValue_eq_absent ?_, rfl⟩⟩⟩⟩⟩
      all_goals
        rw [hrest]
        exact .nil
  | @digits _ before sign mark hbefore hsign hmark =>
      have hdigits : Fails ['0', mark] (Failure.AtEnd [.scalarValue]) sign
          (fun d => (message body d).orElse fun _ => scalarValue d) := by
        intro d hd
        obtain ⟨failure, hfailure, hfailed⟩ := scalarValue_fails_digits hsign hmark hd
        refine ⟨failure, hfailure, Attempt.orElse_eq_failed.mpr (.inr ⟨?_, hfailed⟩)⟩
        refine message_absent_of_avoid ?_ hd
        rcases hsign with rfl | rfl <;> exact .mark rfl _
      refine valueAfterColon_fails (hbody _) hdigits ?_ hbefore h
      rcases hsign with rfl | rfl <;> exact .mark rfl _
  | bracket hall hnesting hvalues =>
      have hmessage : message body c.skipLayout = .absent :=
        message_absent_of_avoid (.mark rfl _) h
      obtain ⟨inner, hinner, hfailed⟩ := list_fails_bracket (messageOrScalar_complete (hbody _))
        (fun _ => element_absent_of_end) hvalues hnesting hall h
      exact ⟨inner, hinner, valueAfterColon_fails_iff.mpr
        ⟨inner, rfl, .inr ⟨hmessage, .inl hfailed⟩⟩⟩
  | brace hbefore hpair hfields hnesting =>
      exact valueAfterColon_fails (hbody _)
        (message_fails_brace (hbody _) hpair hfields hnesting).orElse
        (avoid_of_opening (by rw [hpair]; rfl) rfl rfl _) hbefore h
  | inside hbefore hopening hinner =>
      exact valueAfterColon_fails (hbody _) (message_fails_inside hfails hopening hinner).orElse
        (avoid_of_opening hopening rfl rfl _) hbefore h

theorem valueWithoutColon_interrupted (hbody : ∀ left, BodyComplete left levels body)
    (hfails : BodyFails levels body) (htokens : InterruptedValue levels false opened gap tokens)
    (h : WrittenTo gap.begun tokens c.rest) :
    ∃ inner, Failure.AtEnd (opened.map OpenField.construct ++ gap.innermost) inner ∧
      valueWithoutColon body c.skipLayout = .failed (inner.within .messageValue) := by
  cases htokens with
  | message =>
      have hrest := h.rest_eq
      refine ⟨_, Failure.atEnd_unexpected hrest, valueWithoutColon_fails_iff.mpr ⟨_, rfl, .inr
        ⟨message_eq_absent ?_, .inr ⟨list_eq_absent ?_, rfl⟩⟩⟩⟩
      all_goals
        rw [hrest]
        exact .nil
  | bracket hall hnesting hvalues =>
      have hmessage : message body c.skipLayout = .absent :=
        message_absent_of_avoid (.mark rfl _) h
      obtain ⟨inner, hinner, hfailed⟩ := list_fails_bracket (message_complete (hbody _))
        (fun _ hrest => message_eq_absent (hrest ▸ .nil)) hvalues hnesting hall h
      exact ⟨inner, hinner, valueWithoutColon_fails_iff.mpr
        ⟨inner, rfl, .inr ⟨hmessage, .inl hfailed⟩⟩⟩
  | brace hbefore hpair hfields hnesting =>
      exact valueWithoutColon_fails (hbody _)
        (message_fails_brace (hbody _) hpair hfields hnesting) hbefore h
  | inside hbefore hopening hinner =>
      exact valueWithoutColon_fails (hbody _) (message_fails_inside hfails hopening hinner)
        hbefore h

theorem avoid_colon (htokens : InterruptedValue levels false opened gap tokens) :
    Token.Avoid (· = ':') (tokens ++ Token.ahead gap.begun) := by
  have hbefore {opening : Char} {before rest : List Token}
      (hopening : (closingOf? opening).isSome = true) (h : BeforeTokens levels false before) :
      Token.Avoid (· = ':') (before ++ .mark opening :: rest ++ Token.ahead gap.begun) := by
    cases h with
    | value => exact avoid_of_opening hopening rfl rfl _
    | element => exact .mark rfl _
  cases htokens with
  | message => exact .nil
  | bracket => exact .mark rfl _
  | brace h hpair _ _ => exact hbefore (by rw [hpair]; rfl) h
  | inside h hopening _ => exact hbefore hopening h

theorem fieldValue_interrupted (hbody : ∀ left, BodyComplete left levels body)
    (hfails : BodyFails levels body) (htokens : InterruptedValue levels hasColon opened gap tokens)
    (name : Name) (h : WrittenTo gap.begun (colonTokens hasColon ++ tokens) c.rest) :
    ∃ failure, Failure.AtEnd
        ((OpenField.mk name hasColon :: opened).map OpenField.construct ++ gap.innermost) failure ∧
      fieldValue body c = .failed failure := by
  simp only [fieldValue_eq_failed_iff]
  cases hasColon with
  | true =>
      obtain ⟨d, hcolon, hafter⟩ := accept_of_written (· = ':') h rfl
      obtain ⟨inner, hinner, hfailed⟩ := valueAfterColon_interrupted hbody hfails htokens hafter
      exact ⟨_, hinner.within .fieldValue, .inl ⟨d, hcolon, hfailed⟩⟩
  | false =>
      obtain ⟨inner, hinner, hfailed⟩ := valueWithoutColon_interrupted hbody hfails htokens h
      exact ⟨_, hinner.within .messageValue,
        .inr ⟨accept_eq_absent.mpr (h.stops (avoid_colon htokens)), hfailed⟩⟩

theorem manyFields_interrupted (hbody : ∀ left, BodyComplete left levels body)
    (hfails : BodyFails levels body) (htokens : InterruptedTokens levels opened gap tokens)
    (h : WrittenTo gap.begun tokens c.rest) :
    ∃ failure, Failure.AtEnd (opened.map OpenField.construct ++ gap.innermost) failure ∧
      many (field body) c = .error failure := by
  simp only [many_eq_error_iff, breaks_iff_chain]
  cases htokens with
  | @url _ _ front url hfields hnesting =>
      obtain ⟨read, d, hchain, _, hrest⟩ := fieldChain_complete (hbody _) hfields hnesting
        (.mark rfl _) (.mark rfl _) h
      obtain ⟨e, hopening, hinside⟩ := accept_of_written (· = '[') hrest rfl
      obtain ⟨f, hurl, hend⟩ := url_complete hinside
      refine ⟨_, Failure.atEnd_unexpected hend.rest_eq, read, d, hchain,
        field_fails_iff.mpr (.inl (fieldName_fails_iff.mpr ⟨e, url, f, hopening, hurl, ?_, rfl⟩))⟩
      rw [hend.rest_eq]
      exact .nil
  | @field _ field _ _ _ tokens hstart hvalue =>
      obtain ⟨hfields, hnesting, hname⟩ := hstart
      simp only [List.append_assoc] at h
      obtain ⟨read, d, hchain, _, hrest⟩ := fieldChain_complete (hbody _) hfields hnesting
        (avoid_of_nameTokens hname (fun x hx => isQuote_eq_false hx rfl rfl) rfl _)
        (avoid_of_nameTokens hname isSeparator_eq_false rfl _) h
      obtain ⟨e, hreads, hafter⟩ := fieldName_complete hname hrest
      obtain ⟨failure, hfailure, hfailed⟩ :=
        fieldValue_interrupted hbody hfails hvalue field.name hafter
      exact ⟨failure, hfailure, read, d, hchain,
        field_fails_iff.mpr (.inr ⟨field.name, e, hreads, hfailed⟩)⟩

end

theorem fields_interrupted (levels : Nat) {c : Cursor} {opened : List OpenField} {gap : Gap}
    {tokens : List Token} (htokens : InterruptedTokens levels opened gap tokens)
    (h : WrittenTo gap.begun tokens c.rest) :
    ∃ failure, Failure.AtEnd (opened.map OpenField.construct ++ gap.innermost) failure ∧
      fields levels c = .error failure := by
  -- By the levels: what is cut off in a message is cut off with one level fewer.
  induction levels generalizing c opened gap tokens with
  | zero =>
      have hbody : ∀ left, BodyComplete left 0 none := fun _ _ heq => nomatch heq
      have hfails : BodyFails 0 none := fun _ heq => nomatch heq
      exact manyFields_interrupted hbody hfails htokens h
  | succ levels ih =>
      refine manyFields_interrupted (fun _ => bodyComplete_fields levels) ?_ htokens h
      rintro _ ⟨⟩
      exact ⟨_, rfl, fun _ _ _ _ => ih⟩

/-- What is left behind a place does not matter to the tokens in front of it. -/
theorem WrittenTo.cut {begun after text : List Char} {tokens : List Token}
    (h : WrittenTo (begun ++ after) tokens text) :
    ∃ front, text = front ++ (begun ++ after) ∧ WrittenTo begun tokens (front ++ begun) := by
  induction h with
  | @done layout hbegins hlayout =>
      refine ⟨layout, rfl, .done ?_ ?_⟩
      · cases begun with
        | nil => rfl
        | cons x begun => exact hbegins
      · exact hlayout.imp_right (And.imp_right fun hnil => (List.append_eq_nil_iff.mp hnil).1)
  | @token token tokens layout spelled rest hlayout hspells hstops _ ih =>
      obtain ⟨front, rfl, hwritten⟩ := ih
      refine ⟨layout ++ (spelled ++ front), by simp only [List.append_assoc], ?_⟩
      simp only [List.append_assoc]
      rw [← List.append_assoc] at hstops
      exact .token hlayout hspells hstops.of_append hwritten

/-- A text that is cut off where something is missing is refused at its end, with the same path. -/
theorem parse_of_interrupted {opened : List OpenField} {gap : Gap} {before after : List Char}
    (h : Interrupted nestingLimit opened gap before after) :
    parse before = .error (.unexpected (opened.map OpenField.construct ++ gap.innermost)
      ⟨before.foldl Position.after .start, []⟩) := by
  obtain ⟨_, tokens, htokens, hwritten⟩ := h
  obtain ⟨front, hbefore, hcut⟩ := hwritten.cut
  rw [← List.append_assoc] at hbefore
  obtain rfl := List.append_cancel_right hbefore
  obtain ⟨failure, ⟨heq, hrest⟩, hfields⟩ :=
    @fields_interrupted nestingLimit (.ofText (front ++ gap.begun)) _ _ _ htokens hcut
  have hparse := parse_eq_error_iff.mpr (.inl hfields)
  obtain ⟨read, hread, hposition⟩ := reaches_of_parse hparse
  rw [hrest, List.append_nil] at hread
  obtain rfl : front ++ gap.begun = read := hread
  have hplace : failure.place = ⟨(front ++ gap.begun).foldl Position.after .start, []⟩ := by
    rw [← hrest]
    exact congrArg (Cursor.mk · failure.place.rest) hposition
  rw [hparse, heq, hplace]

theorem Gap.length_innermost_le (gap : Gap) : gap.innermost.length ≤ 1 := by
  cases gap <;> simp [Gap.innermost]

/-- The components that stand for fields are told from the one for what is missing. -/
theorem path_inj {opened others : List OpenField} {gap other : Gap}
    (h : opened.map OpenField.construct ++ gap.innermost =
      others.map OpenField.construct ++ other.innermost) :
    opened.map OpenField.construct = others.map OpenField.construct ∧
      gap.innermost = other.innermost := by
  have hne (gap : Gap) (field : OpenField) (path : List Construct) :
      gap.innermost ≠ field.construct :: path := by
    obtain ⟨_, _ | _⟩ := field <;> cases gap <;> exact nofun
  induction opened generalizing others with
  | nil =>
      cases others with
      | nil => exact ⟨rfl, h⟩
      | cons field others => exact absurd h (hne gap field _)
  | cons field opened ih =>
      cases others with
      | nil => exact absurd h.symm (hne other field _)
      | cons first others =>
          obtain ⟨hfield, hrest⟩ := List.cons.inj h
          obtain ⟨hopened, hgap⟩ := ih hrest
          exact ⟨congrArg₂ List.cons hfield hopened, hgap⟩

/-- A text that is refused is spelled as the grammar says up to the place of the failure, unless
the failure describes itself and so has no path. Behind whole fields the path is empty as well.
Otherwise something is missing at that place, and the path has a component for each field that is
open there, outermost first, and at most one for what is missing. Which they are, is told by the
text in front of the place. -/
theorem parse_path {text : List Char} {failure : Failure} (h : parse text = .error failure) :
    ∃ before, text = before ++ failure.place.rest ∧
      failure.place.position =
        ⟨1 + before.count '\n', 1 + (before.rtakeWhile (· ≠ '\n')).length⟩ ∧
      match failure.cause with
      | .described complaint =>
          failure = .complain complaint failure.place ∧
            failure.message = complaint.text ++ ", at " ++ Failure.quoted failure.place
      | .trailing =>
          failure.path = [] ∧ failure.message = "unexpected content " ++ Failure.quoted failure.place ∧
            ∃ members tokens, FieldsTokens members tokens ∧ WrittenTo failure.place.rest tokens text
      | .unexpected =>
          (failure.path ≠ [] → failure.message = "syntax error when handling " ++
            "/".intercalate (failure.path.map Construct.text) ++ ", at " ++
              Failure.quoted failure.place) ∧
          ∃ opened gap, Interrupted nestingLimit opened gap before failure.place.rest ∧
            failure.path = opened.map OpenField.construct ++ gap.innermost ∧
            gap.innermost.length ≤ 1 ∧
            ∀ others other after, Interrupted nestingLimit others other before after →
              others.map OpenField.construct = opened.map OpenField.construct ∧
                other.innermost = gap.innermost := by
  obtain ⟨before, hbefore, hposition⟩ := reaches_of_parse h
  obtain rfl : text = before ++ failure.place.rest := hbefore
  refine ⟨before, rfl, hposition.trans (Position.foldl_after before), ?_⟩
  cases hcause : failure.cause with
  | described complaint =>
      simp only
      exact ⟨(complaint_of_parse h hcause).1, by simp only [Failure.message, hcause]⟩
  | trailing =>
      simp only
      rcases parse_eq_error_iff.mp h with hfields | ⟨members, d, hok, _, rfl⟩
      · exact absurd hcause (fields_bare nestingLimit hfields).inside
      · obtain ⟨⟨tokens, htokens, hleads⟩, _⟩ := fields_sound nestingLimit hok
        refine ⟨rfl, rfl, _, tokens, htokens, ?_⟩
        -- The fields end where the content begins, with nothing but layout between.
        have hdone : WrittenTo d.skipLayout.rest [] d.skipLayout.rest :=
          @WrittenTo.done _ [] d.begins_skipLayout (.inl .nil)
        have hwritten := hleads.skipLayout [] hdone
        rwa [List.append_nil] at hwritten
  | unexpected =>
      simp only
      obtain ⟨opened, gap, hinterrupted, hpath⟩ := interrupted_of_parse h hcause
      refine ⟨fun hne => ?_, opened, gap, hinterrupted, hpath, gap.length_innermost_le, ?_⟩
      · obtain ⟨construct, path, hcons⟩ := List.exists_cons_of_ne_nil hne
        simp only [Failure.message, hcause, hcons]
      · intro others other after hother
        -- A text that is cut off somewhere fails in one way, from which the path is read.
        have hsame := (parse_of_interrupted hother).symm.trans (parse_of_interrupted hinterrupted)
        simp only [Except.error.injEq, Failure.unexpected, Failure.mk.injEq] at hsame
        exact path_inj hsame.2.1

/-- The list in the message is not closed, and its second element is missing. -/
theorem parse_path_nested :
    let path : List Construct := [.fieldValue, .messageValue, .closingBracket]
    parse "a:\x7bb[\x7b\x7d,".toList = .error (.unexpected path ⟨⟨1, 8⟩, [',']⟩) ∧
      ∃ opened gap, Interrupted nestingLimit opened gap "a:\x7bb[\x7b\x7d".toList [','] ∧
        path = opened.map OpenField.construct ++ gap.innermost := by
  intro path
  have hparse : parse "a:\x7bb[\x7b\x7d,".toList = .error (.unexpected path ⟨⟨1, 8⟩, [',']⟩) := by
    cbv
  obtain ⟨before, hbefore, _, _, opened, gap, hinterrupted, hpath, _⟩ := parse_path hparse
  obtain rfl : "a:\x7bb[\x7b\x7d".toList = before :=
    List.append_cancel_right (show "a:\x7bb[\x7b\x7d".toList ++ [','] = before ++ [','] from hbefore)
  exact ⟨hparse, opened, gap, hinterrupted, hpath⟩

end Textproto.Tree
