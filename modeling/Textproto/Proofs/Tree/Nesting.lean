import Textproto.Proofs.Tree.Completeness
import Textproto.Proofs.Tree.Faults
import Textproto.Proofs.Tree.Overrun
import Textproto.Proofs.Tree.Places

namespace Textproto.Tree

/-! Messages that lie too deep are refused at their braces, and nothing else is refused as
such. -/

/-- The failure of a message that lies too deep, with `left` from its brace on. -/
structure Failure.TooDeep (left : List Char) (failure : Failure) : Prop where
  complaint : failure = .complain .nestedTooDeep failure.place
  rest_eq : failure.place.rest = left

theorem Failure.TooDeep.described {left : List Char} {failure : Failure}
    (h : failure.TooDeep left) : failure.Described :=
  h.complaint ▸ described_complain _ _

/-- The attempt goes wrong for a message that lies too deep. -/
def Attempt.TooDeep {c : Cursor} {α : Type} (left : List Char) (attempt : Attempt c α) : Prop :=
  ∃ failure, Failure.TooDeep left failure ∧ attempt = .failed failure

/-- A message begins here. -/
def Token.Opens (tokens : List Token) : Prop :=
  ∃ opening rest, tokens = .mark opening :: rest ∧ (closingOf? opening).isSome = true

theorem Token.Opens.avoid {tokens : List Token} {isWanted : Char → Bool} (h : Opens tokens)
    (hbrace : isWanted '{' = false) (hangle : isWanted '<' = false) : Avoid isWanted tokens := by
  obtain ⟨opening, rest, rfl, hopening⟩ := h
  rcases closingOf?_isSome hopening with rfl | rfl
  · exact .mark hbrace rest
  · exact .mark hangle rest

/-! What overruns is refused. -/

section

variable {left : List Char} {levels : Nat} {body : Option Body} {c : Cursor}
  {more tokens : List Token} {isWanted : Outline.Value → Bool}
  {element : (c : Cursor) → Attempt c Value}

/-- Wherever the tokens stand, behind layout, an attempt goes wrong with such a failure. -/
def Fails (left : List Char) (P : Failure → Prop) (tokens : List Token)
    (attempt : (c : Cursor) → Attempt c Value) : Prop :=
  ∀ ⦃c : Cursor⦄, WrittenTo left tokens c.rest →
    ∃ failure, P failure ∧ attempt c.skipLayout = .failed failure

/-- The elements of a list go wrong with one of them. -/
theorem elements_fail {P : Failure → Prop} (helement : ElementComplete left levels isWanted element)
    (hmore : Fails left P more element) {values : List Outline.Value}
    (htokens : BeforeElementTokens values tokens) (hnesting : Outline.Value.nestings values ≤ levels)
    (hall : values.all isWanted = true) (h : WrittenTo left (tokens ++ more) c.rest) :
    ∃ failure, P failure ∧ elements element c = .error failure := by
  simp only [elements_eq_error_iff]
  cases htokens with
  | first =>
      obtain ⟨failure, hfailure, hfailed⟩ := hmore h
      exact ⟨failure, hfailure, .inl hfailed⟩
  | @further value values _ hvalues =>
      cases hvalues with
      | @cons _ _ first rest hlist hfirst hrest =>
          rw [List.all_cons, Bool.and_eq_true] at hall
          obtain ⟨hvalue, hvalues⟩ := Nat.max_le.mp hnesting
          simp only [List.append_assoc, List.singleton_append] at h
          have hcomma : Token.Avoid isQuote (.mark ',' :: more ++ Token.ahead left) :=
            .mark rfl _
          obtain ⟨read, e, hread, _, hleft⟩ := helement.reads hfirst hvalue hlist hall.1
            (avoid_isQuote_of_furtherTokens hrest hcomma) h
          obtain ⟨others, e', hchain, _, hend⟩ :=
            furtherElements_complete helement hrest hvalues hall.2 hcomma hleft
          obtain ⟨f, hreads, hafter⟩ := accept_of_written (· = ',') hend rfl
          obtain ⟨failure, hfailure, hfailed⟩ := hmore hafter
          exact ⟨failure, hfailure, .inr ⟨read, others, e, e', hread, hchain,
            furtherElement_eq_failed_iff.mpr ⟨f, hreads, hfailed⟩⟩⟩

/-- Wherever `more` follows, an attempt goes wrong for a message that lies too deep. -/
def Refuses (left : List Char) (more : List Token)
    (attempt : (c : Cursor) → Attempt c Value) : Prop :=
  ∀ ⦃d : Cursor⦄, WrittenTo left more d.rest → (attempt d.skipLayout).TooDeep left

theorem list_refuses (helement : ElementComplete left levels isWanted element)
    (hmore : Refuses left more element)
    {values : List Outline.Value} (htokens : BeforeElementTokens values tokens)
    (hnesting : Outline.Value.nestings values ≤ levels) (hall : values.all isWanted = true) :
    Refuses left (.mark '[' :: (tokens ++ more)) (list element) := by
  intro c h
  obtain ⟨d, hopening, hinside⟩ := accept_of_written (· = '[') h rfl
  obtain ⟨failure, hfailure, helements⟩ := elements_fail helement hmore htokens hnesting hall hinside
  exact ⟨failure, hfailure, (list_eq_failed_iff hfailure.described).mpr ⟨d, hopening, helements⟩⟩

theorem fieldValue_refuses (hbody : BodyComplete left levels body)
    (hopens : Token.Opens (more ++ Token.ahead left)) (hmore : Refuses left more (message body))
    (htokens : BeforeMessageTokens levels tokens) (h : WrittenTo left (tokens ++ more) c.rest) :
    (fieldValue body c).TooDeep left := by
  simp only [Attempt.TooDeep, fieldValue_eq_failed_iff]
  cases htokens with
  | value hcolon =>
      cases hcolon with
      | colon =>
          obtain ⟨d, hreads, hafter⟩ := accept_of_written (· = ':') h rfl
          obtain ⟨failure, hfailure, hfailed⟩ := hmore hafter
          exact ⟨failure, hfailure, .inl ⟨d, hreads,
            (valueAfterColon_eq_failed_iff hfailure.described).mpr (.inl hfailed)⟩⟩
      | absent =>
          obtain ⟨failure, hfailure, hfailed⟩ := hmore h
          exact ⟨failure, hfailure, .inr ⟨accept_eq_absent.mpr (h.stops (hopens.avoid rfl rfl)),
            (valueWithoutColon_eq_failed_iff hfailure.described).mpr (.inl hfailed)⟩⟩
  | element hcolon hnesting hfront =>
      cases hcolon with
      | colon =>
          obtain ⟨d, hreads, hafter⟩ := accept_of_written (· = ':') h rfl
          have hmessage : message body d.skipLayout = .absent :=
            message_absent_of_avoid (.mark rfl _) hafter
          have hmore :
              Refuses left more (fun d => (message body d).orElse fun _ => scalarValue d) := by
            intro e he
            obtain ⟨failure, hfailure, hfailed⟩ := hmore he
            exact ⟨failure, hfailure, Attempt.orElse_eq_failed.mpr (.inl hfailed)⟩
          obtain ⟨failure, hfailure, hfailed⟩ := list_refuses (messageOrScalar_complete hbody) hmore
            hfront hnesting (List.all_eq_true.mpr fun _ _ => rfl) hafter
          exact ⟨failure, hfailure, .inl ⟨d, hreads,
            (valueAfterColon_eq_failed_iff hfailure.described).mpr
              (.inr ⟨hmessage, .inl hfailed⟩)⟩⟩
      | absent hmessages =>
          have hmessage : message body c.skipLayout = .absent :=
            message_absent_of_avoid (.mark rfl _) h
          obtain ⟨failure, hfailure, hfailed⟩ := list_refuses (message_complete hbody) hmore hfront
            hnesting hmessages h
          exact ⟨failure, hfailure, .inr ⟨accept_eq_absent.mpr (h.stops (.mark rfl _)),
            (valueWithoutColon_eq_failed_iff hfailure.described).mpr (.inr ⟨hmessage, hfailed⟩)⟩⟩

theorem manyFields_refuse (hbody : BodyComplete left levels body)
    (hopens : Token.Opens (more ++ Token.ahead left)) (hmore : Refuses left more (message body))
    (htokens : ApproachTokens levels tokens) (h : WrittenTo left (tokens ++ more) c.rest) :
    ∃ failure, Failure.TooDeep left failure ∧ many (field body) c = .error failure := by
  cases htokens with
  | @mk members name front nameTokens tokens hfields hnesting hname htokens =>
      simp only [List.append_assoc] at h
      have hquote : Token.Avoid isQuote (nameTokens ++ (tokens ++ more) ++ Token.ahead left) :=
        avoid_of_nameTokens hname (fun x hx => isQuote_eq_false hx rfl rfl) rfl _
      have hseparator : Token.Avoid (fun x => x = ',' || x = ';')
          (nameTokens ++ (tokens ++ more) ++ Token.ahead left) :=
        avoid_of_nameTokens hname isSeparator_eq_false rfl _
      obtain ⟨read, d, hchain, _, hrest⟩ :=
        fieldChain_complete hbody hfields hnesting hquote hseparator h
      obtain ⟨e, hreads, hafter⟩ := fieldName_complete hname hrest
      obtain ⟨failure, hfailure, hfailed⟩ := fieldValue_refuses hbody hopens hmore htokens hafter
      refine ⟨failure, hfailure, many_eq_error_iff.mpr (breaks_iff_chain.mpr ⟨read, d, hchain, ?_⟩)⟩
      exact (field_eq_failed_iff hfailure.described).mpr ⟨name, e, hreads, hfailed⟩

end

theorem fields_refuse (levels : Nat) {c : Cursor} {brace : Char} {rest : List Char}
    {tokens : List Token} (hbrace : (closingOf? brace).isSome = true)
    (htokens : OverrunTokens levels tokens) (h : WrittenTo (brace :: rest) tokens c.rest) :
    ∃ failure, Failure.TooDeep (brace :: rest) failure ∧ fields levels c = .error failure := by
  -- The message that is open there is read with one level fewer, and at last with no body.
  induction levels generalizing c tokens with
  | zero =>
      cases htokens with
      | mk happroach hdescent =>
          cases hdescent with
          | here =>
              have hbody : BodyComplete (brace :: rest) 0 none := nofun
              refine manyFields_refuse hbody ⟨brace, [], rfl, hbrace⟩ ?_ happroach h
              intro d hd
              have haccept : (accept (fun x => (closingOf? x).isSome) d.skipLayout).Reads brace
                  (d.skipLayout.advance 1) := reads_accept.mpr ⟨rest, hd.rest_eq, hbrace, rfl⟩
              refine ⟨.complain .nestedTooDeep d.skipLayout, ⟨rfl, hd.rest_eq⟩, ?_⟩
              exact (message_eq_failed_iff (Failure.described_complain _ _)).mpr
                ⟨brace, _, haccept, .inl ⟨rfl, rfl⟩⟩
  | succ levels ih =>
      cases htokens with
      | mk happroach hdescent =>
          cases hdescent with
          | @inside _ opening inner hopening hinner =>
              refine manyFields_refuse (bodyComplete_fields levels)
                ⟨opening, inner ++ [.mark brace], rfl, hopening⟩ ?_ happroach h
              intro d hd
              obtain ⟨e, hreads, hinside⟩ :=
                accept_of_written (fun x => (closingOf? x).isSome) hd hopening
              obtain ⟨failure, hfailure, hfailed⟩ := ih hinner hinside
              exact ⟨failure, hfailure, (message_eq_failed_iff hfailure.described).mpr
                ⟨opening, e, hreads, .inr ⟨_, rfl, hfailed⟩⟩⟩

/-! What is refused as nested too deep overruns. -/

def Cause.IsNesting (cause : Cause) : Prop :=
  cause = .described .nestedTooDeep

/-- Up to the place of the failure, where the brace of a message stands, the text is spelled so. -/
structure Failure.Follows (Spelled : List Token → Prop) (c : Cursor) (failure : Failure) :
    Prop where
  complaint : failure = .complain .nestedTooDeep failure.place
  brace : ∃ brace rest, failure.place.rest = brace :: rest ∧ (closingOf? brace).isSome = true
  spelled : ∃ tokens, Spelled tokens ∧ Leads tokens c failure.place

section

variable {levels : Nat} {body : Option Body} {c d : Cursor} {failure : Failure}
  {isWanted : Outline.Value → Bool} {element : (c : Cursor) → Attempt c Value}

theorem Failure.Follows.behind {Spelled Other : List Token → Prop} {front : List Token}
    (h : failure.Follows Spelled d) (hleads : Leads front c d)
    (hspelled : ∀ tokens, Spelled tokens → Other (front ++ tokens)) : failure.Follows Other c := by
  obtain ⟨tokens, htokens, htokensLead⟩ := h.spelled
  exact ⟨h.complaint, h.brace, _, hspelled tokens htokens, hleads.trans htokensLead⟩

/-- A body below the top one of so many levels is refused as nested too deep where it overruns. -/
def BodyFollows (levels : Nat) (body : Option Body) : Prop :=
  ∀ fields, body = some fields → ∃ below, levels = below + 1 ∧
    ∀ ⦃c failure⦄, failure.cause.IsNesting → fields c = .error failure →
      failure.Follows (OverrunTokens below) c

/-- Such an attempt is at a message that lies too deep, or at one that such a message lies in. -/
def ValueFollows (levels : Nat) (attempt : (c : Cursor) → Attempt c Value) : Prop :=
  ∀ ⦃c failure⦄, failure.cause.IsNesting → attempt c = .failed failure →
    failure.Follows (DescentTokens levels) c

theorem message_follows (hnone : body = none → levels = 0) (hbody : BodyFollows levels body) :
    ValueFollows levels (message body) := by
  intro c failure hcause h
  obtain ⟨opening, d, hreads, hfailed⟩ := (message_eq_failed_iff ⟨_, hcause⟩).mp h
  obtain ⟨rest, hrest, hopening, _⟩ := reads_accept.mp hreads
  rcases hfailed with ⟨hnobody, rfl⟩ | ⟨fields, hfields, hfailed⟩
  · obtain rfl := hnone hnobody
    exact ⟨rfl, ⟨opening, rest, hrest, hopening⟩, [], .here, .refl c⟩
  · obtain ⟨below, rfl, hfields⟩ := hbody fields hfields
    obtain ⟨closing, hpair⟩ := Option.isSome_iff_exists.mp hopening
    exact (hfields hcause hfailed).behind (Leads.mark hreads (isPunctuation_of_closingOf? hpair).1)
      fun _ htokens => .inside hopening htokens

theorem elementAfterColon_follows (h : ValueFollows levels (message body)) :
    ValueFollows levels (fun d => (message body d).orElse fun _ => scalarValue d) := by
  intro c failure hcause hfailed
  rcases Attempt.orElse_eq_failed.mp hfailed with hfailed | ⟨_, hfailed⟩
  · exact h hcause hfailed
  · exact absurd hfailed (scalar_ne_nestedTooDeep hcause)

/-- What stands in a list up to a message that lies too deep. -/
def ListDescent (levels : Nat) (isWanted : Outline.Value → Bool) (tokens : List Token) : Prop :=
  ∃ values front descent, tokens = .mark '[' :: (front ++ descent) ∧ values.all isWanted = true ∧
    Outline.Value.nestings values ≤ levels ∧ BeforeElementTokens values front ∧
    DescentTokens levels descent

theorem list_follows (helement : ElementSound levels isWanted element)
    (hfollows : ValueFollows levels element) (hcause : failure.cause.IsNesting)
    (h : list element c = .failed failure) :
    failure.Follows (ListDescent levels isWanted) c := by
  obtain ⟨d, hopening, helements⟩ := (list_eq_failed_iff ⟨_, hcause⟩).mp h
  have hopening : Leads [.mark '['] c d.skipLayout := (Leads.mark hopening rfl).skipLayout
  rcases elements_eq_error_iff.mp helements with
    hfailed | ⟨first, more, e, e', hfirst, hmore, hfailed⟩
  · refine (hfollows hcause hfailed).behind hopening fun descent hdescent => ?_
    exact ⟨[], [], descent, rfl, rfl, Nat.zero_le _, .first, hdescent⟩
  · obtain ⟨⟨⟨tokens, htokens, hleads⟩, hnesting⟩, hlist, hwanted⟩ := helement hfirst
    obtain ⟨⟨rest, hrest, hleads'⟩, hnestings, hall⟩ := furtherElements_sound helement hmore
    obtain ⟨f, hcomma, hfailed⟩ := furtherElement_eq_failed_iff.mp hfailed
    have hcomma : Leads [.mark ','] e' f.skipLayout :=
      (Leads.mark hcomma rfl).of_skipLayout.skipLayout
    refine (hfollows hcause hfailed).behind
      (hopening.trans ((hleads.trans hleads').trans hcomma)) fun descent hdescent => ?_
    refine ⟨first.outline :: Value.outlines more, _, descent, ?_, ?_,
      Nat.max_le.mpr ⟨hnesting, hnestings⟩, .further (.cons hlist htokens hrest), hdescent⟩
    · simp only [List.append_assoc, List.cons_append, List.nil_append]
    · simp only [List.all_cons, hwanted, hall, Bool.and_self]

/-- What stands behind the name of a field up to a message that lies too deep. -/
def ValueDescent (levels : Nat) (tokens : List Token) : Prop :=
  ∃ approach descent, tokens = approach ++ descent ∧ BeforeMessageTokens levels approach ∧
    DescentTokens levels descent

theorem fieldValue_follows (hbody : BodySound levels body)
    (hmessage : ValueFollows levels (message body)) (hcause : failure.cause.IsNesting)
    (h : fieldValue body c = .failed failure) : failure.Follows (ValueDescent levels) c := by
  rcases fieldValue_eq_failed_iff.mp h with ⟨d, hcolon, h⟩ | ⟨_, h⟩
  · have hcolon : Leads [.mark ':'] c d.skipLayout :=
      (Leads.mark hcolon rfl).of_skipLayout.skipLayout
    rcases (valueAfterColon_eq_failed_iff ⟨_, hcause⟩).mp h with h | ⟨_, h | ⟨_, h⟩⟩
    · refine (hmessage hcause h).behind hcolon fun descent hdescent => ?_
      exact ⟨_, descent, rfl, .value (@ColonTokens.colon (.message [])), hdescent⟩
    · refine (list_follows (elementAfterColon_sound hbody) (elementAfterColon_follows hmessage)
        hcause h).behind hcolon ?_
      rintro _ ⟨values, front, descent, rfl, _, hnesting, hfront, hdescent⟩
      exact ⟨_, descent, rfl, .element .colon hnesting hfront, hdescent⟩
    · exact absurd h (scalar_ne_nestedTooDeep hcause)
  · have hlayout : Leads [] c c.skipLayout := (Leads.refl c).skipLayout
    rcases (valueWithoutColon_eq_failed_iff ⟨_, hcause⟩).mp h with h | ⟨_, h⟩
    · refine (hmessage hcause h).behind hlayout fun descent hdescent => ?_
      exact ⟨[], descent, rfl, .value (@ColonTokens.absent (.message []) rfl), hdescent⟩
    · refine (list_follows (message_sound hbody) hmessage hcause h).behind hlayout ?_
      rintro _ ⟨values, front, descent, rfl, hall, hnesting, hfront, hdescent⟩
      exact ⟨_, descent, rfl, .element (.absent hall) hnesting hfront, hdescent⟩

theorem field_follows (hbody : BodySound levels body)
    (hmessage : ValueFollows levels (message body)) (hcause : failure.cause.IsNesting)
    (h : field body c = .failed failure) : failure.Follows (OverrunTokens levels) c := by
  obtain ⟨name, d, hname, h⟩ := (field_eq_failed_iff ⟨_, hcause⟩).mp h
  obtain ⟨nameTokens, hnameTokens, hname⟩ := fieldName_sound hname
  refine (fieldValue_follows hbody hmessage hcause h).behind hname.of_skipLayout ?_
  rintro _ ⟨approach, descent, rfl, happroach, hdescent⟩
  rw [← List.append_assoc]
  exact .mk (.first hnameTokens happroach) hdescent

theorem manyFields_follow (hbody : BodySound levels body)
    (hmessage : ValueFollows levels (message body)) (hcause : failure.cause.IsNesting)
    (h : Breaks (field body) c failure) : failure.Follows (OverrunTokens levels) c := by
  induction h with
  | here h => exact field_follows hbody hmessage hcause h
  | later hread _ ih =>
      obtain ⟨hnesting, first, hfirst, hleads⟩ := field_sound hbody hread
      exact (ih hcause).behind hleads fun _ htokens => htokens.cons hfirst hnesting

end

theorem fields_follow (levels : Nat) {c : Cursor} {failure : Failure}
    (hcause : failure.cause.IsNesting) (h : fields levels c = .error failure) :
    failure.Follows (OverrunTokens levels) c := by
  induction levels generalizing c failure with
  | zero =>
      have hsound : BodySound 0 none := fun _ heq => nomatch heq
      have hbody : BodyFollows 0 none := fun _ heq => nomatch heq
      exact manyFields_follow hsound (message_follows (fun _ => rfl) hbody) hcause
        (many_eq_error_iff.mp h)
  | succ levels ih =>
      have hbody : BodyFollows (levels + 1) (some (fields levels)) := by
        rintro _ ⟨⟩
        exact ⟨levels, rfl, fun _ _ => ih⟩
      exact manyFields_follow (bodySound_fields levels) (message_follows nofun hbody) hcause
        (many_eq_error_iff.mp h)

/-! Whole texts. -/

/-- A text that overruns is refused at the brace where it does. -/
theorem parse_of_overruns {before rest : List Char} {brace : Char}
    (h : Overruns nestingLimit before brace rest) :
    parse (before ++ brace :: rest) =
      .error (.complain .nestedTooDeep ⟨before.foldl Position.after .start, brace :: rest⟩) := by
  obtain ⟨hbrace, tokens, htokens, hwritten⟩ := h
  obtain ⟨failure, ⟨hcomplaint, hrest⟩, hfields⟩ :=
    fields_refuse nestingLimit (c := .ofText (before ++ brace :: rest)) hbrace htokens hwritten
  have hparse : parse (before ++ brace :: rest) = .error failure := by
    simp only [parse, hfields]
  obtain ⟨read, hread, hposition⟩ := reaches_of_parse hparse
  rw [hrest] at hread
  obtain rfl : before = read := List.append_cancel_right hread
  have hplace : failure.place = ⟨before.foldl Position.after .start, brace :: rest⟩ := by
    rw [← hrest]
    exact congrArg (Cursor.mk · failure.place.rest) hposition
  rw [hparse, hcomplaint, hplace]

/-- Only a text that overruns is refused as nested too deep. -/
theorem overruns_of_parse {text : List Char} {failure : Failure}
    (h : parse text = .error failure) (hcause : failure.cause.IsNesting) :
    ∃ before brace rest, text = before ++ brace :: rest ∧
      Overruns nestingLimit before brace rest := by
  have hfields : fields nestingLimit (.ofText text) = .error failure := by
    unfold parse at h
    split at h
    next other hother =>
      cases h
      exact hother
    next members d reaches _ =>
      simp only at h
      split at h
      next => cases h
      next =>
        cases h
        cases hcause
  obtain ⟨_, ⟨brace, rest, hrest, hbrace⟩, tokens, htokens, hleads⟩ :=
    fields_follow _ hcause hfields
  obtain ⟨before, hread, _⟩ := reaches_of_parse h
  have hbegins : Layout.begins failure.place.rest = false := by
    rw [hrest]
    rcases closingOf?_isSome hbrace with rfl | rfl <;> rfl
  have hwritten : WrittenTo failure.place.rest (tokens ++ []) text :=
    hleads [] (@WrittenTo.done _ [] hbegins (.inl .nil))
  rw [hrest] at hread hwritten
  rw [List.append_nil] at hwritten
  obtain rfl : text = before ++ brace :: rest := hread
  exact ⟨before, brace, rest, rfl, hbrace, tokens, htokens, hwritten⟩

/-! The message that says so is told by its first letter. -/

theorem head?_append {lead more : String} {x : Char} (h : lead.toList.head? = some x) :
    (lead ++ more).toList.head? = some x := by
  rw [String.toList_append, List.head?_append, h]
  rfl

theorem head?_text {complaint : Complaint} (h : complaint ≠ .nestedTooDeep) :
    ∃ x, x ≠ 'm' ∧ complaint.text.toList.head? = some x := by
  cases complaint with
  | newlineInString => exact ⟨'n', by decide, rfl⟩
  | unterminatedString => exact ⟨'u', by decide, rfl⟩
  | octalOutOfRange => exact ⟨'o', by decide, head?_append (head?_append rfl)⟩
  | missingHexDigits => exact ⟨'e', by decide, rfl⟩
  | tooFewHexDigits => exact ⟨'e', by decide, head?_append (head?_append rfl)⟩
  | unpairedSurrogate => exact ⟨'u', by decide, rfl⟩
  | invalidLowSurrogate => exact ⟨'i', by decide, rfl⟩
  | invalidCodePoint => exact ⟨'i', by decide, head?_append (head?_append rfl)⟩
  | invalidEscape => exact ⟨'i', by decide, head?_append rfl⟩
  | invalidNumber => exact ⟨'i', by decide, rfl⟩
  | nestedTooDeep => exact absurd rfl h

theorem head?_message {failure : Failure} (h : ¬ failure.cause.IsNesting) :
    ∃ x, x ≠ 'm' ∧ failure.message.toList.head? = some x := by
  obtain ⟨cause, path, place⟩ := failure
  cases cause with
  | described complaint =>
      obtain ⟨x, hx, hhead⟩ := head?_text fun heq => h (congrArg Cause.described heq)
      exact ⟨x, hx, head?_append (head?_append hhead)⟩
  | trailing => exact ⟨'u', by decide, head?_append rfl⟩
  | unexpected =>
      refine ⟨'s', by decide, ?_⟩
      cases path with
      | nil => exact head?_append rfl
      | cons => exact head?_append (head?_append (head?_append rfl))

theorem begins_message_iff {failure : Failure} :
    "message nesting exceeds 100".toList <+: failure.message.toList ↔
      failure.cause.IsNesting := by
  constructor
  · rintro ⟨rest, hrest⟩
    by_contra hcause
    obtain ⟨x, hx, hhead⟩ := head?_message hcause
    rw [← hrest, List.head?_append] at hhead
    exact hx (Option.some.inj hhead).symm
  · obtain ⟨_, path, place⟩ := failure
    rintro ⟨⟩
    simp only [Failure.message, String.toList_append, List.append_assoc]
    exact List.prefix_append _ _

/-- So many messages that are opened in one another, and the name of a further one. -/
def openings : Nat → List Char
  | 0 => ['a']
  | levels + 1 => 'a' :: '{' :: openings levels

theorem overruns_openings (levels : Nat) (rest : List Char) :
    Overruns levels (openings levels) '{' rest := by
  have hname (n : Nat) : BeforeMessageTokens n [] :=
    .value (@ColonTokens.absent (.message []) rfl)
  have hword : (Token.word ['a']).Spells ['a'] := .word rfl rfl
  have hstops (text : List Char) : Stops (Token.word ['a']).joins ('{' :: text) :=
    Stops.cons_iff.mpr rfl
  induction levels with
  | zero =>
      refine ⟨rfl, [.word ['a']], .mk (.first .plain (hname 0)) .here, ?_⟩
      exact .token .nil hword (hstops rest) (@WrittenTo.done _ [] rfl (.inl .nil))
  | succ levels ih =>
      obtain ⟨_, tokens, htokens, hwritten⟩ := ih
      refine ⟨rfl, .word ['a'] :: .mark '{' :: tokens,
        .mk (.first .plain (hname _)) (.inside rfl htokens), ?_⟩
      exact .token .nil hword (hstops _) (hwritten.mark rfl)

/-- A text is refused with the message that messages are nested too deep if and only if it is
spelled as the grammar says up to the brace of a message inside a hundred others, and at the line
and column of the first such brace. Fields that are nested deeper cannot be spelled without one,
and up to each one the text can be completed to such fields. What is read is nested at most as
deep, and so are the calls that read it: `fields` is recursive in the levels that are left. -/
theorem parse_nestingLimit (text : List Char) :
    (∀ failure,
      parse text = .error failure ∧
          "message nesting exceeds 100".toList <+: failure.message.toList ↔
        ∃ before brace rest, text = before ++ brace :: rest ∧ Overruns 100 before brace rest ∧
          failure = .complain .nestedTooDeep
            ⟨⟨1 + before.count '\n', 1 + (before.rtakeWhile (· ≠ '\n')).length⟩, brace :: rest⟩) ∧
    (∀ members, Renders members text → 100 < Outline.Field.nestings members →
      ∃ before brace rest, text = before ++ brace :: rest ∧ Overruns 100 before brace rest) ∧
    (∀ before brace rest, Overruns 100 before brace rest →
      ∃ members other, Renders members (before ++ brace :: other) ∧
        100 < Outline.Field.nestings members) ∧
    ∀ read, parse text = .ok read → Outline.Field.nestings (Field.outlines read) ≤ 100 := by
  refine ⟨fun failure => ?_, fun _ => overruns_of_renders, fun _ _ _ => exists_renders_of_overruns,
    fun _ h => (renders_of_parse h).2⟩
  -- The position is the one to which the characters before the brace lead.
  simp only [← Position.foldl_after]
  constructor
  · rintro ⟨hparse, hmessage⟩
    obtain ⟨before, brace, rest, rfl, hoverruns⟩ :=
      overruns_of_parse hparse (begins_message_iff.mp hmessage)
    rw [parse_of_overruns hoverruns] at hparse
    exact ⟨before, brace, rest, rfl, hoverruns, (Except.error.inj hparse).symm⟩
  · rintro ⟨before, brace, rest, rfl, hoverruns, rfl⟩
    exact ⟨parse_of_overruns hoverruns, begins_message_iff.mpr rfl⟩

theorem parse_nestingLimit_openings :
    parse (openings 100 ++ ['{']) =
      .error (.complain .nestedTooDeep ⟨⟨1, 202⟩, ['{']⟩) := by
  refine (((parse_nestingLimit _).1 _).mpr
    ⟨openings 100, '{', [], rfl, overruns_openings 100 [], ?_⟩).1
  decide +kernel

end Textproto.Tree
