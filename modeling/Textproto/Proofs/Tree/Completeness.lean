import Textproto.Proofs.Tree.Soundness

namespace Textproto.Tree

/-! What the grammar spells is read back, and what follows it is left. -/

variable {left : List Char}

/-! Scalars. -/

theorem literal_complete {c : Cursor} {bytes : List UInt8} {more : List Token}
    (h : WrittenTo left (.literal bytes :: more) c.rest) :
    ∃ d, (literal c.skipLayout).Reads bytes d ∧ WrittenTo left more d.rest := by
  obtain ⟨text, rest, hrest, hspells, _, hmore⟩ := h.first
  cases hspells with
  | literal htext =>
      obtain ⟨d, hread, rfl⟩ := literal_of_literalText htext hrest
      exact ⟨d, hread, hmore⟩

theorem literals_complete {literals : List (List UInt8)} {c : Cursor} {more : List Token}
    (hmore : Token.Avoid isQuote (more ++ Token.ahead left))
    (h : WrittenTo left (literals.map .literal ++ more) c.rest) :
    ∃ d, Run (fun e => (literal e.skipLayout).since e.reaches_skipLayout) c literals d ∧
      WrittenTo left more d.rest := by
  induction literals generalizing c with
  | nil =>
      refine ⟨c, .stop ?_, h⟩
      rw [Attempt.since_eq_absent]
      exact literal_eq_absent (h.stops hmore)
  | cons bytes literals ih =>
      obtain ⟨d, hread, hrest⟩ := literal_complete h
      obtain ⟨e, hrun, hleft⟩ := ih hrest
      exact ⟨e, .go (Attempt.reads_since.mpr hread) hrun, hleft⟩

theorem string_complete {c : Cursor} {first : List UInt8} {literals : List (List UInt8)}
    {more : List Token} (hmore : Token.Avoid isQuote (more ++ Token.ahead left))
    (h : WrittenTo left (.literal first :: literals.map .literal ++ more) c.rest) :
    ∃ d, (string c.skipLayout).Reads (.string (first ++ literals.flatten)) d ∧
      WrittenTo left more d.rest := by
  obtain ⟨d, hfirst, hrest⟩ := literal_complete h
  obtain ⟨e, hrun, hleft⟩ := literals_complete hmore hrest
  exact ⟨e, reads_string.mpr ⟨first, literals, d, hfirst, hrun, rfl⟩, hleft⟩

theorem word_complete {c : Cursor} {name : List Char} {more : List Token}
    (h : WrittenTo left (.word name :: more) c.rest) :
    ∃ d, (identifier c.skipLayout).Reads name d ∧ WrittenTo left more d.rest ∧
      (Numeral.specialWord? name = none → Numeral.scan c.skipLayout.rest = .nothing) := by
  obtain ⟨text, rest, hrest, hspells, hstops, hmore⟩ := h.first
  cases hspells with
  | @word x name hx hname =>
      have hrest : c.skipLayout.rest = x :: (name ++ rest) := hrest
      have htake : (name ++ rest).takeWhile isIdentifierChar = name :=
        Stops.takeWhile_append hstops hname
      refine ⟨_, (reads_identifier hrest hx).mpr ⟨by rw [htake], rfl⟩, ?_, ?_⟩
      · have hleft : ((c.skipLayout.advance 1).advance
            ((name ++ rest).takeWhile isIdentifierChar).length).rest = rest := by
          rw [htake]
          simp [Cursor.advance_rest, hrest]
        rwa [hleft]
      · intro hspecial
        rw [hrest]
        exact Numeral.scan_word hx hname hstops hspecial

/-- A number behind layout, and the place of a minus sign before it. -/
theorem number_complete {c : Cursor} {numeral : Numeral} {more : List Token}
    (h : WrittenTo left (.number numeral :: more) c.rest) :
    ∃ length, Numeral.scan c.skipLayout.rest = .numeral numeral length ∧
      Stops Numeral.isJoining (c.skipLayout.rest.drop length) ∧
      WrittenTo left more (c.skipLayout.advance length).rest := by
  obtain ⟨text, rest, hrest, hspells, hstops, hmore⟩ := h.first
  cases hspells with
  | number htext =>
      refine ⟨text.length, ?_, ?_, ?_⟩
      · rw [hrest]
        exact Numeral.scan_of_spells htext hstops
      · rwa [hrest, List.drop_left]
      · rwa [Cursor.advance_rest, hrest, List.drop_left]

theorem avoid_minus_of_number {numeral : Numeral} (more : List Token) :
    Token.Avoid (· = '-') (.number numeral :: more) := by
  refine .cons ?_ more
  intro x hx
  refine decide_eq_false ?_
  rintro rfl
  cases hx

theorem unsigned_complete {c : Cursor} {numeral : Numeral} {more : List Token}
    (h : WrittenTo left (.number numeral :: more) c.rest) :
    ∃ d, (Tree.numeral c.skipLayout).Reads (numeral.withSign false) d ∧
      WrittenTo left more d.rest := by
  obtain ⟨length, hscan, hstops, hmore⟩ := number_complete h
  obtain ⟨hvalue, hnext⟩ := sign_of_stops (h.stops (avoid_minus_of_number more))
  refine ⟨_, reads_numeral.mpr ⟨numeral, length, ?_, ?_, ?_, rfl⟩, ?_⟩
  · rwa [hnext]
  · rwa [hnext]
  · rw [hvalue]
  · rwa [hnext]

theorem negative_complete {c : Cursor} {numeral : Numeral} {more : List Token}
    (h : WrittenTo left (.mark '-' :: .number numeral :: more) c.rest) :
    ∃ d, (Tree.numeral c.skipLayout).Reads (numeral.withSign true) d ∧
      WrittenTo left more d.rest := by
  obtain ⟨c', hminus, hrest⟩ := accept_of_written (· = '-') h rfl
  obtain ⟨length, hscan, hstops, hmore⟩ := number_complete hrest
  rcases sign_cases c.skipLayout with ⟨hvalue, d, hd, hnext⟩ | ⟨_, _, habsent⟩
  · obtain ⟨rest, hrest, _, rfl⟩ := reads_accept.mp hminus
    obtain ⟨_, _, _, rfl⟩ := reads_accept.mp hd
    refine ⟨_, reads_numeral.mpr ⟨numeral, length, ?_, ?_, ?_, rfl⟩, ?_⟩
    · rwa [hnext]
    · rwa [hnext]
    · rw [hvalue]
    · rwa [hnext]
  · obtain ⟨before, haccept⟩ := hminus
    rw [habsent] at haccept
    cases haccept

theorem sign_of_avoid {c : Cursor} {tokens : List Token} (h : WrittenTo left tokens c.rest)
    (hfirst : Token.Avoid (· = '-') (tokens ++ Token.ahead left)) :
    (sign c.skipLayout).next = c.skipLayout :=
  (sign_of_stops (h.stops hfirst)).2

/-- A string begins with a quote, a number with a sign, a digit, a point or a letter. -/
theorem avoid_of_scalarTokens {s : Scalar} {tokens : List Token} {isWanted : Char → Bool}
    (h : ScalarTokens s tokens) (hwanted : ∀ x, beginsScalar x = true → isWanted x = false)
    (more : List Token) : Token.Avoid isWanted (tokens ++ more ++ Token.ahead left) := by
  cases h with
  | string =>
      refine .cons (fun x hx => hwanted x ?_) _
      simp only [Token.begins] at hx
      simp [beginsScalar, hx]
  | unsigned =>
      refine .cons (fun x hx => hwanted x ?_) _
      simp only [Token.begins, Bool.or_eq_true, decide_eq_true_eq] at hx
      rcases hx with hx | rfl
      · simp [beginsScalar, hx]
      · rfl
  | negative => exact .mark (hwanted '-' rfl) _
  | identifier =>
      refine .cons (fun x hx => hwanted x ?_) _
      simp only [Token.begins, isIdentifierStart, Bool.or_eq_true, decide_eq_true_eq] at hx
      rcases hx with hx | rfl
      · simp [beginsScalar, Char.isAlphanum, hx]
      · rfl

theorem isQuote_eq_false {isOther : Char → Bool} {x : Char} (hx : isOther x = true)
    (hdouble : isOther '"' = false) (hsingle : isOther '\'' = false) : isQuote x = false := by
  cases hquote : isQuote x with
  | false => rfl
  | true =>
      simp only [isQuote, Bool.or_eq_true, decide_eq_true_eq] at hquote
      rcases hquote with rfl | rfl
      · rw [hdouble] at hx
        cases hx
      · rw [hsingle] at hx
        cases hx

theorem scalar_complete {c : Cursor} {s : Scalar} {tokens more : List Token}
    (hs : ScalarTokens s tokens) (hmore : Token.Avoid isQuote (more ++ Token.ahead left))
    (h : WrittenTo left (tokens ++ more) c.rest) :
    ∃ read d, (scalar c.skipLayout).Reads read d ∧ read.outline = s ∧
      WrittenTo left more d.rest := by
  have habsent {first : List Token}
      (hfirst : Token.Avoid isQuote (first ++ Token.ahead left))
      (h : WrittenTo left first c.rest) : string c.skipLayout = .absent := by
    rw [string, literal_eq_absent (h.stops hfirst)]
    rfl
  simp only [scalar, Attempt.reads_within, Attempt.reads_orElse, Attempt.reads_map]
  cases hs with
  | string =>
      obtain ⟨d, hread, hleft⟩ := string_complete hmore h
      exact ⟨_, d, .inl hread, rfl, hleft⟩
  | unsigned =>
      obtain ⟨d, hread, hleft⟩ := unsigned_complete h
      have hfirst := habsent (.cons (fun x hx => isQuote_eq_false hx rfl rfl) _) h
      exact ⟨_, d, .inr ⟨hfirst, .inl hread⟩, rfl, hleft⟩
  | negative =>
      obtain ⟨d, hread, hleft⟩ := negative_complete h
      exact ⟨_, d, .inr ⟨habsent (.mark rfl _) h, .inl hread⟩, rfl, hleft⟩
  | @identifier name hspecial =>
      obtain ⟨d, hread, hleft, hscan⟩ := word_complete h
      have hfirst := habsent (.cons (fun x hx => isQuote_eq_false hx rfl rfl) _) h
      have hsign : Token.Avoid (· = '-') (.word name :: more) := by
        refine .cons (fun x hx => decide_eq_false ?_) more
        rintro rfl
        cases hx
      have hnumeral : numeral c.skipLayout = .absent := by
        rw [numeral_eq_absent, sign_of_avoid h hsign, hscan hspecial]
      exact ⟨_, d, .inr ⟨hfirst, .inr ⟨hnumeral, _, hread, rfl⟩⟩, rfl, hleft⟩

/-! Values, at so many levels of messages. -/

/-- The characters that carry a message body on: those that a field, a separator or a further
literal begins with. -/
def carriesOn (x : Char) : Bool :=
  isIdentifierStart x || isQuote x || x ∈ ['[', ',', ';']

theorem closingOf?_isSome {x : Char} (h : (closingOf? x).isSome = true) : x = '{' ∨ x = '<' := by
  unfold closingOf? at h
  split at h
  next => exact .inl rfl
  next => exact .inr rfl
  next => cases h

theorem closingOf?_of_beginsScalar (x : Char) (hx : beginsScalar x = true) :
    (closingOf? x).isSome = false := by
  cases hopening : (closingOf? x).isSome with
  | false => rfl
  | true => rcases closingOf?_isSome hopening with rfl | rfl <;> cases hx

theorem ne_bracket_of_beginsScalar (x : Char) (hx : beginsScalar x = true) :
    decide (x = '[') = false := by
  refine decide_eq_false ?_
  rintro rfl
  cases hx

/-- A body below the top one of so many levels reads all the fields that stand there. -/
def BodyComplete (left : List Char) (levels : Nat) (body : Option Body) : Prop :=
  ∀ below, levels = below + 1 → ∃ fields, body = some fields ∧
    ∀ ⦃c : Cursor⦄ ⦃members tokens more⦄, FieldsTokens members tokens →
      Outline.Field.nestings members ≤ below → Token.Avoid carriesOn (more ++ Token.ahead left) →
      WrittenTo left (tokens ++ more) c.rest →
      ∃ read d, (∃ reaches, fields c = .ok ⟨read, d, reaches⟩) ∧
        Field.outlines read = members ∧ WrittenTo left more d.rest

/-- An element is read where one stands that may be in a list, and none where a list ends. -/
structure ElementComplete (left : List Char) (levels : Nat) (isWanted : Outline.Value → Bool)
    (element : (c : Cursor) → Attempt c Value) : Prop where
  reads : ∀ ⦃c : Cursor⦄ ⦃value tokens more⦄, ValueTokens value tokens → value.nesting ≤ levels →
    value.isList = false → isWanted value = true → Token.Avoid isQuote (more ++ Token.ahead left) →
    WrittenTo left (tokens ++ more) c.rest →
    ∃ read d, (element c.skipLayout).Reads read d ∧ read.outline = value ∧
      WrittenTo left more d.rest
  ends : ∀ ⦃c : Cursor⦄ ⦃more⦄, WrittenTo left (.mark ']' :: more) c.rest →
    element c.skipLayout = .absent

theorem closingOf?_eq_some {opening closing : Char} (h : closingOf? opening = some closing) :
    closing = '}' ∨ closing = '>' := by
  unfold closingOf? at h
  split at h
  next => cases h; exact .inl rfl
  next => cases h; exact .inr rfl
  next => cases h

theorem carriesOn_eq_false_of_closingOf? {opening closing : Char}
    (h : closingOf? opening = some closing) : carriesOn closing = false := by
  rcases closingOf?_eq_some h with rfl | rfl <;> rfl

section

variable {levels : Nat} {body : Option Body} {c : Cursor} {more tokens : List Token}
  {isWanted : Outline.Value → Bool} {element : (c : Cursor) → Attempt c Value}

theorem message_absent_of_avoid
    (hfirst : Token.Avoid (fun x => (closingOf? x).isSome) (tokens ++ Token.ahead left))
    (h : WrittenTo left tokens c.rest) :
    message body c.skipLayout = .absent :=
  message_eq_absent (h.stops hfirst)

theorem message_reads (hbody : BodyComplete left levels body) {members : List Outline.Field}
    {opening closing : Char} (hpair : closingOf? opening = some closing)
    (htokens : FieldsTokens members tokens)
    (hnesting : Outline.Field.nestings members + 1 ≤ levels)
    (h : WrittenTo left (.mark opening :: (tokens ++ [.mark closing]) ++ more) c.rest) :
    ∃ read d, (message body c.skipLayout).Reads read d ∧ read.outline = .message members ∧
      WrittenTo left more d.rest := by
  obtain ⟨below, rfl⟩ : ∃ below, levels = below + 1 := ⟨levels - 1, by omega⟩
  obtain ⟨fields, rfl, hfields⟩ := hbody below rfl
  have hopening : (closingOf? opening).isSome = true := by rw [hpair]; rfl
  obtain ⟨c', hopens, hrest⟩ :=
    accept_of_written (fun x => (closingOf? x).isSome) h hopening
  have hcloses : Token.Avoid carriesOn (.mark closing :: more) :=
    .mark (carriesOn_eq_false_of_closingOf? hpair) more
  have hrest : WrittenTo left (tokens ++ .mark closing :: more) c'.rest := by
    simpa using hrest
  obtain ⟨read, e, hread, hmembers, hleft⟩ :=
    hfields htokens (Nat.le_of_succ_le_succ hnesting) hcloses hrest
  obtain ⟨d, hclosing, hmore⟩ := accept_of_written
    (fun x => closingOf? opening = some x) hleft (decide_eq_true hpair)
  refine ⟨.message read c.skipLayout.position, d, ?_, ?_, hmore⟩
  · exact reads_message.mpr
      ⟨opening, closing, fields, read, c', e, hopens, hpair, rfl, hread, hclosing, rfl⟩
  · rw [Value.outline, hmembers]

theorem message_complete (hbody : BodyComplete left levels body) :
    ElementComplete left levels Outline.Value.isMessage (message body) where
  reads := by
    intro c value tokens more htokens hnesting _ hmessage _ h
    cases htokens with
    | message hpair htokens => exact message_reads hbody hpair htokens hnesting h
    | scalar _ => cases hmessage
    | list _ => cases hmessage
  ends := fun c more h => message_absent_of_avoid (.mark rfl more) h

theorem messageOrScalar_complete (hbody : BodyComplete left levels body) :
    ElementComplete left levels (fun _ => true)
      (fun d => (message body d).orElse fun _ => scalarValue d) where
  reads := by
    intro c value tokens more htokens hnesting hlist _ hmore h
    cases htokens with
    | message hpair htokens =>
        obtain ⟨read, d, hread, houtline, hleft⟩ := message_reads hbody hpair htokens hnesting h
        exact ⟨read, d, Attempt.reads_orElse.mpr (.inl hread), houtline, hleft⟩
    | scalar hs =>
        obtain ⟨s, d, hread, houtline, hleft⟩ := scalar_complete hs hmore h
        have hmessage : message body c.skipLayout = .absent :=
          message_absent_of_avoid (avoid_of_scalarTokens hs closingOf?_of_beginsScalar more) h
        refine ⟨.scalar s c.skipLayout.position, d, ?_, ?_, hleft⟩
        · exact Attempt.reads_orElse.mpr (.inr ⟨hmessage, reads_scalarValue.mpr ⟨s, hread, rfl⟩⟩)
        · rw [Value.outline, houtline]
    | list _ => cases hlist
  ends := by
    intro c more h
    rw [Attempt.orElse_eq_absent]
    exact ⟨message_absent_of_avoid (.mark rfl more) h,
      scalarValue_eq_absent (h.stops (.mark rfl more))⟩

theorem avoid_isQuote_of_furtherTokens {values : List Outline.Value}
    (h : FurtherTokens values tokens) (hmore : Token.Avoid isQuote (more ++ Token.ahead left)) :
    Token.Avoid isQuote (tokens ++ more ++ Token.ahead left) := by
  cases h with
  | nil => exact hmore
  | cons => exact .mark rfl _

/-- Elements behind commas, up to where no literal follows. -/
theorem furtherElements_complete (helement : ElementComplete left levels isWanted element)
    {values : List Outline.Value} (htokens : FurtherTokens values tokens)
    (hnesting : Outline.Value.nestings values ≤ levels) (hall : values.all isWanted = true)
    (hmore : Token.Avoid isQuote (more ++ Token.ahead left))
    (h : WrittenTo left (tokens ++ more) c.rest) :
    ∃ read d, Chain (furtherElement element) c read d ∧ Value.outlines read = values ∧
      WrittenTo left more d.rest := by
  induction values generalizing c tokens with
  | nil =>
      cases htokens
      exact ⟨[], c, .refl, rfl, h⟩
  | cons value values ih =>
      cases htokens with
      | @cons _ _ first rest hlist hfirst hrest =>
          rw [List.all_cons, Bool.and_eq_true] at hall
          obtain ⟨hvalue, hvalues⟩ := Nat.max_le.mp hnesting
          rw [List.cons_append, List.append_assoc] at h
          obtain ⟨c', hcomma, hafter⟩ := accept_of_written (· = ',') h rfl
          obtain ⟨read, e, hread, houtline, hleft⟩ := helement.reads hfirst hvalue hlist hall.1
            (avoid_isQuote_of_furtherTokens hrest hmore) hafter
          obtain ⟨others, d, hchain, houtlines, hend⟩ := ih hrest hvalues hall.2 hleft
          refine ⟨read :: others, d, .go (reads_furtherElement.mpr ⟨c', hcomma, hread⟩) hchain, ?_,
            hend⟩
          rw [Value.outlines, houtline, houtlines]

theorem list_complete (helement : ElementComplete left levels isWanted element)
    {values : List Outline.Value} (htokens : ElementsTokens values tokens)
    (hnesting : Outline.Value.nestings values ≤ levels) (hall : values.all isWanted = true)
    (h : WrittenTo left (.mark '[' :: (tokens ++ [.mark ']']) ++ more) c.rest) :
    ∃ read d, (list element c.skipLayout).Reads read d ∧ read.outline = .list values ∧
      WrittenTo left more d.rest := by
  obtain ⟨c', hopens, hinside⟩ := accept_of_written (· = '[') h rfl
  have hinside : WrittenTo left (tokens ++ .mark ']' :: more) c'.rest := by
    simpa using hinside
  obtain ⟨read, e, hread, houtlines, hend⟩ :
      ∃ read e, (∃ reaches, elements element c' = .ok ⟨read, e, reaches⟩) ∧
        Value.outlines read = values ∧ WrittenTo left (.mark ']' :: more) e.rest := by
    simp only [elements_eq_ok_iff]
    cases htokens with
    | nil => exact ⟨[], c', .inl ⟨helement.ends hinside, rfl, rfl⟩, rfl, hinside⟩
    | @cons value values first rest hlist hfirst hrest =>
        rw [List.all_cons, Bool.and_eq_true] at hall
        obtain ⟨hvalue, hvalues⟩ := Nat.max_le.mp hnesting
        rw [List.append_assoc] at hinside
        have hcloses : Token.Avoid isQuote (.mark ']' :: more ++ Token.ahead left) := .mark rfl _
        obtain ⟨read, e, hread, houtline, hleft⟩ := helement.reads hfirst hvalue hlist hall.1
          (avoid_isQuote_of_furtherTokens hrest hcloses) hinside
        obtain ⟨others, d, hchain, houtlines, hend⟩ :=
          furtherElements_complete helement hrest hvalues hall.2 hcloses hleft
        have hrun : Run (furtherElement element) e others d :=
          run_iff_chain.mpr ⟨hchain, furtherElement_eq_absent (hend.stops (.mark rfl _))⟩
        refine ⟨read :: others, d, .inr ⟨read, others, e, hread, hrun, rfl⟩, ?_, hend⟩
        rw [Value.outlines, houtline, houtlines]
  obtain ⟨d, hcloses, hmore⟩ := accept_of_written (· = ']') hend rfl
  refine ⟨.list read c.skipLayout.position, d, ?_, ?_, hmore⟩
  · exact reads_list.mpr ⟨c', read, e, hopens, hread, hcloses, rfl⟩
  · rw [Value.outline, houtlines]

theorem valueAfterColon_complete (hbody : BodyComplete left levels body) {value : Outline.Value}
    (htokens : ValueTokens value tokens) (hnesting : value.nesting ≤ levels)
    (hmore : Token.Avoid isQuote (more ++ Token.ahead left))
    (h : WrittenTo left (tokens ++ more) c.rest) :
    ∃ read d, (valueAfterColon body c.skipLayout).Reads read d ∧ read.outline = value ∧
      WrittenTo left more d.rest := by
  simp only [reads_valueAfterColon]
  cases htokens with
  | message hpair htokens =>
      obtain ⟨read, d, hread, houtline, hleft⟩ := message_reads hbody hpair htokens hnesting h
      exact ⟨read, d, .inl hread, houtline, hleft⟩
  | @list values _ htokens =>
      have hmessage : message body c.skipLayout = .absent :=
        message_absent_of_avoid (.mark rfl _) h
      obtain ⟨read, d, hread, houtline, hleft⟩ :=
        list_complete (messageOrScalar_complete hbody) htokens hnesting
          (List.all_eq_true.mpr fun _ _ => rfl) h
      exact ⟨read, d, .inr ⟨hmessage, .inl hread⟩, houtline, hleft⟩
  | scalar hs =>
      obtain ⟨s, d, hread, houtline, hleft⟩ := scalar_complete hs hmore h
      have hmessage : message body c.skipLayout = .absent :=
        message_absent_of_avoid (avoid_of_scalarTokens hs closingOf?_of_beginsScalar more) h
      have hlist := @list_eq_absent _ (fun d => (message body d).orElse fun _ =>
        scalarValue d) (h.stops (avoid_of_scalarTokens hs ne_bracket_of_beginsScalar more))
      refine ⟨.scalar s c.skipLayout.position, d, ?_, ?_, hleft⟩
      · exact .inr ⟨hmessage, .inr ⟨hlist, reads_scalarValue.mpr ⟨s, hread, rfl⟩⟩⟩
      · rw [Value.outline, houtline]

theorem valueWithoutColon_complete (hbody : BodyComplete left levels body) {value : Outline.Value}
    (htokens : ValueTokens value tokens) (hnesting : value.nesting ≤ levels)
    (hmessages : value.holdsMessages = true) (h : WrittenTo left (tokens ++ more) c.rest) :
    ∃ read d, (valueWithoutColon body c.skipLayout).Reads read d ∧ read.outline = value ∧
      WrittenTo left more d.rest := by
  simp only [reads_valueWithoutColon]
  cases htokens with
  | message hpair htokens =>
      obtain ⟨read, d, hread, houtline, hleft⟩ := message_reads hbody hpair htokens hnesting h
      exact ⟨read, d, .inl hread, houtline, hleft⟩
  | list htokens =>
      have hmessage : message body c.skipLayout = .absent :=
        message_absent_of_avoid (.mark rfl _) h
      obtain ⟨read, d, hread, houtline, hleft⟩ :=
        list_complete (message_complete hbody) htokens hnesting hmessages h
      exact ⟨read, d, .inr ⟨hmessage, hread⟩, houtline, hleft⟩
  | scalar _ => cases hmessages

end

/-! Fields. -/

section

variable {levels : Nat} {body : Option Body} {c : Cursor} {more tokens : List Token}

theorem url_complete {url : List Char} (h : WrittenTo left (.url url :: more) c.rest) :
    ∃ d, (acceptRun isUrlChar c.skipLayout).Reads url d ∧ WrittenTo left more d.rest := by
  obtain ⟨text, rest, hrest, hspells, hstops, hend⟩ := h.first
  cases hspells with
  | url hne hurl =>
      refine ⟨_, reads_acceptRun.mpr ⟨hne, ?_, rfl⟩, ?_⟩
      · rw [hrest]
        exact (Stops.takeWhile_append hstops hurl).symm
      · rwa [Cursor.advance_rest, hrest, List.drop_left]

theorem fieldName_complete {name : Name} (hname : NameTokens name tokens)
    (h : WrittenTo left (tokens ++ more) c.rest) :
    ∃ d, (fieldName c.skipLayout).Reads name d ∧ WrittenTo left more d.rest := by
  simp only [reads_fieldName]
  cases hname with
  | plain =>
      obtain ⟨d, hread, hleft, _⟩ := word_complete h
      exact ⟨d, .inl ⟨_, hread, rfl⟩, hleft⟩
  | @expanded url =>
      have hidentifier : identifier c.skipLayout = .absent :=
        identifier_eq_absent (h.stops (.mark rfl _))
      obtain ⟨c', hopens, hinside⟩ := accept_of_written (· = '[') h rfl
      obtain ⟨e, hread, hend⟩ := url_complete hinside
      obtain ⟨d, hcloses, hmore⟩ := accept_of_written (· = ']') hend rfl
      exact ⟨d, .inr ⟨hidentifier,
        reads_expandedName.mpr ⟨c', url, e, hopens, hread, hcloses, rfl⟩⟩, hmore⟩

theorem fieldValue_complete (hbody : BodyComplete left levels body) {value : Outline.Value}
    {colon : List Token} (hcolon : ColonTokens value colon) (htokens : ValueTokens value tokens)
    (hnesting : value.nesting ≤ levels) (hmore : Token.Avoid isQuote (more ++ Token.ahead left))
    (h : WrittenTo left (colon ++ (tokens ++ more)) c.rest) :
    ∃ read d, (fieldValue body c).Reads read d ∧ read.outline = value ∧
      WrittenTo left more d.rest := by
  simp only [reads_fieldValue]
  cases hcolon with
  | colon =>
      obtain ⟨c', hread, hafter⟩ := accept_of_written (· = ':') h rfl
      obtain ⟨read, d, hvalue, houtline, hleft⟩ :=
        valueAfterColon_complete hbody htokens hnesting hmore hafter
      exact ⟨read, d, .inl ⟨c', hread, hvalue⟩, houtline, hleft⟩
  | absent hmessages =>
      have havoid : Token.Avoid (· = ':') (tokens ++ more ++ Token.ahead left) := by
        cases htokens with
        | message hpair =>
            refine .mark (decide_eq_false ?_) _
            rintro rfl
            cases hpair
        | list => exact .mark rfl _
        | scalar => cases hmessages
      obtain ⟨read, d, hvalue, houtline, hleft⟩ :=
        valueWithoutColon_complete hbody htokens hnesting hmessages h
      exact ⟨read, d, .inr ⟨accept_eq_absent.mpr (h.stops havoid), hvalue⟩, houtline, hleft⟩

theorem skipSeparator_complete {separator : List Token} (hseparator : SeparatorTokens separator)
    (hmore : Token.Avoid (fun x => x = ',' || x = ';') (more ++ Token.ahead left))
    (h : WrittenTo left (separator ++ more) c.rest) :
    WrittenTo left more (skipSeparator c).next.rest := by
  have hmark {x : Char} (hx : (x = ',' || x = ';') = true)
      (h : WrittenTo left (.mark x :: more) c.rest) :
      WrittenTo left more (skipSeparator c).next.rest := by
    obtain ⟨d, hread, hleft⟩ :=
      accept_of_written (fun x => x = ',' || x = ';') h hx
    rcases skipSeparator_cases c with ⟨y, _, hskipped⟩ | ⟨_, habsent⟩
    · obtain ⟨_, _, _, rfl⟩ := reads_accept.mp hread
      obtain ⟨_, _, _, hnext⟩ := reads_accept.mp hskipped
      rwa [hnext]
    · rw [habsent] at hread
      cases Attempt.not_reads_absent _ hread
  cases hseparator with
  | comma => exact hmark rfl h
  | semicolon => exact hmark rfl h
  | absent =>
      rcases skipSeparator_cases c with ⟨y, _, hskipped⟩ | ⟨hnext, _⟩
      · rw [accept_eq_absent.mpr (h.stops hmore)] at hskipped
        cases Attempt.not_reads_absent _ hskipped
      · rw [hnext]
        exact h

/-- Names begin with a letter or a bracket, and so do fields. -/
theorem avoid_of_nameTokens {name : Name} {isWanted : Char → Bool} (h : NameTokens name tokens)
    (hword : ∀ x, isIdentifierStart x = true → isWanted x = false)
    (hbracket : isWanted '[' = false) (more : List Token) :
    Token.Avoid isWanted (tokens ++ more ++ Token.ahead left) := by
  cases h with
  | @plain name => exact @Token.Avoid.cons _ (.word name) hword _
  | expanded => exact .mark hbracket _

theorem avoid_of_fieldTokens {field : Outline.Field} {isWanted : Char → Bool}
    (h : FieldTokens field tokens)
    (hword : ∀ x, isIdentifierStart x = true → isWanted x = false)
    (hbracket : isWanted '[' = false) (more : List Token) :
    Token.Avoid isWanted (tokens ++ more ++ Token.ahead left) := by
  cases h with
  | mk hname =>
      rw [List.append_assoc _ _ more]
      exact avoid_of_nameTokens hname hword hbracket _

theorem field_complete (hbody : BodyComplete left levels body) {f : Outline.Field}
    (htokens : FieldTokens f tokens) (hnesting : f.nesting ≤ levels)
    (hquote : Token.Avoid isQuote (more ++ Token.ahead left))
    (hseparator : Token.Avoid (fun x => x = ',' || x = ';') (more ++ Token.ahead left))
    (h : WrittenTo left (tokens ++ more) c.rest) :
    ∃ read d, (field body c).Reads read d ∧ read.outline = f ∧
      WrittenTo left more d.rest := by
  cases htokens with
  | @mk name value nameTokens colon valueTokens separator hname hcolon hvalue hseparated =>
      simp only [List.append_assoc] at h
      obtain ⟨e, hreadName, hafterName⟩ := fieldName_complete hname h
      have havoid : Token.Avoid isQuote (separator ++ more ++ Token.ahead left) := by
        cases hseparated with
        | absent => exact hquote
        | comma => exact .mark rfl _
        | semicolon => exact .mark rfl _
      obtain ⟨read, e', hreadValue, houtline, hafterValue⟩ :=
        fieldValue_complete hbody hcolon hvalue hnesting havoid hafterName
      refine ⟨⟨name, c.skipLayout.position, read⟩, (skipSeparator e').next, ?_, ?_, ?_⟩
      · exact reads_field.mpr ⟨name, e, read, e', hreadName, hreadValue, rfl, rfl⟩
      · rw [Field.outline, houtline]
      · exact skipSeparator_complete hseparated hseparator hafterValue

theorem isSeparator_eq_false (x : Char) (hx : isIdentifierStart x = true) :
    (x = ',' || x = ';') = false := by
  rw [Bool.or_eq_false_iff, decide_eq_false_iff_not, decide_eq_false_iff_not]
  constructor <;> (rintro rfl; cases hx)

theorem avoid_of_fieldsTokens {members : List Outline.Field} {isWanted : Char → Bool}
    (h : FieldsTokens members tokens) (hword : ∀ x, isIdentifierStart x = true → isWanted x = false)
    (hbracket : isWanted '[' = false) (hmore : Token.Avoid isWanted (more ++ Token.ahead left)) :
    Token.Avoid isWanted (tokens ++ more ++ Token.ahead left) := by
  cases h with
  | nil => exact hmore
  | cons hfirst _ =>
      rw [List.append_assoc _ _ more]
      exact avoid_of_fieldTokens hfirst hword hbracket _

/-- Fields behind one another, up to where neither a literal nor a separator follows. -/
theorem fieldChain_complete (hbody : BodyComplete left levels body)
    {members : List Outline.Field} (htokens : FieldsTokens members tokens)
    (hnesting : Outline.Field.nestings members ≤ levels)
    (hquote : Token.Avoid isQuote (more ++ Token.ahead left))
    (hseparator : Token.Avoid (fun x => x = ',' || x = ';') (more ++ Token.ahead left))
    (h : WrittenTo left (tokens ++ more) c.rest) :
    ∃ read d, Chain (field body) c read d ∧ Field.outlines read = members ∧
      WrittenTo left more d.rest := by
  induction members generalizing c tokens with
  | nil =>
      cases htokens
      exact ⟨[], c, .refl, rfl, h⟩
  | cons f members ih =>
      cases htokens with
      | @cons _ _ first rest hfirst hrest =>
          obtain ⟨hf, hmembers⟩ := Nat.max_le.mp hnesting
          rw [List.append_assoc] at h
          have hquote' : Token.Avoid isQuote (rest ++ more ++ Token.ahead left) :=
            avoid_of_fieldsTokens hrest (fun x hx => isQuote_eq_false hx rfl rfl) rfl hquote
          have hseparator' :
              Token.Avoid (fun x => x = ',' || x = ';') (rest ++ more ++ Token.ahead left) :=
            avoid_of_fieldsTokens hrest isSeparator_eq_false rfl hseparator
          obtain ⟨read, e, hread, houtline, hleft⟩ :=
            field_complete hbody hfirst hf hquote' hseparator' h
          obtain ⟨others, d, hchain, houtlines, hend⟩ := ih hrest hmembers hleft
          refine ⟨read :: others, d, .go hread hchain, ?_, hend⟩
          rw [Field.outlines, houtline, houtlines]

theorem manyFields_complete (hbody : BodyComplete left levels body)
    {members : List Outline.Field} (htokens : FieldsTokens members tokens)
    (hnesting : Outline.Field.nestings members ≤ levels)
    (hmore : Token.Avoid carriesOn (more ++ Token.ahead left))
    (h : WrittenTo left (tokens ++ more) c.rest) :
    ∃ read d, Run (field body) c read d ∧ Field.outlines read = members ∧
      WrittenTo left more d.rest := by
  have hquote : Token.Avoid isQuote (more ++ Token.ahead left) :=
    hmore.mono fun x hx => by simp [carriesOn, hx]
  have hseparator : Token.Avoid (fun x => x = ',' || x = ';') (more ++ Token.ahead left) :=
    hmore.mono fun x hx => by simp_all [carriesOn]
  obtain ⟨read, d, hchain, houtlines, hend⟩ :=
    fieldChain_complete hbody htokens hnesting hquote hseparator h
  have hword : Token.Avoid isIdentifierStart (more ++ Token.ahead left) :=
    hmore.mono fun x hx => by simp [carriesOn, hx]
  have hbracket : Token.Avoid (· = '[') (more ++ Token.ahead left) :=
    hmore.mono fun x hx => by simp_all [carriesOn]
  exact ⟨read, d, run_iff_chain.mpr ⟨hchain, field_eq_absent (hend.stops hword)
    (hend.stops hbracket)⟩, houtlines, hend⟩

end

theorem fields_complete (levels : Nat) {c : Cursor} {members : List Outline.Field}
    {tokens more : List Token} (htokens : FieldsTokens members tokens)
    (hnesting : Outline.Field.nestings members ≤ levels)
    (hmore : Token.Avoid carriesOn (more ++ Token.ahead left))
    (h : WrittenTo left (tokens ++ more) c.rest) :
    ∃ read d, (∃ reaches, fields levels c = .ok ⟨read, d, reaches⟩) ∧
      Field.outlines read = members ∧ WrittenTo left more d.rest := by
  -- By the levels that are left, which are never fewer than the fields are nested.
  induction levels generalizing c members tokens more with
  | zero =>
      have hbody : BodyComplete left 0 none := by
        intro below hbelow
        cases hbelow
      simp only [fields, many_eq_ok_iff]
      exact manyFields_complete hbody htokens hnesting hmore h
  | succ levels ih =>
      have hbody : BodyComplete left (levels + 1) (some (fields levels)) := by
        intro below hbelow
        cases hbelow
        exact ⟨_, rfl, fun _ _ _ _ htokens hnesting hmore h => ih htokens hnesting hmore h⟩
      simp only [fields, many_eq_ok_iff]
      exact manyFields_complete hbody htokens hnesting hmore h

theorem bodyComplete_fields (levels : Nat) :
    BodyComplete left (levels + 1) (some (fields levels)) := by
  intro below hbelow
  cases hbelow
  exact ⟨_, rfl, fun _ _ _ _ => fields_complete levels⟩

/-- A text that spells fields is parsed to them. -/
theorem parse_of_renders {text : List Char} {members : List Outline.Field}
    (h : Renders members text) (hnesting : Outline.Field.nestings members ≤ nestingLimit) :
    ∃ read, parse text = .ok read ∧ Field.outlines read = members := by
  obtain ⟨tokens, htokens, hwritten⟩ := h
  rw [← List.append_nil tokens, written_iff] at hwritten
  obtain ⟨read, d, ⟨reaches, hread⟩, houtlines, hend⟩ :=
    fields_complete nestingLimit (c := .ofText text) htokens hnesting .nil hwritten
  refine ⟨read, ?_, houtlines⟩
  simp only [parse, hread, Cursor.next?, hend.rest_eq, List.head?_nil]

/-- The parser accepts the texts that spell fields of at most the allowed nesting, and reads
those fields from them. -/
theorem parse_iff_renders (text : List Char) (members : List Outline.Field) :
    (∃ read, parse text = .ok read ∧ Field.outlines read = members) ↔
      Renders members text ∧ Outline.Field.nestings members ≤ nestingLimit := by
  constructor
  · rintro ⟨read, hread, rfl⟩
    exact renders_of_parse hread
  · rintro ⟨hrenders, hnesting⟩
    exact parse_of_renders hrenders hnesting

/-- No text spells two lists of fields. -/
theorem eq_of_renders {text : List Char} {members others : List Outline.Field}
    (h : Renders members text) (hnesting : Outline.Field.nestings members ≤ nestingLimit)
    (h' : Renders others text) (hnesting' : Outline.Field.nestings others ≤ nestingLimit) :
    members = others := by
  obtain ⟨read, hread, rfl⟩ := parse_of_renders h hnesting
  obtain ⟨read', hread', rfl⟩ := parse_of_renders h' hnesting'
  rw [hread] at hread'
  cases hread'
  rfl

end Textproto.Tree
