import Textproto.Proofs.Tree.Grammar
import Textproto.Proofs.Tree.Readings

namespace Textproto.Tree

/-! What the parser reads is spelled as the grammar says. -/

/-- In front of whatever tokens follow `d`, the text from `c` on spells `tokens`. -/
def Leads (tokens : List Token) (c d : Cursor) : Prop :=
  ∀ ⦃left⦄ more, WrittenTo left more d.rest → WrittenTo left (tokens ++ more) c.rest

namespace Leads

variable {c d e : Cursor} {first second : List Token}

theorem refl (c : Cursor) : Leads [] c c :=
  fun _ _ h => h

theorem trans (h : Leads first c d) (h' : Leads second d e) : Leads (first ++ second) c e := by
  intro left more hmore
  rw [List.append_assoc]
  exact h _ (h' more hmore)

theorem of_skipLayout (h : Leads first c.skipLayout d) : Leads first c d :=
  fun _ more hmore => (h more hmore).of_skipLayout

theorem skipLayout (h : Leads first c d) : Leads first c d.skipLayout :=
  fun _ more hmore => h more hmore.of_skipLayout

theorem mark {isWanted : Char → Bool} {x : Char} (h : (accept isWanted c).Reads x d)
    (hx : isPunctuation x = true) : Leads [.mark x] c d :=
  fun _ _ hmore => written_of_accept h hx hmore

theorem spelled {token : Token} {text : List Char} (hc : c.rest = text ++ d.rest)
    (h : token.Spells text) (hstops : Stops token.joins d.rest) : Leads [token] c d := by
  intro left more hmore
  rw [hc]
  exact .token .nil h hstops hmore

theorem written {more : List Token} (h : Leads first c d) (hmore : Written more d.rest) :
    Written (first ++ more) c.rest :=
  written_iff.mpr (h more (written_iff.mp hmore))

end Leads

/-! Scalars. -/

theorem leads_of_literal {c d : Cursor} {bytes : List UInt8} (h : (literal c).Reads bytes d) :
    Leads [.literal bytes] c d := by
  obtain ⟨text, hc, htext⟩ := literalText_of_literal h
  exact .spelled hc (.literal htext) fun _ _ => rfl

theorem leads_of_literals {c d : Cursor} {more : List (List UInt8)}
    (h : Run (fun e => (literal e.skipLayout).since e.reaches_skipLayout) c more d) :
    Leads (more.map .literal) c d := by
  induction h with
  | stop _ => exact .refl _
  | go hread _ ih =>
      rw [Attempt.reads_since] at hread
      exact (leads_of_literal hread).of_skipLayout.trans ih

theorem string_sound {c d : Cursor} {scalar : Scalar} (h : (string c).Reads scalar d) :
    ∃ tokens, ScalarTokens scalar.outline tokens ∧ Leads tokens c d := by
  obtain ⟨first, more, e, hfirst, hmore, rfl⟩ := reads_string.mp h
  exact ⟨_, .string, (leads_of_literal hfirst).trans (leads_of_literals hmore)⟩

/-- An identifier and the text that it is cut off from. -/
theorem identifier_split {c d : Cursor} {name : List Char} (h : (identifier c).Reads name d) :
    (Token.word name).Spells name ∧ c.rest = name ++ d.rest ∧
      Stops isIdentifierChar d.rest := by
  cases hrest : c.rest with
  | nil =>
      rw [identifier_eq_absent (by rw [hrest]; exact .nil)] at h
      cases Attempt.not_reads_absent _ h
  | cons x rest =>
      cases hx : isIdentifierStart x with
      | false =>
          rw [identifier_eq_absent (by rw [hrest]; exact Stops.cons_iff.mpr hx)] at h
          cases Attempt.not_reads_absent _ h
      | true =>
          obtain ⟨rfl, rfl⟩ := (reads_identifier hrest hx).mp h
          have hd : ((c.advance 1).advance (rest.takeWhile isIdentifierChar).length).rest =
              rest.drop (rest.takeWhile isIdentifierChar).length := by
            simp [Cursor.advance_rest, hrest]
          rw [hd, List.cons_append, takeWhile_append_drop]
          exact ⟨.word hx List.all_takeWhile, rfl, Stops.drop_takeWhile rest⟩

theorem identifier_sound {c d : Cursor} {name : List Char}
    (h : (identifier c).Reads name d) : Leads [.word name] c d := by
  obtain ⟨hspells, hrest, hstops⟩ := identifier_split h
  exact .spelled hrest hspells hstops

theorem numeral_sound {c d : Cursor} {scalar : Scalar} (h : (numeral c).Reads scalar d) :
    ∃ tokens, ScalarTokens scalar.outline tokens ∧ Leads tokens c d := by
  obtain ⟨numeral, length, hscan, hstops, rfl, rfl⟩ := reads_numeral.mp h
  obtain ⟨read, rest, hrest, rfl, hspells⟩ := Numeral.spells_of_scan hscan
  have hdrop : ((sign c).next.advance read.length).rest = rest := by
    rw [Cursor.advance_rest, hrest, List.drop_left]
  have hnumber : Leads [.number numeral] (sign c).next ((sign c).next.advance read.length) := by
    refine .spelled ?_ (.number hspells) ?_
    · rw [hdrop, hrest]
    · rwa [← Cursor.advance_rest] at hstops
  rcases sign_cases c with ⟨hvalue, e, haccept, hnext⟩ | ⟨hvalue, hnext, _⟩
  · rw [hvalue]
    rw [hnext] at hnumber ⊢
    exact ⟨_, .negative, (Leads.mark haccept rfl).skipLayout.trans hnumber⟩
  · rw [hvalue]
    rw [hnext] at hnumber ⊢
    exact ⟨_, .unsigned, hnumber⟩

theorem stops_minus_of_identifier {name : List Char} (h : (Token.word name).Spells name)
    (rest : List Char) : Stops (· = '-') (name ++ rest) := by
  cases h with
  | @word x more hx _ =>
      refine Stops.cons_iff.mpr (decide_eq_false ?_)
      rintro rfl
      cases hx

/-- A word for a special number is read as a number. -/
theorem specialWord?_eq_none {c d : Cursor} {name : List Char}
    (habsent : numeral c = .absent) (h : (identifier c).Reads name d) :
    Numeral.specialWord? name = none := by
  obtain ⟨hspells, hrest, hstops⟩ := identifier_split h
  have hsign := sign_of_stops (hrest ▸ stops_minus_of_identifier hspells d.rest)
  rw [numeral_eq_absent, hsign.2, hrest] at habsent
  cases hspecial : Numeral.specialWord? name with
  | none => rfl
  | some x =>
      rw [Numeral.scan_special hspecial hstops] at habsent
      cases habsent

theorem scalar_sound {c d : Cursor} {s : Scalar} (h : (scalar c).Reads s d) :
    ∃ tokens, ScalarTokens s.outline tokens ∧ Leads tokens c d := by
  rw [scalar, Attempt.reads_within, Attempt.reads_orElse] at h
  rcases h with h | ⟨_, h⟩
  · exact string_sound h
  · rcases Attempt.reads_orElse.mp h with h | ⟨habsent, h⟩
    · exact numeral_sound h
    · obtain ⟨name, hname, rfl⟩ := Attempt.reads_map.mp h
      exact ⟨_, .identifier (specialWord?_eq_none habsent hname), identifier_sound hname⟩

/-! Values, at so many levels of messages. -/

/-- Between two cursors stands a value. -/
structure Value.Stands (levels : Nat) (value : Outline.Value) (c d : Cursor) : Prop where
  tokens : ∃ tokens, ValueTokens value tokens ∧ Leads tokens c d
  nesting : value.nesting ≤ levels

/-- Between two cursors stand fields. -/
structure Fields.Stand (levels : Nat) (fields : List Outline.Field) (c d : Cursor) : Prop where
  tokens : ∃ tokens, FieldsTokens fields tokens ∧ Leads tokens c d
  nesting : Outline.Field.nestings fields ≤ levels

/-- A body below the top one of so many levels reads fields where they stand. -/
def BodySound (levels : Nat) (body : Option Body) : Prop :=
  ∀ fields, body = some fields → ∃ below, levels = below + 1 ∧
    ∀ ⦃c d members⦄, (∃ reaches, fields c = .ok ⟨members, d, reaches⟩) →
      Fields.Stand below (Field.outlines members) c d

/-- An element is read where one stands that may be in a list. -/
def ElementSound (levels : Nat) (isWanted : Outline.Value → Bool)
    (element : (c : Cursor) → Attempt c Value) : Prop :=
  ∀ ⦃c d value⦄, (element c).Reads value d →
    Value.Stands levels value.outline c d ∧ value.outline.isList = false ∧
      isWanted value.outline = true

theorem isPunctuation_of_closingOf? {opening closing : Char}
    (h : closingOf? opening = some closing) :
    isPunctuation opening = true ∧ isPunctuation closing = true := by
  unfold closingOf? at h
  split at h
  next => cases h; exact ⟨rfl, rfl⟩
  next => cases h; exact ⟨rfl, rfl⟩
  next => cases h

section

variable {levels : Nat} {body : Option Body} {c d : Cursor}
  {isWanted : Outline.Value → Bool} {element : (c : Cursor) → Attempt c Value}

theorem scalarValue_sound {value : Value} (h : (scalarValue c).Reads value d) :
    Value.Stands levels value.outline c d ∧ value.outline.isList = false := by
  obtain ⟨s, hs, rfl⟩ := reads_scalarValue.mp h
  obtain ⟨tokens, htokens, hleads⟩ := scalar_sound hs
  exact ⟨⟨⟨tokens, .scalar htokens, hleads⟩, Nat.zero_le _⟩, rfl⟩

theorem message_sound (hbody : BodySound levels body) :
    ElementSound levels Outline.Value.isMessage (message body) := by
  intro c d value h
  obtain ⟨opening, closing, fields, members, c', e, hopening, hpair, hfields, hmembers,
    hclosing, rfl⟩ := reads_message.mp h
  obtain ⟨below, rfl, hstand⟩ := hbody fields hfields
  obtain ⟨⟨tokens, htokens, hleads⟩, hnesting⟩ := hstand hmembers
  obtain ⟨hpunctuation, hpunctuation'⟩ := isPunctuation_of_closingOf? hpair
  have hmessage := (Leads.mark hopening hpunctuation).trans
    (hleads.trans (Leads.mark hclosing hpunctuation').of_skipLayout)
  exact ⟨⟨⟨_, .message hpair htokens, hmessage⟩, Nat.succ_le_succ hnesting⟩, rfl, rfl⟩

/-- Elements where they stand behind commas. -/
theorem furtherElements_sound (helement : ElementSound levels isWanted element)
    {values : List Value} (h : Chain (furtherElement element) c values d) :
    (∃ tokens, FurtherTokens (Value.outlines values) tokens ∧ Leads tokens c d) ∧
      Outline.Value.nestings (Value.outlines values) ≤ levels ∧
      (Value.outlines values).all isWanted = true := by
  induction h with
  | refl => exact ⟨⟨[], .nil, .refl _⟩, Nat.zero_le _, rfl⟩
  | go hread _ ih =>
      obtain ⟨c', hcomma, hread⟩ := reads_furtherElement.mp hread
      obtain ⟨⟨⟨first, hfirst, hleads⟩, hnesting⟩, hlist, hwanted⟩ := helement hread
      obtain ⟨⟨rest, hrest, hleads'⟩, hnestings, hall⟩ := ih
      refine ⟨⟨_, .cons hlist hfirst hrest, ?_⟩, Nat.max_le.mpr ⟨hnesting, hnestings⟩, ?_⟩
      · exact (Leads.mark hcomma rfl).of_skipLayout.trans
          (hleads.of_skipLayout.trans hleads')
      · simp only [Value.outlines, List.all_cons, hwanted, hall, Bool.and_self]

theorem list_sound (helement : ElementSound levels isWanted element) {value : Value}
    (h : (list element c).Reads value d) :
    Value.Stands levels value.outline c d ∧
      ∃ values, value.outline = .list values ∧ values.all isWanted = true := by
  obtain ⟨c', values, e, hopening, helements, hclosing, rfl⟩ := reads_list.mp h
  have hopening := Leads.mark hopening rfl
  have hclosing := (Leads.mark hclosing rfl).of_skipLayout
  rcases elements_eq_ok_iff.mp helements with ⟨_, rfl, rfl⟩ | ⟨first, more, e', hfirst, hmore, rfl⟩
  · exact ⟨⟨⟨_, .list .nil, hopening.trans hclosing⟩, Nat.zero_le _⟩, [], rfl, rfl⟩
  · obtain ⟨⟨⟨tokens, htokens, hleads⟩, hnesting⟩, hlist, hwanted⟩ := helement hfirst
    obtain ⟨⟨rest, hrest, hleads'⟩, hnestings, hall⟩ := furtherElements_sound helement hmore.chain
    refine ⟨⟨⟨_, .list (.cons hlist htokens hrest), ?_⟩, ?_⟩, _, rfl, ?_⟩
    · exact hopening.trans ((hleads.of_skipLayout.trans hleads').trans hclosing)
    · exact Nat.max_le.mpr ⟨hnesting, hnestings⟩
    · simp only [Value.outlines, List.all_cons, hwanted, hall, Bool.and_self]

theorem valueWithoutColon_sound (hbody : BodySound levels body) {value : Value}
    (h : (valueWithoutColon body c).Reads value d) :
    Value.Stands levels value.outline c d ∧ value.outline.holdsMessages = true := by
  rcases reads_valueWithoutColon.mp h with h | ⟨_, h⟩
  · obtain ⟨hstands, _, hmessage⟩ := message_sound hbody h
    refine ⟨hstands, ?_⟩
    generalize value.outline = outline at hmessage
    cases outline with
    | message fields => rfl
    | scalar scalar => cases hmessage
    | list values => cases hmessage
  · obtain ⟨hstands, values, hvalues, hall⟩ := list_sound (message_sound hbody) h
    rw [hvalues]
    exact ⟨hvalues ▸ hstands, hall⟩

theorem elementAfterColon_sound (hbody : BodySound levels body) :
    ElementSound levels (fun _ => true)
      (fun d => (message body d).orElse fun _ => scalarValue d) := by
  intro c d value h
  rcases Attempt.reads_orElse.mp h with h | ⟨_, h⟩
  · obtain ⟨hstands, hlist, _⟩ := message_sound hbody h
    exact ⟨hstands, hlist, rfl⟩
  · obtain ⟨hstands, hlist⟩ := scalarValue_sound h
    exact ⟨hstands, hlist, rfl⟩

theorem valueAfterColon_sound (hbody : BodySound levels body) {value : Value}
    (h : (valueAfterColon body c).Reads value d) : Value.Stands levels value.outline c d := by
  rcases reads_valueAfterColon.mp h with h | ⟨_, h | ⟨_, h⟩⟩
  · exact (message_sound hbody h).1
  · exact (list_sound (elementAfterColon_sound hbody) h).1
  · exact (scalarValue_sound h).1

end

/-! Fields. -/

section

variable {levels : Nat} {body : Option Body} {c d : Cursor}

theorem leads_of_url {url : List Char} (h : (acceptRun isUrlChar c).Reads url d) :
    Leads [.url url] c d := by
  obtain ⟨hne, hrun, rfl⟩ := reads_acceptRun.mp h
  refine .spelled ?_ (.url hne (hrun ▸ List.all_takeWhile)) ?_
  · rw [Cursor.advance_rest, hrun, takeWhile_append_drop]
  · rw [Cursor.advance_rest, hrun]
    exact Stops.drop_takeWhile _

theorem expandedName_sound {name : Name} (h : (expandedName c).Reads name d) :
    ∃ tokens, NameTokens name tokens ∧ Leads tokens c d := by
  obtain ⟨c', url, e, hopening, hurl, hclosing, rfl⟩ := reads_expandedName.mp h
  exact ⟨_, .expanded, (Leads.mark hopening rfl).trans
    ((leads_of_url hurl).of_skipLayout.trans (Leads.mark hclosing rfl).of_skipLayout)⟩

theorem fieldName_sound {name : Name} (h : (fieldName c).Reads name d) :
    ∃ tokens, NameTokens name tokens ∧ Leads tokens c d := by
  rcases reads_fieldName.mp h with ⟨plain, hplain, rfl⟩ | ⟨_, hexpanded⟩
  · exact ⟨_, .plain, identifier_sound hplain⟩
  · exact expandedName_sound hexpanded

theorem fieldValue_sound (hbody : BodySound levels body) {value : Value}
    (h : (fieldValue body c).Reads value d) :
    value.outline.nesting ≤ levels ∧ ∃ colon tokens,
      ColonTokens value.outline colon ∧ ValueTokens value.outline tokens ∧
        Leads (colon ++ tokens) c d := by
  rcases reads_fieldValue.mp h with ⟨c', hcolon, h⟩ | ⟨_, h⟩
  · obtain ⟨⟨tokens, htokens, hleads⟩, hnesting⟩ := valueAfterColon_sound hbody h
    exact ⟨hnesting, _, tokens, .colon, htokens,
      (Leads.mark hcolon rfl).of_skipLayout.trans hleads.of_skipLayout⟩
  · obtain ⟨⟨⟨tokens, htokens, hleads⟩, hnesting⟩, hmessages⟩ := valueWithoutColon_sound hbody h
    exact ⟨hnesting, _, tokens, .absent hmessages, htokens, hleads.of_skipLayout⟩

theorem skipSeparator_sound (c : Cursor) :
    ∃ tokens, SeparatorTokens tokens ∧ Leads tokens c (skipSeparator c).next := by
  rcases skipSeparator_cases c with ⟨x, rfl | rfl, h⟩ | ⟨hnext, _⟩
  · exact ⟨_, .comma, (Leads.mark h rfl).of_skipLayout⟩
  · exact ⟨_, .semicolon, (Leads.mark h rfl).of_skipLayout⟩
  · rw [hnext]
    exact ⟨_, .absent, .refl c⟩

theorem field_sound (hbody : BodySound levels body) {f : Field}
    (h : (field body c).Reads f d) :
    f.outline.nesting ≤ levels ∧ ∃ tokens, FieldTokens f.outline tokens ∧ Leads tokens c d := by
  obtain ⟨name, e, value, e', hname, hvalue, rfl, rfl⟩ := reads_field.mp h
  obtain ⟨nameTokens, hnameTokens, hname⟩ := fieldName_sound hname
  obtain ⟨hnesting, colon, valueTokens, hcolon, hvalueTokens, hvalue⟩ :=
    fieldValue_sound hbody hvalue
  obtain ⟨separator, hseparator, hskip⟩ := skipSeparator_sound e'
  refine ⟨hnesting, _, .mk hnameTokens hcolon hvalueTokens hseparator, ?_⟩
  rw [← List.append_assoc colon]
  exact hname.of_skipLayout.trans (hvalue.trans hskip)

theorem manyFields_sound (hbody : BodySound levels body) {members : List Field}
    (h : Chain (field body) c members d) : Fields.Stand levels (Field.outlines members) c d := by
  induction h with
  | refl => exact ⟨⟨[], .nil, .refl _⟩, Nat.zero_le _⟩
  | go hread _ ih =>
      obtain ⟨hnesting, first, hfirst, hleads⟩ := field_sound hbody hread
      obtain ⟨⟨rest, hrest, hleads'⟩, hnestings⟩ := ih
      exact ⟨⟨_, .cons hfirst hrest, hleads.trans hleads'⟩, Nat.max_le.mpr ⟨hnesting, hnestings⟩⟩

end

theorem fields_sound (levels : Nat) {c d : Cursor} {members : List Field}
    (h : ∃ reaches, fields levels c = .ok ⟨members, d, reaches⟩) :
    Fields.Stand levels (Field.outlines members) c d := by
  -- By the levels: a body is read with one level fewer.
  induction levels generalizing c d members with
  | zero =>
      refine manyFields_sound ?_ (many_eq_ok_iff.mp h).chain
      intro fields hfields
      cases hfields
  | succ levels ih =>
      refine manyFields_sound ?_ (many_eq_ok_iff.mp h).chain
      intro fields hfields
      cases hfields
      exact ⟨levels, rfl, fun _ _ _ hmembers => ih hmembers⟩

theorem bodySound_fields (levels : Nat) : BodySound (levels + 1) (some (fields levels)) := by
  intro fields hfields
  cases hfields
  exact ⟨levels, rfl, fun _ _ _ hmembers => fields_sound levels hmembers⟩

/-- A parsed text spells the fields that were read from it. -/
theorem renders_of_parse {text : List Char} {members : List Field}
    (h : parse text = .ok members) :
    Renders (Field.outlines members) text ∧
      Outline.Field.nestings (Field.outlines members) ≤ nestingLimit := by
  unfold parse at h
  split at h
  next => cases h
  next fields d reaches hfields =>
    simp only at h
    split at h
    next hend =>
      cases h
      obtain ⟨⟨tokens, htokens, hleads⟩, hnesting⟩ := fields_sound nestingLimit ⟨reaches, hfields⟩
      have hrest : d.skipLayout.rest = [] := by
        simpa [Cursor.next?] using hend
      have hdone : Written [] d.skipLayout.rest := by
        rw [hrest]
        exact .done (.layout .nil)
      have hwritten := hleads.written hdone.of_skipLayout
      rw [List.append_nil] at hwritten
      exact ⟨⟨tokens, htokens, hwritten⟩, hnesting⟩
    next => cases h

end Textproto.Tree
