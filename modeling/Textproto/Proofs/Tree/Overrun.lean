import Textproto.Proofs.Tree.Soundness

namespace Textproto.Tree

/-!
Texts that are spelled as the grammar says up to the brace of a message that lies too deep. Of
the messages that are open there only the beginnings are known, and of the text behind the brace
nothing is.
-/

/-- What stands in a list in front of one of its elements: nothing, or other elements and a
comma. -/
inductive BeforeElementTokens : List Outline.Value → List Token → Prop
  | first : BeforeElementTokens [] []
  | further {value : Outline.Value} {values : List Outline.Value} {tokens : List Token} :
      ElementsTokens (value :: values) tokens →
      BeforeElementTokens (value :: values) (tokens ++ [.mark ','])

/-- What stands between the name of a field and a message that is its value or an element of
it. -/
inductive BeforeMessageTokens (levels : Nat) : List Token → Prop
  | value {members : List Outline.Field} {colon : List Token} :
      ColonTokens (.message members) colon → BeforeMessageTokens levels colon
  | element {values : List Outline.Value} {colon tokens : List Token} :
      ColonTokens (.list values) colon → Outline.Value.nestings values ≤ levels →
      BeforeElementTokens values tokens →
      BeforeMessageTokens levels (colon ++ .mark '[' :: tokens)

/-- What stands in a body in front of a message: fields that are nested in at most so many levels,
and the beginning of another one. -/
inductive ApproachTokens (levels : Nat) : List Token → Prop
  | mk {members : List Outline.Field} {name : Name} {front nameTokens tokens : List Token} :
      FieldsTokens members front → Outline.Field.nestings members ≤ levels →
      NameTokens name nameTokens → BeforeMessageTokens levels tokens →
      ApproachTokens levels (front ++ (nameTokens ++ tokens))

mutual

/-- What stands in a body in front of the first message that lies inside so many others there. -/
inductive OverrunTokens : Nat → List Token → Prop
  | mk {levels : Nat} {approach descent : List Token} :
      ApproachTokens levels approach → DescentTokens levels descent →
      OverrunTokens levels (approach ++ descent)

/-- The same from the outermost of those others on. -/
inductive DescentTokens : Nat → List Token → Prop
  | here : DescentTokens 0 []
  | inside {levels : Nat} {opening : Char} {tokens : List Token} :
      (closingOf? opening).isSome = true → OverrunTokens levels tokens →
      DescentTokens (levels + 1) (.mark opening :: tokens)

end

/-- Behind `before` stands the brace of a message that lies inside so many others, the first that
does, and up to it the text is spelled as the grammar says. -/
structure Overruns (levels : Nat) (before : List Char) (brace : Char) (rest : List Char) :
    Prop where
  opening : (closingOf? brace).isSome = true
  spelled : ∃ tokens, OverrunTokens levels tokens ∧
    WrittenTo (brace :: rest) tokens (before ++ brace :: rest)

/-! Fields that are nested too deep begin with what overruns. -/

/-- Of tokens, what stands in front of the brace of a message. -/
def Precedes (Spelled : List Token → Prop) (tokens : List Token) : Prop :=
  ∃ before brace more, tokens = before ++ .mark brace :: more ∧
    (closingOf? brace).isSome = true ∧ Spelled before

theorem Precedes.append {Spelled Other : List Token → Prop} {tokens : List Token}
    (h : Precedes Spelled tokens) (front : List Token)
    (hspelled : ∀ before, Spelled before → Other (front ++ before)) (behind : List Token) :
    Precedes Other (front ++ (tokens ++ behind)) := by
  obtain ⟨before, brace, more, rfl, hbrace, hbefore⟩ := h
  refine ⟨front ++ before, brace, more ++ behind, ?_, hbrace, hspelled before hbefore⟩
  simp only [List.append_assoc, List.cons_append]

theorem ApproachTokens.first {levels : Nat} {name : Name} {nameTokens tokens : List Token}
    (hname : NameTokens name nameTokens) (htokens : BeforeMessageTokens levels tokens) :
    ApproachTokens levels (nameTokens ++ tokens) := by
  have happroach := ApproachTokens.mk .nil (Nat.zero_le levels) hname htokens
  exact happroach

theorem OverrunTokens.cons {levels : Nat} {field : Outline.Field} {first tokens : List Token}
    (hfield : FieldTokens field first) (hnesting : field.nesting ≤ levels)
    (h : OverrunTokens levels tokens) : OverrunTokens levels (first ++ tokens) := by
  cases h with
  | mk happroach hdescent =>
      cases happroach with
      | mk hfields hnestings hname htokens =>
          have := ApproachTokens.mk (.cons hfield hfields) (Nat.max_le.mpr ⟨hnesting, hnestings⟩)
            hname htokens
          simpa only [List.append_assoc] using OverrunTokens.mk this hdescent

/-- Fields with so many levels of messages below them that are nested too deep begin with what
overruns. -/
def BodyOverruns (levels : Nat) : Prop :=
  ∀ ⦃members tokens⦄, FieldsTokens members tokens → levels < Outline.Field.nestings members →
    Precedes (OverrunTokens levels) tokens

section

variable {levels : Nat} {tokens : List Token}

theorem message_precedes (hbody : ∀ below, levels = below + 1 → BodyOverruns below)
    {members : List Outline.Field} (h : ValueTokens (.message members) tokens)
    (hdeep : levels < Outline.Field.nestings members + 1) :
    Precedes (DescentTokens levels) tokens := by
  cases h with
  | @message opening closing _ inner hpair hfields =>
      have hopening : (closingOf? opening).isSome = true := by rw [hpair]; rfl
      -- The message lies too deep itself, or one in it does.
      cases levels with
      | zero => exact ⟨[], opening, _, rfl, hopening, .here⟩
      | succ below =>
          have hinner := hbody below rfl hfields (Nat.lt_of_succ_lt_succ hdeep)
          exact hinner.append [.mark opening]
            (fun _ hbefore => DescentTokens.inside hopening hbefore) [.mark closing]

theorem element_precedes (hbody : ∀ below, levels = below + 1 → BodyOverruns below)
    {value : Outline.Value} (h : ValueTokens value tokens) (hlist : value.isList = false)
    (hdeep : levels < value.nesting) : Precedes (DescentTokens levels) tokens := by
  cases value with
  | scalar => cases hdeep
  | list => cases hlist
  | message members => exact message_precedes hbody h hdeep

/-- The first element that is nested too deep has others in front of it that are not. -/
theorem furtherElements_precede (hbody : ∀ below, levels = below + 1 → BodyOverruns below)
    {values : List Outline.Value} (h : FurtherTokens values tokens)
    (hdeep : levels < Outline.Value.nestings values) :
    Precedes (fun before => ∃ shallow front descent, before = front ++ .mark ',' :: descent ∧
      shallow <+: values ∧ FurtherTokens shallow front ∧
      Outline.Value.nestings shallow ≤ levels ∧ DescentTokens levels descent) tokens := by
  induction values generalizing tokens with
  | nil => cases hdeep
  | cons value values ih =>
      cases h with
      | @cons _ _ first rest hlist hfirst hrest =>
          by_cases hvalue : levels < value.nesting
          · refine (element_precedes hbody hfirst hlist hvalue).append [.mark ','] ?_ rest
            intro descent hdescent
            exact ⟨[], [], descent, rfl, List.nil_prefix, .nil, Nat.zero_le _, hdescent⟩
          · have hdeep : levels < Outline.Value.nestings values :=
              (lt_max_iff.mp hdeep).resolve_left hvalue
            rw [← List.append_nil rest]
            refine (ih hrest hdeep).append (.mark ',' :: first) ?_ []
            rintro _ ⟨shallow, front, descent, rfl, hleading, hfront, hnesting, hdescent⟩
            refine ⟨value :: shallow, .mark ',' :: (first ++ front), descent, ?_,
              (List.prefix_cons_inj value).mpr hleading, .cons hlist hfirst hfront,
              Nat.max_le.mpr ⟨Nat.le_of_not_lt hvalue, hnesting⟩, hdescent⟩
            simp only [List.cons_append, List.append_assoc]

theorem elements_precede (hbody : ∀ below, levels = below + 1 → BodyOverruns below)
    {values : List Outline.Value} (h : ElementsTokens values tokens)
    (hdeep : levels < Outline.Value.nestings values) :
    Precedes (fun before => ∃ shallow front descent, before = front ++ descent ∧
      shallow <+: values ∧ BeforeElementTokens shallow front ∧
      Outline.Value.nestings shallow ≤ levels ∧ DescentTokens levels descent) tokens := by
  cases h with
  | nil => cases hdeep
  | @cons value values first rest hlist hfirst hrest =>
      by_cases hvalue : levels < value.nesting
      · refine (element_precedes hbody hfirst hlist hvalue).append [] ?_ rest
        intro descent hdescent
        exact ⟨[], [], descent, rfl, List.nil_prefix, .first, Nat.zero_le _, hdescent⟩
      · have hdeep : levels < Outline.Value.nestings values :=
          (lt_max_iff.mp hdeep).resolve_left hvalue
        rw [← List.append_nil rest]
        refine (furtherElements_precede hbody hrest hdeep).append first ?_ []
        rintro _ ⟨shallow, front, descent, rfl, hleading, hfront, hnesting, hdescent⟩
        refine ⟨value :: shallow, (first ++ front) ++ [.mark ','], descent, ?_,
          (List.prefix_cons_inj value).mpr hleading, .further (.cons hlist hfirst hfront),
          Nat.max_le.mpr ⟨Nat.le_of_not_lt hvalue, hnesting⟩, hdescent⟩
        simp only [List.append_assoc, List.singleton_append]

theorem ColonTokens.of_prefix {values shallow : List Outline.Value} {colon : List Token}
    (h : ColonTokens (.list values) colon) (hleading : shallow <+: values) :
    ColonTokens (.list shallow) colon := by
  cases h with
  | colon => exact .colon
  | absent hmessages =>
      refine .absent (List.all_eq_true.mpr fun value hvalue => ?_)
      exact List.all_eq_true.mp hmessages value (hleading.subset hvalue)

theorem field_precedes (hbody : ∀ below, levels = below + 1 → BodyOverruns below)
    {field : Outline.Field} (h : FieldTokens field tokens) (hdeep : levels < field.nesting) :
    Precedes (OverrunTokens levels) tokens := by
  cases h with
  | @mk name value nameTokens colon valueTokens separator hname hcolon hvalue _ =>
      have hinside : Precedes (fun before => ∃ approach descent, before = approach ++ descent ∧
          BeforeMessageTokens levels approach ∧ DescentTokens levels descent)
          (colon ++ (valueTokens ++ separator)) := by
        cases value with
        | scalar => cases hdeep
        | message members =>
            refine (message_precedes hbody hvalue hdeep).append colon ?_ separator
            exact fun descent hdescent => ⟨colon, descent, rfl, .value hcolon, hdescent⟩
        | list values =>
            cases hvalue with
            | @list _ inner hvalues =>
                have hsplit : colon ++ (.mark '[' :: (inner ++ [.mark ']']) ++ separator) =
                    (colon ++ [.mark '[']) ++ (inner ++ .mark ']' :: separator) := by
                  simp only [List.append_assoc, List.cons_append, List.nil_append]
                rw [hsplit]
                refine (elements_precede hbody hvalues hdeep).append _ ?_ _
                rintro _ ⟨shallow, front, descent, rfl, hleading, hfront, hnesting, hdescent⟩
                refine ⟨colon ++ .mark '[' :: front, descent, ?_,
                  .element (hcolon.of_prefix hleading) hnesting hfront, hdescent⟩
                simp only [List.append_assoc, List.cons_append, List.nil_append]
      rw [← List.append_nil (colon ++ (valueTokens ++ separator))]
      refine hinside.append nameTokens ?_ []
      rintro _ ⟨approach, descent, rfl, happroach, hdescent⟩
      rw [← List.append_assoc]
      exact .mk (.first hname happroach) hdescent

theorem fields_precede (hbody : ∀ below, levels = below + 1 → BodyOverruns below) :
    BodyOverruns levels := by
  intro members tokens h hdeep
  induction members generalizing tokens with
  | nil => cases hdeep
  | cons field members ih =>
      cases h with
      | @cons _ _ first rest hfirst hrest =>
          by_cases hfield : levels < field.nesting
          · exact (field_precedes hbody hfirst hfield).append [] (fun _ h => h) rest
          · have hdeep : levels < Outline.Field.nestings members :=
              (lt_max_iff.mp hdeep).resolve_left hfield
            rw [← List.append_nil rest]
            exact (ih hrest hdeep).append first
              (fun _ h => h.cons hfirst (Nat.le_of_not_lt hfield)) []

end

theorem bodyOverruns (levels : Nat) : BodyOverruns levels := by
  -- The fields of a message are nested in one level fewer than the message.
  induction levels with
  | zero => exact fields_precede nofun
  | succ levels ih =>
      refine fields_precede ?_
      rintro _ ⟨⟩
      exact ih

theorem exists_writtenTo {front more : List Token} {x : Char} {text : List Char}
    (h : Written (front ++ .mark x :: more) text) :
    ∃ before rest, text = before ++ x :: rest ∧ WrittenTo (x :: rest) front text := by
  induction front generalizing text with
  | nil =>
      cases h with
      | @token _ _ layout _ rest hlayout hspells _ _ =>
          have hbegins := Token.begins_layout_eq_false hspells rest
          cases hspells
          exact ⟨layout, rest, rfl, .done hbegins (.inl hlayout)⟩
  | cons token front ih =>
      cases h with
      | @token _ _ layout spelled rest hlayout hspells hstops hwritten =>
          obtain ⟨before, behind, rfl, hfront⟩ := ih hwritten
          refine ⟨layout ++ (spelled ++ before), behind, ?_,
            .token hlayout hspells hstops hfront⟩
          simp only [List.append_assoc]

/-- A text that spells fields which are nested too deep overruns. -/
theorem overruns_of_renders {levels : Nat} {members : List Outline.Field} {text : List Char}
    (h : Renders members text) (hdeep : levels < Outline.Field.nestings members) :
    ∃ before brace rest, text = before ++ brace :: rest ∧ Overruns levels before brace rest := by
  obtain ⟨tokens, htokens, hwritten⟩ := h
  obtain ⟨front, brace, more, rfl, hbrace, hfront⟩ := bodyOverruns levels htokens hdeep
  obtain ⟨before, rest, rfl, hspelled⟩ := exists_writtenTo hwritten
  exact ⟨before, brace, rest, rfl, hbrace, front, hfront, hspelled⟩

/-! What overruns goes on to fields that are nested too deep, if it is only closed. -/

theorem Outline.Value.le_nestings {value : Value} {values : List Value} (h : value ∈ values) :
    value.nesting ≤ nestings values := by
  induction values with
  | nil => cases h
  | cons first values ih =>
      rcases List.mem_cons.mp h with rfl | h
      · exact Nat.le_max_left _ _
      · exact (ih h).trans (Nat.le_max_right _ _)

theorem Outline.Field.le_nestings {field : Field} {fields : List Field} (h : field ∈ fields) :
    field.nesting ≤ nestings fields := by
  induction fields with
  | nil => cases h
  | cons first fields ih =>
      rcases List.mem_cons.mp h with rfl | h
      · exact Nat.le_max_left _ _
      · exact (ih h).trans (Nat.le_max_right _ _)

theorem FurtherTokens.concat {values : List Outline.Value} {value : Outline.Value}
    {front last : List Token} (h : FurtherTokens values front) (hlist : value.isList = false)
    (hvalue : ValueTokens value last) :
    FurtherTokens (values ++ [value]) (front ++ .mark ',' :: last) := by
  induction values generalizing front with
  | nil =>
      cases h
      simpa using FurtherTokens.cons hlist hvalue .nil
  | cons first values ih =>
      cases h with
      | cons hfirstList hfirst hrest =>
          simpa using FurtherTokens.cons hfirstList hfirst (ih hrest)

theorem BeforeElementTokens.concat {values : List Outline.Value} {value : Outline.Value}
    {front last : List Token} (h : BeforeElementTokens values front)
    (hlist : value.isList = false) (hvalue : ValueTokens value last) :
    ElementsTokens (values ++ [value]) (front ++ last) := by
  cases h with
  | first => simpa using ElementsTokens.cons hlist hvalue .nil
  | further h =>
      cases h with
      | cons hfirstList hfirst hrest =>
          simpa using ElementsTokens.cons hfirstList hfirst (hrest.concat hlist hvalue)

theorem FieldsTokens.concat {fields : List Outline.Field} {field : Outline.Field}
    {front last : List Token} (h : FieldsTokens fields front) (hfield : FieldTokens field last) :
    FieldsTokens (fields ++ [field]) (front ++ last) := by
  induction fields generalizing front with
  | nil =>
      cases h
      simpa using FieldsTokens.cons hfield .nil
  | cons first fields ih =>
      cases h with
      | cons hfirst hrest => simpa using FieldsTokens.cons hfirst (ih hrest)

theorem BeforeMessageTokens.close {levels : Nat} {front last : List Token}
    {members : List Outline.Field} (h : BeforeMessageTokens levels front)
    (hmessage : ValueTokens (.message members) last) :
    ∃ (value : Outline.Value) (colon tokens : List Token) (marks : List Char),
      ColonTokens value colon ∧ ValueTokens value tokens ∧
      (Outline.Value.message members).nesting ≤ value.nesting ∧
      colon ++ tokens = front ++ (last ++ marks.map .mark) ∧
      marks.all isPunctuation = true := by
  -- Nothing closes a field whose value is the message, and a bracket one whose value is a list.
  cases h with
  | value hcolon =>
      refine ⟨.message members, front, last, [], ?_, hmessage, Nat.le_refl _, by simp, rfl⟩
      cases hcolon with
      | colon => exact .colon
      | absent => exact .absent rfl
  | @element values colon tokens hcolon _ hfront =>
      refine ⟨.list (values ++ [.message members]), colon, _, [']'], ?_,
        .list (hfront.concat rfl hmessage), Outline.Value.le_nestings (by simp), by simp, rfl⟩
      cases hcolon with
      | colon => exact .colon
      | absent hmessages =>
          refine .absent ?_
          rw [Outline.Value.holdsMessages, List.all_append, Bool.and_eq_true]
          exact ⟨hmessages, rfl⟩

theorem ApproachTokens.close {levels : Nat} {front last : List Token}
    {members : List Outline.Field} (h : ApproachTokens levels front)
    (hmessage : ValueTokens (.message members) last) :
    ∃ (others : List Outline.Field) (marks : List Char),
      FieldsTokens others (front ++ (last ++ marks.map .mark)) ∧
      (Outline.Value.message members).nesting ≤ Outline.Field.nestings others ∧
      marks.all isPunctuation = true := by
  cases h with
  | @mk own name first nameTokens before hown _ hname hbefore =>
      obtain ⟨value, colon, tokens, marks, hcolon, hvalue, hnesting, htokens, hmarks⟩ :=
        hbefore.close hmessage
      refine ⟨own ++ [⟨name, value⟩], marks, ?_, ?_, hmarks⟩
      · have hfield := hown.concat (.mk hname hcolon hvalue .absent)
        rw [List.append_nil, htokens] at hfield
        simpa only [List.append_assoc] using hfield
      · exact hnesting.trans (@Outline.Field.le_nestings ⟨name, value⟩ _ (by simp))

theorem exists_fieldsTokens {levels : Nat} {tokens : List Token} {brace : Char}
    (hbrace : (closingOf? brace).isSome = true) (h : OverrunTokens levels tokens) :
    ∃ (members : List Outline.Field) (marks : List Char),
      FieldsTokens members (tokens ++ .mark brace :: marks.map .mark) ∧
      levels < Outline.Field.nestings members ∧ marks.all isPunctuation = true := by
  -- The innermost message is closed first, and each one around it behind that.
  induction levels generalizing tokens with
  | zero =>
      cases h with
      | mk happroach hdescent =>
          cases hdescent
          obtain ⟨closing, hpair⟩ := Option.isSome_iff_exists.mp hbrace
          obtain ⟨members, marks, hmembers, hnesting, hmarks⟩ :=
            happroach.close (.message hpair .nil)
          refine ⟨members, closing :: marks, by simpa using hmembers,
            Nat.lt_of_succ_le hnesting, ?_⟩
          rw [List.all_cons, (isPunctuation_of_closingOf? hpair).2, hmarks, Bool.and_self]
  | succ levels ih =>
      cases h with
      | mk happroach hdescent =>
          cases hdescent with
          | inside hopening htokens =>
              obtain ⟨own, inner, hown, hdeep, hinner⟩ := ih htokens
              obtain ⟨closing, hpair⟩ := Option.isSome_iff_exists.mp hopening
              obtain ⟨members, marks, hmembers, hnesting, hmarks⟩ :=
                happroach.close (.message hpair hown)
              refine ⟨members, inner ++ closing :: marks, by simpa using hmembers,
                Nat.lt_of_lt_of_le (Nat.succ_lt_succ hdeep) hnesting, ?_⟩
              rw [List.all_append, List.all_cons, hinner, (isPunctuation_of_closingOf? hpair).2,
                hmarks, Bool.and_self, Bool.and_self]

theorem written_marks {marks : List Char} (h : marks.all isPunctuation = true) :
    Written (marks.map .mark) marks := by
  induction marks with
  | nil => exact .done (.layout .nil)
  | cons x marks ih =>
      rw [List.all_cons, Bool.and_eq_true] at h
      exact (ih h.2).mark h.1

/-- What is left behind its first character does not matter to the tokens in front of that. -/
theorem WrittenTo.exchange {x : Char} {rest other text : List Char} {tokens more : List Token}
    (hx : isPunctuation x = true) (h : WrittenTo (x :: rest) tokens text)
    (hother : Written more other) :
    ∃ before, text = before ++ x :: rest ∧
      Written (tokens ++ .mark x :: more) (before ++ x :: other) := by
  induction h with
  | @done layout _ hlayout =>
      refine ⟨layout, rfl, ?_⟩
      obtain hlayout | ⟨_, ⟨⟩⟩ := hlayout
      exact .token hlayout (.mark hx) (fun _ _ => rfl) hother
  | @token token tokens layout spelled rest hlayout hspells hstops _ ih =>
      obtain ⟨before, rfl, hwritten⟩ := ih
      refine ⟨layout ++ (spelled ++ before), by simp only [List.append_assoc], ?_⟩
      simp only [List.append_assoc]
      refine .token hlayout hspells ?_ hwritten
      cases before <;> exact Stops.cons_iff.mpr (Stops.cons_iff.mp hstops)

/-- A text that overruns is spelled up to there as one is that spells fields which are nested too
deep. -/
theorem exists_renders_of_overruns {levels : Nat} {before rest : List Char} {brace : Char}
    (h : Overruns levels before brace rest) :
    ∃ members other, Renders members (before ++ brace :: other) ∧
      levels < Outline.Field.nestings members := by
  obtain ⟨hbrace, tokens, htokens, hwritten⟩ := h
  obtain ⟨members, marks, hmembers, hdeep, hmarks⟩ := exists_fieldsTokens hbrace htokens
  obtain ⟨closing, hpair⟩ := Option.isSome_iff_exists.mp hbrace
  obtain ⟨front, heq, hrenders⟩ :=
    hwritten.exchange (isPunctuation_of_closingOf? hpair).1 (written_marks hmarks)
  obtain rfl := List.append_cancel_right heq
  exact ⟨members, marks, ⟨_, hmembers, hrenders⟩, hdeep⟩

end Textproto.Tree
