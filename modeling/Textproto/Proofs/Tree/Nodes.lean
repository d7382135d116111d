import Mathlib.Logic.Relation
import Textproto.Proofs.Tree.Soundness

namespace Textproto.Tree

/-! The fields and values of a tree, at any depth, and where they stand in its text. -/

inductive Node where
  | field (field : Field)
  | value (value : Value)

namespace Node

def position : Node → Position
  | field written => written.position
  | value written => written.position

def Tokens : Node → List Token → Prop
  | field written => FieldTokens written.outline
  | value written => ValueTokens written.outline

/-- One node lies directly in another. -/
inductive Child : Node → Node → Prop
  | value {field : Field} : Child (.field field) (.value field.value)
  | field {own : List Field} {place : Position} {field : Field} :
      field ∈ own → Child (.value (.message own place)) (.field field)
  | element {values : List Value} {place : Position} {value : Value} :
      value ∈ values → Child (.value (.list values place)) (.value value)

/-- The node is one of the fields, or lies in one. -/
def In (fields : List Field) (node : Node) : Prop :=
  ∃ field ∈ fields, Relation.ReflTransGen Child (.field field) node

def Throughout (P : Node → Prop) (node : Node) : Prop :=
  ∀ part, Relation.ReflTransGen Child node part → P part

section

variable {P : Node → Prop}

theorem throughout_iff {node : Node} :
    Throughout P node ↔ P node ∧ ∀ part, Child node part → Throughout P part := by
  constructor
  · intro h
    exact ⟨h node .refl, fun part hchild other hother => h other (hother.head hchild)⟩
  · rintro ⟨hself, hparts⟩ part hpart
    rcases hpart.cases_head with rfl | ⟨next, hchild, hpart⟩
    · exact hself
    · exact hparts next hchild part hpart

theorem throughout_field {field : Field} :
    Throughout P (.field field) ↔ P (.field field) ∧ Throughout P (.value field.value) := by
  rw [throughout_iff]
  refine and_congr_right fun _ => ⟨fun h => h _ .value, ?_⟩
  rintro h _ ⟨⟩
  exact h

theorem throughout_scalar {scalar : Scalar} {place : Position} :
    Throughout P (.value (.scalar scalar place)) ↔ P (.value (.scalar scalar place)) := by
  rw [throughout_iff]
  exact and_iff_left nofun

theorem throughout_message {own : List Field} {place : Position} :
    Throughout P (.value (.message own place)) ↔
      P (.value (.message own place)) ∧ ∀ field ∈ own, Throughout P (.field field) := by
  rw [throughout_iff]
  refine and_congr_right fun _ => ⟨fun h field hfield => h _ (.field hfield), ?_⟩
  rintro h _ (_ | hfield | _)
  exact h _ hfield

theorem throughout_list {values : List Value} {place : Position} :
    Throughout P (.value (.list values place)) ↔
      P (.value (.list values place)) ∧ ∀ value ∈ values, Throughout P (.value value) := by
  rw [throughout_iff]
  refine and_congr_right fun _ => ⟨fun h value hvalue => h _ (.element hvalue), ?_⟩
  rintro h _ (_ | _ | hvalue)
  exact h _ hvalue

end

/-- Where its position says, and with nothing in front, stands what spells a node. -/
inductive Stands (start : Cursor) (node : Node) : Prop
  | mk {c : Cursor} {tokens more : List Token} :
      start.Reaches c → c.position = node.position → Layout.begins c.rest = false →
      node.Tokens tokens → Written (tokens ++ more) c.rest → Stands start node

end Node

/-- What follows a cursor can be told apart into tokens. -/
def Followed (c : Cursor) : Prop :=
  ∃ tokens, Written tokens c.rest

theorem Leads.followed {tokens : List Token} {c d : Cursor} (h : Leads tokens c d)
    (hd : Followed d) : Followed c := by
  obtain ⟨more, hmore⟩ := hd
  exact ⟨_, h.written hmore⟩

/-- What a body reads, stands in the text. -/
def BodyStands (start : Cursor) (body : Option Body) : Prop :=
  ∀ fields, body = some fields → ∀ ⦃c d members⦄, start.Reaches c →
    (∃ reaches, fields c = .ok ⟨members, d, reaches⟩) → Followed d →
    ∀ field ∈ members, Node.Throughout (Node.Stands start) (.field field)

/-- The values that are read where no layout begins stand in the text. -/
def ValueStands (start : Cursor) (read : (c : Cursor) → Attempt c Value) : Prop :=
  ∀ ⦃c d value⦄, start.Reaches c → Layout.begins c.rest = false → (read c).Reads value d →
    Followed d → Node.Throughout (Node.Stands start) (.value value)

section

variable {start c d : Cursor} {levels : Nat} {body : Option Body}
  {isWanted : Outline.Value → Bool} {element : (c : Cursor) → Attempt c Value}

theorem Value.Stands.node {value : Value} (h : Value.Stands levels value.outline c d)
    (hc : start.Reaches c) (hposition : c.position = value.position)
    (hbegins : Layout.begins c.rest = false) (hd : Followed d) :
    Node.Stands start (.value value) := by
  obtain ⟨tokens, htokens, hleads⟩ := h.tokens
  obtain ⟨more, hmore⟩ := hd
  exact .mk hc hposition hbegins htokens (hleads.written hmore)

theorem scalarValue_stands : ValueStands start scalarValue := by
  intro c d value hc hbegins hread hd
  have hsound := (@scalarValue_sound 0 _ _ _ hread).1
  obtain ⟨scalar, _, rfl⟩ := reads_scalarValue.mp hread
  exact Node.throughout_scalar.mpr (hsound.node hc rfl hbegins hd)

theorem message_stands (hbody : BodySound levels body) (h : BodyStands start body) :
    ValueStands start (message body) := by
  intro c d value hc hbegins hread hd
  have hsound := (message_sound hbody hread).1
  obtain ⟨opening, closing, fields, members, c', e, hopening, hpair, hfields, hmembers,
    hclosing, rfl⟩ := reads_message.mp hread
  have hmark := Leads.mark hclosing (isPunctuation_of_closingOf? hpair).2
  refine Node.throughout_message.mpr ⟨hsound.node hc rfl hbegins hd, ?_⟩
  exact h fields hfields (hc.trans hopening.before.reaches) hmembers (hmark.of_skipLayout.followed hd)

theorem furtherElements_stand (helement : ElementSound levels isWanted element)
    (h : ValueStands start element) {values : List Value}
    (hrun : Run (furtherElement element) c values d) (hc : start.Reaches c) (hd : Followed d) :
    ∀ value ∈ values, Node.Throughout (Node.Stands start) (.value value) := by
  induction hrun with
  | stop _ => exact nofun
  | go hread hrest ih =>
      have hreaches := hc.trans hread.before.reaches
      obtain ⟨c', hcomma, hvalue⟩ := reads_furtherElement.mp hread
      obtain ⟨⟨_, _, hleads⟩, _⟩ := furtherElements_sound helement hrest.chain
      refine List.forall_mem_cons.mpr ⟨?_, ih hreaches hd⟩
      refine h ?_ c'.begins_skipLayout hvalue (hleads.followed hd)
      exact ((hc.trans (Cursor.reaches_skipLayout _)).trans hcomma.before.reaches).trans
        c'.reaches_skipLayout

theorem list_stands (helement : ElementSound levels isWanted element)
    (h : ValueStands start element) : ValueStands start (list element) := by
  intro c d value hc hbegins hread hd
  have hsound := (list_sound helement hread).1
  obtain ⟨c', values, e, hopening, helements, hclosing, rfl⟩ := reads_list.mp hread
  have he : Followed e := (Leads.mark hclosing rfl).of_skipLayout.followed hd
  have hc' := (hc.trans hopening.before.reaches).trans c'.reaches_skipLayout
  refine Node.throughout_list.mpr ⟨hsound.node hc rfl hbegins hd, ?_⟩
  rcases elements_eq_ok_iff.mp helements with ⟨_, rfl, _⟩ | ⟨first, more, e', hfirst, hmore, rfl⟩
  · exact nofun
  · obtain ⟨⟨_, _, hleads⟩, _⟩ := furtherElements_sound helement hmore.chain
    refine List.forall_mem_cons.mpr ⟨?_, ?_⟩
    · exact h hc' c'.begins_skipLayout hfirst (hleads.followed he)
    · exact furtherElements_stand helement h hmore (hc'.trans hfirst.before.reaches) he

theorem valueWithoutColon_stands (hbody : BodySound levels body) (h : BodyStands start body) :
    ValueStands start (valueWithoutColon body) := by
  intro c d value hc hbegins hread hd
  rcases reads_valueWithoutColon.mp hread with hread | ⟨_, hread⟩
  · exact message_stands hbody h hc hbegins hread hd
  · exact list_stands (message_sound hbody) (message_stands hbody h) hc hbegins hread hd

theorem valueAfterColon_stands (hbody : BodySound levels body) (h : BodyStands start body) :
    ValueStands start (valueAfterColon body) := by
  have helement : ValueStands start (fun d => (message body d).orElse fun _ => scalarValue d) := by
    intro c d value hc hbegins hread hd
    rcases Attempt.reads_orElse.mp hread with hread | ⟨_, hread⟩
    · exact message_stands hbody h hc hbegins hread hd
    · exact scalarValue_stands hc hbegins hread hd
  intro c d value hc hbegins hread hd
  rcases reads_valueAfterColon.mp hread with hread | ⟨_, hread | ⟨_, hread⟩⟩
  · exact message_stands hbody h hc hbegins hread hd
  · exact list_stands (elementAfterColon_sound hbody) helement hc hbegins hread hd
  · exact scalarValue_stands hc hbegins hread hd

theorem fieldValue_stands (hbody : BodySound levels body) (h : BodyStands start body)
    {value : Value} (hc : start.Reaches c) (hread : (fieldValue body c).Reads value d)
    (hd : Followed d) : Node.Throughout (Node.Stands start) (.value value) := by
  have hc' := hc.trans c.reaches_skipLayout
  rcases reads_fieldValue.mp hread with ⟨c', hcolon, hread⟩ | ⟨_, hread⟩
  · refine valueAfterColon_stands hbody h ?_ c'.begins_skipLayout hread hd
    exact (hc'.trans hcolon.before.reaches).trans c'.reaches_skipLayout
  · exact valueWithoutColon_stands hbody h hc' c.begins_skipLayout hread hd

/-- Layout in front of a field does not matter to it. -/
theorem reads_field_skipLayout {f : Field} :
    (field body c.skipLayout).Reads f d ↔ (field body c).Reads f d := by
  rw [reads_field, reads_field, Cursor.skipLayout_skipLayout]

theorem field_stands (hbody : BodySound levels body) (h : BodyStands start body) {f : Field}
    (hc : start.Reaches c) (hread : (field body c).Reads f d) (hd : Followed d) :
    Node.Throughout (Node.Stands start) (.field f) := by
  obtain ⟨_, tokens, htokens, hleads⟩ := field_sound hbody (reads_field_skipLayout.mpr hread)
  obtain ⟨name, e, value, e', hname, hvalue, rfl, rfl⟩ := reads_field.mp hread
  have hc' := hc.trans c.reaches_skipLayout
  refine Node.throughout_field.mpr ⟨?_, ?_⟩
  · obtain ⟨more, hmore⟩ := hd
    exact .mk hc' rfl c.begins_skipLayout htokens (hleads.written hmore)
  · obtain ⟨_, _, hskip⟩ := skipSeparator_sound e'
    exact fieldValue_stands hbody h (hc'.trans hname.before.reaches) hvalue (hskip.followed hd)

theorem manyFields_stand (hbody : BodySound levels body) (h : BodyStands start body)
    {members : List Field} (hrun : Run (field body) c members d) (hc : start.Reaches c)
    (hd : Followed d) : ∀ f ∈ members, Node.Throughout (Node.Stands start) (.field f) := by
  induction hrun with
  | stop _ => exact nofun
  | go hread hrest ih =>
      obtain ⟨_, _, hleads⟩ := (manyFields_sound hbody hrest.chain).tokens
      refine List.forall_mem_cons.mpr ⟨?_, ih (hc.trans hread.before.reaches) hd⟩
      exact field_stands hbody h hc hread (hleads.followed hd)

end

theorem fields_stand {start : Cursor} (levels : Nat) :
    BodyStands start (some (fields levels)) := by
  induction levels with
  | zero =>
      intro _ heq c d members hc hmembers hd
      cases heq
      have hsound : BodySound 0 none := fun _ heq => nomatch heq
      have hbody : BodyStands start none := fun _ heq => nomatch heq
      exact manyFields_stand hsound hbody (many_eq_ok_iff.mp hmembers) hc hd
  | succ levels ih =>
      intro _ heq c d members hc hmembers hd
      cases heq
      exact manyFields_stand (bodySound_fields levels) ih (many_eq_ok_iff.mp hmembers) hc hd

/-- Every field and every value of a parsed text stands where it says. -/
theorem stands_of_parse {text : List Char} {members : List Field} (h : parse text = .ok members)
    {node : Node} (hnode : node.In members) : node.Stands (.ofText text) := by
  unfold parse at h
  split at h
  next => cases h
  next fields d reaches hfields =>
    simp only at h
    split at h
    next hend =>
      cases h
      have hrest : d.skipLayout.rest = [] := by
        simpa [Cursor.next?] using hend
      have hdone : Written [] d.skipLayout.rest := by
        rw [hrest]
        exact .done (.layout .nil)
      obtain ⟨field, hfield, hpart⟩ := hnode
      exact fields_stand nestingLimit _ rfl (.refl _) ⟨reaches, hfields⟩ ⟨[], hdone.of_skipLayout⟩
        field hfield node hpart
    next => cases h

/-- A text begins with what spells a node, and with nothing in front of that. -/
structure Node.Begins (node : Node) (text : List Char) : Prop where
  spelled : ∃ tokens more, node.Tokens tokens ∧ Written (tokens ++ more) text
  bare : Layout.begins text = false

/-- The position of a node counts what is read in front of it. -/
theorem Node.Stands.split {node : Node} {text : List Char} (h : node.Stands (.ofText text)) :
    ∃ read rest, text = read ++ rest ∧ node.position = read.foldl Position.after .start ∧
      node.Begins rest := by
  obtain ⟨⟨read, hrest, hposition⟩, hnode, hbare, htokens, hwritten⟩ := h
  exact ⟨read, _, hrest, hnode.symm.trans hposition, ⟨_, _, htokens, hwritten⟩, hbare⟩

/-- A field begins with its name: with a word, or with the bracket in front of a type URL. -/
theorem Node.Begins.name {f : Field} {text : List Char} (h : (Node.field f).Begins text) :
    (∃ name, f.name = .plain name ∧ name <+: text) ∨
      ∃ url rest, f.name = .expanded url ∧ text = '[' :: rest := by
  obtain ⟨⟨tokens, more, htokens, hwritten⟩, hbare⟩ := h
  have hskip : (⟨.start, text⟩ : Cursor).skipLayout = ⟨.start, text⟩ :=
    Cursor.skipFrom_of_begins_eq_false hbare .start
  obtain ⟨name, position, value⟩ := f
  cases htokens with
  | mk hname _ _ _ =>
      cases hname with
      | plain =>
          obtain ⟨word, rest, hrest, hspells, _⟩ := Written.first (c := ⟨.start, text⟩) hwritten
          rw [hskip] at hrest
          cases hspells
          exact .inl ⟨_, rfl, _, hrest.symm⟩
      | expanded =>
          obtain ⟨mark, rest, hrest, hspells, _⟩ := Written.first (c := ⟨.start, text⟩) hwritten
          rw [hskip] at hrest
          cases hspells
          exact .inr ⟨_, rest, rfl, hrest⟩

theorem not_list_of_further {values : List Value} {tokens : List Token}
    (h : FurtherTokens (Value.outlines values) tokens) :
    ∀ value ∈ values, value.outline.isList = false := by
  induction values generalizing tokens with
  | nil => exact nofun
  | cons first rest ih =>
      cases h with
      | cons hlist _ hrest => exact List.forall_mem_cons.mpr ⟨hlist, ih hrest⟩

/-- No list of a parsed text has a list among its elements. -/
theorem not_list_of_parse {text : List Char} {members : List Field} (h : parse text = .ok members)
    {values : List Value} {place : Position} (hnode : (Node.value (.list values place)).In members) :
    ∀ value ∈ values, ∀ inner position, value ≠ .list inner position := by
  have hflat : ∀ value ∈ values, value.outline.isList = false := by
    obtain ⟨_, _, _, htokens, _⟩ := stands_of_parse h hnode
    cases htokens with
    | list helements =>
        match values, helements with
        | [], _ => exact nofun
        | _ :: _, .cons hlist _ hrest =>
            exact List.forall_mem_cons.mpr ⟨hlist, not_list_of_further hrest⟩
  rintro value hvalue inner position rfl
  cases hflat _ hvalue

end Textproto.Tree
