import Textproto.Proofs.Tree.Token

namespace Textproto.Tree

/-! Fields without their places, and the tokens that spell them. -/

mutual

inductive Outline.Field where
  | mk (name : Name) (value : Outline.Value)

inductive Outline.Value where
  | scalar (scalar : Scalar)
  | message (fields : List Outline.Field)
  | list (values : List Outline.Value)

end

/-- All that is no number counts as the same. -/
def Scalar.outline : Scalar → Scalar
  | .float x => .float (if x.isNaN then Ieee.nan else x)
  | scalar => scalar

mutual

def Field.outline : Field → Outline.Field
  | ⟨name, _, value⟩ => ⟨name, value.outline⟩

def Value.outline : Value → Outline.Value
  | .scalar scalar _ => .scalar scalar.outline
  | .message fields _ => .message (Field.outlines fields)
  | .list values _ => .list (Value.outlines values)

def Field.outlines : List Field → List Outline.Field
  | [] => []
  | field :: rest => field.outline :: Field.outlines rest

def Value.outlines : List Value → List Outline.Value
  | [] => []
  | value :: rest => value.outline :: Value.outlines rest

end

theorem Field.outlines_eq_singleton {fields : List Field} {name : Name} {written : Outline.Value}
    (h : Field.outlines fields = [⟨name, written⟩]) :
    ∃ position value, fields = [⟨name, position, value⟩] ∧ value.outline = written := by
  match fields, h with
  | [⟨_, position, value⟩], h =>
      cases h
      exact ⟨position, value, rfl, rfl⟩

theorem Value.outline_eq_string {value : Value} {bytes : List UInt8}
    (h : value.outline = .scalar (.string bytes)) :
    ∃ place, value = .scalar (.string bytes) place := by
  match value, h with
  | .scalar (.string _) place, h =>
      cases h
      exact ⟨place, rfl⟩

theorem Value.outline_eq_message {value : Value} (h : value.outline = .message []) :
    ∃ place, value = .message [] place := by
  match value, h with
  | .message [] place, _ => exact ⟨place, rfl⟩

namespace Outline

/-! How deep messages lie in one another. -/

mutual

def Field.nesting : Field → Nat
  | ⟨_, value⟩ => value.nesting

def Value.nesting : Value → Nat
  | .scalar _ => 0
  | .message fields => Field.nestings fields + 1
  | .list values => Value.nestings values

def Field.nestings : List Field → Nat
  | [] => 0
  | field :: rest => max field.nesting (Field.nestings rest)

def Value.nestings : List Value → Nat
  | [] => 0
  | value :: rest => max value.nesting (Value.nestings rest)

end

namespace Value

def isMessage : Value → Bool
  | .message _ => true
  | _ => false

def isList : Value → Bool
  | .list _ => true
  | _ => false

/-- Messages and lists of nothing else. -/
def holdsMessages : Value → Bool
  | .scalar _ => false
  | .message _ => true
  | .list values => values.all isMessage

end Value

end Outline

inductive ScalarTokens : Scalar → List Token → Prop
  | string {first : List UInt8} {more : List (List UInt8)} :
      ScalarTokens (.string (first ++ more.flatten)) (.literal first :: more.map .literal)
  | identifier {name : List Char} :
      Numeral.specialWord? name = none → ScalarTokens (.identifier name) [.word name]
  | unsigned {numeral : Numeral} :
      ScalarTokens (numeral.withSign false).outline [.number numeral]
  | negative {numeral : Numeral} :
      ScalarTokens (numeral.withSign true).outline [.mark '-', .number numeral]

inductive NameTokens : Name → List Token → Prop
  | plain {name : List Char} : NameTokens (.plain name) [.word name]
  | expanded {url : List Char} :
      NameTokens (.expanded url) [.mark '[', .url url, .mark ']']

/-- The colon may be left out before messages and lists of messages. -/
inductive ColonTokens : Outline.Value → List Token → Prop
  | colon {value : Outline.Value} : ColonTokens value [.mark ':']
  | absent {value : Outline.Value} : value.holdsMessages = true → ColonTokens value []

inductive SeparatorTokens : List Token → Prop
  | absent : SeparatorTokens []
  | comma : SeparatorTokens [.mark ',']
  | semicolon : SeparatorTokens [.mark ';']

mutual

inductive FieldTokens : Outline.Field → List Token → Prop
  | mk {name : Name} {value : Outline.Value}
      {nameTokens colon valueTokens separator : List Token} :
      NameTokens name nameTokens → ColonTokens value colon → ValueTokens value valueTokens →
      SeparatorTokens separator →
      FieldTokens ⟨name, value⟩ (nameTokens ++ (colon ++ (valueTokens ++ separator)))

inductive FieldsTokens : List Outline.Field → List Token → Prop
  | nil : FieldsTokens [] []
  | cons {field : Outline.Field} {fields : List Outline.Field} {first rest : List Token} :
      FieldTokens field first → FieldsTokens fields rest →
      FieldsTokens (field :: fields) (first ++ rest)

inductive ValueTokens : Outline.Value → List Token → Prop
  | scalar {scalar : Scalar} {tokens : List Token} :
      ScalarTokens scalar tokens → ValueTokens (.scalar scalar) tokens
  | message {opening closing : Char} {fields : List Outline.Field} {tokens : List Token} :
      closingOf? opening = some closing → FieldsTokens fields tokens →
      ValueTokens (.message fields) (.mark opening :: (tokens ++ [.mark closing]))
  | list {values : List Outline.Value} {tokens : List Token} :
      ElementsTokens values tokens →
      ValueTokens (.list values) (.mark '[' :: (tokens ++ [.mark ']']))

/-- Elements behind one another with commas between them; none of them is a list. -/
inductive ElementsTokens : List Outline.Value → List Token → Prop
  | nil : ElementsTokens [] []
  | cons {value : Outline.Value} {values : List Outline.Value} {first rest : List Token} :
      value.isList = false → ValueTokens value first → FurtherTokens values rest →
      ElementsTokens (value :: values) (first ++ rest)

inductive FurtherTokens : List Outline.Value → List Token → Prop
  | nil : FurtherTokens [] []
  | cons {value : Outline.Value} {values : List Outline.Value} {first rest : List Token} :
      value.isList = false → ValueTokens value first → FurtherTokens values rest →
      FurtherTokens (value :: values) (.mark ',' :: (first ++ rest))

end

/-- A text spells fields. -/
def Renders (fields : List Outline.Field) (text : List Char) : Prop :=
  ∃ tokens, FieldsTokens fields tokens ∧ Written tokens text

end Textproto.Tree
