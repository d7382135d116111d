import Textproto.Schema.Field

namespace Textproto

/-! Message types and enumerations. -/

/-- Message types that JSON does not write field by field. -/
inductive WellKnown where
  | any
  | empty
  | duration
  | timestamp
  | wrapper
  | struct
  | value
  | listValue
  | fieldMask
  deriving Repr, DecidableEq

/-- The key and value kinds of a map. -/
structure MapEntry where
  key : Kind
  value : Kind
  deriving Repr, DecidableEq

namespace MapEntry

def keyField (entry : MapEntry) : Field :=
  .single "key" 1 entry.key

def valueField (entry : MapEntry) : Field :=
  .single "value" 2 entry.value

end MapEntry

inductive Shape where
  | message (fields : List Field)
  | wellKnown (type : WellKnown) (fields : List Field)
  | mapEntry (entry : MapEntry)
  deriving Repr, DecidableEq

structure Descriptor where
  fullName : String
  shape : Shape
  deriving Repr, DecidableEq

namespace Descriptor

def fields (descriptor : Descriptor) : List Field :=
  match descriptor.shape with
  | .message fields => fields
  | .wellKnown _ fields => fields
  | .mapEntry entry => [entry.keyField, entry.valueField]

def wellKnown? (descriptor : Descriptor) : Option WellKnown :=
  match descriptor.shape with
  | .wellKnown type _ => some type
  | _ => none

def mapEntry? (descriptor : Descriptor) : Option MapEntry :=
  match descriptor.shape with
  | .mapEntry entry => some entry
  | _ => none

def fieldNamed? (descriptor : Descriptor) (name : String) : Option Field :=
  descriptor.fields.find? fun field => field.name = name

def fieldNumbered? (descriptor : Descriptor) (number : Nat) : Option Field :=
  descriptor.fields.find? fun field => field.number = number

theorem fieldNamed?_mem {descriptor : Descriptor} {name : String} {field : Field}
    (h : descriptor.fieldNamed? name = some field) :
    field ∈ descriptor.fields ∧ field.name = name := by
  refine ⟨List.mem_of_find?_eq_some h, ?_⟩
  simpa using List.find?_some h

theorem fieldNumbered?_mem {descriptor : Descriptor} {number : Nat} {field : Field}
    (h : descriptor.fieldNumbered? number = some field) :
    field ∈ descriptor.fields ∧ field.number = number := by
  refine ⟨List.mem_of_find?_eq_some h, ?_⟩
  simpa using List.find?_some h

end Descriptor

/-- The names of an enumeration and their numbers, in the order of declaration. -/
structure Enumeration where
  fullName : String
  values : List (String × Int32)
  deriving Repr, DecidableEq

namespace Enumeration

def numberOf? (enumeration : Enumeration) (name : String) : Option Int32 :=
  (enumeration.values.find? fun value => value.1 = name).map Prod.snd

/-- The first name of a number. -/
def nameOf? (enumeration : Enumeration) (number : Int32) : Option String :=
  (enumeration.values.find? fun value => value.2 = number).map Prod.fst

end Enumeration

end Textproto
