import Textproto.Proofs.Binding.Scalar
import Textproto.Schema.Bundled.WellKnown
import Textproto.Schema.Registry

namespace Textproto

/-! The fields that make up a message of a type. -/

/-- A type URL ends in a slash and the name of a known type. -/
def Registry.Names (registry : Registry) (url : List Char) (descriptor : Descriptor) : Prop :=
  ∃ lead name, url = lead ++ '/' :: name ∧ '/' ∉ name ∧
    registry.message? (String.ofList name) = some descriptor

namespace Binding

/-- A field that is written is one of the type. -/
def Sets (descriptor : Descriptor) (field : Field) (written : Tree.Field) : Prop :=
  field ∈ descriptor.fields ∧ written.name = .plain field.name.toList

/-- What may not stand twice in one message: a single field, a member of a oneof, a payload. -/
inductive Clash (descriptor : Descriptor) : Tree.Field → Tree.Field → Prop
  | single {field : Field} {first second : Tree.Field} : field.repeated = false →
      Sets descriptor field first → Sets descriptor field second → Clash descriptor first second
  | oneof {field other : Field} {oneof : String} {first second : Tree.Field} :
      field.oneof = some oneof → other.oneof = some oneof →
      Sets descriptor field first → Sets descriptor other second → Clash descriptor first second
  | payload {url other : List Char} {first second : Tree.Field} :
      first.name = .expanded url → second.name = .expanded other → Clash descriptor first second

/-- An `Any` is written with a payload, or with the type URL of a payload without fields. Its
bytes have to be empty. -/
structure PlainAny (registry : Registry) (fields : List Tree.Field) : Prop where
  bytes : ∀ position bytes place,
    .mk (.plain "value".toList) position (.scalar (.string bytes) place) ∈ fields → bytes = []
  url : ∀ position bytes place,
    .mk (.plain "type_url".toList) position (.scalar (.string bytes) place) ∈ fields →
    bytes ≠ [] → (∀ field ∈ fields, ∀ url, field.name ≠ .expanded url) ∧
      ∃ text descriptor, bytes = Utf8.encode text ∧ registry.Names text descriptor

mutual

inductive Valid (registry : Registry) : Descriptor → List Tree.Field → Prop
  | mk {descriptor : Descriptor} {fields : List Tree.Field} :
      (∀ field ∈ fields, ValidField registry descriptor field) →
      fields.Pairwise (fun first second => ¬ Clash descriptor first second) →
      (descriptor.wellKnown? = some .any → PlainAny registry fields) →
      Valid registry descriptor fields

inductive ValidField (registry : Registry) : Descriptor → Tree.Field → Prop
  | item {descriptor : Descriptor} {field : Field} {written : Tree.Field} :
      Sets descriptor field written → ValidItem registry field.kind written.value →
      ValidField registry descriptor written
  | list {descriptor : Descriptor} {field : Field} {name : Tree.Name} {position : Position}
      {values : List Tree.Value} {place : Position} :
      Sets descriptor field ⟨name, position, .list values place⟩ → field.repeated = true →
      (∀ value ∈ values, ValidItem registry field.kind value) →
      ValidField registry descriptor ⟨name, position, .list values place⟩
  | payload {descriptor inner : Descriptor} {url : List Char} {position : Position}
      {fields : List Tree.Field} {place : Position} :
      descriptor.wellKnown? = some .any → registry.Names url inner →
      Valid registry inner fields →
      ValidField registry descriptor ⟨.expanded url, position, .message fields place⟩

/-- A value of a kind. The element of a map is a message of its entry type. -/
inductive ValidItem (registry : Registry) : Kind → Tree.Value → Prop
  | message {name : String} {descriptor : Descriptor} {fields : List Tree.Field}
      {place : Position} :
      registry.message? name = some descriptor → Valid registry descriptor fields →
      ValidItem registry (.message name) (.message fields place)
  | scalar {kind : Kind} {scalar : Tree.Scalar} {place : Position} :
      Admits registry kind scalar → ValidItem registry kind (.scalar scalar place)

end

end Binding

end Textproto
