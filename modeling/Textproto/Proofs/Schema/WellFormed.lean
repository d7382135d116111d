import Textproto.Proofs.Data.Entries
import Textproto.Schema.Bundled.WellKnown
import Textproto.Schema.Registry

namespace Textproto

/-! What the binder and the encoder rely on of the types that a registry knows. -/

/-- The kinds that a map may have its keys of. -/
def Kind.isKey : Kind → Bool
  | bool | int32 | int64 | uint32 | uint64 | string => true
  | _ => false

/-- The type that a kind names is known. -/
def Kind.Resolves (registry : Registry) : Kind → Prop
  | enum name => (registry.enumeration? name).isSome = true
  | message name => (registry.message? name).isSome = true
  | _ => True

/-- The fields that JSON takes for granted in a well-known type. -/
def WellKnown.Declares (registry : Registry) : WellKnown → List Field → Prop
  | any, fields => fields = [.single "type_url" 1 .string, .single "value" 2 .bytes]
  | empty, fields => fields = []
  | duration, fields => fields = Bundled.secondsAndNanos
  | timestamp, fields => fields = Bundled.secondsAndNanos
  | wrapper, fields => ∃ kind, kind.isMessage = false ∧ kind ≠ .enum Bundled.nullValue ∧
      fields = [.single "value" 1 kind]
  | struct, fields =>
      fields = [.many "fields" 1 (.message Bundled.structEntry)] ∧
        registry.message? Bundled.structEntry =
          some ⟨Bundled.structEntry, .mapEntry ⟨.string, .message Bundled.structValue⟩⟩
  | value, fields =>
      fields =
        [ .member "kind" "null_value" 1 (.enum Bundled.nullValue),
          .member "kind" "number_value" 2 .double,
          .member "kind" "string_value" 3 .string,
          .member "kind" "bool_value" 4 .bool,
          .member "kind" "struct_value" 5 (.message Bundled.struct),
          .member "kind" "list_value" 6 (.message Bundled.structList) ] ∧
        (∀ descriptor, registry.message? Bundled.struct = some descriptor →
          descriptor.wellKnown? = some .struct) ∧
        ∀ descriptor, registry.message? Bundled.structList = some descriptor →
          descriptor.wellKnown? = some .listValue
  | listValue, fields =>
      fields = [.many "values" 1 (.message Bundled.structValue)] ∧
        ∀ descriptor, registry.message? Bundled.structValue = some descriptor →
          descriptor.mapEntry? = none
  | fieldMask, fields => fields = [.many "paths" 1 .string]

def Shape.WellFormed (registry : Registry) : Shape → Prop
  | .message _ => True
  | .wellKnown type fields => type.Declares registry fields
  | .mapEntry entry => entry.key.isKey = true

structure Descriptor.WellFormed (registry : Registry) (descriptor : Descriptor) : Prop where
  numbers : (descriptor.fields.map Field.number).Nodup
  jsonNames : (descriptor.fields.map Field.jsonName).Nodup
  untagged : ∀ field ∈ descriptor.fields, field.jsonName ≠ "@type"
  kinds : ∀ field ∈ descriptor.fields, field.kind.Resolves registry
  choices : ∀ field ∈ descriptor.fields, field.repeated = true → field.oneof = none
  shape : descriptor.shape.WellFormed registry

structure Registry.WellFormed (registry : Registry) : Prop where
  descriptors : ∀ name descriptor, registry.message? name = some descriptor →
    descriptor.fullName = name ∧ descriptor.WellFormed registry
  enumerations : ∀ name enumeration, registry.enumeration? name = some enumeration →
    enumeration.fullName = name ∧ (enumeration.values.map Prod.fst).Nodup

/-! Fields of one descriptor. -/

theorem eq_of_nodup_map {α β : Type} {f : α → β} {items : List α} (h : (items.map f).Nodup)
    {a b : α} (ha : a ∈ items) (hb : b ∈ items) (heq : f a = f b) : a = b := by
  induction items with
  | nil => cases ha
  | cons item items ih =>
      rw [List.map_cons, List.nodup_cons] at h
      rcases List.mem_cons.mp ha with rfl | ha'
      · rcases List.mem_cons.mp hb with rfl | hb'
        · rfl
        · exact absurd (List.mem_map.mpr ⟨b, hb', heq.symm⟩) h.1
      · rcases List.mem_cons.mp hb with rfl | hb'
        · exact absurd (List.mem_map.mpr ⟨a, ha', heq⟩) h.1
        · exact ih h.2 ha' hb'

namespace Descriptor

variable {registry : Registry} {descriptor : Descriptor} {field other : Field}

theorem WellFormed.eq_of_number (h : descriptor.WellFormed registry)
    (hfield : field ∈ descriptor.fields) (hother : other ∈ descriptor.fields)
    (heq : field.number = other.number) : field = other :=
  eq_of_nodup_map h.numbers hfield hother heq

theorem WellFormed.eq_of_jsonName (h : descriptor.WellFormed registry)
    (hfield : field ∈ descriptor.fields) (hother : other ∈ descriptor.fields)
    (heq : field.jsonName = other.jsonName) : field = other :=
  eq_of_nodup_map h.jsonNames hfield hother heq

theorem WellFormed.eq_of_name (h : descriptor.WellFormed registry)
    (hfield : field ∈ descriptor.fields) (hother : other ∈ descriptor.fields)
    (heq : field.name = other.name) : field = other :=
  h.eq_of_jsonName hfield hother (by rw [Field.jsonName, heq, Field.jsonName])

/-- Every field is found under its name. -/
theorem WellFormed.fieldNamed? (h : descriptor.WellFormed registry)
    (hfield : field ∈ descriptor.fields) : descriptor.fieldNamed? field.name = some field := by
  cases hfound : descriptor.fieldNamed? field.name with
  | none =>
      have hnone := List.find?_eq_none.mp hfound field hfield
      simp at hnone
  | some other =>
      obtain ⟨hother, hname⟩ := fieldNamed?_mem hfound
      rw [h.eq_of_name hother hfield hname]

theorem WellFormed.declares (h : descriptor.WellFormed registry) {type : WellKnown}
    (htype : descriptor.wellKnown? = some type) : type.Declares registry descriptor.fields := by
  have hshape := h.shape
  unfold Descriptor.wellKnown? at htype
  unfold Descriptor.fields
  split at htype
  next type fields heq =>
    cases htype
    rw [heq] at hshape ⊢
    exact hshape
  next => cases htype

theorem WellFormed.fields_of_any (h : descriptor.WellFormed registry)
    (hany : descriptor.wellKnown? = some .any) :
    descriptor.fields = [.single "type_url" 1 .string, .single "value" 2 .bytes] :=
  h.declares hany

theorem WellFormed.oneof_of_value (h : descriptor.WellFormed registry)
    (hvalue : descriptor.wellKnown? = some .value) :
    ∀ field ∈ descriptor.fields, field.oneof = some "kind" := by
  rw [(h.declares hvalue).1]
  decide

end Descriptor

end Textproto
