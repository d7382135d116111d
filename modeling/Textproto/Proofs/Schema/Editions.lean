import Textproto.Proofs.Schema.Bundled

namespace Textproto

/-! The types with a field of every kind, carried from the first edition to the second. -/

namespace Bundled

open Edition

/-- The types of the first edition by their names, with what the second has for them. -/
def counterparts : List (String × Descriptor) :=
  (proto2.types.zip proto3.types).map fun pair => (pair.1.fullName, pair.2)

def counterpart? (name : String) : Option Descriptor :=
  Entries.get? name counterparts

def typeInProto3 (name : String) : String :=
  ((counterpart? name).map Descriptor.fullName).getD name

def enumerationCounterparts : List (String × String) :=
  (proto2.enumerations.zip proto3.enumerations).map fun pair =>
    (pair.1.fullName, pair.2.fullName)

def enumerationInProto3 (name : String) : String :=
  (Entries.get? name enumerationCounterparts).getD name

end Bundled

open Bundled

/-- Other types and enumerations than those of the first edition stand for themselves. -/
def Kind.toProto3 : Kind → Kind
  | .message name => .message (typeInProto3 name)
  | .enum name => .enum (enumerationInProto3 name)
  | kind => kind

def MapEntry.toProto3 (entry : MapEntry) : MapEntry :=
  ⟨entry.key.toProto3, entry.value.toProto3⟩

def Descriptor.toProto3 (descriptor : Descriptor) : Descriptor :=
  (counterpart? descriptor.fullName).getD descriptor

/-- A field is carried to one that differs in the edition of its type, and in having less
presence. -/
def Field.CarriedTo (field next : Field) : Prop :=
  next = { field with kind := field.kind.toProto3, presence := next.presence } ∧
    (next.presence = true → field.presence = true)

instance (field next : Field) : Decidable (field.CarriedTo next) :=
  inferInstanceAs (Decidable (_ ∧ _))

/-- The fields of a type whose numbers another one has, too. -/
def Descriptor.sharedWith (next descriptor : Descriptor) : List Field :=
  next.fields.filter fun field => field.number ∈ descriptor.fields.map Field.number

/-- The fields that only the second edition has. -/
def Bundled.addedNames : List String :=
  ["optional_bool", "optional_string"]

/-- A type is carried to one with fields that the other's are carried to, and possibly more. -/
structure Descriptor.CarriedTo (descriptor next : Descriptor) : Prop where
  plain : descriptor.wellKnown? = none ∧ next.wellKnown? = none
  mapEntry : next.mapEntry? = descriptor.mapEntry?.map MapEntry.toProto3
  fields : List.Forall₂ Field.CarriedTo descriptor.fields (next.sharedWith descriptor)
  added : ∀ field ∈ next.fields, field.number ∉ descriptor.fields.map Field.number →
    descriptor.fullName = Edition.proto2.allTypes ∧ field.name ∈ addedNames

instance (descriptor next : Descriptor) : Decidable (descriptor.CarriedTo next) :=
  decidable_of_iff
    ((descriptor.wellKnown? = none ∧ next.wellKnown? = none) ∧
      next.mapEntry? = descriptor.mapEntry?.map MapEntry.toProto3 ∧
      List.Forall₂ Field.CarriedTo descriptor.fields (next.sharedWith descriptor) ∧
      ∀ field ∈ next.fields, field.number ∉ descriptor.fields.map Field.number →
        descriptor.fullName = Edition.proto2.allTypes ∧ field.name ∈ addedNames)
    ⟨fun h => ⟨h.1, h.2.1, h.2.2.1, h.2.2.2⟩,
      fun h => ⟨h.plain, h.mapEntry, h.fields, h.added⟩⟩

namespace Bundled

theorem carriedTo_of_zip : ∀ pair ∈ Edition.proto2.types.zip Edition.proto3.types,
    pair.1.CarriedTo pair.2 := by
  decide +kernel

/-- No other type refers to one of the first edition. -/
theorem kind_of_outside : ∀ descriptor ∈ types, counterpart? descriptor.fullName = none →
    ∀ field ∈ descriptor.fields, field.kind.toProto3 = field.kind := by
  decide +kernel

theorem counterpart?_proto3 : ∀ next ∈ Edition.proto3.types,
    counterpart? next.fullName = none := by
  decide +kernel

theorem typeInProto3_types :
    ∀ type ∈ [Edition.allTypes, Edition.nestedMessage, Edition.nestedAllTypes],
      typeInProto3 (type .proto2) = type .proto3 := by
  decide +kernel

theorem enumerations_carried : ∀ pair ∈ enumerationCounterparts,
    (Registry.bundled.enumeration? pair.2).map Enumeration.values =
        (Registry.bundled.enumeration? pair.1).map Enumeration.values ∧
      pair.1 ≠ nullValue ∧ pair.2 ≠ nullValue := by
  decide +kernel

variable {name : String} {descriptor next : Descriptor}

theorem counterpart?_spec (h : counterpart? name = some next) :
    ∃ descriptor : Descriptor, descriptor.fullName = name ∧ descriptor.CarriedTo next ∧
      Registry.bundled.message? name = some descriptor ∧
      Registry.bundled.message? next.fullName = some next ∧ next.fullName ≠ name := by
  obtain ⟨⟨descriptor, other⟩, hpair, heq⟩ := List.mem_map.mp (Entries.mem_of_get? h)
  obtain ⟨rfl, rfl⟩ := Prod.mk.inj heq
  obtain ⟨hmem, hmem'⟩ := List.of_mem_zip hpair
  have hfirst : descriptor ∈ types := by
    simp only [types, List.mem_append]
    exact .inl (.inr hmem)
  have hsecond : other ∈ types := by
    simp only [types, List.mem_append]
    exact .inr hmem'
  refine ⟨descriptor, rfl, carriedTo_of_zip _ hpair, message?_of_mem hfirst,
    message?_of_mem hsecond, fun heq => ?_⟩
  rw [← heq, counterpart?_proto3 other hmem'] at h
  cases h

theorem typeInProto3_eq_self_iff : typeInProto3 name = name ↔ counterpart? name = none := by
  rw [typeInProto3]
  cases hnext : counterpart? name with
  | none => simp
  | some next => simpa using (counterpart?_spec hnext).choose_spec.2.2.2.2

theorem toProto3_of_none (h : counterpart? descriptor.fullName = none) :
    descriptor.toProto3 = descriptor := by
  rw [Descriptor.toProto3, h]
  rfl

theorem fullName_toProto3 (descriptor : Descriptor) :
    descriptor.toProto3.fullName = typeInProto3 descriptor.fullName := by
  rw [Descriptor.toProto3, typeInProto3]
  cases counterpart? descriptor.fullName <;> rfl

theorem message?_typeInProto3 (name : String) :
    Registry.bundled.message? (typeInProto3 name) =
      (Registry.bundled.message? name).map Descriptor.toProto3 := by
  cases hnext : counterpart? name with
  | none =>
      rw [typeInProto3_eq_self_iff.mpr hnext]
      cases hknown : Registry.bundled.message? name with
      | none => rfl
      | some descriptor =>
          obtain ⟨rfl, _⟩ := Registry.bundled_wellFormed.descriptors _ _ hknown
          rw [Option.map_some, toProto3_of_none hnext]
  | some next =>
      obtain ⟨descriptor, rfl, _, hknown, hknown', _⟩ := counterpart?_spec hnext
      rw [typeInProto3, hnext, Option.map_some, Option.getD_some, hknown', hknown, Option.map_some,
        Descriptor.toProto3, hnext, Option.getD_some]

theorem mapEntry?_toProto3 (hknown : Registry.bundled.message? name = some descriptor) :
    descriptor.toProto3.mapEntry? = descriptor.mapEntry?.map MapEntry.toProto3 := by
  obtain ⟨hmem, rfl⟩ := Registry.mem_of_message?_ofLists hknown
  cases hnext : counterpart? descriptor.fullName with
  | none =>
      rw [toProto3_of_none hnext]
      cases hentry : descriptor.mapEntry? with
      | none => rfl
      | some entry =>
          have hfields := kind_of_outside descriptor hmem hnext
          obtain ⟨fullName, shape⟩ := descriptor
          unfold Descriptor.mapEntry? at hentry
          split at hentry
          next own hshape =>
            cases hentry
            cases hshape
            simp only [Descriptor.fields, List.forall_mem_cons] at hfields
            rw [Option.map_some, MapEntry.toProto3]
            exact congrArg some (congrArg₂ MapEntry.mk hfields.1.symm hfields.2.1.symm)
          next => cases hentry
  | some next =>
      obtain ⟨_, _, hcarried, hknown', _⟩ := counterpart?_spec hnext
      rw [hknown] at hknown'
      cases hknown'
      rw [Descriptor.toProto3, hnext]
      exact hcarried.mapEntry

/-- The entries of a map of the first edition are carried to entries. -/
theorem counterpart?_of_mapEntry {entry : MapEntry}
    (hknown : Registry.bundled.message? name = some descriptor)
    (hentry : descriptor.mapEntry? = some entry) (hnext : counterpart? name = some next) :
    next = ⟨typeInProto3 name, .mapEntry entry.toProto3⟩ := by
  have hmap := mapEntry?_toProto3 hknown
  obtain ⟨rfl, _⟩ := Registry.bundled_wellFormed.descriptors _ _ hknown
  rw [Descriptor.toProto3, hnext, hentry, Option.getD_some, Option.map_some] at hmap
  rw [typeInProto3, hnext, Option.map_some, Option.getD_some]
  obtain ⟨fullName, shape⟩ := next
  unfold Descriptor.mapEntry? at hmap
  split at hmap
  next own hshape =>
    cases hmap
    cases hshape
    rfl
  next => cases hmap

/-- An enumeration is carried to one with the same names and numbers. -/
theorem rel_enumeration? (name : String) :
    Option.Rel (fun enumeration next : Enumeration => next.values = enumeration.values)
      (Registry.bundled.enumeration? name)
      (Registry.bundled.enumeration? (enumerationInProto3 name)) := by
  have hvalues : (Registry.bundled.enumeration? (enumerationInProto3 name)).map
      Enumeration.values = (Registry.bundled.enumeration? name).map Enumeration.values := by
    rw [enumerationInProto3]
    cases hnext : Entries.get? name enumerationCounterparts with
    | none => rfl
    | some next => exact (enumerations_carried _ (Entries.mem_of_get? hnext)).1
  cases hknown : Registry.bundled.enumeration? name with
  | none =>
      rw [hknown, Option.map_none, Option.map_eq_none_iff] at hvalues
      rw [hvalues]
      exact .none
  | some enumeration =>
      rw [hknown, Option.map_some, Option.map_eq_some_iff] at hvalues
      obtain ⟨next, hnext, hvalues⟩ := hvalues
      rw [hnext]
      exact .some hvalues

theorem enumerationInProto3_eq_nullValue_iff :
    enumerationInProto3 name = nullValue ↔ name = nullValue := by
  rw [enumerationInProto3]
  cases hnext : Entries.get? name enumerationCounterparts with
  | none => rfl
  | some next =>
      obtain ⟨_, hname, hothers⟩ := enumerations_carried _ (Entries.mem_of_get? hnext)
      exact ⟨fun h => absurd h hothers, fun h => absurd h hname⟩

end Bundled

@[simp] theorem Kind.isMessage_toProto3 (kind : Kind) :
    kind.toProto3.isMessage = kind.isMessage := by
  cases kind <;> rfl

namespace Field.CarriedTo

variable {field next : Field}

theorem name (h : field.CarriedTo next) : next.name = field.name := by
  rw [h.1]

theorem jsonName (h : field.CarriedTo next) : next.jsonName = field.jsonName := by
  rw [Field.jsonName, h.name, Field.jsonName]

theorem number (h : field.CarriedTo next) : next.number = field.number := by
  rw [h.1]

theorem kind (h : field.CarriedTo next) : next.kind = field.kind.toProto3 := by
  rw [h.1]

theorem repeated (h : field.CarriedTo next) : next.repeated = field.repeated := by
  rw [h.1]

theorem oneof (h : field.CarriedTo next) : next.oneof = field.oneof := by
  rw [h.1]

/-- A map is carried to the map with the counterparts of its kinds. -/
theorem mapEntry? (h : field.CarriedTo next) :
    next.mapEntry? .bundled = (field.mapEntry? .bundled).map fun found =>
      (typeInProto3 found.1, found.2.toProto3) := by
  rw [Field.mapEntry?, Field.mapEntry?, h.repeated, h.kind]
  cases field.repeated with
  | false => rfl
  | true =>
      cases field.kind with
      | message type =>
          simp only [Kind.toProto3, message?_typeInProto3]
          cases hknown : Registry.bundled.message? type with
          | none => rfl
          | some descriptor =>
              simp only [Option.map_some, Option.bind_eq_bind, Option.bind_some,
                mapEntry?_toProto3 hknown, fullName_toProto3]
              cases descriptor.mapEntry? <;> rfl
      | _ => rfl

end Field.CarriedTo

end Textproto
