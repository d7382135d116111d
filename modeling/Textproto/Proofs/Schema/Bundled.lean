import Mathlib
import Textproto.Proofs.Schema.WellFormed
import Textproto.Proofs.Text.Bytes
import Textproto.Schema.Bundled

namespace Textproto

/-! The bundled types are what the binder and the encoder rely on. -/

namespace Registry

theorem messages_ofLists (messages : List Descriptor) (enumerations : List Enumeration) :
    (ofLists messages enumerations).messages =
      messages.foldl (fun all d => Entries.put d.fullName d all) [] := by
  have henumerations (registry : Registry) :
      (enumerations.foldl addEnumeration registry).messages = registry.messages := by
    induction enumerations generalizing registry with
    | nil => rfl
    | cons enumeration rest ih => exact ih (registry.addEnumeration enumeration)
  have hmessages (registry : Registry) : (messages.foldl addMessage registry).messages =
      messages.foldl (fun all d => Entries.put d.fullName d all) registry.messages := by
    induction messages generalizing registry with
    | nil => rfl
    | cons descriptor rest ih => exact ih (registry.addMessage descriptor)
  rw [ofLists, henumerations, hmessages]

theorem enumerations_ofLists (messages : List Descriptor) (enumerations : List Enumeration) :
    (ofLists messages enumerations).enumerations =
      enumerations.foldl (fun all e => Entries.put e.fullName e all) [] := by
  have hmessages (registry : Registry) :
      (messages.foldl addMessage registry).enumerations = registry.enumerations := by
    induction messages generalizing registry with
    | nil => rfl
    | cons descriptor rest ih => exact ih (registry.addMessage descriptor)
  have henumerations (registry : Registry) : (enumerations.foldl addEnumeration registry).enumerations =
      enumerations.foldl (fun all e => Entries.put e.fullName e all) registry.enumerations := by
    induction enumerations generalizing registry with
    | nil => rfl
    | cons enumeration rest ih => exact ih (registry.addEnumeration enumeration)
  rw [ofLists, henumerations, hmessages]

variable {messages : List Descriptor} {enumerations : List Enumeration} {name : String}

theorem mem_of_message?_ofLists {descriptor : Descriptor}
    (h : (ofLists messages enumerations).message? name = some descriptor) :
    descriptor ∈ messages ∧ descriptor.fullName = name := by
  rw [message?, messages_ofLists] at h
  rcases Entries.get?_foldl_put h with ⟨found, hmem, hname, rfl⟩ | hnone
  · exact ⟨hmem, hname⟩
  · cases hnone

theorem message?_ofLists_isSome :
    ((ofLists messages enumerations).message? name).isSome = true ↔
      name ∈ messages.map Descriptor.fullName := by
  rw [message?, messages_ofLists, Entries.get?_isSome_iff, Entries.mem_map_fst_foldl_put]
  simp

theorem mem_of_enumeration?_ofLists {enumeration : Enumeration}
    (h : (ofLists messages enumerations).enumeration? name = some enumeration) :
    enumeration ∈ enumerations ∧ enumeration.fullName = name := by
  rw [enumeration?, enumerations_ofLists] at h
  rcases Entries.get?_foldl_put h with ⟨found, hmem, hname, rfl⟩ | hnone
  · exact ⟨hmem, hname⟩
  · cases hnone

theorem enumeration?_ofLists_isSome :
    ((ofLists messages enumerations).enumeration? name).isSome = true ↔
      name ∈ enumerations.map Enumeration.fullName := by
  rw [enumeration?, enumerations_ofLists, Entries.get?_isSome_iff, Entries.mem_map_fst_foldl_put]
  simp

end Registry

/-! Checks that compute. Names are told apart by their weights, so that few of them have to be
compared. -/

namespace Bundled

def weigh (text : List Char) : Nat :=
  text.foldl (fun sum c => (sum * 31 + c.toNat) % 65521) 0

/-- What a name weighs, if it is ASCII. Any other name has a weight that says nothing of it. -/
def weight (name : String) : Nat :=
  weigh (Utf8.asciiOf name)

/-- What the JSON name of a field weighs, if the field's own name is ASCII. -/
def jsonWeight (field : Field) : Nat :=
  weigh (Camel.ofWords (Camel.words (Utf8.asciiOf field.name)))

def noneTwice (seen : Nat) : List Nat → Bool
  | [] => true
  | n :: rest => !seen.testBit n && noneTwice (seen ||| 1 <<< n) rest

def isAmong (names : List String) (name : String) : Bool :=
  names.any fun other => weight other == weight name && other == name

def Kind.isIn (messages enumerations : List String) : Kind → Bool
  | .message name => isAmong messages name
  | .enum name => isAmong enumerations name
  | _ => true

/-- Types other than the well-known ones are plain or entries of maps. -/
def hasPlainShape (descriptor : Descriptor) : Bool :=
  match descriptor.shape with
  | .message _ => true
  | .mapEntry entry => entry.key.isKey
  | .wellKnown _ _ => false

/-- The type that is written in a form of its own. Wrappers share theirs. -/
def nameOf? : WellKnown → Option String
  | .any => some any
  | .empty => some empty
  | .duration => some duration
  | .timestamp => some timestamp
  | .wrapper => none
  | .struct => some struct
  | .value => some structValue
  | .listValue => some structList
  | .fieldMask => some fieldMask

/-- A type whose fields refer to no others than these. Its JSON names are told apart from one
another and from the member that names a type. -/
structure Checked (messages enumerations : List String) (descriptor : Descriptor) : Prop where
  name : (descriptor.wellKnown?.bind nameOf?).all (· = descriptor.fullName) = true
  numbers : noneTwice 0 (descriptor.fields.map Field.number) = true
  jsonNames : noneTwice (1 <<< weigh "@type".toList) (descriptor.fields.map jsonWeight) = true
  ascii : ∀ field ∈ descriptor.fields, Utf8.isAscii field.name = true
  kinds : ∀ field ∈ descriptor.fields, Kind.isIn messages enumerations field.kind = true
  choices : ∀ field ∈ descriptor.fields, field.repeated = true → field.oneof = none

instance (messages enumerations : List String) (descriptor : Descriptor) :
    Decidable (Checked messages enumerations descriptor) :=
  decidable_of_iff
    ((descriptor.wellKnown?.bind nameOf?).all (· = descriptor.fullName) = true ∧
      noneTwice 0 (descriptor.fields.map Field.number) = true ∧
      noneTwice (1 <<< weigh "@type".toList) (descriptor.fields.map jsonWeight) = true ∧
      (∀ field ∈ descriptor.fields, Utf8.isAscii field.name = true) ∧
      (∀ field ∈ descriptor.fields, Kind.isIn messages enumerations field.kind = true) ∧
      ∀ field ∈ descriptor.fields, field.repeated = true → field.oneof = none)
    ⟨fun h => ⟨h.1, h.2.1, h.2.2.1, h.2.2.2.1, h.2.2.2.2.1, h.2.2.2.2.2⟩,
      fun h => ⟨h.name, h.numbers, h.jsonNames, h.ascii, h.kinds, h.choices⟩⟩

theorem types_checked : ∀ d ∈ types,
    Checked (types.map Descriptor.fullName) (enumerations.map Enumeration.fullName) d := by
  decide +kernel

theorem names_enumerators_shapes : noneTwice 0 (types.map fun d => weight d.fullName) = true ∧
    (∀ e ∈ enumerations, (e.values.map Prod.fst).Nodup) ∧
    ∀ d ∈ valueTypes ++ outcomeTypes ++ checkedTypes ++ conformanceTypes
      ++ Edition.proto2.types ++ Edition.proto3.types, hasPlainShape d = true := by
  decide +kernel

theorem nodup_of_noneTwice {weights : List Nat} {seen : Nat} (h : noneTwice seen weights = true) :
    weights.Nodup ∧ ∀ n ∈ weights, seen.testBit n = false := by
  induction weights generalizing seen with
  | nil => simp
  | cons n rest ih =>
      simp only [noneTwice, Bool.and_eq_true, Bool.not_eq_true'] at h
      obtain ⟨hrest, hseen⟩ := ih h.2
      have hone (m : Nat) (hm : m ∈ rest) : m ≠ n ∧ seen.testBit m = false := by
        have hbit := hseen m hm
        simp only [Nat.testBit_or, Nat.one_shiftLeft, Nat.testBit_two_pow, Bool.or_eq_false_iff,
          decide_eq_false_iff_not] at hbit
        exact ⟨fun heq => hbit.2 heq.symm, hbit.1⟩
      refine ⟨List.nodup_cons.mpr ⟨fun hn => (hone n hn).1 rfl, hrest⟩, ?_⟩
      intro m hm
      rcases List.mem_cons.mp hm with rfl | hm
      · exact h.1
      · exact (hone m hm).2

theorem nodup_of_map {α β : Type} {f : α → β} {items : List α} (h : (items.map f).Nodup) :
    items.Nodup := by
  induction items with
  | nil => exact List.nodup_nil
  | cons item items ih =>
      rw [List.map_cons, List.nodup_cons] at h
      exact List.nodup_cons.mpr ⟨fun hmem => h.1 (List.mem_map_of_mem hmem), ih h.2⟩

theorem nodup_fullNames : (types.map Descriptor.fullName).Nodup := by
  refine nodup_of_map (f := weight) ?_
  rw [List.map_map]
  exact (nodup_of_noneTwice names_enumerators_shapes.1).1

theorem mem_of_isAmong {names : List String} {name : String} (h : isAmong names name = true) :
    name ∈ names := by
  simp only [isAmong, List.any_eq_true, Bool.and_eq_true, beq_iff_eq] at h
  obtain ⟨_, hmem, _, rfl⟩ := h
  exact hmem

theorem weigh_jsonName {field : Field} (h : Utf8.isAscii field.name = true) :
    weigh field.jsonName.toList = jsonWeight field := by
  rw [jsonWeight, ← Utf8.toList_eq_asciiOf h, Field.jsonName, Camel.lowerCamel,
    String.toList_ofList]

namespace Checked

variable {messages enumerations : List String} {descriptor : Descriptor}

theorem nodup_numbers (h : Checked messages enumerations descriptor) :
    (descriptor.fields.map Field.number).Nodup :=
  (nodup_of_noneTwice h.numbers).1

theorem nodup_jsonNames (h : Checked messages enumerations descriptor) :
    (descriptor.fields.map Field.jsonName).Nodup := by
  refine nodup_of_map (f := fun name => weigh name.toList) ?_
  rw [List.map_map]
  have hweights := (nodup_of_noneTwice h.jsonNames).1
  rwa [← List.map_congr_left fun field hfield => weigh_jsonName (h.ascii field hfield)] at hweights

theorem jsonName_ne_type (h : Checked messages enumerations descriptor) :
    ∀ field ∈ descriptor.fields, field.jsonName ≠ "@type" := by
  intro field hfield heq
  have hweight := (nodup_of_noneTwice h.jsonNames).2 _ (List.mem_map_of_mem hfield)
  rw [← weigh_jsonName (h.ascii field hfield), heq, Nat.one_shiftLeft,
    Nat.testBit_two_pow_self] at hweight
  cases hweight

end Checked

theorem resolves {descriptor : Descriptor} (hd : descriptor ∈ types) {field : Field}
    (hfield : field ∈ descriptor.fields) : field.kind.Resolves .bundled := by
  have hin := (types_checked descriptor hd).kinds field hfield
  unfold Kind.Resolves
  split
  next name hkind =>
    rw [hkind] at hin
    exact Registry.enumeration?_ofLists_isSome.mpr (mem_of_isAmong hin)
  next name hkind =>
    rw [hkind] at hin
    exact Registry.message?_ofLists_isSome.mpr (mem_of_isAmong hin)
  next => trivial

/-- Every bundled type is known under its name. -/
theorem message?_of_mem {descriptor : Descriptor} (hd : descriptor ∈ types) :
    Registry.bundled.message? descriptor.fullName = some descriptor := by
  obtain ⟨found, hknown⟩ := Option.isSome_iff_exists.mp
    (Registry.message?_ofLists_isSome.mpr (List.mem_map_of_mem (f := Descriptor.fullName) hd))
  obtain ⟨hfound, hname⟩ := Registry.mem_of_message?_ofLists hknown
  exact hknown.trans (congrArg some (eq_of_nodup_map nodup_fullNames hfound hd hname))

theorem mem_types_of_wellKnown {descriptor : Descriptor} (hd : descriptor ∈ wellKnownTypes) :
    descriptor ∈ types := by
  simp only [types, List.mem_append]
  exact .inl (.inl (.inl (.inl (.inl (.inl hd)))))

theorem message?_structEntry : Registry.bundled.message? structEntry =
    some ⟨structEntry, .mapEntry ⟨.string, .message structValue⟩⟩ :=
  @message?_of_mem ⟨structEntry, .mapEntry ⟨.string, .message structValue⟩⟩
    (mem_types_of_wellKnown (by simp [wellKnownTypes]))

def structValueType : Descriptor :=
  ⟨structValue, .wellKnown .value
    [ .member "kind" "null_value" 1 (.enum nullValue),
      .member "kind" "number_value" 2 .double,
      .member "kind" "string_value" 3 .string,
      .member "kind" "bool_value" 4 .bool,
      .member "kind" "struct_value" 5 (.message struct),
      .member "kind" "list_value" 6 (.message structList) ]⟩

def structListType : Descriptor :=
  ⟨structList, .wellKnown .listValue [.many "values" 1 (.message structValue)]⟩

theorem message?_structValue :
    Registry.bundled.message? structValue = some structValueType :=
  @message?_of_mem structValueType
    (mem_types_of_wellKnown (by simp [wellKnownTypes, structValueType]))

theorem message?_structList : Registry.bundled.message? structList = some structListType :=
  @message?_of_mem structListType
    (mem_types_of_wellKnown (by simp [wellKnownTypes, structListType]))

theorem message?_struct : Registry.bundled.message? struct =
    some ⟨struct, .wellKnown .struct [.many "fields" 1 (.message structEntry)]⟩ :=
  @message?_of_mem ⟨struct, .wellKnown .struct [.many "fields" 1 (.message structEntry)]⟩
    (mem_types_of_wellKnown (by simp [wellKnownTypes]))

theorem wellKnown_of_struct (descriptor : Descriptor)
    (h : Registry.bundled.message? struct = some descriptor) :
    descriptor.wellKnown? = some .struct := by
  rw [message?_struct] at h
  cases h
  rfl

theorem wellKnown_of_structList (descriptor : Descriptor)
    (h : Registry.bundled.message? structList = some descriptor) :
    descriptor.wellKnown? = some .listValue := by
  rw [message?_structList] at h
  cases h
  rfl

theorem not_mapEntry_structValue (descriptor : Descriptor)
    (h : Registry.bundled.message? structValue = some descriptor) :
    descriptor.mapEntry? = none := by
  rw [message?_structValue] at h
  cases h
  rfl

theorem wrapper_wellFormed (name : String) {kind : Kind} (hscalar : kind.isMessage = false)
    (hnull : kind ≠ .enum nullValue) : (wrapper name kind).shape.WellFormed .bundled :=
  ⟨kind, hscalar, hnull, rfl⟩

theorem wellKnownTypes_wellFormed : ∀ d ∈ wellKnownTypes, d.shape.WellFormed .bundled := by
  intro d hd
  simp only [wellKnownTypes, List.mem_cons, List.not_mem_nil, or_false] at hd
  rcases hd with rfl | rfl | rfl | rfl | rfl | rfl | rfl | rfl | rfl | rfl | rfl | rfl | rfl | rfl |
    rfl | rfl | rfl | rfl
  all_goals first
    | exact rfl
    | exact wrapper_wellFormed _ rfl nofun
    | exact ⟨rfl, message?_structEntry⟩
    | exact ⟨rfl, wellKnown_of_struct, wellKnown_of_structList⟩
    | exact ⟨rfl, not_mapEntry_structValue⟩

theorem shapes_wellFormed : ∀ d ∈ types, d.shape.WellFormed .bundled := by
  intro d hd
  have hcases : d ∈ wellKnownTypes ∨ d ∈ valueTypes ++ outcomeTypes ++ checkedTypes
      ++ conformanceTypes ++ Edition.proto2.types ++ Edition.proto3.types := by
    simp only [types, List.mem_append, or_assoc] at hd ⊢
    exact hd
  rcases hcases with hd | hd
  · exact wellKnownTypes_wellFormed d hd
  · have hplain := names_enumerators_shapes.2.2 d hd
    unfold hasPlainShape at hplain
    unfold Shape.WellFormed
    split at hplain
    next heq => rw [heq]; trivial
    next heq => rw [heq]; exact hplain
    next => cases hplain

end Bundled

theorem Registry.bundled_wellFormed : Registry.bundled.WellFormed where
  descriptors := by
    intro name descriptor h
    obtain ⟨hd, hname⟩ := mem_of_message?_ofLists h
    have hchecked := Bundled.types_checked descriptor hd
    exact ⟨hname, hchecked.nodup_numbers, hchecked.nodup_jsonNames, hchecked.jsonName_ne_type,
      fun field hfield => Bundled.resolves hd hfield, hchecked.choices,
      Bundled.shapes_wellFormed descriptor hd⟩
  enumerations := by
    intro name enumeration h
    obtain ⟨he, hname⟩ := mem_of_enumeration?_ofLists h
    exact ⟨hname, Bundled.names_enumerators_shapes.2.1 enumeration he⟩

namespace Bundled

variable {name : String} {descriptor : Descriptor}

theorem name_of_wellKnown (h : Registry.bundled.message? name = some descriptor) {own : String}
    (hown : descriptor.wellKnown?.bind nameOf? = some own) : name = own := by
  obtain ⟨hd, rfl⟩ := Registry.mem_of_message?_ofLists h
  have hall := (types_checked descriptor hd).name
  rw [hown] at hall
  simpa [eq_comm] using hall

theorem name_of_any (h : Registry.bundled.message? name = some descriptor)
    (hany : descriptor.wellKnown? = some .any) : name = any :=
  name_of_wellKnown h (by rw [hany]; rfl)

theorem name_of_fieldMask (h : Registry.bundled.message? name = some descriptor)
    (hmask : descriptor.wellKnown? = some .fieldMask) : name = fieldMask :=
  name_of_wellKnown h (by rw [hmask]; rfl)

end Bundled

end Textproto
