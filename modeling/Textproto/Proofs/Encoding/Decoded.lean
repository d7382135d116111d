import Textproto.Proofs.Decoding
import Textproto.Proofs.Encoding.Agreement
import Textproto.Proofs.Encoding.Refusal

namespace Textproto

/-! What is decoded as one of the bundled types, and then written as JSON. -/

namespace Message

variable {registry : Registry} {m : Message} {cause : EncodeCause}

/-- Only types of a form of their own have flaws. -/
theorem Flaw.named (h : m.Flaw cause) :
    ∃ type, m.descriptor.wellKnown?.bind Bundled.nameOf? = some type := by
  cases h with
  | duration htype | nanos htype | seconds htype | noMember htype | notFinite htype
  | path htype =>
      rw [htype]
      exact ⟨_, rfl⟩

theorem flaw?_eq_none_iff (hm : m.WellTyped registry) (hd : m.descriptor.WellFormed registry) :
    m.flaw? = none ↔ ∀ cause, ¬m.Flaw cause := by
  constructor
  · intro hnone cause hflaw
    obtain ⟨type, htype⟩ := hflaw.named
    have hsome : m.flaw? = some ⟨type, cause⟩ := (flaw?_eq_some_iff hm hd).mpr ⟨hflaw, htype⟩
    rw [hnone] at hsome
    cases hsome
  · intro h
    cases hflaw : m.flaw? with
    | none => rfl
    | some error => exact absurd ((flaw?_eq_some_iff hm hd).mp hflaw).1 (h error.cause)

end Message

/-- A message of a known type and all in it are of known types. -/
theorem Message.WellTyped.known {registry : Registry} (hregistry : registry.WellFormed)
    {name : String} {m part : Message} (hm : m.WellTyped registry)
    (hknown : registry.message? name = some m.descriptor) (hpart : part.Within m) :
    part.WellTyped registry ∧ part.descriptor.WellFormed registry ∧
      registry.message? part.descriptor.fullName = some part.descriptor := by
  obtain ⟨hpartTyped, partName, hpartKnown⟩ := hm.within hknown hpart
  obtain ⟨rfl, hd⟩ := hregistry.descriptors partName _ hpartKnown
  exact ⟨hpartTyped, hd, hpartKnown⟩

namespace Encoding

variable {registry : Registry} {m : Message} {name : String}

theorem json_eq_error_iff (hregistry : registry.WellFormed) (hm : m.WellTyped registry)
    (hknown : registry.message? name = some m.descriptor) {error : EncodeError} :
    messageJson registry m = .error error ↔
      ∃ before part after, m.emitted = before ++ part :: after ∧
        (∀ other ∈ before, ∀ cause, ¬other.Flaw cause) ∧ part.Flaw error.cause ∧
        part.descriptor.wellKnown?.bind Bundled.nameOf? = some error.type := by
  have hpart (part : Message) (hpart : part ∈ m.emitted) :=
    hm.known hregistry hknown ((Message.mem_emitted_iff hm).mp hpart)
  rw [← refusal?_eq_some_iff, (refusal?_json hregistry hm (hregistry.descriptors name _ hknown).2).1,
    List.findSome?_eq_some_iff]
  refine exists_congr fun before => exists_congr fun part => exists_congr fun after =>
    and_congr_right fun heq => ?_
  obtain ⟨hwellTyped, hd, _⟩ := hpart part (by simp [heq])
  rw [Message.flaw?_eq_some_iff hwellTyped hd, and_comm]
  refine and_congr_left fun _ => forall₂_congr fun other hother => ?_
  obtain ⟨hother, hd, _⟩ := hpart other (by simp [heq, hother])
  exact Message.flaw?_eq_none_iff hother hd

/-- What has a flaw in it is refused, and nothing else is. -/
theorem refused_iff (hregistry : registry.WellFormed) (hm : m.WellTyped registry)
    (hknown : registry.message? name = some m.descriptor) :
    (∃ error, messageJson registry m = .error error) ↔
      ∃ part : Message, part.Within m ∧ ∃ cause, part.Flaw cause := by
  constructor
  · rintro ⟨error, herror⟩
    obtain ⟨before, part, after, heq, _, hflaw, _⟩ :=
      (json_eq_error_iff hregistry hm hknown).mp herror
    exact ⟨part, (Message.mem_emitted_iff hm).mp (by simp [heq]), error.cause, hflaw⟩
  · rintro ⟨part, hwithin, cause, hflaw⟩
    obtain ⟨hpart, hd, _⟩ := hm.known hregistry hknown hwithin
    have hin := (Message.mem_emitted_iff hm).mpr hwithin
    cases hresult : messageJson registry m with
    | error error => exact ⟨error, rfl⟩
    | ok json =>
        have hnone : m.emitted.findSome? Message.flaw? = none := by
          rw [← (refusal?_json hregistry hm (hregistry.descriptors name _ hknown).2).1, hresult]
          rfl
        have hclean := List.findSome?_eq_none_iff.mp hnone part hin
        exact absurd hflaw ((Message.flaw?_eq_none_iff hpart hd).mp hclean cause)

end Encoding

/-- A decoded message is refused for the first flaw among the messages that are written for it,
which are all those in it, and for nothing else. -/
theorem toJson_eq_error_iff {name : String} {descriptor : Descriptor}
    (hknown : Registry.bundled.message? name = some descriptor) {bytes : List UInt8}
    {message : Message} (h : decode .bundled descriptor bytes = .ok message) :
    (∀ part, part ∈ message.emitted ↔ part.Within message) ∧
      ((∃ error, message.toJson .bundled = .error error) ↔
        ∃ part : Message, part.Within message ∧ ∃ cause, part.Flaw cause) ∧
      ∀ error, message.toJson .bundled = .error error ↔
        ∃ before part after, message.emitted = before ++ part :: after ∧
          (∀ other ∈ before, ∀ cause, ¬other.Flaw cause) ∧ part.Flaw error.cause ∧
          error.type = part.descriptor.fullName := by
  obtain ⟨hm, rfl⟩ := decode_typed Registry.bundled_wellFormed hknown h
  have hmem (part : Message) : part ∈ message.emitted ↔ part.Within message :=
    Message.mem_emitted_iff hm
  refine ⟨hmem, Encoding.refused_iff Registry.bundled_wellFormed hm hknown, fun error => ?_⟩
  rw [Message.toJson, Encoding.json_eq_error_iff Registry.bundled_wellFormed hm hknown]
  refine exists_congr fun before => exists_congr fun part => exists_congr fun after =>
    and_congr_right fun heq => and_congr_right fun _ => and_congr_right fun hflaw => ?_
  have hpart : part.Within message := (hmem part).mp (by simp [heq])
  obtain ⟨_, _, hpartKnown⟩ := hm.known Registry.bundled_wellFormed hknown hpart
  -- The error has the name that goes with the form, and no other bundled type has that form.
  obtain ⟨own, hown⟩ := hflaw.named
  rw [Bundled.name_of_wellKnown hpartKnown hown, hown, Option.some.injEq, eq_comm]

/-- A `Value` with nothing set, which no bytes spell. -/
theorem toJson_eq_error_empty :
    decode .bundled Bundled.structValueType [] = .ok (.empty Bundled.structValueType) ∧
      (Message.empty Bundled.structValueType).toJson .bundled =
        .error ⟨Bundled.structValue, .noMember⟩ := by
  have hdecode : decode .bundled Bundled.structValueType [] =
      .ok (.empty Bundled.structValueType) := by
    cbv
  refine ⟨hdecode, ((toJson_eq_error_iff Bundled.message?_structValue hdecode).2.2 _).mpr ?_⟩
  refine ⟨[], .empty Bundled.structValueType, [], rfl, by simp, .noMember rfl ?_, rfl⟩
  exact fun field _ _ => Message.content?_empty _ field.number

theorem decode_bare {registry : Registry} {descriptor : Descriptor} {bytes : List UInt8}
    {message : Message} (h : decode registry descriptor bytes = .ok message) :
    message.Throughout Binding.Bare := by
  obtain ⟨_, _, _, _, hbind⟩ := decode_eq_ok_iff.mp h
  exact Binding.messageOf_bare hbind

/-- Decoded messages that are written alike agree, unless there is a field mask in them. -/
theorem toJson_injective {name : String} {descriptor : Descriptor}
    (hknown : Registry.bundled.message? name = some descriptor) {bytes others : List UInt8}
    {m n : Message} (hm : decode .bundled descriptor bytes = .ok m)
    (hn : decode .bundled descriptor others = .ok n)
    (hmask : ∀ part : Message, part.Within m ∨ part.Within n →
      part.descriptor.fullName ≠ Bundled.fieldMask)
    {json other : Json} (hjson : m.toJson .bundled = .ok json)
    (hother : n.toJson .bundled = .ok other) (h : Json.Same json other) :
    m.Agrees .bundled n := by
  obtain ⟨hmTyped, hmDescriptor⟩ := decode_typed Registry.bundled_wellFormed hknown hm
  obtain ⟨hnTyped, hnDescriptor⟩ := decode_typed Registry.bundled_wellFormed hknown hn
  -- What is decoded is bare throughout, and what has the form of a mask has its name.
  have hdistinct {p : Message} (hp : p.WellTyped .bundled) (hdescriptor : p.descriptor = descriptor)
      (hbare : p.Throughout Binding.Bare)
      (hmask : ∀ part : Message, part.Within p → part.descriptor.fullName ≠ Bundled.fieldMask) :
      p.Throughout Encoding.Distinct := by
    intro part hpart
    refine ⟨hbare part hpart, fun hown => hmask part hpart ?_⟩
    obtain ⟨_, _, hpartKnown⟩ := hp.known Registry.bundled_wellFormed (hdescriptor ▸ hknown) hpart
    exact Bundled.name_of_fieldMask hpartKnown hown
  have hd := (Registry.bundled_wellFormed.descriptors name descriptor hknown).2
  exact Encoding.told Registry.bundled_wellFormed hmTyped hnTyped (hmDescriptor ▸ hd)
    (hmDescriptor.trans hnDescriptor.symm)
    (hdistinct hmTyped hmDescriptor (decode_bare hm) fun part hpart => hmask part (.inl hpart))
    (hdistinct hnTyped hnDescriptor (decode_bare hn) fun part hpart => hmask part (.inr hpart))
    json other hjson hother h

/-- A number that is zero, and one that is not written. -/
theorem toJson_injective_zero :
    decode .bundled (Bundled.wrapper "Int32Value" .int32) (Utf8.encode "value:0".toList) =
        .ok ⟨Bundled.wrapper "Int32Value" .int32, [(1, .single (.int32 0))], none⟩ ∧
      decode .bundled (Bundled.wrapper "Int32Value" .int32) [] =
        .ok (.empty (Bundled.wrapper "Int32Value" .int32)) ∧
      Message.Agrees .bundled ⟨Bundled.wrapper "Int32Value" .int32, [(1, .single (.int32 0))], none⟩
        (.empty (Bundled.wrapper "Int32Value" .int32)) := by
  have hwritten : decode .bundled (Bundled.wrapper "Int32Value" .int32)
      (Utf8.encode "value:0".toList) =
        .ok ⟨Bundled.wrapper "Int32Value" .int32, [(1, .single (.int32 0))], none⟩ := by
    rw [decode_encode]
    cbv
  have hempty : decode .bundled (Bundled.wrapper "Int32Value" .int32) [] =
      .ok (.empty (Bundled.wrapper "Int32Value" .int32)) := by
    cbv
  have hknown : Registry.bundled.message? "google.protobuf.Int32Value" =
      some (Bundled.wrapper "Int32Value" .int32) :=
    @Bundled.message?_of_mem (Bundled.wrapper "Int32Value" .int32)
      (Bundled.mem_types_of_wellKnown (by decide))
  have halone {p : Message} {bytes : List UInt8}
      (hp : decode .bundled (Bundled.wrapper "Int32Value" .int32) bytes = .ok p)
      (hemitted : p.emitted = [p]) {part : Message} (hpart : part.Within p) :
      part.descriptor.fullName ≠ Bundled.fieldMask := by
    obtain ⟨hwellTyped, hdescriptor⟩ := decode_typed Registry.bundled_wellFormed hknown hp
    rw [← Message.mem_emitted_iff hwellTyped, hemitted, List.mem_singleton] at hpart
    rw [hpart, hdescriptor]
    decide
  have hmask (part : Message)
      (hpart : part.Within ⟨Bundled.wrapper "Int32Value" .int32, [(1, .single (.int32 0))], none⟩ ∨
        part.Within (.empty (Bundled.wrapper "Int32Value" .int32))) :
      part.descriptor.fullName ≠ Bundled.fieldMask := by
    rcases hpart with hpart | hpart
    · exact halone hwritten rfl hpart
    · exact halone hempty rfl hpart
  have hjson : Message.toJson .bundled
      ⟨Bundled.wrapper "Int32Value" .int32, [(1, .single (.int32 0))], none⟩ = .ok (.int 0) := by
    cbv
  have hother : Message.toJson .bundled (.empty (Bundled.wrapper "Int32Value" .int32)) =
      .ok (.int 0) := by
    cbv
  exact ⟨hwritten, hempty, toJson_injective hknown hwritten hempty hmask hjson hother .int⟩

end Textproto
