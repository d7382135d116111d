import Textproto.Proofs.Binding.Acceptance
import Textproto.Proofs.Encoding.Typed
import Textproto.Proofs.Schema.Bundled

namespace Textproto

/-! What is decoded as one of the bundled types. -/

/-- The fields that make up a message of a bundled type are the valid ones. -/
theorem messageOf_bundled_iff_valid {name : String} {descriptor : Descriptor}
    (hknown : Registry.bundled.message? name = some descriptor) (fields : List Tree.Field) :
    (∃ message, Binding.messageOf .bundled descriptor fields = .ok message) ↔
      Binding.Valid .bundled descriptor fields :=
  Binding.messageOf_iff_valid Registry.bundled_wellFormed
    (Registry.bundled_wellFormed.descriptors name descriptor hknown).2 fields

/-- A list takes a value with nothing set. -/
theorem messageOf_bundled_element :
    ∃ message, Binding.messageOf .bundled Bundled.structListType
      [⟨.plain "values".toList, .start, .message [] .start⟩] = .ok message := by
  have hvalue : Binding.Valid .bundled Bundled.structValueType [] :=
    .mk (by simp) .nil nofun
  refine (messageOf_bundled_iff_valid Bundled.message?_structList _).mpr
    (.mk ?_ (List.pairwise_singleton _ _) nofun)
  intro field hfield
  rw [List.mem_singleton.mp hfield]
  exact .item ⟨List.mem_cons_self, rfl⟩ (.message Bundled.message?_structValue hvalue)

theorem decode_encode (registry : Registry) (descriptor : Descriptor) (text : List Char) :
    decode registry descriptor (Utf8.encode text) = decodeText registry descriptor text := by
  simp only [decode, Utf8.decode_encode]

theorem decode_eq_ok_iff {registry : Registry} {descriptor : Descriptor} {bytes : List UInt8}
    {message : Message} : decode registry descriptor bytes = .ok message ↔
      ∃ text fields, Utf8.decode bytes = .ok text ∧ Tree.parse text = .ok fields ∧
        Binding.messageOf registry descriptor fields = .ok message := by
  constructor
  · intro h
    unfold decode decodeText at h
    split at h
    next => cases h
    next text htext =>
      split at h
      next => cases h
      next fields hfields =>
        cases hbind : Binding.messageOf registry descriptor fields with
        | error error =>
            rw [hbind] at h
            cases h
        | ok bound =>
            rw [hbind] at h
            cases h
            exact ⟨text, fields, htext, hfields, hbind⟩
  · rintro ⟨text, fields, htext, hfields, hbind⟩
    simp [decode, decodeText, htext, hfields, hbind, Except.mapError]

theorem decode_of_parse {registry : Registry} {descriptor : Descriptor} {text : List Char}
    {fields : List Tree.Field} {message : Message} (hfields : Tree.parse text = .ok fields) :
    decode registry descriptor (Utf8.encode text) = .ok message ↔
      Binding.messageOf registry descriptor fields = .ok message := by
  constructor
  · intro h
    obtain ⟨read, other, htext, hother, hmessage⟩ := decode_eq_ok_iff.mp h
    rw [Utf8.decode_encode] at htext
    cases htext
    rw [hfields] at hother
    cases hother
    exact hmessage
  · exact fun h => decode_eq_ok_iff.mpr ⟨text, fields, Utf8.decode_encode text, hfields, h⟩

/-- A run from bytes to the text of its JSON, in steps. -/
theorem exists_of_compact {registry : Registry} {descriptor : Descriptor} {bytes : List UInt8}
    {text : String}
    (h : ((decode registry descriptor bytes).toOption.bind fun message =>
      (message.toJson registry).toOption.map Json.compact) = some text) :
    ∃ message json, decode registry descriptor bytes = .ok message ∧
      message.toJson registry = .ok json ∧ json.compact = text := by
  cases hdecode : decode registry descriptor bytes with
  | error error =>
      rw [hdecode] at h
      cases h
  | ok message =>
      rw [hdecode, Except.toOption, Option.bind_some] at h
      cases hjson : message.toJson registry with
      | error error =>
          rw [hjson] at h
          cases h
      | ok json =>
          rw [hjson] at h
          exact ⟨message, json, rfl, hjson, Option.some.inj h⟩

theorem decode_typed {registry : Registry} (hregistry : registry.WellFormed) {name : String}
    {descriptor : Descriptor} (hknown : registry.message? name = some descriptor)
    {bytes : List UInt8} {message : Message} (h : decode registry descriptor bytes = .ok message) :
    message.WellTyped registry ∧ message.descriptor = descriptor := by
  unfold decode at h
  split at h
  next => cases h
  next => exact decodeText_typed hregistry (hregistry.descriptors name descriptor hknown).2 h

/-- Every message in a decoded one is of a known type and well-typed, and is not refused for its
form when it is written as JSON. -/
theorem decode_wellTyped {name : String} {descriptor : Descriptor}
    (hknown : Registry.bundled.message? name = some descriptor) {bytes : List UInt8}
    {message : Message} (h : decode .bundled descriptor bytes = .ok message) {part : Message}
    (hpart : part.Within message) :
    Registry.bundled.message? part.descriptor.fullName = some part.descriptor ∧
      part.WellTyped .bundled ∧
      (part.payload?.isSome = true → part.descriptor.fullName = Bundled.any) ∧
      ∀ error, part.toJson .bundled = .error error → error.cause.isForm = false := by
  obtain ⟨hmessage, rfl⟩ := decode_typed Registry.bundled_wellFormed hknown h
  obtain ⟨hwellTyped, partName, hpartKnown⟩ := hmessage.within hknown hpart
  obtain ⟨rfl, hd⟩ := Registry.bundled_wellFormed.descriptors partName _ hpartKnown
  refine ⟨hpartKnown, hwellTyped, ?_,
    (Encoding.formed_json Registry.bundled_wellFormed hwellTyped hd).1⟩
  intro hpayload
  obtain ⟨⟨url, inner⟩, hpayload⟩ := Option.isSome_iff_exists.mp hpayload
  exact Bundled.name_of_any hpartKnown (hwellTyped.payload_any hpayload).1

/-- The element of a list that holds one value with nothing set. -/
theorem decode_wellTyped_element : (Message.empty Bundled.structValueType).WellTyped .bundled := by
  have hdecode : decode .bundled Bundled.structListType (Utf8.encode "values {}".toList) =
      .ok ⟨Bundled.structListType,
        [(1, .list [.message (.empty Bundled.structValueType)])], none⟩ := by
    rw [decode_encode]
    cbv
  have hpart : (Message.empty Bundled.structValueType).Within ⟨Bundled.structListType,
      [(1, .list [.message (.empty Bundled.structValueType)])], none⟩ :=
    .inside (.list List.mem_cons_self List.mem_cons_self) .self
  exact (decode_wellTyped Bundled.message?_structList hdecode hpart).2.1

end Textproto
