import Textproto.Proofs.Binding.Typed

namespace Textproto

/-! What is wrong where a part of the binder fails. -/

theorem Except.bind_eq_error_iff {ε α β : Type} {first : Except ε α} {second : α → Except ε β}
    {e : ε} : (first >>= second) = .error e ↔
      first = .error e ∨ ∃ a, first = .ok a ∧ second a = .error e := by
  cases first with
  | error e => simp [bind, Except.bind]
  | ok a => simp [bind, Except.bind]

namespace Binding

variable {registry : Registry} {draft : Draft} {field : Field} {message : Message}
  {position start : Position} {error : Error}

theorem note_eq_error (h : draft.note field position = .error error) :
    (∃ first, error = ⟨position, .repeatedField field.name first⟩) ∨
      ∃ oneof other, field.oneof = some oneof ∧ Entries.get? oneof draft.members = some other ∧
        error = ⟨position, .oneofTaken field.name oneof other⟩ := by
  unfold Draft.note at h
  split at h
  next first _ =>
    cases h
    exact .inl ⟨first, rfl⟩
  next =>
    simp only at h
    split at h
    next => cases h
    next oneof honeof =>
      split at h
      next other hother =>
        cases h
        exact .inr ⟨oneof, other, honeof, hother, rfl⟩
      next => cases h

theorem unwritten_eq_error {kind : Kind} (h : unwritten registry kind position = .error error) :
    ∃ cause ∈ [.unknownMessageType kind.typeName, .noZeroValue kind.typeName],
      error = ⟨position, cause⟩ := by
  unfold unwritten at h
  split at h
  next name =>
    split at h
    next => cases h
    next =>
      cases h
      exact ⟨_, List.mem_cons_self, rfl⟩
  next =>
    split at h
    next => cases h
    next =>
      cases h
      exact ⟨_, List.mem_cons_of_mem _ (List.mem_singleton_self _), rfl⟩

theorem entryOf_eq_error {entry : MapEntry} {bound : Message}
    (h : entryOf registry entry bound position = .error error) :
    (∃ part ∈ [entry.keyField, entry.valueField],
        unwritten registry part.kind position = .error error) ∨
      error = ⟨position, .invalidKeyKind entry.key.typeName⟩ := by
  have hwritten {part : Field} (h : writtenOr registry bound part position = .error error) :
      unwritten registry part.kind position = .error error := by
    unfold writtenOr at h
    split at h
    next => cases h
    next => exact h
  rw [entryOf_eq, Except.bind_eq_error_iff] at h
  obtain h | ⟨key, _, h⟩ := h
  · exact .inl ⟨_, List.mem_cons_self, hwritten h⟩
  · split at h
    next =>
      cases h
      exact .inr rfl
    next =>
      obtain h | ⟨_, _, h⟩ := Except.bind_eq_error_iff.mp h
      · exact .inl ⟨_, List.mem_cons_of_mem _ (List.mem_singleton_self _), hwritten h⟩
      · cases h

theorem payloadType_eq_error {url : String}
    (h : payloadType registry message url position = .error error) :
    ∃ cause ∈ [.expandedOutsideAny url Bundled.any message.descriptor.fullName,
        .secondPayload url, .invalidUrl url, .unresolvedUrl url],
      error = ⟨position, cause⟩ := by
  unfold payloadType at h
  split at h
  next => cases h; exact ⟨_, by simp, rfl⟩
  next =>
    split at h
    next => cases h; exact ⟨_, by simp, rfl⟩
    next =>
      split at h
      next => cases h; exact ⟨_, by simp, rfl⟩
      next =>
        split at h
        next => cases h
        next => cases h; exact ⟨_, by simp, rfl⟩

theorem finish_eq_error (h : finish registry start message = .error error) :
    ∃ cause ∈ [.mixedAny, .serializedAny, .unresolvedUrl (message.string "type_url")],
      error = ⟨start, cause⟩ := by
  unfold finish at h
  split at h
  next =>
    rw [checkAny_eq] at h
    split at h
    next =>
      split at h
      next => cases h; exact ⟨_, by simp, rfl⟩
      next => cases h
    next =>
      split at h
      next => cases h; exact ⟨_, by simp, rfl⟩
      next =>
        split at h
        next =>
          split at h
          next => cases h
          next => cases h; exact ⟨_, by simp, rfl⟩
        next => cases h
  next => cases h

theorem scalarAs_eq_error {scalar : Tree.Scalar} {cause : Cause}
    (h : scalarAs registry field scalar = .error cause) :
    cause = .mismatch field.kind.typeName field.name scalar ∨ cause = .invalidText field.name ∨
      ∃ name, field.kind = .enum name ∧ (cause = .unknownEnumeration name ∨
        ∃ enumerator, scalar = .identifier enumerator ∧
          cause = .unknownEnumerator (String.ofList enumerator) name) := by
  have hexpect {found : Option Value}
      (h : expected found (.mismatch field.kind.typeName field.name scalar) = .error cause) :
      cause = .mismatch field.kind.typeName field.name scalar := by
    cases found <;> cases h
    rfl
  simp only [scalarAs] at h
  split at h
  next => exact .inl (hexpect h)
  next => exact .inl (hexpect h)
  next => exact .inl (hexpect h)
  next => exact .inl (hexpect h)
  next => exact .inl (hexpect h)
  next => exact .inl (hexpect h)
  next => exact .inl (hexpect h)
  next =>
    split at h
    next =>
      split at h
      next => cases h
      next =>
        cases h
        exact .inr (.inl rfl)
    next =>
      cases h
      exact .inl rfl
  next =>
    split at h
    next => cases h
    next =>
      cases h
      exact .inl rfl
  next name hkind =>
    split at h
    next =>
      cases h
      exact .inr (.inr ⟨name, hkind, .inl rfl⟩)
    next =>
      split at h
      next enumerator =>
        split at h
        next => cases h
        next =>
          cases h
          exact .inr (.inr ⟨name, hkind, .inr ⟨enumerator, rfl, rfl⟩⟩)
      next => exact .inl (hexpect h)
  next =>
    cases h
    exact .inl rfl

/-! Values and fields, which also fail where the fields of a message in them do. -/

theorem itemOf_message_eq_error {own : List Tree.Field} {place : Position}
    (h : itemOf registry field (.message own place) = .error error) :
    (∃ name descriptor, registry.message? name = some descriptor ∧
        messageOf registry descriptor own = .error error) ∨
      (∃ name entry bound, field.mapEntry? registry = some (name, entry) ∧
        entryOf registry entry bound place = .error error) ∨
      ∃ cause ∈ [.unknownMessageType field.kind.typeName,
          .messageForScalar field.name field.kind.typeName],
        error = ⟨place, cause⟩ := by
  rw [itemOf] at h
  split at h
  next name entry hmap =>
    obtain h | ⟨bound, _, h⟩ := Except.bind_eq_error_iff.mp h
    · obtain ⟨type, _, hknown⟩ := Field.message?_of_mapEntry? hmap
      exact .inl ⟨type, _, hknown, h⟩
    · exact .inr (.inl ⟨name, entry, bound, hmap, h⟩)
  next =>
    split at h
    next name hkind =>
      split at h
      next =>
        cases h
        exact .inr (.inr ⟨_, by simp [hkind, Kind.typeName], rfl⟩)
      next descriptor hknown =>
        obtain h | ⟨bound, _, h⟩ := Except.bind_eq_error_iff.mp h
        · exact .inl ⟨name, descriptor, hknown, h⟩
        · cases h
    next =>
      cases h
      exact .inr (.inr ⟨_, by simp, rfl⟩)

theorem itemOf_scalar_eq_error {scalar : Tree.Scalar} {place : Position}
    (h : itemOf registry field (.scalar scalar place) = .error error) :
    ∃ cause, error = ⟨place, cause⟩ ∧
      ((∃ name entry, field.mapEntry? registry = some (name, entry) ∧
          cause = .expectedEntry name) ∨
        cause = .scalarForMessage field.name field.kind.typeName ∨
        scalarAs registry field scalar = .error cause) := by
  rw [itemOf] at h
  split at h
  next name entry hmap =>
    cases h
    exact ⟨_, rfl, .inl ⟨name, entry, hmap, rfl⟩⟩
  next =>
    split at h
    next name hkind =>
      cases h
      exact ⟨_, rfl, .inr (.inl (by rw [hkind]; rfl))⟩
    next =>
      split at h
      next => cases h
      next cause hcause =>
        cases h
        exact ⟨cause, rfl, .inr (.inr hcause)⟩

theorem itemOf_list_eq_error {values : List Tree.Value} {place : Position}
    (h : itemOf registry field (.list values place) = .error error) :
    ∃ cause, error = ⟨place, cause⟩ ∧
      ((∃ name entry, field.mapEntry? registry = some (name, entry) ∧
          cause = .expectedEntry name) ∨
        cause = .listForSingle field.name) := by
  rw [itemOf] at h
  split at h
  next name entry hmap =>
    cases h
    exact ⟨_, rfl, .inl ⟨name, entry, hmap, rfl⟩⟩
  next =>
    cases h
    exact ⟨_, rfl, .inr rfl⟩

theorem addItems_eq_error {values : List Tree.Value}
    (h : addItems registry field message values = .error error) :
    ∃ value ∈ values, itemOf registry field value = .error error := by
  induction values generalizing message with
  | nil =>
      rw [addItems] at h
      cases h
  | cons value rest ih =>
      rw [addItems] at h
      obtain h | ⟨item, _, h⟩ := Except.bind_eq_error_iff.mp h
      · exact ⟨value, List.mem_cons_self, h⟩
      · obtain ⟨other, hother, h⟩ := ih h
        exact ⟨other, List.mem_cons_of_mem _ hother, h⟩

theorem addField_expanded_eq_error {url : List Char} {value : Tree.Value}
    (h : addField registry draft ⟨.expanded url, position, value⟩ = .error error) :
    payloadType registry draft.message (String.ofList url) position = .error error ∨
      ∃ descriptor,
        payloadType registry draft.message (String.ofList url) position = .ok descriptor ∧
        (error = ⟨value.position, .expectedPayload descriptor.fullName (String.ofList url)⟩ ∨
          ∃ own place, value = .message own place ∧
            messageOf registry descriptor own = .error error) := by
  rw [addField] at h
  obtain h | ⟨descriptor, htype, h⟩ := Except.bind_eq_error_iff.mp h
  · exact .inl h
  · refine .inr ⟨descriptor, htype, ?_⟩
    cases value with
    | scalar scalar place =>
        cases h
        exact .inl rfl
    | list values place =>
        cases h
        exact .inl rfl
    | message own place =>
        obtain h | ⟨payload, _, h⟩ := Except.bind_eq_error_iff.mp h
        · exact .inr ⟨own, place, rfl, h⟩
        · cases h

theorem addField_plain_eq_error {name : List Char} {value : Tree.Value}
    (h : addField registry draft ⟨.plain name, position, value⟩ = .error error) :
    error = ⟨position, .unknownField (String.ofList name) draft.message.descriptor.fullName⟩ ∨
      ∃ field, draft.message.descriptor.fieldNamed? (String.ofList name) = some field ∧
        (draft.note field position = .error error ∨
          itemOf registry field value = .error error ∨
          ∃ values place, value = .list values place ∧
            ∃ element ∈ values, itemOf registry field element = .error error) := by
  rw [addField] at h
  split at h
  next =>
    cases h
    exact .inl rfl
  next field hknown =>
    refine .inr ⟨field, hknown, ?_⟩
    split at h
    next =>
      split at h
      next values place =>
        obtain h | ⟨_, _, h⟩ := Except.bind_eq_error_iff.mp h
        · exact .inr (.inr ⟨values, place, rfl, addItems_eq_error h⟩)
        · cases h
      next =>
        obtain h | ⟨_, _, h⟩ := Except.bind_eq_error_iff.mp h
        · exact .inr (.inl h)
        · cases h
    next =>
      obtain h | ⟨_, _, h⟩ := Except.bind_eq_error_iff.mp h
      · exact .inl h
      · obtain h | ⟨_, _, h⟩ := Except.bind_eq_error_iff.mp h
        · exact .inr (.inl h)
        · cases h

end Binding

end Textproto
