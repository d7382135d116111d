import Textproto.Binding.Message

namespace Textproto

/-! What each part of the binder gives when it succeeds. -/

theorem Except.bind_eq_ok_iff {ε α β : Type} {first : Except ε α} {second : α → Except ε β}
    {b : β} : (first >>= second) = .ok b ↔ ∃ a, first = .ok a ∧ second a = .ok b := by
  cases first with
  | error e => simp [bind, Except.bind]
  | ok a => simp [bind, Except.bind]

theorem Except.map_eq_ok_iff {ε α β : Type} {f : α → β} {result : Except ε α} {b : β} :
    result.map f = .ok b ↔ ∃ a, result = .ok a ∧ f a = b := by
  cases result <;> simp [Except.map]

theorem Except.pure_eq_ok_iff {ε α : Type} {a b : α} :
    (pure a : Except ε α) = .ok b ↔ b = a := by
  constructor
  · intro h
    cases h
    rfl
  · rintro rfl
    rfl

namespace Binding

variable {registry : Registry} {draft draft' : Draft} {field : Field} {message : Message}

/-- A draft where a single field is noted as set. -/
def Draft.noted (draft : Draft) (field : Field) (position : Position) : Draft :=
  { draft with
    seen := Entries.put field.number position draft.seen
    members := match field.oneof with
      | none => draft.members
      | some oneof => Entries.put oneof field.name draft.members }

theorem note_eq_ok_iff {position : Position} :
    draft.note field position = .ok draft' ↔
      Entries.get? field.number draft.seen = none ∧
        (∀ oneof, field.oneof = some oneof → Entries.get? oneof draft.members = none) ∧
        draft' = draft.noted field position := by
  unfold Draft.note Draft.noted
  split
  next h => simp [h]
  next h =>
    simp only [h, true_and]
    cases honeof : field.oneof with
    | none => simp [eq_comm]
    | some oneof =>
        cases hmember : Entries.get? oneof draft.members with
        | some other => simp [hmember]
        | none => simp [hmember, eq_comm]

theorem addFields_nil {start : Position} :
    addFields registry start draft [] = finish registry start draft.message := by
  rw [addFields]

theorem addFields_cons {start : Position} {first : Tree.Field} {rest : List Tree.Field} :
    addFields registry start draft (first :: rest) = .ok message ↔
      ∃ draft', addField registry draft first = .ok draft' ∧
        addFields registry start draft' rest = .ok message := by
  rw [addFields, Except.bind_eq_ok_iff]

theorem addField_expanded {url : List Char} {position : Position} {value : Tree.Value} :
    addField registry draft ⟨.expanded url, position, value⟩ = .ok draft' ↔
      ∃ descriptor fields place payload,
        payloadType registry draft.message (String.ofList url) position = .ok descriptor ∧
        value = .message fields place ∧ messageOf registry descriptor fields = .ok payload ∧
        draft' = { draft with
          message := draft.message.withPayload (String.ofList url) payload } := by
  cases value with
  | scalar scalar place => simp [addField, Except.bind_eq_ok_iff]
  | list values place => simp [addField, Except.bind_eq_ok_iff]
  | message fields place =>
      simp only [addField, Except.bind_eq_ok_iff, messageOf]
      constructor
      · rintro ⟨descriptor, htype, payload, hpayload, h⟩
        cases h
        exact ⟨descriptor, fields, place, payload, htype, rfl, hpayload, rfl⟩
      · rintro ⟨descriptor, _, _, payload, htype, heq, hpayload, rfl⟩
        cases heq
        exact ⟨descriptor, htype, payload, hpayload, rfl⟩

/-- Lists give their elements to a repeated field, and only to one. -/
theorem addField_plain {name : List Char} {position : Position} {value : Tree.Value} :
    addField registry draft ⟨.plain name, position, value⟩ = .ok draft' ↔
      ∃ field, draft.message.descriptor.fieldNamed? (String.ofList name) = some field ∧
        ((field.repeated = true ∧ ∃ values place message, value = .list values place ∧
            addItems registry field draft.message values = .ok message ∧
            draft' = { draft with message := message }) ∨
          (field.repeated = true ∧ (∀ values place, value ≠ .list values place) ∧
            ∃ item, itemOf registry field value = .ok item ∧
              draft' = { draft with message := item.addTo field draft.message }) ∨
          (field.repeated = false ∧ ∃ item, itemOf registry field value = .ok item ∧
            Entries.get? field.number draft.seen = none ∧
            (∀ oneof, field.oneof = some oneof → Entries.get? oneof draft.members = none) ∧
            draft' = { draft.noted field position with
              message := item.setIn field draft.message })) := by
  rw [addField]
  simp only
  cases hfield : draft.message.descriptor.fieldNamed? (String.ofList name) with
  | none => simp
  | some field =>
      simp only [Option.some.injEq, exists_eq_left']
      cases hrepeated : field.repeated with
      | false =>
          simp only [Bool.false_eq_true, if_false, Except.bind_eq_ok_iff, note_eq_ok_iff,
            false_and, false_or, true_and]
          constructor
          · rintro ⟨_, ⟨hseen, hmembers, rfl⟩, item, hitem, h⟩
            cases h
            exact ⟨item, hitem, hseen, hmembers, rfl⟩
          · rintro ⟨item, hitem, hseen, hmembers, rfl⟩
            exact ⟨_, ⟨hseen, hmembers, rfl⟩, item, hitem, rfl⟩
      | true =>
          simp only [if_true, true_and, Bool.true_eq_false, false_and, or_false]
          cases value with
          | list values place =>
              simp only [Except.bind_eq_ok_iff, Except.pure_eq_ok_iff, Tree.Value.list.injEq]
              constructor
              · rintro ⟨message, hmessage, rfl⟩
                exact .inl ⟨values, place, message, ⟨rfl, rfl⟩, hmessage, rfl⟩
              · rintro (⟨_, _, message, ⟨rfl, rfl⟩, hmessage, rfl⟩ | ⟨hno, _⟩)
                · exact ⟨message, hmessage, rfl⟩
                · exact absurd rfl (hno values place)
          | message fields place =>
              simp only [Except.bind_eq_ok_iff, Except.pure_eq_ok_iff, reduceCtorEq, false_and,
                exists_false, false_or, ne_eq, not_false_eq_true, implies_true, true_and]
          | scalar scalar place =>
              simp only [Except.bind_eq_ok_iff, Except.pure_eq_ok_iff, reduceCtorEq, false_and,
                exists_false, false_or, ne_eq, not_false_eq_true, implies_true, true_and]

theorem addItems_nil : addItems registry field message [] = .ok message := by
  rw [addItems]

theorem addItems_cons {first : Tree.Value} {rest : List Tree.Value} {message' : Message} :
    addItems registry field message (first :: rest) = .ok message' ↔
      ∃ item, itemOf registry field first = .ok item ∧
        addItems registry field (item.addTo field message) rest = .ok message' := by
  rw [addItems, Except.bind_eq_ok_iff]

theorem itemOf_message {fields : List Tree.Field} {place : Position} {item : Item} :
    itemOf registry field (.message fields place) = .ok item ↔
      (∃ name entry bound, field.mapEntry? registry = some (name, entry) ∧
          messageOf registry ⟨name, .mapEntry entry⟩ fields = .ok bound ∧
          entryOf registry entry bound place = .ok item) ∨
        (field.mapEntry? registry = none ∧ ∃ name descriptor bound,
          field.kind = .message name ∧ registry.message? name = some descriptor ∧
          messageOf registry descriptor fields = .ok bound ∧ item = .value (.message bound)) := by
  rw [itemOf]
  cases hmap : field.mapEntry? registry with
  | some found =>
      obtain ⟨name, entry⟩ := found
      simp only [Except.bind_eq_ok_iff, messageOf, Option.some.injEq, Prod.mk.injEq, reduceCtorEq,
        false_and, or_false]
      constructor
      · rintro ⟨bound, hbound, hentry⟩
        exact ⟨name, entry, bound, ⟨rfl, rfl⟩, hbound, hentry⟩
      · rintro ⟨_, _, bound, ⟨rfl, rfl⟩, hbound, hentry⟩
        exact ⟨bound, hbound, hentry⟩
  | none =>
      simp only [reduceCtorEq, false_and, exists_false, false_or, true_and]
      cases hkind : field.kind with
      | message name =>
          simp only [Kind.message.injEq]
          cases hdescriptor : registry.message? name with
          | none =>
              simp only [reduceCtorEq, false_iff, not_exists]
              rintro _ descriptor bound ⟨rfl, hsome, _⟩
              rw [hdescriptor] at hsome
              cases hsome
          | some descriptor =>
              simp only [Except.bind_eq_ok_iff, Except.pure_eq_ok_iff, messageOf]
              constructor
              · rintro ⟨bound, hbound, rfl⟩
                exact ⟨name, descriptor, bound, rfl, hdescriptor, hbound, rfl⟩
              · rintro ⟨_, other, bound, rfl, hother, hbound, rfl⟩
                rw [hdescriptor] at hother
                cases hother
                exact ⟨bound, hbound, rfl⟩
      | _ => simp

theorem itemOf_scalar {scalar : Tree.Scalar} {place : Position} {item : Item} :
    itemOf registry field (.scalar scalar place) = .ok item ↔
      field.mapEntry? registry = none ∧
        ∃ value, scalarAs registry field scalar = .ok value ∧ item = .value value := by
  rw [itemOf]
  cases hmap : field.mapEntry? registry with
  | some found => simp
  | none =>
      simp only [true_and]
      split
      next name hkind => simp [scalarAs, hkind]
      next =>
        cases scalarAs registry field scalar with
        | error cause => simp
        | ok value => simp [eq_comm]

theorem itemOf_list {values : List Tree.Value} {place : Position} {item : Item} :
    itemOf registry field (.list values place) ≠ .ok item := by
  rw [itemOf]
  cases field.mapEntry? registry with
  | some found => exact nofun
  | none => exact nofun

/-- What a map entry holds, be it written or not. -/
def Written (registry : Registry) (bound : Message) (field : Field) (position : Position)
    (value : Value) : Prop :=
  bound.single? field.name = some value ∨
    bound.single? field.name = none ∧ unwritten registry field.kind position = .ok value

/-- A scalar is taken for a value, or it does not match the field. -/
def expected (found : Option Value) (mismatch : Cause) : Except Cause Value :=
  match found with
  | some value => .ok value
  | none => .error mismatch

theorem expected_eq_ok_iff {found : Option Value} {mismatch : Cause} {value : Value} :
    expected found mismatch = .ok value ↔ found = some value := by
  cases found with
  | none => simp [expected]
  | some found => simp [expected]

/-- What an entry holds under a name, or else what stands for it. -/
def writtenOr (registry : Registry) (bound : Message) (field : Field) (position : Position) :
    Except Error Value :=
  match bound.single? field.name with
  | some value => .ok value
  | none => unwritten registry field.kind position

theorem writtenOr_eq_ok_iff {bound : Message} {position : Position} {value : Value} :
    writtenOr registry bound field position = .ok value ↔
      Written registry bound field position value := by
  unfold Written writtenOr
  cases bound.single? field.name with
  | none => simp
  | some found => simp

theorem entryOf_eq {entry : MapEntry} {bound : Message} {position : Position} :
    entryOf registry entry bound position = (do
      let key ← writtenOr registry bound entry.keyField position
      match key.key? with
      | none => .error ⟨position, .invalidKeyKind entry.key.typeName⟩
      | some key =>
          return .entry key (← writtenOr registry bound entry.valueField position)) := rfl

theorem entryOf_eq_ok_iff {entry : MapEntry} {bound : Message} {position : Position}
    {item : Item} :
    entryOf registry entry bound position = .ok item ↔
      ∃ keyValue key value, Written registry bound entry.keyField position keyValue ∧
        keyValue.key? = some key ∧ Written registry bound entry.valueField position value ∧
        item = .entry key value := by
  rw [entryOf_eq, Except.bind_eq_ok_iff]
  constructor
  · rintro ⟨keyValue, hkeyValue, h⟩
    cases hkey : keyValue.key? with
    | none =>
        rw [hkey] at h
        cases h
    | some key =>
        rw [hkey] at h
        obtain ⟨value, hvalue, h⟩ := Except.bind_eq_ok_iff.mp h
        exact ⟨keyValue, key, value, writtenOr_eq_ok_iff.mp hkeyValue, hkey,
          writtenOr_eq_ok_iff.mp hvalue, Except.pure_eq_ok_iff.mp h⟩
  · rintro ⟨keyValue, key, value, hkeyValue, hkey, hvalue, rfl⟩
    refine ⟨keyValue, writtenOr_eq_ok_iff.mpr hkeyValue, ?_⟩
    simp only [hkey]
    exact Except.bind_eq_ok_iff.mpr ⟨value, writtenOr_eq_ok_iff.mpr hvalue, rfl⟩

theorem payloadType_eq_ok_iff {url : String} {position : Position} {descriptor : Descriptor} :
    payloadType registry message url position = .ok descriptor ↔
      message.descriptor.wellKnown? = some .any ∧ message.payload? = none ∧
        '/' ∈ url.toList ∧ registry.resolve? url = some descriptor := by
  unfold payloadType
  split
  next hany => simp [hany]
  next hany =>
    rw [ne_eq, Decidable.not_not] at hany
    split
    next hpayload =>
      simp only [reduceCtorEq, false_iff, not_and]
      intro _ hnone
      simp [hnone] at hpayload
    next hpayload =>
      have hpayload : message.payload? = none := by simpa using hpayload
      split
      next hslash => simp [hslash]
      next hslash =>
        rw [Decidable.not_not] at hslash
        cases hresolve : registry.resolve? url with
        | none => simp
        | some found => simp [hany, hpayload, hslash]

/-- The bytes of an `Any` are written and not empty. -/
def holdsBytes (message : Message) : Bool :=
  match message.single? "value" with
  | some (.bytes bytes) => bytes ≠ []
  | _ => false

theorem checkAny_eq {position : Position} :
    checkAny registry message position =
      if message.payload?.isSome then
        if message.string "type_url" ≠ "" || holdsBytes message then .error ⟨position, .mixedAny⟩
        else .ok message
      else if holdsBytes message then .error ⟨position, .serializedAny⟩
      else if message.string "type_url" ≠ "" then
        match registry.resolve? (message.string "type_url") with
        | some descriptor =>
            .ok ((Message.empty message.descriptor).withPayload (message.string "type_url")
              (.empty descriptor))
        | none => .error ⟨position, .unresolvedUrl (message.string "type_url")⟩
      else .ok message := rfl

theorem checkAny_eq_ok_iff {position : Position} {message' : Message} :
    checkAny registry message position = .ok message' ↔
      holdsBytes message = false ∧
        ((message.string "type_url" = "" ∧ message' = message) ∨
          (message.payload? = none ∧ message.string "type_url" ≠ "" ∧
            ∃ descriptor, registry.resolve? (message.string "type_url") = some descriptor ∧
              message' = (Message.empty message.descriptor).withPayload
                (message.string "type_url") (.empty descriptor))) := by
  rw [checkAny_eq]
  cases hbytes : holdsBytes message with
  | true => cases message.payload? <;> simp
  | false =>
      by_cases hurl : message.string "type_url" = ""
      · cases message.payload? <;> simp [hurl, eq_comm]
      · cases message.payload? with
        | some payload => simp [hurl]
        | none =>
            cases registry.resolve? (message.string "type_url") with
            | none => simp [hurl]
            | some descriptor => simp [hurl, eq_comm]

theorem finish_eq_ok_iff {start : Position} {message' : Message} :
    finish registry start message = .ok message' ↔
      (message.descriptor.wellKnown? ≠ some .any ∧ message' = message) ∨
        (message.descriptor.wellKnown? = some .any ∧
          checkAny registry message start = .ok message') := by
  unfold finish
  split
  next hany => simp [hany]
  next hany => simp [hany, eq_comm]

end Binding

end Textproto
