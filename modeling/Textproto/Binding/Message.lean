import Textproto.Binding.Scalar
import Textproto.Schema.Bundled.WellKnown

namespace Textproto.Binding

/-! Fields as a message of a type. -/

/-- What one element gives to its field. -/
inductive Item where
  | value (value : Value)
  | entry (key : Key) (value : Value)

def Item.addTo (field : Field) (message : Message) : Item → Message
  | .value v => message.push field v
  | .entry k v => message.insert field k v

def Item.setIn (field : Field) (message : Message) : Item → Message
  | .value v => message.set field v
  | .entry k v => message.insert field k v

/-- A message under way: what it holds, where each single field was set, and which member each
oneof has. -/
structure Draft where
  message : Message
  seen : List (Nat × Position)
  members : List (String × String)

def Draft.empty (descriptor : Descriptor) : Draft :=
  ⟨.empty descriptor, [], []⟩

/-- Notes that a single field is set, which may happen once, and once per oneof. -/
def Draft.note (draft : Draft) (field : Field) (position : Position) : Except Error Draft :=
  match Entries.get? field.number draft.seen with
  | some first => .error ⟨position, .repeatedField field.name first⟩
  | none =>
      let seen := Entries.put field.number position draft.seen
      match field.oneof with
      | none => .ok { draft with seen := seen }
      | some oneof =>
          match Entries.get? oneof draft.members with
          | some other => .error ⟨position, .oneofTaken field.name oneof other⟩
          | none =>
              .ok { draft with
                seen := seen, members := Entries.put oneof field.name draft.members }

/-- A value that is not written: zero, or a message without fields. -/
def unwritten (registry : Registry) (kind : Kind) (position : Position) : Except Error Value :=
  match kind with
  | .message name =>
      match registry.message? name with
      | some descriptor => .ok (.message (.empty descriptor))
      | none => .error ⟨position, .unknownMessageType name⟩
  | kind =>
      match Value.zero? kind with
      | some value => .ok value
      | none => .error ⟨position, .noZeroValue kind.typeName⟩

/-- The entry that a message of an entry type stands for. -/
def entryOf (registry : Registry) (entry : MapEntry) (bound : Message) (position : Position) :
    Except Error Item := do
  let written (field : Field) : Except Error Value :=
    match bound.single? field.name with
    | some value => .ok value
    | none => unwritten registry field.kind position
  let key ← written entry.keyField
  match key.key? with
  | none => .error ⟨position, .invalidKeyKind entry.key.typeName⟩
  | some key => return .entry key (← written entry.valueField)

/-- The message type that a payload's type URL names. -/
def payloadType (registry : Registry) (message : Message) (url : String)
    (position : Position) : Except Error Descriptor :=
  if message.descriptor.wellKnown? ≠ some .any then
    .error ⟨position, .expandedOutsideAny url Bundled.any message.descriptor.fullName⟩
  else if message.payload?.isSome then .error ⟨position, .secondPayload url⟩
  else if '/' ∉ url.toList then .error ⟨position, .invalidUrl url⟩
  else
    match registry.resolve? url with
    | some descriptor => .ok descriptor
    | none => .error ⟨position, .unresolvedUrl url⟩

/-- An `Any` is written with a payload, or with plain fields. Of those only a type URL is
understood, and it stands for a payload without fields. -/
def checkAny (registry : Registry) (message : Message) (position : Position) :
    Except Error Message :=
  let url := message.string "type_url"
  let hasValue := match message.single? "value" with
    | some (.bytes bytes) => bytes ≠ []
    | _ => false
  if message.payload?.isSome then
    if url ≠ "" || hasValue then .error ⟨position, .mixedAny⟩ else .ok message
  else if hasValue then .error ⟨position, .serializedAny⟩
  else if url ≠ "" then
    match registry.resolve? url with
    | some descriptor =>
        .ok ((Message.empty message.descriptor).withPayload url (.empty descriptor))
    | none => .error ⟨position, .unresolvedUrl url⟩
  else .ok message

/-- What is checked once all fields are in, `start` being where they begin. -/
def finish (registry : Registry) (start : Position) (message : Message) :
    Except Error Message :=
  if message.descriptor.wellKnown? = some .any then checkAny registry message start
  else .ok message

/-- Where fields begin. -/
def startOf (fields : List Tree.Field) : Position :=
  (fields.head?.map Tree.Field.position).getD .start

mutual

/-- A draft with the rest of its fields, which began at `start`. -/
def addFields (registry : Registry) (start : Position) (draft : Draft) :
    List Tree.Field → Except Error Message
  | [] => finish registry start draft.message
  | field :: rest => do
      let draft ← addField registry draft field
      addFields registry start draft rest

def addField (registry : Registry) (draft : Draft) : Tree.Field → Except Error Draft
  | ⟨.expanded url, position, value⟩ => do
      let url := String.ofList url
      let descriptor ← payloadType registry draft.message url position
      match value with
      | .message fields _ => do
          let payload ← addFields registry (startOf fields) (.empty descriptor) fields
          return { draft with message := draft.message.withPayload url payload }
      | .scalar _ place => .error ⟨place, .expectedPayload descriptor.fullName url⟩
      | .list _ place => .error ⟨place, .expectedPayload descriptor.fullName url⟩
  | ⟨.plain name, position, value⟩ => do
      let name := String.ofList name
      match draft.message.descriptor.fieldNamed? name with
      | none => .error ⟨position, .unknownField name draft.message.descriptor.fullName⟩
      | some field =>
          if field.repeated then
            match value with
            | .list values _ => do
                let message ← addItems registry field draft.message values
                return { draft with message := message }
            | value => do
                let item ← itemOf registry field value
                return { draft with message := item.addTo field draft.message }
          else do
            let draft ← draft.note field position
            let item ← itemOf registry field value
            return { draft with message := item.setIn field draft.message }

def addItems (registry : Registry) (field : Field) (message : Message) :
    List Tree.Value → Except Error Message
  | [] => .ok message
  | value :: rest => do
      let item ← itemOf registry field value
      addItems registry field (item.addTo field message) rest

def itemOf (registry : Registry) (field : Field) : Tree.Value → Except Error Item
  | .message fields position =>
      match field.mapEntry? registry with
      | some (name, entry) => do
          let bound ← addFields registry (startOf fields) (.empty ⟨name, .mapEntry entry⟩) fields
          entryOf registry entry bound position
      | none =>
          match field.kind with
          | .message name =>
              match registry.message? name with
              | none => .error ⟨position, .unknownMessageType name⟩
              | some descriptor => do
                  let bound ← addFields registry (startOf fields) (.empty descriptor) fields
                  return .value (.message bound)
          | kind => .error ⟨position, .messageForScalar field.name kind.typeName⟩
  | .scalar scalar position =>
      match field.mapEntry? registry with
      | some (name, _) => .error ⟨position, .expectedEntry name⟩
      | none =>
          match field.kind with
          | .message name => .error ⟨position, .scalarForMessage field.name name⟩
          | _ =>
              match scalarAs registry field scalar with
              | .ok value => .ok (.value value)
              | .error cause => .error ⟨position, cause⟩
  | .list _ position =>
      match field.mapEntry? registry with
      | some (name, _) => .error ⟨position, .expectedEntry name⟩
      | none => .error ⟨position, .listForSingle field.name⟩

end

/-- The message of a type that fields make up. -/
def messageOf (registry : Registry) (descriptor : Descriptor) (fields : List Tree.Field) :
    Except Error Message :=
  addFields registry (startOf fields) (.empty descriptor) fields

end Textproto.Binding
