import Textproto.Encoding.WellKnown

namespace Textproto.Encoding

/-!
Messages as JSON. Fields are written in the order of their declaration and under their JSON
names, those that hold nothing are left out, and the well-known types have forms of their own.
-/

/-- The members of an object, `member` being what a field gives to it. -/
def gather (member : Field → Except EncodeError (Option Json))
    (members : List (String × Json)) : List Field → Except EncodeError (List (String × Json))
  | [] => .ok members
  | field :: rest => do
      match ← member field with
      | some json => gather member (Entries.put field.jsonName json members) rest
      | none => gather member members rest

/-- The values of a map are of the kind that its entry type says. -/
def mapValueKind (registry : Registry) (field : Field) : Kind :=
  match field.mapEntry? registry with
  | some (_, entry) => entry.value
  | none => field.kind

/-- An object under a key of another one, if it is there. -/
def memberOr (default : Json) (key : String) (members : List (String × Json)) : Json :=
  (Entries.get? key members).getD default

mutual

def valueJson (registry : Registry) (kind : Kind) : Value → Except EncodeError Json
  | .message m => messageJson registry m
  | value => .ok (scalarJson registry kind value)

def listJson (registry : Registry) (kind : Kind) : List Value → Except EncodeError (List Json)
  | [] => .ok []
  | value :: rest => do
      let json ← valueJson registry kind value
      let more ← listJson registry kind rest
      return json :: more

/-- The members of a map in the order of its keys. -/
def entriesJson (registry : Registry) (kind : Kind) (members : List (String × Json)) :
    List (Key × Value) → Except EncodeError (List (String × Json))
  | [] => .ok members
  | (key, value) :: rest => do
      let json ← valueJson registry kind value
      entriesJson registry kind (Entries.put key.text json members) rest

def contentJson (registry : Registry) (field : Field) : Content → Except EncodeError Json
  | .single value => valueJson registry field.kind value
  | .list values => do return .array (← listJson registry field.kind values)
  | .map entries => do
      return .object (← entriesJson registry (mapValueKind registry field) [] entries)

/-- What a field shows of the contents of its message. -/
def memberJson (registry : Registry) (field : Field) :
    List (Nat × Content) → Except EncodeError (Option Json)
  | [] => .ok none
  | (number, content) :: rest =>
      if number = field.number then
        if Message.shows field content then do
          let json ← contentJson registry field content
          return some json
        else .ok none
      else memberJson registry field rest

/-- The single value stored under a number. -/
def singleJson? (registry : Registry) (kind : Kind) (number : Nat) :
    List (Nat × Content) → Option (Except EncodeError Json)
  | [] => none
  | (other, content) :: rest =>
      if other = number then
        match content with
        | .single value => some (valueJson registry kind value)
        | _ => none
      else singleJson? registry kind number rest

def messageJson (registry : Registry) : Message → Except EncodeError Json
  | ⟨descriptor, contents, payload⟩ =>
      let member := fun field => memberJson registry field contents
      let message : Message := ⟨descriptor, contents, payload⟩
      match descriptor.wellKnown? with
      | none => (gather member [] descriptor.fields).map .object
      | some .any =>
          match payload with
          | none => .ok (.object [])
          | some (url, inner) => do
              let type := ("@type", Json.string url)
              if inner.descriptor.wellKnown?.isSome then
                return .object [type, ("value", ← messageJson registry inner)]
              else
                let more ← membersJson registry inner
                return .object (more.foldl (fun all (key, json) => Entries.put key json all) [type])
      | some .empty => .ok (.object [])
      | some .wrapper =>
          match descriptor.fields with
          | [] => .error ⟨descriptor.fullName, .noWrapperValue⟩
          | field :: _ =>
              match singleJson? registry field.kind field.number contents with
              | some json => json
              | none =>
                  match Value.zero? field.kind with
                  | some zero => .ok (scalarJson registry field.kind zero)
                  | none => .error ⟨descriptor.fullName, .noWrapperValue⟩
      | some .duration => durationJson (seconds message) (nanos message)
      | some .timestamp => timestampJson (seconds message) (nanos message)
      | some .struct =>
          (gather member [] descriptor.fields).map (memberOr (.object []) "fields")
      | some .listValue =>
          (gather member [] descriptor.fields).map (memberOr (.array []) "values")
      | some .value =>
          match (message.member? "kind").bind descriptor.fieldNamed? with
          | none => .error ⟨Bundled.structValue, .noMember⟩
          | some field =>
              match message.single? field.name with
              | some (.double x) =>
                  if x.isFinite then .ok (doubleJson x)
                  else .error ⟨Bundled.structValue, .notFinite x⟩
              | _ =>
                  (singleJson? registry field.kind field.number contents).getD
                    (.error ⟨Bundled.structValue, .notSingle field.name⟩)
      | some .fieldMask => fieldMaskJson (message.list "paths")

/-- The members of a message, written field by field whatever its type. -/
def membersJson (registry : Registry) : Message → Except EncodeError (List (String × Json))
  | ⟨descriptor, contents, _⟩ =>
      gather (fun field => memberJson registry field contents) [] descriptor.fields

end

end Textproto.Encoding

namespace Textproto

def Message.toJson (registry : Registry) (message : Message) : Except EncodeError Json :=
  Encoding.messageJson registry message

end Textproto
