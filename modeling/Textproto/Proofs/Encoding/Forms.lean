import Textproto.Encoding.Message
import Textproto.Proofs.Binding.Steps
import Textproto.Proofs.Data.Entries

namespace Textproto.Encoding

/-! What a message is written as, by its type and by what it stores. -/

variable {registry : Registry} {m : Message}

theorem memberJson_eq (registry : Registry) (field : Field) (m : Message) :
    memberJson registry field m.contents =
      match m.content? field.number with
      | none => .ok none
      | some content =>
          if Message.shows field content then (contentJson registry field content).map some
          else .ok none := by
  have hlist (contents : List (Nat × Content)) : memberJson registry field contents =
      match Entries.get? field.number contents with
      | none => .ok none
      | some content =>
          if Message.shows field content then (contentJson registry field content).map some
          else .ok none := by
    induction contents with
    | nil => rw [memberJson]; rfl
    | cons entry rest ih =>
        obtain ⟨number, content⟩ := entry
        by_cases hnumber : number = field.number
        · simp only [memberJson, Entries.get?, hnumber, if_true]
          split
          next => cases contentJson registry field content <;> rfl
          next => rfl
        · simp only [memberJson, Entries.get?, if_neg hnumber]
          exact ih
  exact hlist m.contents

theorem singleJson?_eq (registry : Registry) (kind : Kind) (number : Nat) (m : Message) :
    singleJson? registry kind number m.contents =
      ((m.content? number).bind Content.single?).map (valueJson registry kind) := by
  have hlist (contents : List (Nat × Content)) : singleJson? registry kind number contents =
      ((Entries.get? number contents).bind Content.single?).map (valueJson registry kind) := by
    induction contents with
    | nil => rw [singleJson?]; rfl
    | cons entry rest ih =>
        obtain ⟨other, content⟩ := entry
        rw [singleJson?.eq_def, Entries.get?]
        by_cases hnumber : other = number
        · cases content <;> simp [hnumber, Content.single?]
        · rw [if_neg hnumber]
          simp only [if_neg hnumber]
          exact ih
  exact hlist m.contents

theorem membersJson_eq (registry : Registry) (m : Message) :
    membersJson registry m =
      gather (fun field => memberJson registry field m.contents) [] m.descriptor.fields := by
  obtain ⟨descriptor, contents, payload⟩ := m
  rw [membersJson]
  rfl

/-- A message is written by its type. -/
theorem messageJson_mk (descriptor : Descriptor) (contents : List (Nat × Content))
    (payload : Option (String × Message)) :
    messageJson registry ⟨descriptor, contents, payload⟩ =
      let members := membersJson registry ⟨descriptor, contents, payload⟩
      let message : Message := ⟨descriptor, contents, payload⟩
      match descriptor.wellKnown? with
      | none => members.map .object
      | some .any =>
          match payload with
          | none => .ok (.object [])
          | some (url, inner) =>
              if inner.descriptor.wellKnown?.isSome then
                (messageJson registry inner).map fun json =>
                  .object [("@type", .string url), ("value", json)]
              else
                (membersJson registry inner).map fun more =>
                  .object (more.foldl (fun all (key, json) => Entries.put key json all)
                    [("@type", .string url)])
      | some .empty => .ok (.object [])
      | some .wrapper =>
          match descriptor.fields with
          | [] => .error ⟨descriptor.fullName, .noWrapperValue⟩
          | field :: _ =>
              match singleJson? registry field.kind field.number contents with
              | some json => json
              | none =>
                  match Value.zero? field.kind with
                  | some zero => .ok (scalarJson registry field.kind zero)
                  | none => .error ⟨descriptor.fullName, .noWrapperValue⟩
      | some .duration => durationJson (seconds message) (nanos message)
      | some .timestamp => timestampJson (seconds message) (nanos message)
      | some .struct => members.map (memberOr (.object []) "fields")
      | some .listValue => members.map (memberOr (.array []) "values")
      | some .value =>
          match (message.member? "kind").bind descriptor.fieldNamed? with
          | none => .error ⟨Bundled.structValue, .noMember⟩
          | some field =>
              match message.single? field.name with
              | some (.double x) =>
                  if x.isFinite then .ok (doubleJson x)
                  else .error ⟨Bundled.structValue, .notFinite x⟩
              | _ =>
                  (singleJson? registry field.kind field.number contents).getD
                    (.error ⟨Bundled.structValue, .notSingle field.name⟩)
      | some .fieldMask => fieldMaskJson (message.list "paths") := by
  rw [messageJson.eq_def]
  simp only [membersJson_eq]
  cases descriptor.wellKnown? with
  | none => rfl
  | some type =>
      cases type with
      | any =>
          cases payload with
          | none => rfl
          | some found =>
              obtain ⟨url, inner⟩ := found
              simp only
              split
              next => cases messageJson registry inner <;> rfl
              next => cases membersJson registry inner <;> rfl
      | _ => rfl

theorem messageJson_plain (h : m.descriptor.wellKnown? = none) :
    messageJson registry m = (membersJson registry m).map .object := by
  obtain ⟨descriptor, contents, payload⟩ := m
  have h : descriptor.wellKnown? = none := h
  simp only [messageJson_mk, h]

theorem messageJson_any (h : m.descriptor.wellKnown? = some .any) :
    messageJson registry m =
      match m.payload? with
      | none => .ok (.object [])
      | some (url, inner) =>
          if inner.descriptor.wellKnown?.isSome then
            (messageJson registry inner).map fun json =>
              .object [("@type", .string url), ("value", json)]
          else
            (membersJson registry inner).map fun more =>
              .object (more.foldl (fun all (key, json) => Entries.put key json all)
                [("@type", .string url)]) := by
  obtain ⟨descriptor, contents, payload⟩ := m
  have h : descriptor.wellKnown? = some .any := h
  simp only [messageJson_mk, h]
  rfl

theorem messageJson_empty (h : m.descriptor.wellKnown? = some .empty) :
    messageJson registry m = .ok (.object []) := by
  obtain ⟨descriptor, contents, payload⟩ := m
  have h : descriptor.wellKnown? = some .empty := h
  simp only [messageJson_mk, h]

theorem messageJson_first (h : m.descriptor.wellKnown? = some .wrapper) :
    messageJson registry m =
      match m.descriptor.fields with
      | [] => .error ⟨m.descriptor.fullName, .noWrapperValue⟩
      | field :: _ =>
          match singleJson? registry field.kind field.number m.contents with
          | some json => json
          | none =>
              match Value.zero? field.kind with
              | some zero => .ok (scalarJson registry field.kind zero)
              | none => .error ⟨m.descriptor.fullName, .noWrapperValue⟩ := by
  obtain ⟨descriptor, contents, payload⟩ := m
  have h : descriptor.wellKnown? = some .wrapper := h
  simp only [messageJson_mk, h]
  rfl

theorem messageJson_wrapper (h : m.descriptor.wellKnown? = some .wrapper) {field : Field}
    (hfields : m.descriptor.fields = [field]) {zero : Value}
    (hzero : Value.zero? field.kind = some zero) :
    messageJson registry m =
      (((m.content? field.number).bind Content.single?).map (valueJson registry field.kind)).getD
        (.ok (scalarJson registry field.kind zero)) := by
  rw [← singleJson?_eq, messageJson_first h]
  simp only [hfields, hzero]
  cases singleJson? registry field.kind field.number m.contents <;> rfl

theorem messageJson_duration (h : m.descriptor.wellKnown? = some .duration) :
    messageJson registry m = durationJson (seconds m) (nanos m) := by
  obtain ⟨descriptor, contents, payload⟩ := m
  have h : descriptor.wellKnown? = some .duration := h
  simp only [messageJson_mk, h]

theorem messageJson_timestamp (h : m.descriptor.wellKnown? = some .timestamp) :
    messageJson registry m = timestampJson (seconds m) (nanos m) := by
  obtain ⟨descriptor, contents, payload⟩ := m
  have h : descriptor.wellKnown? = some .timestamp := h
  simp only [messageJson_mk, h]

theorem messageJson_struct (h : m.descriptor.wellKnown? = some .struct) :
    messageJson registry m = (membersJson registry m).map (memberOr (.object []) "fields") := by
  obtain ⟨descriptor, contents, payload⟩ := m
  have h : descriptor.wellKnown? = some .struct := h
  simp only [messageJson_mk, h]

theorem messageJson_listValue (h : m.descriptor.wellKnown? = some .listValue) :
    messageJson registry m = (membersJson registry m).map (memberOr (.array []) "values") := by
  obtain ⟨descriptor, contents, payload⟩ := m
  have h : descriptor.wellKnown? = some .listValue := h
  simp only [messageJson_mk, h]

theorem messageJson_value (h : m.descriptor.wellKnown? = some .value) :
    messageJson registry m =
      match (m.member? "kind").bind m.descriptor.fieldNamed? with
      | none => .error ⟨Bundled.structValue, .noMember⟩
      | some field =>
          match m.single? field.name with
          | some (.double x) =>
              if x.isFinite then .ok (doubleJson x)
              else .error ⟨Bundled.structValue, .notFinite x⟩
          | _ =>
              (((m.content? field.number).bind Content.single?).map
                (valueJson registry field.kind)).getD
                  (.error ⟨Bundled.structValue, .notSingle field.name⟩) := by
  simp only [← singleJson?_eq]
  obtain ⟨descriptor, contents, payload⟩ := m
  have h : descriptor.wellKnown? = some .value := h
  simp only [messageJson_mk, h]
  rfl

theorem messageJson_fieldMask (h : m.descriptor.wellKnown? = some .fieldMask) :
    messageJson registry m = fieldMaskJson (m.list "paths") := by
  obtain ⟨descriptor, contents, payload⟩ := m
  have h : descriptor.wellKnown? = some .fieldMask := h
  simp only [messageJson_mk, h]

theorem contentJson_single (field : Field) (value : Value) :
    contentJson registry field (.single value) = valueJson registry field.kind value := by
  rw [contentJson]

theorem contentJson_list (field : Field) (values : List Value) :
    contentJson registry field (.list values) =
      (listJson registry field.kind values).map .array := by
  rw [contentJson]
  cases listJson registry field.kind values <;> rfl

theorem contentJson_map (field : Field) (entries : List (Key × Value)) :
    contentJson registry field (.map entries) =
      (entriesJson registry (mapValueKind registry field) [] entries).map .object := by
  rw [contentJson]
  cases entriesJson registry (mapValueKind registry field) [] entries <;> rfl

theorem valueJson_message (kind : Kind) (m : Message) :
    valueJson registry kind (.message m) = messageJson registry m := by
  rw [valueJson]

theorem valueJson_scalar {kind : Kind} {value : Value} (h : ∀ m, value ≠ .message m) :
    valueJson registry kind value = .ok (scalarJson registry kind value) := by
  cases value with
  | message m => exact absurd rfl (h m)
  | _ => rw [valueJson]; exact nofun

end Textproto.Encoding
