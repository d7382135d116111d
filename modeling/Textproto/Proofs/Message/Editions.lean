import Textproto.Proofs.Message.Typed
import Textproto.Proofs.Schema.Editions

namespace Textproto

/-! Messages of the first edition as messages of the second. -/

open Bundled

mutual

def Value.toProto3 : Value → Value
  | .message m => .message m.toProto3
  | value => value

def Value.listToProto3 : List Value → List Value
  | [] => []
  | value :: rest => value.toProto3 :: Value.listToProto3 rest

def Value.entriesToProto3 : List (Key × Value) → List (Key × Value)
  | [] => []
  | (key, value) :: rest => (key, value.toProto3) :: Value.entriesToProto3 rest

def Content.toProto3 : Content → Content
  | .single value => .single value.toProto3
  | .list values => .list (Value.listToProto3 values)
  | .map entries => .map (Value.entriesToProto3 entries)

def Content.allToProto3 : List (Nat × Content) → List (Nat × Content)
  | [] => []
  | (number, content) :: rest => (number, content.toProto3) :: Content.allToProto3 rest

/-- Payloads, and with them all that is below another type, stay as they are. -/
def Message.toProto3 : Message → Message
  | ⟨descriptor, contents, payload⟩ =>
      match counterpart? descriptor.fullName with
      | some next => ⟨next, Content.allToProto3 contents, payload⟩
      | none => ⟨descriptor, contents, payload⟩

end

theorem Value.listToProto3_eq (values : List Value) :
    Value.listToProto3 values = values.map Value.toProto3 := by
  induction values with
  | nil => rfl
  | cons value rest ih => rw [Value.listToProto3, ih, List.map_cons]

theorem Value.entriesToProto3_eq (entries : List (Key × Value)) :
    Value.entriesToProto3 entries = entries.map (Prod.map id Value.toProto3) := by
  induction entries with
  | nil => rfl
  | cons entry rest ih => rw [Value.entriesToProto3, ih]; rfl

theorem Content.allToProto3_eq (contents : List (Nat × Content)) :
    Content.allToProto3 contents = contents.map (Prod.map id Content.toProto3) := by
  induction contents with
  | nil => rfl
  | cons entry rest ih => rw [Content.allToProto3, ih]; rfl

namespace Value

@[simp] theorem isZero_toProto3 (value : Value) : value.toProto3.isZero = value.isZero := by
  cases value <;> simp [Value.toProto3, Value.isZero]

@[simp] theorem key?_toProto3 (value : Value) : value.toProto3.key? = value.key? := by
  cases value <;> simp [Value.toProto3, Value.key?]

theorem toProto3_of_ne_message {value : Value} (h : ∀ m, value ≠ .message m) :
    value.toProto3 = value := by
  cases value with
  | message m => exact absurd rfl (h m)
  | _ => simp only [Value.toProto3]

end Value

namespace Message

variable {m : Message} {next : Descriptor}

theorem toProto3_of_none (h : counterpart? m.descriptor.fullName = none) : m.toProto3 = m := by
  obtain ⟨descriptor, contents, payload⟩ := m
  rw [Message.descriptor] at h
  rw [Message.toProto3, h]

theorem toProto3_of_some (h : counterpart? m.descriptor.fullName = some next) :
    m.toProto3 = ⟨next, m.contents.map (Prod.map id Content.toProto3), m.payload?⟩ := by
  obtain ⟨descriptor, contents, payload⟩ := m
  rw [Message.descriptor] at h
  rw [Message.toProto3, h, Message.contents, Message.payload?, Content.allToProto3_eq]

theorem toProto3_empty (descriptor : Descriptor) :
    (empty descriptor).toProto3 = empty descriptor.toProto3 := by
  rw [empty, Message.toProto3, Descriptor.toProto3]
  cases counterpart? descriptor.fullName with
  | none => rfl
  | some next => rw [Content.allToProto3]; rfl

@[simp] theorem descriptor_toProto3 (m : Message) :
    m.toProto3.descriptor = m.descriptor.toProto3 := by
  rw [Descriptor.toProto3]
  cases h : counterpart? m.descriptor.fullName with
  | none => rw [toProto3_of_none h]; rfl
  | some next => rw [toProto3_of_some h]; rfl

/-! What is read in a message of the first edition, and what is written to it. -/

section

variable (h : counterpart? m.descriptor.fullName = some next)

include h

theorem content?_toProto3 (number : Nat) :
    m.toProto3.content? number = (m.content? number).map Content.toProto3 := by
  rw [toProto3_of_some h]
  exact Entries.get?_map Content.toProto3

theorem toProto3_put (number : Nat) (content : Content) :
    (m.put number content).toProto3 = m.toProto3.put number content.toProto3 := by
  have h' : counterpart? (m.put number content).descriptor.fullName = some next := h
  rw [toProto3_of_some h', toProto3_of_some h]
  exact congrArg (Message.mk next · m.payload?) (Entries.map_put Content.toProto3)

theorem toProto3_set (field : Field) (value : Value) :
    (m.set field value).toProto3 = m.toProto3.set field value.toProto3 := by
  rw [Message.set, toProto3_put h, Content.toProto3, Message.set]

theorem toProto3_push (field : Field) (value : Value) :
    (m.push field value).toProto3 = m.toProto3.push field value.toProto3 := by
  rw [Message.push, toProto3_put h, Message.push, content?_toProto3 h]
  refine congrArg (m.toProto3.put field.number) ?_
  rw [Content.toProto3, Value.listToProto3_eq, List.map_append]
  cases hcontent : m.content? field.number with
  | none => rfl
  | some content =>
      cases content with
      | single => simp [Content.toProto3, Content.list?]
      | map => simp [Content.toProto3, Content.list?]
      | list => simp [Content.toProto3, Content.list?, Value.listToProto3_eq]

theorem toProto3_insert (field : Field) (key : Key) (value : Value) :
    (m.insert field key value).toProto3 = m.toProto3.insert field key value.toProto3 := by
  rw [Message.insert, toProto3_put h, Message.insert, content?_toProto3 h]
  refine congrArg (m.toProto3.put field.number) ?_
  rw [Content.toProto3, Value.entriesToProto3_eq, Key.map_insert]
  cases hcontent : m.content? field.number with
  | none => rfl
  | some content =>
      cases content with
      | single => simp [Content.toProto3]
      | list => simp [Content.toProto3]
      | map => simp [Content.toProto3, Value.entriesToProto3_eq]

/-- Single values under the same number are read alike. -/
theorem single?_toProto3 {name : String}
    (hnumber : (next.fieldNamed? name).map Field.number =
      (m.descriptor.fieldNamed? name).map Field.number) :
    m.toProto3.single? name = (m.single? name).map Value.toProto3 := by
  have hnamed (m : Message) : m.named? name =
      ((m.descriptor.fieldNamed? name).map Field.number).bind m.content? := by
    rw [Message.named?, Option.bind_map]
    rfl
  have hdescriptor : m.toProto3.descriptor = next := by
    rw [toProto3_of_some h]
    rfl
  rw [Message.single?, hnamed, hdescriptor, hnumber, Message.single?, hnamed]
  cases (m.descriptor.fieldNamed? name).map Field.number with
  | none => rfl
  | some number =>
      rw [Option.bind_some, Option.bind_some, content?_toProto3 h]
      cases m.content? number with
      | none => rfl
      | some content => cases content <;> rfl

end

end Message

theorem Value.toProto3_of_hasKind {kind : Kind} {value : Value}
    (h : Value.HasKind .bundled kind value) (hkind : kind.toProto3 = kind) :
    value.toProto3 = value := by
  cases h with
  | scalar hscalar => exact Value.toProto3_of_ne_message hscalar.ne_message
  | message hknown _ =>
      obtain ⟨rfl, _⟩ := Registry.bundled_wellFormed.descriptors _ _ hknown
      rw [Value.toProto3, Message.toProto3_of_none]
      exact typeInProto3_eq_self_iff.mp (Kind.message.inj hkind)

end Textproto
