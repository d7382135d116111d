import Textproto.Proofs.Message.Typed
import Textproto.Schema.Bundled.WellKnown

namespace Textproto

/-! Messages that hold the same, apart from what JSON does not tell. -/

/-- A field is not set, or it is zero where that is not told apart. -/
def Message.Blank (m : Message) (field : Field) : Prop :=
  m.content? field.number = none ∨
    ∃ value, m.content? field.number = some (.single value) ∧ value.isZero = true ∧
      field.presence = false ∧ field.oneof = none ∧ field.kind.isMessage = false

mutual

/-- Equal values of a kind. All that are no numbers are alike, and all null enumerators. -/
inductive Value.Agrees (registry : Registry) : Kind → Value → Value → Prop
  | same {kind : Kind} {value : Value} : Value.Agrees registry kind value value
  | float {kind : Kind} {x y : Single} : x.isNaN = true → y.isNaN = true →
      Value.Agrees registry kind (.float x) (.float y)
  | double {kind : Kind} {x y : Double} : x.isNaN = true → y.isNaN = true →
      Value.Agrees registry kind (.double x) (.double y)
  | null {m n : Int32} : Value.Agrees registry (.enum Bundled.nullValue) (.enum m) (.enum n)
  | message {kind : Kind} {m n : Message} : Message.Agrees registry m n →
      Value.Agrees registry kind (.message m) (.message n)

inductive Content.Agrees (registry : Registry) : Field → Content → Content → Prop
  | single {field : Field} {value other : Value} :
      Value.Agrees registry field.kind value other →
      Content.Agrees registry field (.single value) (.single other)
  | list {field : Field} {values others : List Value} :
      values.length = others.length →
      (∀ (i : Nat) (value other : Value), values[i]? = some value → others[i]? = some other →
        Value.Agrees registry field.kind value other) →
      Content.Agrees registry field (.list values) (.list others)
  | map {field : Field} {name : String} {entry : MapEntry} {entries others : List (Key × Value)} :
      field.mapEntry? registry = some (name, entry) →
      entries.map Prod.fst = others.map Prod.fst →
      (∀ key value other, (key, value) ∈ entries → (key, other) ∈ others →
        Value.Agrees registry entry.value value other) →
      Content.Agrees registry field (.map entries) (.map others)

inductive Message.Agrees (registry : Registry) : Message → Message → Prop
  | mk {m n : Message} :
      m.descriptor = n.descriptor →
      (∀ field ∈ m.descriptor.fields, m.Blank field ↔ n.Blank field) →
      (∀ field ∈ m.descriptor.fields, ∀ content other, m.content? field.number = some content →
        n.content? field.number = some other → ¬m.Blank field →
        Content.Agrees registry field content other) →
      m.payload?.map Prod.fst = n.payload?.map Prod.fst →
      (∀ payload other, m.payload? = some payload → n.payload? = some other →
        Message.Agrees registry payload.2 other.2) →
      Message.Agrees registry m n

end

variable {registry : Registry} {m n : Message} {field : Field}

/-- Two messages agree on a field. -/
structure Message.AgreesOn (registry : Registry) (m n : Message) (field : Field) : Prop where
  blank : m.Blank field ↔ n.Blank field
  contents : ∀ content other, m.content? field.number = some content →
    n.content? field.number = some other → ¬m.Blank field →
    Content.Agrees registry field content other

theorem Message.Agrees.of_fields (hdescriptor : m.descriptor = n.descriptor)
    (hfields : ∀ field ∈ m.descriptor.fields, m.AgreesOn registry n field)
    (hm : m.payload? = none) (hn : n.payload? = none) : m.Agrees registry n := by
  refine .mk hdescriptor (fun field hfield => (hfields field hfield).blank)
    (fun field hfield => (hfields field hfield).contents) (by rw [hm, hn]) ?_
  intro payload other hpayload
  rw [hm] at hpayload
  cases hpayload

/-- Values that agree are zero together, unless they are null. -/
theorem Value.Agrees.isZero {kind : Kind} {value other : Value}
    (h : Value.Agrees registry kind value other) (hnull : kind ≠ .enum Bundled.nullValue) :
    value.isZero = other.isZero := by
  have hzero {f : Ieee.Format} {x : Ieee f} (hx : x.isNaN = true) : x ≠ .zero := by
    rintro rfl
    simp [Ieee.isNaN, Ieee.zero] at hx
  cases h with
  | same => rfl
  | float hx hy => simp [Value.isZero, hzero hx, hzero hy]
  | double hx hy => simp [Value.isZero, hzero hx, hzero hy]
  | null => exact absurd rfl hnull
  | message => rfl

/-- A blank field is one that does not show. -/
theorem Message.WellTyped.blank_iff (hm : m.WellTyped registry)
    (hfield : field ∈ m.descriptor.fields) : m.Blank field ↔ m.has field = false := by
  rw [Blank, has]
  cases hcontent : m.content? field.number with
  | none => simp
  | some content =>
      cases hm.fits hfield hcontent with
      | single _ _ => simp [shows, and_assoc, and_comm, and_left_comm]
      | list _ _ hne _ => simp [shows, hne]
      | map _ hne _ _ _ => simp [shows, hne]

end Textproto
