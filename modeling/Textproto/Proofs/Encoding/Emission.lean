import Textproto.Proofs.Message.Typed

namespace Textproto

/-! A message and all in it: fields as they are declared, elements and entries as they are stored,
each message before those inside it. -/

mutual

def Value.emitted : Value → List Message
  | .message m => m.emitted
  | _ => []

def Value.listEmitted : List Value → List Message
  | [] => []
  | value :: rest => value.emitted ++ Value.listEmitted rest

def Value.entriesEmitted : List (Key × Value) → List Message
  | [] => []
  | (_, value) :: rest => value.emitted ++ Value.entriesEmitted rest

def Content.emitted : Content → List Message
  | .single value => value.emitted
  | .list values => Value.listEmitted values
  | .map entries => Value.entriesEmitted entries

def Content.emittedAt (number : Nat) : List (Nat × Content) → List Message
  | [] => []
  | (other, content) :: rest =>
      if other = number then content.emitted else Content.emittedAt number rest

def Message.emitted : Message → List Message
  | ⟨descriptor, contents, payload⟩ =>
      ⟨descriptor, contents, payload⟩ ::
        (descriptor.fields.flatMap (fun field => Content.emittedAt field.number contents) ++
          match payload with
          | none => []
          | some (_, inner) => inner.emitted)

end

/-- The messages in the fields of a message. -/
def Message.emittedInside (m : Message) : List Message :=
  m.descriptor.fields.flatMap fun field => Content.emittedAt field.number m.contents

theorem Value.listEmitted_eq (values : List Value) :
    Value.listEmitted values = values.flatMap Value.emitted := by
  induction values with
  | nil => rw [Value.listEmitted, List.flatMap_nil]
  | cons value rest ih => rw [Value.listEmitted, List.flatMap_cons, ih]

theorem Value.entriesEmitted_eq (entries : List (Key × Value)) :
    Value.entriesEmitted entries = entries.flatMap fun entry => entry.2.emitted := by
  induction entries with
  | nil => rw [Value.entriesEmitted, List.flatMap_nil]
  | cons entry rest ih => rw [Value.entriesEmitted, List.flatMap_cons, ih]

theorem Content.emittedAt_eq (number : Nat) (contents : List (Nat × Content)) :
    Content.emittedAt number contents =
      match Entries.get? number contents with
      | none => []
      | some content => content.emitted := by
  induction contents with
  | nil => rw [Content.emittedAt]; rfl
  | cons entry rest ih =>
      obtain ⟨other, content⟩ := entry
      rw [Content.emittedAt, Entries.get?]
      by_cases h : other = number
      · simp only [h, if_true]
      · simp only [h, if_false]
        exact ih

namespace Message

variable {registry : Registry} {m part : Message}

theorem emitted_eq (m : Message) :
    m.emitted = m :: (m.emittedInside ++
      match m.payload? with
      | none => []
      | some (_, inner) => inner.emitted) := by
  obtain ⟨descriptor, contents, payload⟩ := m
  rw [emitted.eq_def]
  rfl

theorem mem_emitted_value {value : Value} :
    part ∈ value.emitted ↔ ∃ inner, value = .message inner ∧ part ∈ inner.emitted := by
  cases value with
  | message inner => simp [Value.emitted]
  | _ => simp [Value.emitted]

theorem mem_emitted_content {content : Content} :
    part ∈ content.emitted ↔ ∃ inner : Message, inner.HeldBy content ∧ part ∈ inner.emitted := by
  cases content with
  | single value =>
      rw [Content.emitted, mem_emitted_value]
      constructor
      · rintro ⟨inner, rfl, hpart⟩
        exact ⟨inner, .single, hpart⟩
      · rintro ⟨inner, ⟨⟩, hpart⟩
        exact ⟨inner, rfl, hpart⟩
  | list values =>
      simp only [Content.emitted, Value.listEmitted_eq, List.mem_flatMap, mem_emitted_value]
      constructor
      · rintro ⟨value, hvalue, inner, rfl, hpart⟩
        exact ⟨inner, .list hvalue, hpart⟩
      · rintro ⟨inner, ⟨⟩, hpart⟩
        exact ⟨_, ‹_›, inner, rfl, hpart⟩
  | map entries =>
      simp only [Content.emitted, Value.entriesEmitted_eq, List.mem_flatMap, mem_emitted_value]
      constructor
      · rintro ⟨⟨key, value⟩, hentry, inner, rfl, hpart⟩
        exact ⟨inner, .map hentry, hpart⟩
      · rintro ⟨inner, ⟨⟩, hpart⟩
        exact ⟨_, ‹_›, inner, rfl, hpart⟩

theorem mem_emittedInside :
    part ∈ m.emittedInside ↔ ∃ field ∈ m.descriptor.fields, ∃ content,
      m.content? field.number = some content ∧ part ∈ content.emitted := by
  simp only [emittedInside, List.mem_flatMap, Content.emittedAt_eq, content?]
  refine exists_congr fun field => and_congr_right fun _ => ?_
  cases Entries.get? field.number m.contents with
  | none => simp
  | some content => simp

theorem mem_emitted (hm : m.WellTyped registry) :
    part ∈ m.emitted ↔ part = m ∨ ∃ inner : Message, inner.Inside m ∧ part ∈ inner.emitted := by
  rw [emitted_eq, List.mem_cons, List.mem_append, mem_emittedInside]
  refine or_congr_right ?_
  constructor
  · rintro (⟨field, _, content, hcontent, hpart⟩ | hpart)
    · obtain ⟨inner, hheld, hpart⟩ := mem_emitted_content.mp hpart
      exact ⟨inner, hheld.inside hcontent, hpart⟩
    · cases hpayload : m.payload? with
      | none => simp [hpayload] at hpart
      | some payload =>
          rw [hpayload] at hpart
          exact ⟨payload.2, .payload hpayload, hpart⟩
  · rintro ⟨inner, hinner, hpart⟩
    rcases inside_iff.mp hinner with ⟨number, content, hmem, hheld⟩ | ⟨url, hpayload⟩
    · obtain ⟨field, hfield, rfl⟩ := hm.declared (List.mem_map_of_mem hmem)
      exact .inl ⟨field, hfield, content, (content?_eq_some_iff hm.distinct).mpr hmem,
        mem_emitted_content.mpr ⟨inner, hheld, hpart⟩⟩
    · rw [hpayload]
      exact .inr hpart

/-- Every message in a well-typed one is written, and no others are. -/
theorem mem_emitted_iff (hm : m.WellTyped registry) : part ∈ m.emitted ↔ part.Within m := by
  -- By messages from those inside out: what is in one is the message itself or in one inside.
  induction m using inside_induction with
  | step m ih =>
      rw [mem_emitted hm]
      constructor
      · rintro (rfl | ⟨inner, hinner, hpart⟩)
        · exact .self
        · have hwithin := (ih inner hinner (hm.inside hinner).1).mp hpart
          exact hwithin.trans (.inside hinner .self)
      · intro h
        rcases h.eq_or_inside with rfl | ⟨inner, hinner, hwithin⟩
        · exact .inl rfl
        · exact .inr ⟨inner, hinner, (ih inner hinner (hm.inside hinner).1).mpr hwithin⟩

end Message

end Textproto
