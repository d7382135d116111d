import Textproto.Proofs.Binding.Acceptance

namespace Textproto.Binding

/-! A list is written out as well by its elements, one occurrence of the field for each. -/

/-- Fields that lie in a value, directly or in lists, and the same value with others instead. -/
inductive Around (own own' : List Tree.Field) : Tree.Value → Tree.Value → Prop
  | message {place : Position} : Around own own' (.message own place) (.message own' place)
  | element {before after : List Tree.Value} {value value' : Tree.Value} {place : Position} :
      Around own own' value value' →
      Around own own' (.list (before ++ value :: after) place)
        (.list (before ++ value' :: after) place)

/-- Fields where a repeated one is written as a list, somewhere in them, and the same fields where
it occurs once for each element of that list. -/
inductive Spread (registry : Registry) : Descriptor → List Tree.Field → List Tree.Field → Prop
  | here {descriptor : Descriptor} {field : Field} {name : Tree.Name} {position place : Position}
      {values : List Tree.Value} {before occurrences after : List Tree.Field} :
      field.repeated = true → Sets descriptor field ⟨name, position, .list values place⟩ →
      (∀ value ∈ values, ∀ inner place, value ≠ .list inner place) →
      (∀ occurrence ∈ occurrences, occurrence.name = name) →
      occurrences.map Tree.Field.value = values →
      Spread registry descriptor (before ++ ⟨name, position, .list values place⟩ :: after)
        (before ++ (occurrences ++ after))
  | inside {descriptor inner : Descriptor} {field : Field} {type : String} {name : Tree.Name}
      {position : Position} {own own' : List Tree.Field} {value value' : Tree.Value}
      {before after : List Tree.Field} :
      Sets descriptor field ⟨name, position, value⟩ → field.kind = .message type →
      registry.message? type = some inner → Spread registry inner own own' →
      Around own own' value value' →
      Spread registry descriptor (before ++ ⟨name, position, value⟩ :: after)
        (before ++ ⟨name, position, value'⟩ :: after)
  | payload {descriptor inner : Descriptor} {url : List Char} {position place : Position}
      {own own' before after : List Tree.Field} :
      registry.resolve? (String.ofList url) = some inner → Spread registry inner own own' →
      Spread registry descriptor (before ++ ⟨.expanded url, position, .message own place⟩ :: after)
        (before ++ ⟨.expanded url, position, .message own' place⟩ :: after)

variable {registry : Registry} {descriptor inner : Descriptor} {field : Field} {draft draft' : Draft}
  {start : Position} {own own' : List Tree.Field} {value value' : Tree.Value}

theorem descriptor_of_addField {written : Tree.Field}
    (h : addField registry draft written = .ok draft') :
    draft'.message.descriptor = draft.message.descriptor := by
  obtain ⟨name | url, position, value⟩ := written
  · obtain ⟨field, _, hcases⟩ := addField_plain.mp h
    rcases hcases with ⟨_, _, _, _, _, hitems, rfl⟩ | ⟨_, _, item, _, rfl⟩ |
      ⟨_, item, _, _, _, rfl⟩
    · exact (addItems_frame hitems).1
    · exact descriptor_addTo _ _ _
    · exact descriptor_setIn _ _ _
  · obtain ⟨_, _, _, _, _, _, _, rfl⟩ := addField_expanded.mp h
    rfl

/-- What follows may be replaced by what does the same to every draft of the type. -/
theorem addFields_congr (before : List Tree.Field) {rest rest' : List Tree.Field}
    (h : ∀ draft' : Draft, draft'.message.descriptor = draft.message.descriptor →
      addFields registry start draft' rest = addFields registry start draft' rest') :
    addFields registry start draft (before ++ rest) =
      addFields registry start draft (before ++ rest') := by
  induction before generalizing draft with
  | nil => exact h draft rfl
  | cons first before ih =>
      rw [List.cons_append, List.cons_append, addFields, addFields]
      cases hfirst : addField registry draft first with
      | error error => rfl
      | ok next =>
          have hnext := descriptor_of_addField hfirst
          exact ih fun draft' hdraft => h draft' (hdraft.trans hnext)

/-- Where fields begin is of no account but to an `Any`. -/
theorem addFields_start (hplain : draft.message.descriptor.wellKnown? ≠ some .any)
    (start start' : Position) (fields : List Tree.Field) :
    addFields registry start draft fields = addFields registry start' draft fields := by
  induction fields generalizing draft with
  | nil => rw [addFields, addFields, finish, finish, if_neg hplain, if_neg hplain]
  | cons first rest ih =>
      rw [addFields, addFields]
      cases hfirst : addField registry draft first with
      | error error => rfl
      | ok next => exact ih (descriptor_of_addField hfirst ▸ hplain)

section

variable {name : List Char} {rest : List Tree.Field}

theorem addField_list (hfield : draft.message.descriptor.fieldNamed? (String.ofList name) = some field)
    (hrepeated : field.repeated = true) (position place : Position) (values : List Tree.Value) :
    addField registry draft ⟨.plain name, position, .list values place⟩ =
      (addItems registry field draft.message values).map fun message =>
        { draft with message := message } := by
  rw [addField]
  simp only [hfield, hrepeated, if_true]
  cases addItems registry field draft.message values <;> rfl

theorem addField_element
    (hfield : draft.message.descriptor.fieldNamed? (String.ofList name) = some field)
    (hrepeated : field.repeated = true) (position : Position)
    (hvalue : ∀ inner place, value ≠ .list inner place) :
    addField registry draft ⟨.plain name, position, value⟩ =
      (itemOf registry field value).map fun item =>
        { draft with message := item.addTo field draft.message } := by
  rw [addField]
  simp only [hfield, hrepeated, if_true]
  cases value with
  | list values place => exact absurd rfl (hvalue values place)
  | scalar scalar place => cases itemOf registry field (.scalar scalar place) <;> rfl
  | message fields place => cases itemOf registry field (.message fields place) <;> rfl

theorem addFields_occurrences
    (hfield : draft.message.descriptor.fieldNamed? (String.ofList name) = some field)
    (hrepeated : field.repeated = true) (occurrences : List Tree.Field)
    (hnames : ∀ occurrence ∈ occurrences, occurrence.name = .plain name)
    (hvalues : ∀ occurrence ∈ occurrences, ∀ inner place, occurrence.value ≠ .list inner place) :
    addFields registry start draft (occurrences ++ rest) = (do
      let message ← addItems registry field draft.message (occurrences.map Tree.Field.value)
      addFields registry start { draft with message := message } rest) := by
  induction occurrences generalizing draft with
  | nil =>
      rw [List.map_nil, addItems]
      rfl
  | cons occurrence occurrences ih =>
      rw [List.forall_mem_cons] at hnames hvalues
      obtain ⟨_, position, value⟩ := occurrence
      obtain ⟨rfl, hnames⟩ := hnames
      have hvalue : ∀ inner place, value ≠ .list inner place := hvalues.1
      rw [List.cons_append, addFields, List.map_cons, addItems,
        addField_element hfield hrepeated position hvalue, Tree.Field.value]
      cases itemOf registry field value with
      | error error => rfl
      | ok item =>
          have hsame := descriptor_addTo field draft.message item
          exact @ih { draft with message := item.addTo field draft.message } (hsame ▸ hfield) hnames
            hvalues.2

end

/-! What lies around a part that is replaced. -/

section

variable {type : String} (hkind : field.kind = .message type)
  (hknown : registry.message? type = some inner)
  (hown : messageOf registry inner own = messageOf registry inner own')

include hkind hknown hown

theorem itemOf_around (h : Around own own' value value') :
    itemOf registry field value = itemOf registry field value' := by
  cases h with
  | element => rw [itemOf, itemOf]
  | message =>
      rw [messageOf, messageOf] at hown
      rw [itemOf, itemOf]
      cases hmap : field.mapEntry? registry with
      | none => simp only [hkind, hknown, hown]
      | some found =>
          obtain ⟨name, entry⟩ := found
          obtain ⟨type', hkind', hknown'⟩ := Field.message?_of_mapEntry? hmap
          cases hkind.symm.trans hkind'
          cases hknown.symm.trans hknown'
          simp only [hown]

theorem addItems_around (h : Around own own' value value') (before after : List Tree.Value)
    (message : Message) :
    addItems registry field message (before ++ value :: after) =
      addItems registry field message (before ++ value' :: after) := by
  induction before generalizing message with
  | nil =>
      rw [List.nil_append, List.nil_append, addItems, addItems,
        itemOf_around hkind hknown hown h]
  | cons first before ih =>
      rw [List.cons_append, List.cons_append, addItems, addItems]
      simp only [ih]

theorem addField_around {name : List Char}
    (hfield : draft.message.descriptor.fieldNamed? (String.ofList name) = some field)
    (h : Around own own' value value') (position : Position) :
    addField registry draft ⟨.plain name, position, value⟩ =
      addField registry draft ⟨.plain name, position, value'⟩ := by
  have hitem := itemOf_around hkind hknown hown h
  cases hrepeated : field.repeated with
  | false =>
      rw [addField, addField]
      simp only [hfield, hrepeated, Bool.false_eq_true, if_false, hitem]
  | true =>
      cases h with
      | message =>
          rw [addField_element hfield hrepeated position (by simp),
            addField_element hfield hrepeated position (by simp), hitem]
      | element hinner =>
          rw [addField_list hfield hrepeated, addField_list hfield hrepeated,
            addItems_around hkind hknown hown hinner]

end

theorem addField_payload {url : List Char}
    (hresolve : registry.resolve? (String.ofList url) = some inner)
    (hown : messageOf registry inner own = messageOf registry inner own')
    (position place : Position) :
    addField registry draft ⟨.expanded url, position, .message own place⟩ =
      addField registry draft ⟨.expanded url, position, .message own' place⟩ := by
  rw [messageOf, messageOf] at hown
  rw [addField, addField]
  cases htype : payloadType registry draft.message (String.ofList url) position with
  | error error => rfl
  | ok type =>
      obtain ⟨_, _, _, htype⟩ := payloadType_eq_ok_iff.mp htype
      cases hresolve.symm.trans htype
      exact congrArg (fun payload : Except Error Message => do
        let payload ← payload
        return { draft with message := draft.message.withPayload (String.ofList url) payload }) hown

/-- A type with a repeated field is no `Any`. -/
theorem not_any_of_repeated (hd : descriptor.WellFormed registry)
    (hfield : field ∈ descriptor.fields) (hrepeated : field.repeated = true) :
    descriptor.wellKnown? ≠ some .any := by
  intro hany
  have hsingle : ∀ field ∈ descriptor.fields, field.repeated = false := by
    rw [hd.fields_of_any hany]
    decide
  rw [hsingle field hfield] at hrepeated
  cases hrepeated

/-- Lists that are written out change nothing, be it the message or the error. -/
theorem Spread.messageOf_eq (hregistry : registry.WellFormed) (hd : descriptor.WellFormed registry)
    {fields others : List Tree.Field} (h : Spread registry descriptor fields others) :
    messageOf registry descriptor fields = messageOf registry descriptor others := by
  induction h with
  | @here descriptor field name position place values before occurrences after hrepeated hset hlists
      hnames hvalues =>
      obtain ⟨hfield, rfl⟩ := hset
      have hplain := not_any_of_repeated hd hfield hrepeated
      rw [messageOf, messageOf, @addFields_start registry (.empty descriptor) hplain _
        (startOf (before ++ (occurrences ++ after)))]
      refine addFields_congr before fun draft hdraft => ?_
      have hnamed : draft.message.descriptor.fieldNamed? (String.ofList field.name.toList) =
          some field := by
        rw [String.ofList_toList, hdraft]
        exact hd.fieldNamed? hfield
      rw [addFields_occurrences hnamed hrepeated occurrences hnames, hvalues, addFields,
        addField_list hnamed hrepeated]
      · cases addItems registry field draft.message values <;> rfl
      · intro occurrence hoccurrence
        exact hlists _ (hvalues ▸ List.mem_map_of_mem hoccurrence)
  | @inside descriptor inner field type name position own own' value value' before after hset hkind
      hknown _ haround ih =>
      obtain ⟨hfield, rfl⟩ := hset
      have hown := ih (hregistry.descriptors _ _ hknown).2
      have hstart : startOf (before ++ ⟨.plain field.name.toList, position, value⟩ :: after) =
          startOf (before ++ ⟨.plain field.name.toList, position, value'⟩ :: after) := by
        cases before <;> rfl
      rw [messageOf, messageOf, hstart]
      refine addFields_congr before fun draft hdraft => ?_
      rw [addFields, addFields, addField_around hkind hknown hown ?_ haround position]
      rw [String.ofList_toList, hdraft]
      exact hd.fieldNamed? hfield
  | @payload descriptor inner url position place own own' before after hresolve _ ih =>
      obtain ⟨type, hknown⟩ := message?_of_resolve? hresolve
      have hown := ih (hregistry.descriptors _ _ hknown).2
      have hstart : startOf (before ++ ⟨.expanded url, position, .message own place⟩ :: after) =
          startOf (before ++ ⟨.expanded url, position, .message own' place⟩ :: after) := by
        cases before <;> rfl
      rw [messageOf, messageOf, hstart]
      refine addFields_congr before fun draft _ => ?_
      rw [addFields, addFields, addField_payload hresolve hown position place]

end Textproto.Binding
