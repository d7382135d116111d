import Textproto.Proofs.Binding.Places
import Textproto.Proofs.Schema.Names
import Textproto.Proofs.Tree.Lines

namespace Textproto.Binding

/-! What is wrong with fields is told in one line, but for two causes. -/

/-- The texts that the message of a cause shows. -/
def Cause.shown : Cause → List String
  | unknownField name message => [name, message]
  | repeatedField name first => [name, first.text]
  | oneofTaken name oneof other => [name, oneof, other]
  | expectedEntry entry => [entry]
  | invalidKeyKind type => [type]
  | noZeroValue type => [type]
  | unknownMessageType name => [name]
  | scalarForMessage field type => [field, type]
  | messageForScalar field type => [field, type]
  | listForSingle field => [field]
  | mismatch type field found => [type, field, found.description]
  | invalidText field => [field]
  | unknownEnumeration name => [name]
  | unknownEnumerator name enumeration => [name, enumeration]
  | expandedOutsideAny url any message => [url, any, message]
  | secondPayload url => [url]
  | invalidUrl url => [url]
  | unresolvedUrl url => [url]
  | expectedPayload type url => [type, url]
  | mixedAny => []
  | serializedAny => []

theorem Cause.isLine_message_iff (cause : Cause) :
    IsLine cause.message ↔ ∀ text ∈ cause.shown, IsLine text := by
  cases cause <;> (delta message; simp +decide [shown, and_assoc])

theorem isLine_string {bytes : List UInt8} :
    IsLine (Tree.Scalar.string bytes).description ↔ 0x0A ∉ bytes := by
  change IsLine ("string \"" ++ String.ofList (Utf8.decodeLossy bytes) ++ "\"") ↔ _
  simp +decide [Utf8.newline_mem_decodeLossy]

theorem isLine_position (position : Position) : IsLine position.text := by
  change IsLine (toString "line " ++ toString position.line ++ toString " column "
    ++ toString position.column)
  simp +decide

/-- Causes that show a line end: one in a string that is no value of its field, or in a type URL
that is written as a string itself. -/
inductive Cause.BreaksLine : Cause → Prop
  | string {type field : String} {bytes : List UInt8} :
      0x0A ∈ bytes → BreaksLine (.mismatch type field (.string bytes))
  | url {url : String} : ¬IsLine url → BreaksLine (.unresolvedUrl url)

theorem Cause.BreaksLine.not_isLine {cause : Cause} (h : cause.BreaksLine) :
    ¬IsLine cause.message := by
  rw [isLine_message_iff]
  cases h with
  | string hbytes => simp [shown, isLine_string, hbytes]
  | url hurl => simpa [shown] using hurl

/-- A cause that is told in one line, unless it is one that shows a line end. -/
def Cause.Told (cause : Cause) : Prop :=
  IsLine cause.message ∨ cause.BreaksLine

theorem Cause.told_of_shown {cause : Cause} (h : ∀ text ∈ cause.shown, IsLine text) : cause.Told :=
  .inl ((isLine_message_iff cause).mpr h)

/-- Where the result is an error, it is told like that. -/
def FailsInLine {α : Type} (result : Except Error α) : Prop :=
  ∀ error, result = .error error → error.cause.Told

/-- A draft for a type whose names are lines, and so are those of the fields that oneofs have. -/
structure Draft.OneLine (draft : Draft) : Prop where
  type : draft.message.descriptor.OneLine
  members : ∀ oneof other, Entries.get? oneof draft.members = some other → IsLine other

theorem Draft.oneLine_empty {descriptor : Descriptor} (h : descriptor.OneLine) :
    (Draft.empty descriptor).OneLine :=
  ⟨h, nofun⟩

variable {registry : Registry} {field : Field} {draft draft' : Draft} {position start : Position}
  {message : Message}

theorem Draft.OneLine.noted (h : draft.OneLine) (hfield : field.OneLine) :
    (draft.noted field position).OneLine := by
  refine ⟨h.type, fun oneof other hother => ?_⟩
  unfold Draft.noted at hother
  simp only at hother
  split at hother
  next => exact h.members oneof other hother
  next own _ =>
    by_cases hown : oneof = own
    · subst hown
      rw [Entries.get?_put_self] at hother
      cases hother
      exact hfield.name
    · rw [Entries.get?_put_of_ne hown] at hother
      exact h.members oneof other hother

theorem Draft.OneLine.with_message (h : draft.OneLine)
    (hdescriptor : message.descriptor = draft.message.descriptor) :
    ({ draft with message := message } : Draft).OneLine :=
  ⟨hdescriptor ▸ h.type, h.members⟩

theorem oneLine_of_fieldNamed? {descriptor : Descriptor} {name : String} (h : descriptor.OneLine)
    (hfield : descriptor.fieldNamed? name = some field) : field.OneLine :=
  h.fields field (Descriptor.fieldNamed?_mem hfield).1

/-- A field leaves a draft of names that are lines. -/
theorem Draft.OneLine.addField {written : Tree.Field} (h : draft.OneLine)
    (hadd : addField registry draft written = .ok draft') : draft'.OneLine := by
  obtain ⟨name, place, value⟩ := written
  cases name with
  | expanded url =>
      obtain ⟨_, _, _, _, _, _, _, rfl⟩ := addField_expanded.mp hadd
      exact h.with_message rfl
  | plain name =>
      obtain ⟨field, hfield, hadd⟩ := addField_plain.mp hadd
      rcases hadd with ⟨_, _, _, _, _, hitems, rfl⟩ | ⟨_, _, item, _, rfl⟩ |
        ⟨_, item, _, _, _, rfl⟩
      · exact h.with_message (addItems_frame hitems).1
      · exact h.with_message (descriptor_addTo field _ item)
      · have hnoted : (draft.noted field place).OneLine :=
          h.noted (oneLine_of_fieldNamed? h.type hfield)
        exact hnoted.with_message (descriptor_setIn field _ item)

/-! Steps that look at no fields. -/

theorem failsInLine_note (h : draft.OneLine) (hfield : field.OneLine) :
    FailsInLine (draft.note field position) := by
  intro error herror
  obtain ⟨first, rfl⟩ | ⟨oneof, other, honeof, hother, rfl⟩ := note_eq_error herror
  · refine Cause.told_of_shown ?_
    simp [Cause.shown, hfield.name, isLine_position]
  · refine Cause.told_of_shown ?_
    simp [Cause.shown, hfield.name, hfield.oneof _ honeof, h.members _ _ hother]

theorem failsInLine_unwritten {kind : Kind} (h : IsLine kind.typeName) :
    FailsInLine (unwritten registry kind position) := by
  intro error herror
  obtain ⟨cause, hcause, rfl⟩ := unwritten_eq_error herror
  simp only [List.mem_cons, List.not_mem_nil, or_false] at hcause
  obtain rfl | rfl := hcause
  · exact Cause.told_of_shown (by simpa [Cause.shown] using h)
  · exact Cause.told_of_shown (by simpa [Cause.shown] using h)

theorem failsInLine_entryOf {entry : MapEntry} {bound : Message} {name : String}
    (h : (Descriptor.mk name (.mapEntry entry)).OneLine) :
    FailsInLine (entryOf registry entry bound position) := by
  intro error herror
  obtain ⟨part, hpart, hunwritten⟩ | rfl := entryOf_eq_error herror
  · exact failsInLine_unwritten (h.fields part hpart).type error hunwritten
  · have htype : IsLine entry.key.typeName := (h.fields entry.keyField List.mem_cons_self).type
    exact Cause.told_of_shown (by simpa [Cause.shown] using htype)

theorem told_unresolvedUrl (url : String) : (Cause.unresolvedUrl url).Told := by
  by_cases h : IsLine url
  · exact Cause.told_of_shown (by simpa [Cause.shown] using h)
  · exact .inr (.url h)

theorem failsInLine_payloadType {url : String} (h : message.descriptor.OneLine) (hurl : IsLine url) :
    FailsInLine (payloadType registry message url position) := by
  have hany : IsLine Bundled.any := by decide
  intro error herror
  obtain ⟨cause, hcause, rfl⟩ := payloadType_eq_error herror
  simp only [List.mem_cons, List.not_mem_nil, or_false] at hcause
  obtain rfl | rfl | rfl | rfl := hcause
  · refine Cause.told_of_shown ?_
    simp [Cause.shown, hurl, hany, h.fullName]
  · exact Cause.told_of_shown (by simpa [Cause.shown] using hurl)
  · exact Cause.told_of_shown (by simpa [Cause.shown] using hurl)
  · exact told_unresolvedUrl url

theorem failsInLine_finish : FailsInLine (finish registry start message) := by
  intro error herror
  obtain ⟨cause, hcause, rfl⟩ := finish_eq_error herror
  simp only [List.mem_cons, List.not_mem_nil, or_false] at hcause
  obtain rfl | rfl | rfl := hcause
  · exact Cause.told_of_shown nofun
  · exact Cause.told_of_shown nofun
  · exact told_unresolvedUrl _

theorem told_of_scalarAs {scalar : Tree.Scalar} {cause : Cause} (hfield : field.OneLine)
    (hscalar : (∀ bytes, scalar ≠ .string bytes) → IsLine scalar.description)
    (h : scalarAs registry field scalar = .error cause) : cause.Told := by
  obtain rfl | rfl | ⟨name, hkind, hcause⟩ := scalarAs_eq_error h
  · by_cases hbreaks : (Cause.mismatch field.kind.typeName field.name scalar).BreaksLine
    · exact .inr hbreaks
    · have hline : IsLine scalar.description := by
        cases scalar with
        | string bytes => exact isLine_string.mpr fun hbytes => hbreaks (.string hbytes)
        | _ => exact hscalar nofun
      refine Cause.told_of_shown ?_
      simp [Cause.shown, hfield.type, hfield.name, hline]
  · exact Cause.told_of_shown (by simpa [Cause.shown] using hfield.name)
  · have hname : IsLine name := by
      have htype := hfield.type
      rwa [hkind] at htype
    obtain rfl | ⟨enumerator, rfl, rfl⟩ := hcause
    · exact Cause.told_of_shown (by simpa [Cause.shown] using hname)
    · have henumerator := Tree.isLine_identifier.mp (hscalar nofun)
      exact Cause.told_of_shown (by simpa [Cause.shown] using ⟨henumerator, hname⟩)

/-! Values and fields. -/

theorem told_expectedEntry (hregistry : registry.OneLine) {name : String} {entry : MapEntry}
    (hmap : field.mapEntry? registry = some (name, entry)) : (Cause.expectedEntry name).Told := by
  obtain ⟨type, _, hknown⟩ := Field.message?_of_mapEntry? hmap
  refine Cause.told_of_shown ?_
  simpa [Cause.shown] using (hregistry type _ hknown).fullName

theorem failsInLine_itemOf {value : Tree.Value} (hregistry : registry.OneLine)
    (hfield : field.OneLine) (hvalue : Tree.Node.OneLine (.value value))
    (hinner : ∀ own place, value = .message own place → ∀ descriptor : Descriptor,
      descriptor.OneLine → FailsInLine (messageOf registry descriptor own)) :
    FailsInLine (itemOf registry field value) := by
  intro error h
  cases value with
  | message own place =>
      obtain ⟨name, descriptor, hknown, hown⟩ | ⟨name, entry, _, hmap, hentry⟩ |
        ⟨cause, hcause, rfl⟩ := itemOf_message_eq_error h
      · exact hinner own place rfl descriptor (hregistry name descriptor hknown) error hown
      · obtain ⟨type, _, hknown⟩ := Field.message?_of_mapEntry? hmap
        exact failsInLine_entryOf (hregistry type _ hknown) error hentry
      · simp only [List.mem_cons, List.not_mem_nil, or_false] at hcause
        obtain rfl | rfl := hcause
        · exact Cause.told_of_shown (by simpa [Cause.shown] using hfield.type)
        · exact Cause.told_of_shown (by simp [Cause.shown, hfield.name, hfield.type])
  | scalar scalar place =>
      obtain ⟨cause, rfl, ⟨name, entry, hmap, rfl⟩ | rfl | hcause⟩ := itemOf_scalar_eq_error h
      · exact told_expectedEntry hregistry hmap
      · exact Cause.told_of_shown (by simp [Cause.shown, hfield.name, hfield.type])
      · exact told_of_scalarAs hfield hvalue hcause
  | list values place =>
      obtain ⟨cause, rfl, ⟨name, entry, hmap, rfl⟩ | rfl⟩ := itemOf_list_eq_error h
      · exact told_expectedEntry hregistry hmap
      · exact Cause.told_of_shown (by simpa [Cause.shown] using hfield.name)

theorem failsInLine_addField {written : Tree.Field} (hregistry : registry.OneLine)
    (hdraft : draft.OneLine) (hwritten : Tree.Node.Throughout Tree.Node.OneLine (.field written))
    (hinner : ∀ inner, Tree.Under inner [written] → ∀ descriptor : Descriptor,
      descriptor.OneLine → FailsInLine (messageOf registry descriptor inner)) :
    FailsInLine (addField registry draft written) := by
  obtain ⟨hname, hparts⟩ := Tree.Node.throughout_field.mp hwritten
  obtain ⟨name, position, value⟩ := written
  have hunder (own : List Tree.Field) (place : Position) (h : value = .message own place) :
      Tree.Under own [⟨name, position, value⟩] :=
    ⟨_, List.mem_singleton_self _, .inl ⟨place, h⟩⟩
  intro error h
  cases name with
  | expanded url =>
      have hurl : IsLine (String.ofList url) := isLine_ofList.mpr hname
      obtain htype | ⟨descriptor, htype, h⟩ := addField_expanded_eq_error h
      · exact failsInLine_payloadType hdraft.type hurl error htype
      · have hdescriptor : descriptor.OneLine := by
          obtain ⟨_, _, _, hresolve⟩ := payloadType_eq_ok_iff.mp htype
          obtain ⟨known, hknown⟩ := message?_of_resolve? hresolve
          exact hregistry known descriptor hknown
        obtain rfl | ⟨own, place, rfl, hown⟩ := h
        · refine Cause.told_of_shown ?_
          simpa [Cause.shown] using ⟨hdescriptor.fullName, hname⟩
        · exact hinner own (hunder own place rfl) descriptor hdescriptor error hown
  | plain name =>
      obtain rfl | ⟨field, hknown, h⟩ := addField_plain_eq_error h
      · refine Cause.told_of_shown ?_
        simpa [Cause.shown] using ⟨hname, hdraft.type.fullName⟩
      · have hfield := oneLine_of_fieldNamed? hdraft.type hknown
        obtain hnote | hitem | ⟨values, place, rfl, element, helement, hitem⟩ := h
        · exact failsInLine_note hdraft hfield error hnote
        · refine failsInLine_itemOf hregistry hfield (Tree.Node.throughout_iff.mp hparts).1 ?_ error
            hitem
          exact fun own place hown => hinner own (hunder own place hown)
        · have helements := (Tree.Node.throughout_list.mp hparts).2 element helement
          refine failsInLine_itemOf hregistry hfield (Tree.Node.throughout_iff.mp helements).1 ?_
            error hitem
          rintro own other rfl
          exact hinner own
            ⟨_, List.mem_singleton_self _, .inr ⟨values, place, other, rfl, helement⟩⟩

theorem failsInLine_addFields {fields : List Tree.Field}
    (h : ∀ written ∈ fields, ∀ draft : Draft, draft.OneLine →
      FailsInLine (addField registry draft written)) (hdraft : draft.OneLine) :
    FailsInLine (addFields registry start draft fields) := by
  induction fields generalizing draft with
  | nil =>
      rw [addFields]
      exact failsInLine_finish
  | cons first rest ih =>
      rw [List.forall_mem_cons] at h
      intro error herror
      rw [addFields] at herror
      obtain hfirst | ⟨next, hnext, hrest⟩ := Except.bind_eq_error_iff.mp herror
      · exact h.1 draft hdraft error hfirst
      · exact ih h.2 (hdraft.addField hnext) error hrest

theorem failsInLine_messageOf (hregistry : registry.OneLine) {descriptor : Descriptor}
    (hdescriptor : descriptor.OneLine) (fields : List Tree.Field)
    (hfields : ∀ written ∈ fields, Tree.Node.Throughout Tree.Node.OneLine (.field written)) :
    FailsInLine (messageOf registry descriptor fields) := by
  -- By how deep the fields lie: those of a message lie under the field that it is the value of.
  induction fields using Tree.under_induction generalizing descriptor with
  | step fields ih =>
      refine failsInLine_addFields ?_ (Draft.oneLine_empty hdescriptor)
      intro written hwritten draft hdraft
      refine failsInLine_addField hregistry hdraft (hfields written hwritten) ?_
      rintro inner ⟨_, hmem, hvalue⟩ descriptor hown
      rw [List.mem_singleton.mp hmem] at hvalue
      have hunder : Tree.Under inner fields := ⟨written, hwritten, hvalue⟩
      exact ih inner hunder hown (Tree.throughout_of_under hunder hfields)

end Textproto.Binding
