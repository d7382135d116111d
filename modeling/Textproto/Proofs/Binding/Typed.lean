import Textproto.Decoding
import Textproto.Proofs.Binding.Steps
import Textproto.Proofs.Message.Typed

namespace Textproto

/-! The messages that the binder makes are well-typed. -/

theorem Value.isScalar_of_zero? {kind : Kind} {value : Value} (h : Value.zero? kind = some value) :
    Value.IsScalar kind value := by
  cases kind <;> simp only [Value.zero?, Option.some.injEq, reduceCtorEq] at h <;> subst h
  case string => exact .string (isText _)
  all_goals constructor

/-- The values of a key kind are keys of that kind. -/
theorem Value.key?_hasKind {kind : Kind} {value : Value} {key : Key}
    (hvalue : Value.IsScalar kind value) (h : value.key? = some key) : key.HasKind kind := by
  cases hvalue <;> simp only [Value.key?, Option.some.injEq, reduceCtorEq] at h <;> subst h
  case string htext => exact .string htext
  all_goals constructor

theorem Value.key?_of_isKey {registry : Registry} {kind : Kind} {value : Value}
    (hkind : kind.isKey = true) (hvalue : Value.HasKind registry kind value) :
    ∃ key, value.key? = some key ∧ key.HasKind kind := by
  cases hvalue with
  | message => cases hkind
  | scalar hscalar =>
      have hsome : ∃ key, value.key? = some key := by
        cases hscalar <;> first | exact ⟨_, rfl⟩ | cases hkind
      obtain ⟨key, hkey⟩ := hsome
      exact ⟨key, hkey, Value.key?_hasKind hscalar hkey⟩

theorem Descriptor.fieldNamed?_key (name : String) (entry : MapEntry) :
    (⟨name, .mapEntry entry⟩ : Descriptor).fieldNamed? entry.keyField.name =
      some entry.keyField := by
  simp [Descriptor.fieldNamed?, Descriptor.fields]

theorem Descriptor.fieldNamed?_value (name : String) (entry : MapEntry) :
    (⟨name, .mapEntry entry⟩ : Descriptor).fieldNamed? entry.valueField.name =
      some entry.valueField := by
  simp [Descriptor.fieldNamed?, Descriptor.fields, MapEntry.keyField, MapEntry.valueField,
    Field.single]

/-- The entry type of a map is known under the name in the field's kind. -/
theorem Field.message?_of_mapEntry? {registry : Registry} {field : Field} {name : String}
    {entry : MapEntry} (h : field.mapEntry? registry = some (name, entry)) :
    ∃ type, field.kind = .message type ∧ registry.message? type = some ⟨name, .mapEntry entry⟩ := by
  unfold Field.mapEntry? at h
  split at h
  next type hrepeated hkind =>
    cases hdescriptor : registry.message? type with
    | none => simp [hdescriptor] at h
    | some descriptor =>
        obtain ⟨fullName, shape⟩ := descriptor
        refine ⟨type, hkind, ?_⟩
        rw [hdescriptor]
        cases shape <;> simp_all [Descriptor.mapEntry?]
  next => cases h

namespace Binding

variable {registry : Registry}

theorem scalarAs_isScalar {field : Field} {scalar : Tree.Scalar} {value : Value}
    (h : scalarAs registry field scalar = .ok value) : Value.IsScalar field.kind value := by
  have hexpect {α : Type} {found : Option α} {of : α → Value} {mismatch : Cause}
      (hof : ∀ a, Value.IsScalar field.kind (of a))
      (h : expected (found.map of) mismatch = .ok value) : Value.IsScalar field.kind value := by
    obtain ⟨a, _, rfl⟩ := Option.map_eq_some_iff.mp (expected_eq_ok_iff.mp h)
    exact hof a
  simp only [scalarAs] at h
  split at h
  next hkind => exact hexpect (fun _ => hkind ▸ .bool) h
  next hkind => exact hexpect (fun _ => hkind ▸ .int32) h
  next hkind => exact hexpect (fun _ => hkind ▸ .int64) h
  next hkind => exact hexpect (fun _ => hkind ▸ .uint32) h
  next hkind => exact hexpect (fun _ => hkind ▸ .uint64) h
  next hkind => exact hexpect (fun _ => hkind ▸ .float) h
  next hkind => exact hexpect (fun _ => hkind ▸ .double) h
  next hkind =>
    rw [hkind]
    split at h
    next => split at h <;> cases h; exact .string (isText _)
    next => cases h
  next hkind =>
    rw [hkind]
    split at h
    next => cases h; exact .bytes
    next => cases h
  next name hkind =>
    split at h
    next => cases h
    next =>
      split at h
      next => split at h <;> cases h; exact hkind ▸ .enum
      next => exact hexpect (fun _ => hkind ▸ .enum) h
  next => cases h

/-- Every stored member of a oneof is noted, and the message so far is well-typed. -/
structure Draft.Typed (registry : Registry) (draft : Draft) : Prop where
  wellTyped : draft.message.WellTyped registry
  members : ∀ field ∈ draft.message.descriptor.fields, ∀ oneof, field.oneof = some oneof →
    (draft.message.content? field.number).isSome = true →
    (Entries.get? oneof draft.members).isSome = true

/-- An item may be stored in a field. -/
def Item.Fits (registry : Registry) (field : Field) : Item → Prop
  | .value v => field.mapEntry? registry = none ∧ Value.HasKind registry field.kind v
  | .entry k v => ∃ name entry, field.mapEntry? registry = some (name, entry) ∧
      k.HasKind entry.key ∧ Value.HasKind registry entry.value v

theorem Draft.typed_empty (descriptor : Descriptor) :
    (Draft.empty descriptor).Typed registry where
  wellTyped := Message.wellTyped_empty descriptor
  members := by
    intro field _ oneof _ hset
    cases hset

theorem descriptor_addTo (field : Field) (message : Message) (item : Item) :
    (item.addTo field message).descriptor = message.descriptor := by
  cases item <;> rfl

theorem descriptor_setIn (field : Field) (message : Message) (item : Item) :
    (item.setIn field message).descriptor = message.descriptor := by
  cases item <;> rfl

/-- Only the content of the field changes. -/
theorem content?_addTo_of_ne {field : Field} (message : Message) (item : Item) {number : Nat}
    (hne : number ≠ field.number) :
    (item.addTo field message).content? number = message.content? number := by
  cases item <;> exact Message.content?_put_of_ne _ hne _

theorem content?_setIn_of_ne {field : Field} (message : Message) (item : Item) {number : Nat}
    (hne : number ≠ field.number) :
    (item.setIn field message).content? number = message.content? number := by
  cases item <;> exact Message.content?_put_of_ne _ hne _

section

variable {message : Message} {field : Field} {item : Item}

theorem wellTyped_addTo (h : message.WellTyped registry)
    (hd : message.descriptor.WellFormed registry) (hfield : field ∈ message.descriptor.fields)
    (hrepeated : field.repeated = true) (hitem : item.Fits registry field) :
    (item.addTo field message).WellTyped registry := by
  cases item with
  | value value => exact h.push hd hfield hrepeated hitem.1 hitem.2
  | entry key value =>
      obtain ⟨name, entry, hmap, hkey, hvalue⟩ := hitem
      exact h.insert hd hfield hmap hkey hvalue

theorem wellTyped_setIn (h : message.WellTyped registry)
    (hd : message.descriptor.WellFormed registry) (hfield : field ∈ message.descriptor.fields)
    (hsingle : field.repeated = false) (hfree : message.Free field)
    (hitem : item.Fits registry field) : (item.setIn field message).WellTyped registry := by
  cases item with
  | value value => exact h.set hd hfield hfree hsingle hitem.2
  | entry key value =>
      obtain ⟨name, entry, hmap, _, _⟩ := hitem
      rw [Field.repeated_of_mapEntry? hmap] at hsingle
      cases hsingle

/-- A single field that is noted for the first time finds its oneof free. -/
theorem typed_setIn {draft : Draft} {position : Position} (h : draft.Typed registry)
    (hd : draft.message.descriptor.WellFormed registry)
    (hfield : field ∈ draft.message.descriptor.fields) (hsingle : field.repeated = false)
    (hmembers : ∀ oneof, field.oneof = some oneof → Entries.get? oneof draft.members = none)
    (hitem : item.Fits registry field) :
    Draft.Typed registry
      { draft.noted field position with message := item.setIn field draft.message } where
  wellTyped := by
    refine wellTyped_setIn h.wellTyped hd hfield hsingle ?_ hitem
    intro other hother honeof hsame hset
    obtain ⟨oneof, honeof⟩ := Option.isSome_iff_exists.mp honeof
    have hmember := h.members other hother oneof (hsame ▸ honeof) hset
    rw [hmembers oneof honeof] at hmember
    cases hmember
  members := by
    intro other hother oneof honeof hset
    simp only [descriptor_setIn] at hother hset
    by_cases hnumber : other.number = field.number
    · rw [hd.eq_of_number hother hfield hnumber] at honeof
      simp [Draft.noted, honeof]
    · rw [content?_setIn_of_ne _ _ hnumber] at hset
      have hmember := h.members other hother oneof honeof hset
      simp only [Draft.noted]
      split
      next => exact hmember
      next own _ =>
        by_cases heq : oneof = own
        · simp [heq]
        · rwa [Entries.get?_put_of_ne heq]

theorem typed_addTo {draft : Draft} (h : draft.Typed registry)
    (hd : draft.message.descriptor.WellFormed registry)
    (hfield : field ∈ draft.message.descriptor.fields) (hrepeated : field.repeated = true)
    {message' : Message} (hmessage : message'.WellTyped registry)
    (hdescriptor : message'.descriptor = draft.message.descriptor)
    (hothers : ∀ number, number ≠ field.number →
      message'.content? number = draft.message.content? number) :
    Draft.Typed registry { draft with message := message' } where
  wellTyped := hmessage
  members := by
    intro other hother oneof honeof hset
    simp only [hdescriptor] at hother hset
    by_cases hnumber : other.number = field.number
    · rw [hd.eq_of_number hother hfield hnumber, hd.choices field hfield hrepeated] at honeof
      cases honeof
    · rw [hothers _ hnumber] at hset
      exact h.members other hother oneof honeof hset

theorem hasKind_of_unwritten {kind : Kind} {position : Position} {value : Value}
    (h : unwritten registry kind position = .ok value) : Value.HasKind registry kind value := by
  unfold unwritten at h
  split at h
  next type =>
    split at h
    next descriptor hknown =>
      cases h
      exact .message hknown (Message.wellTyped_empty descriptor)
    next => cases h
  next =>
    split at h
    next hzero =>
      cases h
      exact .scalar (Value.isScalar_of_zero? hzero)
    next => cases h

/-- What an entry holds under a name is of the kind of the field so named. -/
theorem Written.hasKind {own : Field} {bound : Message} {position : Position} {value : Value}
    (h : Written registry bound own position value) (hbound : bound.WellTyped registry)
    (hown : own ∈ bound.descriptor.fields)
    (hnamed : bound.descriptor.fieldNamed? own.name = some own) :
    Value.HasKind registry own.kind value := by
  rcases h with hfound | ⟨_, hunwritten⟩
  · rw [Message.single?_of_fieldNamed? hnamed] at hfound
    obtain ⟨content, hcontent, hsingle⟩ := Option.bind_eq_some_iff.mp hfound
    cases hbound.fits hown hcontent with
    | single _ hvalue =>
        cases hsingle
        exact hvalue
    | list => cases hsingle
    | map => cases hsingle
  · exact hasKind_of_unwritten hunwritten

section

variable {name : String} {entry : MapEntry} {bound : Message} {position : Position}

theorem hasKind_of_written_key {value : Value} (hbound : bound.WellTyped registry)
    (hdescriptor : bound.descriptor = ⟨name, .mapEntry entry⟩)
    (h : Written registry bound entry.keyField position value) :
    Value.HasKind registry entry.key value :=
  h.hasKind hbound (by simp [hdescriptor, Descriptor.fields])
    (by rw [hdescriptor]; exact Descriptor.fieldNamed?_key name entry)

theorem hasKind_of_written_value {value : Value} (hbound : bound.WellTyped registry)
    (hdescriptor : bound.descriptor = ⟨name, .mapEntry entry⟩)
    (h : Written registry bound entry.valueField position value) :
    Value.HasKind registry entry.value value :=
  h.hasKind hbound (by simp [hdescriptor, Descriptor.fields])
    (by rw [hdescriptor]; exact Descriptor.fieldNamed?_value name entry)

theorem fits_entryOf (hmap : field.mapEntry? registry = some (name, entry))
    (hbound : bound.WellTyped registry) (hdescriptor : bound.descriptor = ⟨name, .mapEntry entry⟩)
    (h : entryOf registry entry bound position = .ok item) : item.Fits registry field := by
  obtain ⟨keyValue, key, value, hkeyValue, hkey, hvalue, rfl⟩ := entryOf_eq_ok_iff.mp h
  refine ⟨name, entry, hmap, ?_, hasKind_of_written_value hbound hdescriptor hvalue⟩
  rcases (hasKind_of_written_key hbound hdescriptor hkeyValue).cases with
    hscalar | ⟨_, _, rfl, _⟩
  · exact Value.key?_hasKind hscalar hkey
  · cases hkey

end

theorem wellTyped_finish {start : Position} {message' : Message} (h : message.WellTyped registry)
    (hfinish : finish registry start message = .ok message') :
    message'.WellTyped registry ∧ message'.descriptor = message.descriptor := by
  rcases finish_eq_ok_iff.mp hfinish with ⟨_, rfl⟩ | ⟨hany, hcheck⟩
  · exact ⟨h, rfl⟩
  · rcases checkAny_eq_ok_iff.mp hcheck with ⟨_, ⟨_, rfl⟩ | ⟨_, _, descriptor, hresolve, rfl⟩⟩
    · exact ⟨h, rfl⟩
    · exact ⟨(Message.wellTyped_empty _).withPayload hany hresolve (Message.wellTyped_empty _), rfl⟩

end

theorem message?_of_resolve? {url : String} {descriptor : Descriptor}
    (h : registry.resolve? url = some descriptor) :
    ∃ name, registry.message? name = some descriptor := by
  obtain ⟨name, _, hname⟩ := Option.bind_eq_some_iff.mp h
  exact ⟨_, hname⟩

/-- A plain field keeps a draft well-typed, if its items fit. -/
theorem typed_plain {draft draft' : Draft} {name : List Char} {position : Position}
    {value : Tree.Value} (hd : draft.message.descriptor.WellFormed registry)
    (hdraft : draft.Typed registry)
    (h : addField registry draft ⟨.plain name, position, value⟩ = .ok draft')
    (hfits : ∀ field item, itemOf registry field value = .ok item → item.Fits registry field)
    (hlist : ∀ field values place message', value = .list values place →
      field ∈ draft.message.descriptor.fields → field.repeated = true →
      addItems registry field draft.message values = .ok message' →
      message'.WellTyped registry ∧ message'.descriptor = draft.message.descriptor ∧
        ∀ number, number ≠ field.number →
          message'.content? number = draft.message.content? number) :
    draft'.Typed registry ∧ draft'.message.descriptor = draft.message.descriptor := by
  obtain ⟨field, hnamed, hcases⟩ := addField_plain.mp h
  have hfield := (Descriptor.fieldNamed?_mem hnamed).1
  rcases hcases with ⟨hrepeated, values, place, message, hvalue, hitems, rfl⟩ |
    ⟨hrepeated, _, item, hitem, rfl⟩ | ⟨hsingle, item, hitem, _, hmembers, rfl⟩
  · obtain ⟨hmessage, hdescriptor, hothers⟩ :=
      hlist field values place message hvalue hfield hrepeated hitems
    exact ⟨typed_addTo hdraft hd hfield hrepeated hmessage hdescriptor hothers, hdescriptor⟩
  · have hadded := wellTyped_addTo hdraft.wellTyped hd hfield hrepeated (hfits field item hitem)
    have hdescriptor := descriptor_addTo field draft.message item
    exact ⟨typed_addTo hdraft hd hfield hrepeated hadded hdescriptor
      (fun _ hne => content?_addTo_of_ne _ _ hne), hdescriptor⟩
  · exact ⟨typed_setIn hdraft hd hfield hsingle hmembers (hfits field item hitem),
      descriptor_setIn field draft.message item⟩

/-! By induction on the fields as they are written. -/

mutual

theorem addFields_typed (hregistry : registry.WellFormed) {start : Position} {message : Message} :
    (fields : List Tree.Field) → (draft : Draft) →
    draft.message.descriptor.WellFormed registry → draft.Typed registry →
    addFields registry start draft fields = .ok message →
    message.WellTyped registry ∧ message.descriptor = draft.message.descriptor
  | [], draft, _, hdraft, h => by
      rw [addFields_nil] at h
      exact wellTyped_finish hdraft.wellTyped h
  | field :: rest, draft, hd, hdraft, h => by
      obtain ⟨next, hfield, hrest⟩ := addFields_cons.mp h
      obtain ⟨hnext, hdescriptor⟩ := addField_typed hregistry field draft hd hdraft hfield
      rw [← hdescriptor] at hd
      obtain ⟨hmessage, hsame⟩ := addFields_typed hregistry rest next hd hnext hrest
      exact ⟨hmessage, hsame.trans hdescriptor⟩

theorem addField_typed (hregistry : registry.WellFormed) {draft' : Draft} :
    (field : Tree.Field) → (draft : Draft) →
    draft.message.descriptor.WellFormed registry → draft.Typed registry →
    addField registry draft field = .ok draft' →
    draft'.Typed registry ∧ draft'.message.descriptor = draft.message.descriptor
  | ⟨.expanded url, position, .message fields place⟩, draft, hd, hdraft, h => by
      obtain ⟨descriptor, _, _, payload, htype, heq, hpayload, rfl⟩ := addField_expanded.mp h
      cases heq
      obtain ⟨hany, _, _, hresolve⟩ := payloadType_eq_ok_iff.mp htype
      obtain ⟨name, hname⟩ := message?_of_resolve? hresolve
      obtain ⟨hinner, hsame⟩ := addFields_typed hregistry fields (.empty descriptor)
        (hregistry.descriptors name descriptor hname).2 (Draft.typed_empty descriptor) hpayload
      refine ⟨⟨?_, hdraft.members⟩, rfl⟩
      exact hdraft.wellTyped.withPayload hany (by rw [hresolve, hsame]; rfl) hinner
  | ⟨.expanded url, position, .scalar scalar place⟩, draft, hd, hdraft, h => by
      obtain ⟨_, _, _, _, _, heq, _⟩ := addField_expanded.mp h
      cases heq
  | ⟨.expanded url, position, .list values place⟩, draft, hd, hdraft, h => by
      obtain ⟨_, _, _, _, _, heq, _⟩ := addField_expanded.mp h
      cases heq
  | ⟨.plain name, position, .message fields place⟩, draft, hd, hdraft, h =>
      typed_plain hd hdraft h
        (fun field _ hitem => itemOf_typed hregistry field (.message fields place) hitem)
        (fun _ _ _ _ heq => nomatch heq)
  | ⟨.plain name, position, .scalar scalar place⟩, draft, hd, hdraft, h =>
      typed_plain hd hdraft h
        (fun field _ hitem => itemOf_typed hregistry field (.scalar scalar place) hitem)
        (fun _ _ _ _ heq => nomatch heq)
  | ⟨.plain name, position, .list values place⟩, draft, hd, hdraft, h => by
      refine typed_plain hd hdraft h (fun _ _ hitem => absurd hitem itemOf_list) ?_
      intro field _ _ message heq hfield hrepeated hitems
      cases heq
      exact addItems_typed hregistry field values draft.message hd hfield hrepeated
        hdraft.wellTyped hitems

theorem addItems_typed (hregistry : registry.WellFormed) (field : Field) {message' : Message} :
    (values : List Tree.Value) → (message : Message) →
    message.descriptor.WellFormed registry → field ∈ message.descriptor.fields →
    field.repeated = true → message.WellTyped registry →
    addItems registry field message values = .ok message' →
    message'.WellTyped registry ∧ message'.descriptor = message.descriptor ∧
      ∀ number, number ≠ field.number → message'.content? number = message.content? number
  | [], message, _, _, _, hmessage, h => by
      rw [addItems_nil] at h
      cases h
      exact ⟨hmessage, rfl, fun _ _ => rfl⟩
  | value :: rest, message, hd, hfield, hrepeated, hmessage, h => by
      obtain ⟨item, hitem, hrest⟩ := addItems_cons.mp h
      have hfits := itemOf_typed hregistry field value hitem
      have hadded := wellTyped_addTo hmessage hd hfield hrepeated hfits
      have hsame := descriptor_addTo field message item
      obtain ⟨hmessage', hdescriptor, hothers⟩ := addItems_typed hregistry field rest
        (item.addTo field message) (hsame ▸ hd) (hsame ▸ hfield) hrepeated hadded hrest
      refine ⟨hmessage', hdescriptor.trans hsame, fun number hne => ?_⟩
      rw [hothers number hne, content?_addTo_of_ne _ _ hne]

theorem itemOf_typed (hregistry : registry.WellFormed) (field : Field) {item : Item} :
    (value : Tree.Value) → itemOf registry field value = .ok item → item.Fits registry field
  | .message fields place, h => by
      rcases itemOf_message.mp h with ⟨name, entry, bound, hmap, hbound, hentry⟩ |
        ⟨hmap, name, descriptor, bound, hkind, hknown, hbound, rfl⟩
      · obtain ⟨type, _, hknown⟩ := Field.message?_of_mapEntry? hmap
        obtain ⟨hwellTyped, hdescriptor⟩ := addFields_typed hregistry fields
          (.empty ⟨name, .mapEntry entry⟩) (hregistry.descriptors _ _ hknown).2
          (Draft.typed_empty _) hbound
        exact fits_entryOf hmap hwellTyped hdescriptor hentry
      · obtain ⟨hwellTyped, hdescriptor⟩ := addFields_typed hregistry fields (.empty descriptor)
          (hregistry.descriptors _ _ hknown).2 (Draft.typed_empty _) hbound
        refine ⟨hmap, hkind ▸ .message ?_ hwellTyped⟩
        rw [hknown, hdescriptor]
        rfl
  | .scalar scalar place, h => by
      obtain ⟨hmap, value, hvalue, rfl⟩ := itemOf_scalar.mp h
      exact ⟨hmap, .scalar (scalarAs_isScalar hvalue)⟩
  | .list values place, h => absurd h itemOf_list

end

/-- Whatever fields are bound to a type make a well-typed message of it. -/
theorem messageOf_typed (hregistry : registry.WellFormed) {descriptor : Descriptor}
    (hd : descriptor.WellFormed registry) {fields : List Tree.Field} {message : Message}
    (h : messageOf registry descriptor fields = .ok message) :
    message.WellTyped registry ∧ message.descriptor = descriptor :=
  addFields_typed hregistry fields (.empty descriptor) hd (Draft.typed_empty descriptor) h

end Binding

theorem decodeText_typed {registry : Registry} (hregistry : registry.WellFormed)
    {descriptor : Descriptor} (hd : descriptor.WellFormed registry) {text : List Char}
    {message : Message} (h : decodeText registry descriptor text = .ok message) :
    message.WellTyped registry ∧ message.descriptor = descriptor := by
  unfold decodeText at h
  split at h
  next => cases h
  next fields _ =>
    cases hmessage : Binding.messageOf registry descriptor fields with
    | error error =>
        rw [hmessage] at h
        cases h
    | ok bound =>
        rw [hmessage] at h
        cases h
        exact Binding.messageOf_typed hregistry hd hmessage

end Textproto
