import Textproto.Proofs.Binding.Alike
import Textproto.Proofs.Binding.Spread
import Textproto.Proofs.Message.Editions
import Textproto.Proofs.Tree.Nodes

namespace Textproto.Binding

/-! Fields are bound alike to a type of the first edition and to its counterpart. -/

open Bundled

/-- Fields that lie in those of a message and are read as a message themselves, with no payload
around them. -/
inductive Reads (registry : Registry) :
    Descriptor → List Tree.Field → Descriptor → List Tree.Field → Prop
  | self {descriptor : Descriptor} {given : List Tree.Field} :
      Reads registry descriptor given descriptor given
  | item {outer next inner : Descriptor} {given own found : List Tree.Field} {field : Field}
      {name : String} {place : Position} :
      field ∈ outer.fields → .message own place ∈ writtenTo field given →
      field.kind = .message name → registry.message? name = some next →
      Reads registry next own inner found → Reads registry outer given inner found

/-- No message with a field of every kind sets a field that only the second edition has, unless a
payload is around it. -/
def InBothEditions (descriptor : Descriptor) (given : List Tree.Field) : Prop :=
  ∀ inner found, Reads .bundled descriptor given inner found →
    inner.fullName = Edition.proto2.allTypes →
    ∀ written ∈ found, ∀ name ∈ addedNames, written.name ≠ .plain name.toList

/-- Both results are values, one carried to the other, or both are errors at one place. -/
inductive Carried {α β : Type} (f : α → β) : Except Error α → Except Error β → Prop
  | ok (value : α) : Carried f (.ok value) (.ok (f value))
  | error {error other : Error} : error.position = other.position →
      Carried f (.error error) (.error other)

section

variable {α β γ δ : Type} {f : α → β} {g : γ → δ} {result : Except Error α}
  {other : Except Error β}

theorem Carried.bind {next : α → Except Error γ} {next' : β → Except Error δ}
    (h : Carried f result other)
    (hnext : ∀ value, result = .ok value → Carried g (next value) (next' (f value))) :
    Carried g (result >>= next) (other >>= next') := by
  cases h with
  | ok value => exact hnext value rfl
  | error hposition => exact .error hposition

theorem Carried.cases (h : Carried f result other) :
    (∃ value, result = .ok value ∧ other = .ok (f value)) ∨
      ∃ cause cause', result = .error cause ∧ other = .error cause' ∧
        cause.position = cause'.position := by
  cases h with
  | ok value => exact .inl ⟨value, rfl, rfl⟩
  | error hposition => exact .inr ⟨_, _, rfl, rfl, hposition⟩

theorem carried_error {position : Position} {cause cause' : Cause} :
    Carried f (.error ⟨position, cause⟩) (.error ⟨position, cause'⟩) :=
  .error rfl

theorem carried_self {f : α → α} (h : ∀ value, result = .ok value → f value = value) :
    Carried f result result := by
  cases result with
  | error error => exact .error rfl
  | ok value =>
      have hvalue := Carried.ok (f := f) value
      rwa [h value rfl] at hvalue

end

def Item.toProto3 : Item → Item
  | .value v => .value v.toProto3
  | .entry k v => .entry k v.toProto3

def Draft.toProto3 (draft : Draft) : Draft :=
  { draft with message := draft.message.toProto3 }

variable {field next : Field} {position : Position}

/-! What is written for one value. -/

theorem toProto3_of_fits {item : Item} (hkind : field.kind.toProto3 = field.kind)
    (h : item.Fits .bundled field) : item.toProto3 = item := by
  cases item with
  | value v => rw [Item.toProto3, Value.toProto3_of_hasKind h.2 hkind]
  | entry key v =>
      obtain ⟨name, entry, hmap, _, hvalue⟩ := h
      obtain ⟨type, hmessage, hknown⟩ := Field.message?_of_mapEntry? hmap
      obtain ⟨hmem, rfl⟩ := Registry.mem_of_message?_ofLists hknown
      rw [hmessage] at hkind
      have houtside := typeInProto3_eq_self_iff.mp (Kind.message.inj hkind)
      have hfields := kind_of_outside _ hmem houtside entry.valueField
        (List.mem_cons_of_mem _ List.mem_cons_self)
      rw [Item.toProto3, Value.toProto3_of_hasKind hvalue hfields]

theorem toOption_scalarAs (h : field.CarriedTo next) (scalar : Tree.Scalar) :
    (scalarAs .bundled next scalar).toOption = (scalarAs .bundled field scalar).toOption := by
  have hkind := h.kind
  unfold scalarAs
  rw [h.name, hkind]
  cases hfield : field.kind with
  | enum name =>
      simp only [Kind.toProto3]
      rcases rel_cases (rel_enumeration? name) with ⟨hnone, hnone'⟩ | ⟨_, _, hown, hother, hvalues⟩
      · rw [hnone, hnone']
        rfl
      · simp only [hown, hother]
        cases scalar with
        | identifier enumerator =>
            simp only [Enumeration.numberOf?, hvalues]
            split <;> rfl
        | _ => simp only; split <;> rfl
  | message name => rfl
  | _ => rfl

/-- A scalar is stored as it is, or refused where it stands. -/
theorem carried_scalar (h : field.CarriedTo next) (scalar : Tree.Scalar) :
    Carried Item.toProto3 (itemOf .bundled field (.scalar scalar position))
      (itemOf .bundled next (.scalar scalar position)) := by
  rw [itemOf, itemOf, h.mapEntry?, h.kind]
  cases field.mapEntry? .bundled with
  | some found => exact carried_error
  | none =>
      have hsame := toOption_scalarAs h scalar
      cases hfield : scalarAs .bundled field scalar with
      | error cause =>
          cases hnext : scalarAs .bundled next scalar with
          | ok value =>
              rw [hfield, hnext] at hsame
              cases hsame
          | error cause' => cases field.kind <;> exact carried_error
      | ok value =>
          have hscalar := scalarAs_isScalar hfield
          cases hnext : scalarAs .bundled next scalar with
          | error cause' =>
              rw [hfield, hnext] at hsame
              cases hsame
          | ok value' =>
              rw [hfield, hnext] at hsame
              cases hsame
              have hvalue := Carried.ok (f := Item.toProto3) (.value value)
              rw [Item.toProto3, Value.toProto3_of_ne_message hscalar.ne_message] at hvalue
              cases hkind : field.kind with
              | message name =>
                  rw [hkind] at hscalar
                  cases hscalar
              | _ => exact hvalue

theorem carried_list (h : field.CarriedTo next) (values : List Tree.Value) :
    Carried Item.toProto3 (itemOf .bundled field (.list values position))
      (itemOf .bundled next (.list values position)) := by
  rw [itemOf, itemOf, h.mapEntry?]
  cases field.mapEntry? .bundled with
  | some found => exact carried_error
  | none => exact carried_error

theorem carried_unwritten (kind : Kind) :
    Carried Value.toProto3 (unwritten .bundled kind position)
      (unwritten .bundled kind.toProto3 position) := by
  cases kind with
  | message name =>
      rw [Kind.toProto3, unwritten, unwritten, message?_typeInProto3]
      cases Registry.bundled.message? name with
      | none => exact carried_error
      | some descriptor =>
          have hempty := Carried.ok (f := Value.toProto3) (.message (.empty descriptor))
          rwa [Value.toProto3, Message.toProto3_empty] at hempty
  | _ => exact .ok _

/-! Entries of maps whose type is one of the first edition. -/

section

variable {name : String} {entry : MapEntry} {bound : Message}

theorem carried_writtenOr {own own' : Field} {type : Descriptor}
    (hsome : counterpart? bound.descriptor.fullName = some type)
    (hnumber : (type.fieldNamed? own.name).map Field.number =
      (bound.descriptor.fieldNamed? own.name).map Field.number)
    (hname : own'.name = own.name) (hkind : own'.kind = own.kind.toProto3) :
    Carried Value.toProto3 (writtenOr .bundled bound own position)
      (writtenOr .bundled bound.toProto3 own' position) := by
  rw [writtenOr, writtenOr, hname, hkind, Message.single?_toProto3 hsome hnumber]
  cases bound.single? own.name with
  | none => exact carried_unwritten own.kind
  | some value => exact .ok value

theorem carried_entryOf (hbound : bound.descriptor = ⟨name, .mapEntry entry⟩)
    (hsome : counterpart? name = some ⟨typeInProto3 name, .mapEntry entry.toProto3⟩) :
    Carried Item.toProto3 (entryOf .bundled entry bound position)
      (entryOf .bundled entry.toProto3 bound.toProto3 position) := by
  have hsome' : counterpart? bound.descriptor.fullName =
      some ⟨typeInProto3 name, .mapEntry entry.toProto3⟩ := by
    rw [hbound]
    exact hsome
  have hkey : Carried Value.toProto3 (writtenOr .bundled bound entry.keyField position)
      (writtenOr .bundled bound.toProto3 entry.toProto3.keyField position) := by
    refine carried_writtenOr hsome' ?_ rfl rfl
    rw [hbound, Descriptor.fieldNamed?_key]
    rfl
  have hvalue : Carried Value.toProto3 (writtenOr .bundled bound entry.valueField position)
      (writtenOr .bundled bound.toProto3 entry.toProto3.valueField position) := by
    refine carried_writtenOr hsome' ?_ rfl rfl
    rw [hbound, Descriptor.fieldNamed?_value]
    rfl
  rw [entryOf_eq, entryOf_eq]
  refine hkey.bind fun keyValue _ => ?_
  rw [Value.key?_toProto3]
  cases keyValue.key? with
  | none => exact carried_error
  | some key => exact hvalue.bind fun value _ => .ok (Item.entry key value)

end

/-! Fields that are read as a message. -/

theorem itemOf_presence (presence : Bool) (value : Tree.Value) :
    itemOf .bundled { field with presence := presence } value = itemOf .bundled field value := by
  cases value with
  | message => rw [itemOf, itemOf]; rfl
  | scalar => rw [itemOf, itemOf]; rfl
  | list => rw [itemOf, itemOf]; rfl

/-- Fields are bound alike as a message that a field holds, or as an entry. -/
def CarriedIn (field : Field) (own : List Tree.Field) : Prop :=
  ∀ name inner, field.kind = .message name → Registry.bundled.message? name = some inner →
    Carried Message.toProto3 (messageOf .bundled inner own)
      (messageOf .bundled inner.toProto3 own)

theorem carried_message (h : field.CarriedTo next) {own : List Tree.Field}
    (hinner : CarriedIn field own) :
    Carried Item.toProto3 (itemOf .bundled field (.message own position))
      (itemOf .bundled next (.message own position)) := by
  have hregistry := Registry.bundled_wellFormed
  cases hmap : field.mapEntry? .bundled with
  | some found =>
      obtain ⟨name, entry⟩ := found
      obtain ⟨type, hkind, hknown⟩ := Field.message?_of_mapEntry? hmap
      obtain ⟨rfl, hd⟩ := hregistry.descriptors _ _ hknown
      cases hnext : counterpart? name with
      | none =>
          have hfixed : field.kind.toProto3 = field.kind := by
            rw [hkind, Kind.toProto3, typeInProto3_eq_self_iff.mpr hnext]
          have hsame := h.1
          rw [hfixed] at hsame
          rw [hsame, itemOf_presence]
          exact carried_self fun item hitem =>
            toProto3_of_fits hfixed (itemOf_typed hregistry field _ hitem)
      | some found =>
          obtain rfl := counterpart?_of_mapEntry hknown rfl hnext
          have hbound := hinner name _ hkind hknown
          rw [Descriptor.toProto3, hnext] at hbound
          rw [itemOf, itemOf, h.mapEntry?, hmap]
          refine hbound.bind fun bound hok => ?_
          exact carried_entryOf (messageOf_typed hregistry hd hok).2 hnext
  | none =>
      rw [itemOf, itemOf, h.mapEntry?, hmap, h.kind]
      cases hkind : field.kind with
      | message name =>
          simp only [Option.map_none, Kind.toProto3, message?_typeInProto3]
          cases hknown : Registry.bundled.message? name with
          | none => exact carried_error
          | some inner =>
              refine (hinner name inner hkind hknown).bind fun bound _ => ?_
              have hitem := Carried.ok (f := Item.toProto3) (.value (.message bound))
              rwa [Item.toProto3, Value.toProto3] at hitem
      | _ => exact carried_error

theorem carried_itemOf (h : field.CarriedTo next) {value : Tree.Value}
    (hinner : ∀ own place, value = .message own place → CarriedIn field own) :
    Carried Item.toProto3 (itemOf .bundled field value) (itemOf .bundled next value) := by
  cases value with
  | scalar scalar place => exact carried_scalar h scalar
  | message own place => exact carried_message h (hinner own place rfl)
  | list values place => exact carried_list h values

/-! Fields of a type of the first edition. -/

/-- Under a name that the second edition adds no field for, both find a field or neither. -/
theorem rel_fieldNamed? {descriptor type : Descriptor} (h : descriptor.CarriedTo type)
    (hd : descriptor.WellFormed .bundled) {name : String}
    (hname : ∀ field ∈ type.fields, field.name = name →
      field.number ∈ descriptor.fields.map Field.number) :
    Option.Rel Field.CarriedTo (descriptor.fieldNamed? name) (type.fieldNamed? name) := by
  cases htype : type.fieldNamed? name with
  | some next =>
      obtain ⟨hmem, rfl⟩ := Descriptor.fieldNamed?_mem htype
      have hshared : next ∈ type.sharedWith descriptor :=
        List.mem_filter.mpr ⟨hmem, decide_eq_true (hname next hmem rfl)⟩
      obtain ⟨field, hfield, hfollows⟩ := Tree.exists_right h.fields.flip next hshared
      have hcarried : field.CarriedTo next := hfollows
      rw [hcarried.name, hd.fieldNamed? hfield]
      exact .some hcarried
  | none =>
      cases hdescriptor : descriptor.fieldNamed? name with
      | none => exact .none
      | some field =>
          obtain ⟨hfield, rfl⟩ := Descriptor.fieldNamed?_mem hdescriptor
          obtain ⟨next, hshared, hcarried⟩ := Tree.exists_right h.fields field hfield
          have hnone := List.find?_eq_none.mp htype next (List.mem_filter.mp hshared).1
          simp [hcarried.name] at hnone

section

variable {descriptor type : Descriptor} {message : Message} {draft : Draft}

theorem toProto3_addTo (h : field.CarriedTo next)
    (hsome : counterpart? message.descriptor.fullName = some type) (item : Item) :
    (item.addTo field message).toProto3 = item.toProto3.addTo next message.toProto3 := by
  cases item with
  | value v =>
      rw [Item.addTo, Message.toProto3_push hsome, Item.toProto3, Item.addTo, Message.push,
        Message.push, h.number]
  | entry k v =>
      rw [Item.addTo, Message.toProto3_insert hsome, Item.toProto3, Item.addTo, Message.insert,
        Message.insert, h.number]

theorem toProto3_setIn (h : field.CarriedTo next)
    (hsome : counterpart? message.descriptor.fullName = some type) (item : Item) :
    (item.setIn field message).toProto3 = item.toProto3.setIn next message.toProto3 := by
  cases item with
  | value v =>
      rw [Item.setIn, Message.toProto3_set hsome, Item.toProto3, Item.setIn, Message.set,
        Message.set, h.number]
  | entry k v =>
      rw [Item.setIn, Message.toProto3_insert hsome, Item.toProto3, Item.setIn, Message.insert,
        Message.insert, h.number]

theorem carried_draft {message' : Message} (draft : Draft) (h : message.toProto3 = message') :
    Carried Draft.toProto3 (.ok { draft with message := message })
      (.ok { draft.toProto3 with message := message' }) := by
  rw [← h]
  exact .ok _

theorem carried_addItems (h : field.CarriedTo next) {values : List Tree.Value}
    (hitems : ∀ value ∈ values,
      Carried Item.toProto3 (itemOf .bundled field value) (itemOf .bundled next value))
    (hsome : counterpart? message.descriptor.fullName = some type) :
    Carried Message.toProto3 (addItems .bundled field message values)
      (addItems .bundled next message.toProto3 values) := by
  induction values generalizing message with
  | nil =>
      rw [addItems, addItems]
      exact .ok message
  | cons value rest ih =>
      rw [List.forall_mem_cons] at hitems
      rw [addItems, addItems]
      refine hitems.1.bind fun item _ => ?_
      rw [← toProto3_addTo h hsome]
      exact ih hitems.2 (by rw [descriptor_addTo]; exact hsome)

theorem carried_note (h : field.CarriedTo next) :
    Carried Draft.toProto3 (draft.note field position) (draft.toProto3.note next position) := by
  unfold Draft.note
  rw [h.number, h.oneof, h.name]
  simp only [Draft.toProto3]
  split
  next => exact carried_error
  next =>
    split
    next => exact .ok _
    next =>
      split
      next => exact carried_error
      next => exact .ok _

theorem descriptor_draft_toProto3
    (hsome : counterpart? draft.message.descriptor.fullName = some type) :
    draft.toProto3.message.descriptor = type := by
  rw [Draft.toProto3, Message.descriptor_toProto3, Descriptor.toProto3, hsome]
  rfl

/-- A field that both editions know is set alike in both. -/
theorem carried_plain (h : field.CarriedTo next)
    (hsome : counterpart? draft.message.descriptor.fullName = some type) {name : List Char}
    (hfield : draft.message.descriptor.fieldNamed? (String.ofList name) = some field)
    (hnext : type.fieldNamed? (String.ofList name) = some next) {value : Tree.Value}
    (hitem : ∀ element ∈ elements value,
      Carried Item.toProto3 (itemOf .bundled field element) (itemOf .bundled next element)) :
    Carried Draft.toProto3 (addField .bundled draft ⟨.plain name, position, value⟩)
      (addField .bundled draft.toProto3 ⟨.plain name, position, value⟩) := by
  rw [addField, addField, descriptor_draft_toProto3 hsome]
  simp only [hfield, hnext, h.repeated]
  cases field.repeated with
  | false =>
      have hself : Carried Item.toProto3 (itemOf .bundled field value)
          (itemOf .bundled next value) := by
        cases value with
        | list values place => exact carried_list h values
        | scalar _ _ | message _ _ => exact hitem _ List.mem_cons_self
      simp only [Bool.false_eq_true, if_false]
      refine (carried_note h).bind fun noted hnoted => ?_
      obtain ⟨_, _, rfl⟩ := note_eq_ok_iff.mp hnoted
      exact hself.bind fun item _ => carried_draft _ (toProto3_setIn h hsome item)
  | true =>
      simp only [if_true]
      cases value with
      | list values place =>
          exact (carried_addItems h hitem hsome).bind fun message _ => carried_draft _ rfl
      | scalar _ _ | message _ _ =>
          exact (hitem _ List.mem_cons_self).bind fun item _ =>
            carried_draft _ (toProto3_addTo h hsome item)

/-- Expanded names are refused in both editions, and plain ones are looked up in both. -/
theorem carried_addField (hcarried : descriptor.CarriedTo type)
    (hd : descriptor.WellFormed .bundled) (hsome : counterpart? descriptor.fullName = some type)
    {written : Tree.Field} (hdraft : draft.message.descriptor = descriptor)
    (hname : ∀ field ∈ type.fields, written.name = .plain field.name.toList →
      field.number ∈ descriptor.fields.map Field.number)
    (hinner : ∀ field ∈ descriptor.fields, ∀ own place,
      .message own place ∈ writtenTo field [written] → CarriedIn field own) :
    Carried Draft.toProto3 (addField .bundled draft written)
      (addField .bundled draft.toProto3 written) := by
  subst hdraft
  have htype := descriptor_draft_toProto3 hsome
  obtain ⟨name | url, position, value⟩ := written
  · have hfound := rel_fieldNamed? hcarried hd fun next hnext heq =>
      hname next hnext (by rw [heq, String.toList_ofList]; rfl)
    rcases rel_cases hfound with ⟨hnone, hnone'⟩ | ⟨field, next, hfield, hnext, hfollows⟩
    · rw [addField, addField, htype]
      simp only [hnone, hnone']
      exact carried_error
    · refine carried_plain hfollows hsome hfield hnext fun element helement => ?_
      refine carried_itemOf hfollows ?_
      rintro own place rfl
      obtain ⟨hmem, hfieldName⟩ := Descriptor.fieldNamed?_mem hfield
      refine hinner field hmem own place ?_
      have hgiven : Tree.given (.plain field.name.toList) [⟨.plain name, position, value⟩] =
          [value] := by
        simp [Tree.given, hfieldName, Tree.Field.name, Tree.Field.value]
      rw [writtenTo, hgiven]
      simpa using helement
  · rw [addField, addField, payloadType, payloadType, htype, hcarried.plain.1,
      hcarried.plain.2]
    exact carried_error

theorem writtenTo_cons (field : Field) (first : Tree.Field) (rest : List Tree.Field) :
    writtenTo field (first :: rest) = writtenTo field [first] ++ writtenTo field rest := by
  rw [writtenTo, ← List.singleton_append, Tree.given, List.filter_append, List.map_append,
    List.flatMap_append]
  rfl

theorem finish_of_plain {start : Position} (h : message.descriptor.wellKnown? = none) :
    finish .bundled start message = .ok message := by
  rw [finish, h]
  rfl

theorem carried_addFields (hcarried : descriptor.CarriedTo type)
    (hd : descriptor.WellFormed .bundled) (hsome : counterpart? descriptor.fullName = some type)
    {start : Position} {given : List Tree.Field} (hdraft : draft.message.descriptor = descriptor)
    (hname : ∀ written ∈ given, ∀ field ∈ type.fields, written.name = .plain field.name.toList →
      field.number ∈ descriptor.fields.map Field.number)
    (hinner : ∀ field ∈ descriptor.fields, ∀ own place,
      .message own place ∈ writtenTo field given → CarriedIn field own) :
    Carried Message.toProto3 (addFields .bundled start draft given)
      (addFields .bundled start draft.toProto3 given) := by
  induction given generalizing draft with
  | nil =>
      subst hdraft
      rw [addFields, addFields, finish_of_plain hcarried.plain.1, finish_of_plain]
      · exact .ok draft.message
      · rw [descriptor_draft_toProto3 hsome, hcarried.plain.2]
  | cons first rest ih =>
      rw [List.forall_mem_cons] at hname
      simp only [writtenTo_cons _ first rest, List.mem_append] at hinner
      rw [addFields, addFields]
      have hfirst := carried_addField hcarried hd hsome hdraft hname.1
        fun field hfield own place hmem => hinner field hfield own place (.inl hmem)
      refine hfirst.bind fun next hnext => ?_
      exact ih ((descriptor_of_addField hnext).trans hdraft) hname.2
        fun field hfield own place hmem => hinner field hfield own place (.inr hmem)

end

theorem InBothEditions.item {descriptor inner : Descriptor} {given own : List Tree.Field}
    (h : InBothEditions descriptor given) {field : Field} (hfield : field ∈ descriptor.fields)
    {place : Position} (hmem : .message own place ∈ writtenTo field given) {name : String}
    (hkind : field.kind = .message name) (hknown : Registry.bundled.message? name = some inner) :
    InBothEditions inner own :=
  fun _ found hreads => h _ found (.item hfield hmem hkind hknown hreads)

theorem Reads.mem_in {registry : Registry} {descriptor inner : Descriptor}
    {given found : List Tree.Field} (h : Reads registry descriptor given inner found)
    {written : Tree.Field} (hwritten : written ∈ found) :
    Tree.Node.In given (.field written) := by
  induction h with
  | self => exact ⟨written, hwritten, .refl⟩
  | item _ hmem _ _ _ ih =>
      obtain ⟨field, hfield, hpart⟩ := ih hwritten
      obtain ⟨outer, houter, hvalue⟩ := under_of_mem_writtenTo hmem
      refine ⟨outer, houter, .head .value ?_⟩
      rcases hvalue with ⟨place, heq⟩ | ⟨values, place, own, heq, helement⟩
      · rw [heq]
        exact .head (.field hfield) hpart
      · rw [heq]
        exact .head (.element helement) (.head (.field hfield) hpart)

/-- A text that nowhere has a field of these names is one for both editions. -/
theorem inBothEditions_of_throughout {descriptor : Descriptor} {given : List Tree.Field}
    (h : ∀ field ∈ given, Tree.Node.Throughout (fun node => ∀ written, node = .field written →
      ∀ name ∈ addedNames, written.name ≠ .plain name.toList) (.field field)) :
    InBothEditions descriptor given := by
  intro inner found hreads _ written hwritten
  obtain ⟨field, hfield, hpart⟩ := hreads.mem_in hwritten
  exact h field hfield _ hpart written rfl

theorem carried_messageOf {name : String} {descriptor : Descriptor}
    (hknown : Registry.bundled.message? name = some descriptor) {given : List Tree.Field}
    (h : InBothEditions descriptor given) :
    Carried Message.toProto3 (messageOf .bundled descriptor given)
      (messageOf .bundled descriptor.toProto3 given) := by
  -- By how deep the fields lie. Other types than those of the first edition have nothing of it in
  -- them.
  induction given using Tree.under_induction generalizing name descriptor with
  | step given ih =>
      have hregistry := Registry.bundled_wellFormed
      obtain ⟨rfl, hd⟩ := hregistry.descriptors _ _ hknown
      cases hsome : counterpart? descriptor.fullName with
      | none =>
          rw [toProto3_of_none hsome]
          refine carried_self fun message hmessage => Message.toProto3_of_none ?_
          rw [(messageOf_typed hregistry hd hmessage).2, hsome]
      | some type =>
          obtain ⟨own, _, hcarried, hown, _⟩ := counterpart?_spec hsome
          rw [hknown] at hown
          cases hown
          have hempty : (Draft.empty descriptor).toProto3 = .empty descriptor.toProto3 := by
            rw [Draft.toProto3, Draft.empty, Message.toProto3_empty]
            rfl
          rw [messageOf, messageOf, ← hempty]
          refine carried_addFields hcarried hd hsome rfl ?_ ?_
          · intro written hwritten field hfield hplain
            by_contra hnew
            obtain ⟨hall, hadded⟩ := hcarried.added field hfield hnew
            exact h descriptor given .self hall written hwritten _ hadded hplain
          · intro field hfield own place hmem name inner hkind hinner
            exact ih own (under_of_mem_writtenTo hmem) hinner
              (h.item hfield hmem hkind hinner)

end Textproto.Binding
