import Mathlib.Data.List.Forall2
import Textproto.Proofs.Binding.Acceptance
import Textproto.Proofs.Tree.Alike

namespace Textproto.Binding

/-! What a message holds is told by the values that are written to each of its fields. -/

/-- A list stands for its elements. -/
def elements : Tree.Value → List Tree.Value
  | .list values _ => values
  | value => [value]

def writtenTo (field : Field) (fields : List Tree.Field) : List Tree.Value :=
  (Tree.given (.plain field.name.toList) fields).flatMap elements

/-- The entries that a map holds so far. -/
def entriesOf : Option Content → List (Key × Value)
  | some (.map entries) => entries
  | _ => []

/-- What a field holds after one more item. -/
def Item.onto (field : Field) (content : Option Content) : Item → Content
  | .value v =>
      if field.repeated then .list ((content.bind Content.list?).getD [] ++ [v]) else .single v
  | .entry k v => .map (k.insert v (entriesOf content))

/-- What a field holds once items are stored in their order. -/
def store (field : Field) (content : Option Content) (items : List Item) : Option Content :=
  items.foldl (fun content item => some (item.onto field content)) content

variable {registry : Registry} {descriptor : Descriptor} {field : Field} {message message' : Message}
  {item : Item} {draft draft' : Draft} {done : List Tree.Field}

theorem content?_addTo_self (hrepeated : field.repeated = true) :
    (item.addTo field message).content? field.number =
      some (item.onto field (message.content? field.number)) := by
  cases item with
  | value v => simp [Item.addTo, Item.onto, Message.push, hrepeated]
  | entry k v =>
      simp only [Item.addTo, Item.onto, Message.insert, Message.content?_put_self]
      cases message.content? field.number with
      | none => rfl
      | some content => cases content <;> rfl

theorem content?_setIn_self {v : Value} (hsingle : field.repeated = false) :
    ((Item.value v).setIn field message).content? field.number =
      some ((Item.value v).onto field (message.content? field.number)) := by
  simp [Item.setIn, Item.onto, Message.set, hsingle]

/-- Items are those of values, one by one. -/
def ItemsOf (registry : Registry) (field : Field) (values : List Tree.Value)
    (items : List Item) : Prop :=
  List.Forall₂ (fun value item => itemOf registry field value = .ok item) values items

theorem addItems_store (hrepeated : field.repeated = true) {values : List Tree.Value}
    (h : addItems registry field message values = .ok message') :
    ∃ items, ItemsOf registry field values items ∧
      message'.content? field.number = store field (message.content? field.number) items := by
  induction values generalizing message with
  | nil =>
      rw [addItems_nil] at h
      cases h
      exact ⟨[], .nil, rfl⟩
  | cons value rest ih =>
      obtain ⟨item, hitem, hrest⟩ := addItems_cons.mp h
      obtain ⟨items, hitems, hcontent⟩ := ih hrest
      refine ⟨item :: items, .cons hitem hitems, ?_⟩
      rw [hcontent, content?_addTo_self hrepeated, store, store, List.foldl_cons]

theorem given_snoc {name : Tree.Name} {written : Tree.Field} :
    Tree.given name (done ++ [written]) =
      Tree.given name done ++ if written.name = name then [written.value] else [] := by
  rw [Tree.given, List.filter_append, List.map_append]
  congr 1
  by_cases hname : written.name = name <;> simp [hname]

theorem writtenTo_snoc_self {position : Position} {value : Tree.Value} :
    writtenTo field (done ++ [⟨.plain field.name.toList, position, value⟩]) =
      writtenTo field done ++ elements value := by
  rw [writtenTo, given_snoc, List.flatMap_append]
  simp [writtenTo, Tree.Field.name, Tree.Field.value]

theorem writtenTo_snoc_of_ne {name : Tree.Name} {position : Position} {value : Tree.Value}
    (hname : name ≠ .plain field.name.toList) :
    writtenTo field (done ++ [⟨name, position, value⟩]) = writtenTo field done := by
  rw [writtenTo, given_snoc, if_neg (show Tree.Field.name ⟨name, position, value⟩ ≠ _ from hname),
    List.append_nil, writtenTo]

/-- A draft holds what fields give: their items, and what an expanded one carries. -/
structure Draft.Holds (registry : Registry) (descriptor : Descriptor) (done : List Tree.Field)
    (draft : Draft) : Prop where
  type : draft.message.descriptor = descriptor
  declared : ∀ number content, draft.message.content? number = some content →
    ∃ field ∈ descriptor.fields, field.number = number
  stored : ∀ field ∈ descriptor.fields, ∃ items, ItemsOf registry field (writtenTo field done) items ∧
    draft.message.content? field.number = store field none items
  payload : (draft.message.payload? = none ∧ ∀ url, Tree.given (.expanded url) done = []) ∨
    ∃ url inner type fields place, draft.message.payload? = some (String.ofList url, inner) ∧
      Tree.given (.expanded url) done = [.message fields place] ∧
      (∀ other, other ≠ url → Tree.given (.expanded other) done = []) ∧
      registry.resolve? (String.ofList url) = some type ∧
      messageOf registry type fields = .ok inner

namespace Draft.Holds

theorem empty (descriptor : Descriptor) :
    (Draft.empty descriptor).Holds registry descriptor [] where
  type := rfl
  declared := by simp [Draft.empty]
  stored := fun _ _ => ⟨[], .nil, rfl⟩
  payload := .inl ⟨rfl, fun _ => rfl⟩

/-- Items stored in a field leave the others as they are. -/
theorem plain (h : draft.Holds registry descriptor done) (hd : descriptor.WellFormed registry)
    {position : Position} {value : Tree.Value} (hfield : field ∈ descriptor.fields)
    {items : List Item} (hitems : ItemsOf registry field (elements value) items)
    (hdescriptor : draft'.message.descriptor = draft.message.descriptor)
    (hpayload : draft'.message.payload? = draft.message.payload?)
    (hcontent : draft'.message.content? field.number =
      store field (draft.message.content? field.number) items)
    (hothers : ∀ number, number ≠ field.number →
      draft'.message.content? number = draft.message.content? number) :
    draft'.Holds registry descriptor
      (done ++ [⟨.plain field.name.toList, position, value⟩]) := by
  refine ⟨hdescriptor.trans h.type, ?_, ?_, ?_⟩
  · intro number content hstored
    by_cases hnumber : number = field.number
    · exact ⟨field, hfield, hnumber.symm⟩
    · rw [hothers number hnumber] at hstored
      exact h.declared number content hstored
  · intro other hother
    obtain ⟨before, hbefore, hstored⟩ := h.stored other hother
    by_cases heq : other = field
    · subst heq
      refine ⟨before ++ items, ?_, ?_⟩
      · rw [writtenTo_snoc_self]
        exact List.rel_append hbefore hitems
      · rw [hcontent, hstored, store, store, store, List.foldl_append]
    · have hname : Tree.Name.plain field.name.toList ≠ .plain other.name.toList := by
        intro hname
        rw [Tree.Name.plain.injEq] at hname
        exact heq (hd.eq_of_name hother hfield (String.toList_injective hname).symm)
      have hnumber : other.number ≠ field.number := fun hnumber =>
        heq (hd.eq_of_number hother hfield hnumber)
      refine ⟨before, ?_, ?_⟩
      · rwa [writtenTo_snoc_of_ne hname]
      · rw [hothers _ hnumber, hstored]
  · have hgiven (url : List Char) :
        Tree.given (.expanded url) (done ++ [⟨.plain field.name.toList, position, value⟩]) =
          Tree.given (.expanded url) done := by
      rw [given_snoc, if_neg (by simp [Tree.Field.name]), List.append_nil]
    simp only [hpayload, hgiven]
    exact h.payload

theorem expanded (h : draft.Holds registry descriptor done) {url : List Char} {position : Position}
    {fields : List Tree.Field} {place : Position} {type : Descriptor} {inner : Message}
    (hnone : draft.message.payload? = none)
    (htype : registry.resolve? (String.ofList url) = some type)
    (hinner : messageOf registry type fields = .ok inner) :
    Draft.Holds registry descriptor (done ++ [⟨.expanded url, position, .message fields place⟩])
      { draft with message := draft.message.withPayload (String.ofList url) inner } := by
  refine ⟨h.type, h.declared, ?_, ?_⟩
  · intro field hfield
    obtain ⟨items, hitems, hstored⟩ := h.stored field hfield
    exact ⟨items, by rwa [writtenTo_snoc_of_ne (by simp)], hstored⟩
  · rcases h.payload with ⟨_, hno⟩ | ⟨_, _, _, _, _, hsome, _⟩
    · refine .inr ⟨url, inner, type, fields, place, rfl, ?_, ?_, htype, hinner⟩
      · simp [given_snoc, hno, Tree.Field.name, Tree.Field.value]
      · intro other hne
        rw [given_snoc, hno, if_neg (by simpa [Tree.Field.name] using Ne.symm hne)]
        rfl
    · rw [hnone] at hsome
      cases hsome

end Draft.Holds

/-- What gives an item is not a list. -/
theorem itemsOf_elements {value : Tree.Value} (h : itemOf registry field value = .ok item) :
    ItemsOf registry field (elements value) [item] := by
  cases value with
  | list values place => exact absurd h itemOf_list
  | scalar scalar place => exact .cons h .nil
  | message fields place => exact .cons h .nil

theorem holds_addField (hd : descriptor.WellFormed registry) {written : Tree.Field}
    (hdraft : draft.Holds registry descriptor done)
    (h : addField registry draft written = .ok draft') :
    draft'.Holds registry descriptor (done ++ [written]) := by
  obtain ⟨name | url, position, value⟩ := written
  · obtain ⟨field, hnamed, hcases⟩ := addField_plain.mp h
    rw [hdraft.type] at hnamed
    obtain ⟨hfield, hname⟩ := (fieldNamed?_eq_some_iff hd position value).mp hnamed
    obtain rfl : name = field.name.toList := by simpa [Tree.Field.name] using hname
    rcases hcases with ⟨hrepeated, values, place, message, rfl, hitems, rfl⟩ |
      ⟨hrepeated, _, item, hitem, rfl⟩ | ⟨hsingle, item, hitem, _, _, rfl⟩
    · obtain ⟨hdescriptor, hpayload, hothers⟩ := addItems_frame hitems
      obtain ⟨items, hitems, hcontent⟩ := addItems_store hrepeated hitems
      exact hdraft.plain hd hfield hitems hdescriptor hpayload hcontent hothers
    · exact hdraft.plain hd hfield (itemsOf_elements hitem) (descriptor_addTo _ _ _)
        (by cases item <;> rfl) (content?_addTo_self hrepeated)
        fun _ hne => content?_addTo_of_ne _ _ hne
    · obtain ⟨v, rfl⟩ := itemOf_single hsingle hitem
      exact hdraft.plain hd hfield (itemsOf_elements hitem) rfl rfl (content?_setIn_self hsingle)
        fun _ hne => content?_setIn_of_ne draft.message (.value v) hne
  · obtain ⟨type, fields, place, payload, htype, rfl, hpayload, rfl⟩ := addField_expanded.mp h
    obtain ⟨_, hnone, _, hresolve⟩ := payloadType_eq_ok_iff.mp htype
    exact hdraft.expanded hnone hresolve hpayload

theorem addFields_holds (hd : descriptor.WellFormed registry) {start : Position}
    {rest : List Tree.Field} (hdraft : draft.Holds registry descriptor done)
    (h : addFields registry start draft rest = .ok message) :
    ∃ final : Draft, final.Holds registry descriptor (done ++ rest) ∧
      finish registry start final.message = .ok message := by
  induction rest generalizing draft done with
  | nil =>
      rw [addFields_nil] at h
      exact ⟨draft, by rwa [List.append_nil], h⟩
  | cons written rest ih =>
      obtain ⟨next, hnext, hrest⟩ := addFields_cons.mp h
      obtain ⟨final, hfinal, hfinish⟩ := ih (holds_addField hd hdraft hnext) hrest
      exact ⟨final, by rwa [List.append_assoc] at hfinal, hfinish⟩

/-- A message that fields make up is what they give, once it is checked. -/
theorem messageOf_holds (hd : descriptor.WellFormed registry) {fields : List Tree.Field}
    (h : messageOf registry descriptor fields = .ok message) :
    ∃ draft : Draft, draft.Holds registry descriptor fields ∧
      finish registry (startOf fields) draft.message = .ok message :=
  addFields_holds hd (.empty descriptor) h

end Textproto.Binding
