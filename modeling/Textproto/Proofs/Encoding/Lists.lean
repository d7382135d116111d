import Textproto.Proofs.Binding.Sites
import Textproto.Proofs.Binding.Spread
import Textproto.Proofs.Encoding.Flaw
import Textproto.Proofs.Encoding.Written
import Textproto.Proofs.Tree.Nodes

namespace Textproto

/-! Lists, from the elements that are written for them to those of an array. -/

namespace Binding

variable {registry : Registry} {descriptor : Descriptor} {field : Field} {m : Message}
  {given : List Tree.Field}

/-- What is stored for a repeated field are all its elements, in the order of the text. -/
theorem content?_of_list (hd : descriptor.WellFormed registry)
    (h : messageOf registry descriptor given = .ok m) (hfield : field ∈ descriptor.fields)
    (hrepeated : field.repeated = true) (hmap : field.mapEntry? registry = none) :
    ∃ values, ValuesOf registry field (writtenTo field given) values ∧
      m.content? field.number = if values = [] then none else some (.list values) := by
  have hplain := not_any_of_repeated hd hfield hrepeated
  obtain ⟨draft, hdraft, rfl⟩ := (messageOf_cases hd h).resolve_right fun hany => hplain hany.1
  exact hdraft.content?_list hfield hrepeated hmap

end Binding

namespace Encoding

variable {registry : Registry} {field : Field} {m : Message} {values : List Value}

/-- Values as elements of an array, each by itself. -/
def ElementsOf (registry : Registry) (kind : Kind) (values : List Value) (items : List Json) :
    Prop :=
  List.Forall₂ (fun value item => valueJson registry kind value = .ok item) values items

/-- Paths as a field mask spells them. -/
def PathsOf (values : List Value) (texts : List String) : Prop :=
  List.Forall₂ (fun value text => ∃ path : String, value = .string path ∧
    camelPath? path.toList = some text.toList) values texts

theorem elementsOf_listJson {kind : Kind} {items : List Json}
    (h : listJson registry kind values = .ok items) : ElementsOf registry kind values items := by
  induction values generalizing items with
  | nil =>
      rw [listJson] at h
      cases h
      exact .nil
  | cons value rest ih =>
      rw [listJson] at h
      obtain ⟨json, hjson, h⟩ := Except.bind_eq_ok_iff.mp h
      obtain ⟨more, hmore, h⟩ := Except.bind_eq_ok_iff.mp h
      cases h
      exact .cons hjson (ih hmore)

theorem pathsOf_camelPaths {texts : List String}
    (hstrings : ∀ value ∈ values, ∃ path : String, value = .string path)
    (h : camelPaths values = .ok texts) : PathsOf values texts := by
  induction values generalizing texts with
  | nil =>
      cases h
      exact .nil
  | cons value rest ih =>
      rw [List.forall_mem_cons] at hstrings
      obtain ⟨⟨path, rfl⟩, hrest⟩ := hstrings
      rw [camelPaths] at h
      cases hcamel : camelPath? path.toList with
      | none =>
          simp only [Value.string?, Option.getD_some, hcamel] at h
          cases h
      | some camel =>
          simp only [Value.string?, Option.getD_some, hcamel, Except.map_eq_ok_iff] at h
          obtain ⟨more, hmore, rfl⟩ := h
          exact .cons ⟨path, rfl, by rw [hcamel, String.toList_ofList]⟩ (ih hrest hmore)

theorem memberJson_list_eq_ok
    (hcontent : m.content? field.number = if values = [] then none else some (.list values))
    {found : Option Json} (h : memberJson registry field m.contents = .ok found) :
    ∃ items, ElementsOf registry field.kind values items ∧
      found = if values = [] then none else some (.array items) := by
  rw [memberJson_eq, hcontent] at h
  by_cases hvalues : values = []
  · subst hvalues
    cases h
    exact ⟨[], .nil, rfl⟩
  · have hshows : Message.shows field (.list values) = true := by
      simp [Message.shows, hvalues]
    simp only [if_neg hvalues, hshows, if_true, Except.map_eq_ok_iff, contentJson_list] at h
    obtain ⟨_, ⟨items, hitems, rfl⟩, rfl⟩ := h
    exact ⟨items, elementsOf_listJson hitems, (if_neg hvalues).symm⟩

/-- Of the types with a form of their own two have a list. -/
theorem wellKnown?_of_list {descriptor : Descriptor} (hd : descriptor.WellFormed registry)
    (hfield : field ∈ descriptor.fields) (hrepeated : field.repeated = true)
    (hmap : field.mapEntry? registry = none) :
    descriptor.wellKnown? = none ∨
      (descriptor.wellKnown? = some .listValue ∧ field.jsonName = "values") ∨
      (descriptor.wellKnown? = some .fieldMask ∧ field = .many "paths" 1 .string) := by
  have hsingle {fields : List Field} (hfields : descriptor.fields = fields)
      (hall : fields.all (!·.repeated) = true) : False := by
    have hone := List.all_eq_true.mp hall field (hfields ▸ hfield)
    rw [hrepeated] at hone
    cases hone
  cases htype : descriptor.wellKnown? with
  | none => exact .inl rfl
  | some type =>
      have hdeclares := hd.declares htype
      cases type with
      | struct =>
          rw [hdeclares.1, List.mem_singleton] at hfield
          subst hfield
          simp [Field.mapEntry?, Field.many, hdeclares.2, Descriptor.mapEntry?] at hmap
      | listValue =>
          rw [hdeclares.1, List.mem_singleton] at hfield
          subst hfield
          exact .inr (.inl ⟨rfl, by decide +kernel⟩)
      | fieldMask =>
          rw [show descriptor.fields = _ from hdeclares, List.mem_singleton] at hfield
          exact .inr (.inr ⟨rfl, hfield⟩)
      | wrapper =>
          obtain ⟨_, _, _, hfields⟩ := hdeclares
          exact (hsingle hfields rfl).elim
      | value => exact (hsingle hdeclares.1 rfl).elim
      | any => exact (hsingle hdeclares rfl).elim
      | empty => exact (hsingle hdeclares rfl).elim
      | duration => exact (hsingle hdeclares rfl).elim
      | timestamp => exact (hsingle hdeclares rfl).elim

theorem list_of_content? (hd : m.descriptor.WellFormed registry)
    (hfield : field ∈ m.descriptor.fields)
    (hcontent : m.content? field.number = if values = [] then none else some (.list values)) :
    m.list field.name = values := by
  rw [Message.list, Message.named?, hd.fieldNamed? hfield, Option.bind_some, hcontent]
  by_cases hvalues : values = []
  · rw [if_pos hvalues, hvalues]
    rfl
  · rw [if_neg hvalues]
    rfl

/-- How a message with a list is written: as an object with the list as one of its members, as the
list itself, or as a text of its paths. -/
inductive ListForm (registry : Registry) (field : Field) (values : List Value) :
    Option WellKnown → Json → Prop
  | member {items : List Json} {all : List (String × Json)} :
      ElementsOf registry field.kind values items → (all.map Prod.fst).Nodup →
      Entries.get? field.jsonName all = (if values = [] then none else some (.array items)) →
      ListForm registry field values none (.object all)
  | itself {items : List Json} :
      ElementsOf registry field.kind values items →
      ListForm registry field values (some .listValue) (.array items)
  | paths {texts : List String} :
      PathsOf values texts →
      ListForm registry field values (some .fieldMask) (.string (",".intercalate texts))

theorem messageJson_list (hm : m.WellTyped registry) (hd : m.descriptor.WellFormed registry)
    (hfield : field ∈ m.descriptor.fields) (hrepeated : field.repeated = true)
    (hmap : field.mapEntry? registry = none)
    (hcontent : m.content? field.number = if values = [] then none else some (.list values))
    {json : Json} (h : messageJson registry m = .ok json) :
    ListForm registry field values m.descriptor.wellKnown? json := by
  have hmember {all : List (String × Json)} (hall : membersJson registry m = .ok all) :=
    memberJson_list_eq_ok hcontent ((membersJson_eq_ok hd hall).1 field hfield)
  rcases wellKnown?_of_list hd hfield hrepeated hmap with hplain | ⟨hlist, hname⟩ | ⟨hmask, rfl⟩
  · rw [messageJson_plain hplain, Except.map_eq_ok_iff] at h
    obtain ⟨all, hall, rfl⟩ := h
    obtain ⟨items, hitems, hfound⟩ := hmember hall
    rw [hplain]
    exact .member hitems (nodup_membersJson hall) hfound
  · rw [messageJson_listValue hlist, Except.map_eq_ok_iff] at h
    obtain ⟨all, hall, rfl⟩ := h
    obtain ⟨items, hitems, hfound⟩ := hmember hall
    have hjson : memberOr (.array []) "values" all = .array items := by
      rw [memberOr, ← hname, hfound]
      by_cases hvalues : values = []
      · subst hvalues
        cases hitems
        rfl
      · rw [if_neg hvalues]
        rfl
    rw [hlist, hjson]
    exact .itself hitems
  · rw [messageJson_fieldMask hmask, fieldMaskJson, Except.map_eq_ok_iff] at h
    obtain ⟨texts, htexts, rfl⟩ := h
    have hlist := list_of_content? hd hfield hcontent
    rw [hmask]
    exact .paths (pathsOf_camelPaths (hlist ▸ Message.list_paths hm hd hmask) (hlist ▸ htexts))

end Encoding

open Binding in
/-- A repeated field has all the elements that are written for it, in their order, and is written
as an array of them. It makes no difference whether they are written as a list or one by one. -/
theorem toJson_lists {name : String} {root : Descriptor}
    (hknown : Registry.bundled.message? name = some root) :
    (∀ bytes m, decode .bundled root bytes = .ok m →
      ∃ text fields, Utf8.decode bytes = .ok text ∧ Tree.parse text = .ok fields ∧
        ∀ part : Message, part.Within m → ∀ field ∈ part.descriptor.fields,
          field.repeated = true → field.mapEntry? .bundled = none →
          (∃ given, Site .bundled root fields part.descriptor given ∧
            messageOf .bundled part.descriptor given = .ok part) ∧
          ∃ values : List Value,
            part.content? field.number = (if values = [] then none else some (.list values)) ∧
            (∀ given, messageOf .bundled part.descriptor given = .ok part →
              ValuesOf .bundled field (writtenTo field given) values) ∧
            ∀ json, part.toJson .bundled = .ok json →
              Encoding.ListForm .bundled field values part.descriptor.wellKnown? json) ∧
    (∀ fields others, Spread .bundled root fields others →
      messageOf .bundled root fields = messageOf .bundled root others) ∧
    ∀ text fields, Tree.parse text = .ok fields →
      ∀ values place, (Tree.Node.value (.list values place)).In fields →
        ∀ value ∈ values, ∀ inner position, value ≠ .list inner position := by
  have hregistry := Registry.bundled_wellFormed
  refine ⟨?_, fun _ _ h => h.messageOf_eq hregistry (hregistry.descriptors _ _ hknown).2,
    fun _ _ hfields _ _ hnode => Tree.not_list_of_parse hfields hnode⟩
  intro bytes m h
  obtain ⟨text, fields, htext, hfields, hsites⟩ := exists_site_of_decode hknown h
  refine ⟨text, fields, htext, hfields, fun part hpart field hfield hrepeated hmap => ?_⟩
  obtain ⟨hd, given, hsite, hgiven⟩ := hsites part hpart
  obtain ⟨values, _, hcontent⟩ := content?_of_list hd hgiven hfield hrepeated hmap
  refine ⟨⟨given, hsite, hgiven⟩, values, hcontent, ?_, ?_⟩
  · intro own hown
    obtain ⟨others, hothers, hstored⟩ := content?_of_list hd hown hfield hrepeated hmap
    -- A message stores one list for the field, whichever fields make the message up.
    have hsame : values = others := by
      have heq := hcontent.symm.trans hstored
      by_cases hvalues : values = [] <;> by_cases hempty : others = [] <;> simp_all
    rwa [hsame]
  · intro json hjson
    have htyped := (messageOf_typed hregistry hd hgiven).1
    exact Encoding.messageJson_list htyped hd hfield hrepeated hmap hcontent hjson

open Binding in
/-- A list behind a single element, in a list of values. -/
theorem toJson_lists_values :
    let bytes := Utf8.encode ("values < bool_value: true > " ++
      "values: [ < null_value: NULL_VALUE >, < string_value: 'a' > ]").toList
    ∃ m given items, ∃ values : List Value, decode .bundled Bundled.structListType bytes = .ok m ∧
      messageOf .bundled Bundled.structListType given = .ok m ∧
      ValuesOf .bundled (.many "values" 1 (.message Bundled.structValue))
        (writtenTo (.many "values" 1 (.message Bundled.structValue)) given) values ∧
      Encoding.ElementsOf .bundled (.message Bundled.structValue) values items ∧
      (Json.array items).compact = "[true,null,\"a\"]" := by
  intro bytes
  obtain ⟨m, json, hdecode, hjson, hcompact⟩ :=
    @exists_of_compact .bundled Bundled.structListType bytes "[true,null,\"a\"]"
      (by decide +kernel)
  have hdescriptor : m.descriptor = Bundled.structListType :=
    (decode_typed Registry.bundled_wellFormed Bundled.message?_structList hdecode).2
  have hmap : Field.mapEntry? .bundled (.many "values" 1 (.message Bundled.structValue)) = none := by
    simp [Field.mapEntry?, Field.many, Bundled.message?_structValue, Bundled.structValueType,
      Descriptor.mapEntry?]
  obtain ⟨_, _, _, _, hlists⟩ := (toJson_lists Bundled.message?_structList).1 bytes m hdecode
  obtain ⟨⟨given, _, hgiven⟩, values, _, hvalues, hform⟩ :=
    hlists m .self (.many "values" 1 (.message Bundled.structValue))
      (by rw [hdescriptor]; exact List.mem_singleton_self _) rfl hmap
  have hform := hform json hjson
  rw [hdescriptor] at hgiven hform
  cases hform with
  | itself hitems =>
      exact ⟨m, given, _, values, hdecode, hgiven, hvalues given (hdescriptor ▸ hgiven), hitems,
        hcompact⟩

open Binding in
/-- A field mask is a text, and a list in a list is refused even where its elements are not. -/
theorem toJson_lists_fieldMask :
    let mask : Descriptor := ⟨Bundled.fieldMask, .wellKnown .fieldMask [.many "paths" 1 .string]⟩
    let bytes := Utf8.encode "paths: \"a\" paths: \"b\"".toList
    let paths (values : List Tree.Value) : Tree.Field :=
      ⟨.plain "paths".toList, .start, .list values .start⟩
    let element : Tree.Value := .scalar (.string (Utf8.encode "a".toList)) .start
    Registry.bundled.message? Bundled.fieldMask = some mask ∧
      (∃ m, decode .bundled mask bytes = .ok m ∧
        m.content? 1 = some (.list [.string "a", .string "b"]) ∧
        m.toJson .bundled = .ok (.string "a,b")) ∧
      messageOf .bundled mask [paths [.list [element] .start]] ≠
        messageOf .bundled mask [paths [element]] := by
  intro mask bytes paths element
  let m : Message := ⟨mask, [(1, .list [.string "a", .string "b"])], none⟩
  have hdecode : decode .bundled mask bytes = .ok m := by
    rw [decode_encode]
    cbv
  have hjson : m.toJson .bundled = .ok (.string "a,b") := by
    cbv
  have hnested : messageOf .bundled mask [paths [.list [element] .start]] =
      .error ⟨.start, .listForSingle "paths"⟩ := by
    cbv
  have hflat : messageOf .bundled mask [paths [element]] =
      .ok ⟨mask, [(1, .list [.string "a"])], none⟩ := by
    cbv
  refine ⟨@Bundled.message?_of_mem mask (Bundled.mem_types_of_wellKnown ?_),
    ⟨m, hdecode, rfl, hjson⟩, ?_⟩
  · simp [Bundled.wellKnownTypes, mask]
  · rw [hnested, hflat]
    intro heq
    cases heq

end Textproto
