import Textproto.Proofs.Binding.Bare
import Textproto.Proofs.Binding.Stored
import Textproto.Proofs.Decoding

namespace Textproto.Binding

/-!
Every message in one that was bound has fields of its own in the text, and is what they alone make
up.
-/

/-- Fields that lie somewhere in those of a message and stand for a message themselves. Without any
are the value that an entry leaves out, and the payload that a type URL alone stands for. -/
inductive Site (registry : Registry) (root : Descriptor) (fields : List Tree.Field) :
    Descriptor → List Tree.Field → Prop
  | self : Site registry root fields root fields
  | item {outer inner : Descriptor} {given own : List Tree.Field} {field : Field} {name : String}
      {place : Position} : Site registry root fields outer given →
      field ∈ outer.fields → field.kind = .message name → registry.message? name = some inner →
      .message own place ∈ writtenTo field given → Site registry root fields inner own
  | unwritten {outer inner : Descriptor} {given : List Tree.Field} {entry : MapEntry}
      {name : String} : Site registry root fields outer given →
      outer.mapEntry? = some entry → entry.value = .message name →
      registry.message? name = some inner → writtenTo entry.valueField given = [] →
      Site registry root fields inner []
  | payload {outer inner : Descriptor} {given own : List Tree.Field} {url : List Char}
      {place : Position} : Site registry root fields outer given →
      outer.wellKnown? = some .any → .message own place ∈ Tree.given (.expanded url) given →
      registry.Names url inner → Site registry root fields inner own
  | url {outer inner : Descriptor} {given : List Tree.Field} {url : List Char}
      {place : Position} : Site registry root fields outer given →
      outer.wellKnown? = some .any →
      .scalar (.string (Utf8.encode url)) place ∈ writtenTo (.single "type_url" 1 .string) given →
      registry.Names url inner → Site registry root fields inner []

section

variable {registry : Registry} {root outer : Descriptor} {fields given : List Tree.Field}
  {field : Field} {m part : Message}

theorem messageOf_nil (descriptor : Descriptor) :
    messageOf registry descriptor [] = .ok (.empty descriptor) := by
  rw [messageOf, addFields_nil]
  have hbare := (Message.throughout_iff.mp (throughout_bare_empty descriptor)).1
  refine finish_eq_ok_iff.mpr ?_
  by_cases hany : descriptor.wellKnown? = some .any
  · exact .inr ⟨hany, checkAny_eq_ok_iff.mpr ⟨(hbare hany).2, .inl ⟨(hbare hany).1, rfl⟩⟩⟩
  · exact .inl ⟨hany, rfl⟩

theorem Site.wellFormed (hregistry : registry.WellFormed) (hroot : root.WellFormed registry)
    (h : Site registry root fields outer given) : outer.WellFormed registry := by
  cases h with
  | self => exact hroot
  | item _ _ _ hknown _ => exact (hregistry.descriptors _ _ hknown).2
  | unwritten _ _ _ hknown _ => exact (hregistry.descriptors _ _ hknown).2
  | payload _ _ _ hnames =>
      obtain ⟨_, _, _, _, hknown⟩ := hnames
      exact (hregistry.descriptors _ _ hknown).2
  | url _ _ _ hnames =>
      obtain ⟨_, _, _, _, hknown⟩ := hnames
      exact (hregistry.descriptors _ _ hknown).2

/-! What a message holds is written somewhere. -/

theorem heldBy_onto {item : Item} {content : Option Content}
    (h : part.HeldBy (item.onto field content)) :
    item.message? = some part ∨ ∃ before, content = some before ∧ part.HeldBy before := by
  cases item with
  | value v =>
      by_cases hrepeated : field.repeated = true
      · simp only [Item.onto, if_pos hrepeated] at h
        cases h with
        | list hmem =>
            rcases List.mem_append.mp hmem with hmem | hmem
            · cases content with
              | none => cases hmem
              | some before =>
                  cases before with
                  | list values => exact .inr ⟨_, rfl, .list hmem⟩
                  | single => cases hmem
                  | map => cases hmem
            · obtain rfl := List.mem_singleton.mp hmem
              exact .inl rfl
      · simp only [Item.onto, if_neg hrepeated] at h
        cases h
        exact .inl rfl
  | entry k v =>
      cases h with
      | map hmem =>
          rcases Key.mem_insert hmem with heq | hmem
          · obtain rfl := (Prod.mk.inj heq).2
            exact .inl rfl
          · unfold entriesOf at hmem
            split at hmem
            next entries => exact .inr ⟨_, rfl, .map hmem⟩
            next => cases hmem

/-- What is held in a field was given by one of its items. -/
theorem exists_item_of_heldBy {items : List Item} {content : Option Content} {found : Content}
    (h : store field content items = some found) (hheld : part.HeldBy found) :
    (∃ item ∈ items, item.message? = some part) ∨
      ∃ before, content = some before ∧ part.HeldBy before := by
  induction items generalizing content with
  | nil => exact .inr ⟨found, h, hheld⟩
  | cons item items ih =>
      rcases ih h with ⟨other, hother, hpart⟩ | ⟨before, heq, hheld⟩
      · exact .inl ⟨other, List.mem_cons_of_mem _ hother, hpart⟩
      · cases heq
        rcases heldBy_onto hheld with hpart | hbefore
        · exact .inl ⟨item, List.mem_cons_self, hpart⟩
        · exact .inr hbefore

theorem exists_site_of_value (hregistry : registry.WellFormed)
    (hsite : Site registry root fields outer given) (hfield : field ∈ outer.fields)
    {value : Tree.Value} (hvalue : value ∈ writtenTo field given)
    (hitem : itemOf registry field value = .ok (.value (.message part))) :
    ∃ own, Site registry root fields part.descriptor own ∧
      Binding.messageOf registry part.descriptor own = .ok part := by
  cases value with
  | list => exact absurd hitem itemOf_list
  | scalar scalar place =>
      obtain ⟨_, v, hv, heq⟩ := itemOf_scalar.mp hitem
      cases heq
      exact absurd rfl ((scalarAs_isScalar hv).ne_message part)
  | message own place =>
      rcases itemOf_message.mp hitem with ⟨_, _, _, _, _, hentry⟩ |
        ⟨_, name, inner, bound, hkind, hknown, hbound, heq⟩
      · obtain ⟨_, _, _, _, _, _, heq⟩ := entryOf_eq_ok_iff.mp hentry
        cases heq
      · cases heq
        obtain rfl := (messageOf_typed hregistry (hregistry.descriptors _ _ hknown).2 hbound).2
        exact ⟨own, .item hsite hfield hkind hknown hvalue, hbound⟩

/-- The value of an entry is written in it, or left out. -/
theorem exists_site_of_entry (hregistry : registry.WellFormed) {name : String} {entry : MapEntry}
    (hd : Descriptor.WellFormed registry ⟨name, .mapEntry entry⟩)
    (hsite : Site registry root fields ⟨name, .mapEntry entry⟩ given)
    (hm : messageOf registry ⟨name, .mapEntry entry⟩ given = .ok m) {position : Position}
    (hwritten : Written registry m entry.valueField position (.message part)) :
    ∃ own, Site registry root fields part.descriptor own ∧
      Binding.messageOf registry part.descriptor own = .ok part := by
  rcases messageOf_cases hd hm with ⟨draft, hdraft, rfl⟩ | ⟨hany, _⟩
  · have hfield : entry.valueField ∈ (⟨name, .mapEntry entry⟩ : Descriptor).fields :=
      List.mem_cons_of_mem _ List.mem_cons_self
    rcases hwritten with hfound | ⟨hnone, hunwritten⟩
    · obtain ⟨value, hvalue, hitem⟩ := hdraft.written_of_single? hd hfield rfl hfound
      exact exists_site_of_value hregistry hsite hfield hvalue hitem
    · have hempty := hdraft.writtenTo_eq_nil hd hfield rfl hnone
      -- Zero is no message, so what is left out can only be one with nothing in it.
      obtain ⟨type, inner, hkind, hknown, rfl⟩ : ∃ type inner, entry.value = .message type ∧
          registry.message? type = some inner ∧ part = .empty inner := by
        rcases unwritten_eq_ok_iff.mp hunwritten with hzero | ⟨type, inner, hkind, hknown, heq⟩
        · cases Value.isZero_of_zero? hzero
        · cases heq
          exact ⟨type, inner, hkind, hknown, rfl⟩
      exact ⟨[], .unwritten hsite rfl hkind hknown hempty, messageOf_nil _⟩
  · cases hany

theorem exists_site_of_itemOf (hregistry : registry.WellFormed)
    (hsite : Site registry root fields outer given) (hfield : field ∈ outer.fields)
    {value : Tree.Value} (hvalue : value ∈ writtenTo field given) {item : Item}
    (hitem : itemOf registry field value = .ok item) (hpart : item.message? = some part) :
    ∃ own, Site registry root fields part.descriptor own ∧
      Binding.messageOf registry part.descriptor own = .ok part := by
  cases item with
  | value v =>
      obtain rfl := message_of_message? hpart
      exact exists_site_of_value hregistry hsite hfield hvalue hitem
  | entry key v =>
      obtain rfl := message_of_message? hpart
      cases value with
      | list => exact absurd hitem itemOf_list
      | scalar =>
          obtain ⟨_, _, _, heq⟩ := itemOf_scalar.mp hitem
          cases heq
      | message own place =>
          rcases itemOf_message.mp hitem with ⟨name, entry, bound, hmap, hbound, hentry⟩ |
            ⟨_, _, _, _, _, _, _, heq⟩
          · obtain ⟨type, hkind, hknown⟩ := Field.message?_of_mapEntry? hmap
            obtain ⟨_, _, _, _, _, hwritten, heq⟩ := entryOf_eq_ok_iff.mp hentry
            cases heq
            exact exists_site_of_entry hregistry (hregistry.descriptors _ _ hknown).2
              (.item hsite hfield hkind hknown hvalue) hbound hwritten
          · cases heq

/-- What lies directly in the message of a site has a site as well. -/
theorem exists_site_of_inside (hregistry : registry.WellFormed) (hd : outer.WellFormed registry)
    (hsite : Site registry root fields outer given)
    (hm : messageOf registry outer given = .ok m) (hinside : part.Inside m) :
    ∃ own, Site registry root fields part.descriptor own ∧
      Binding.messageOf registry part.descriptor own = .ok part := by
  obtain ⟨htyped, hdescriptor⟩ := messageOf_typed hregistry hd hm
  rcases messageOf_cases hd hm with ⟨draft, hdraft, rfl⟩ |
    ⟨hany, url, inner, place, hmem, hnames, rfl⟩
  · rcases Message.inside_iff.mp hinside with ⟨number, content, hmem, hheld⟩ | ⟨url, hpayload⟩
    · have hcontent := (Message.content?_eq_some_iff htyped.distinct).mpr hmem
      obtain ⟨field, hfield, rfl⟩ := hdraft.declared number content hcontent
      obtain ⟨items, hitems, hstored⟩ := hdraft.stored field hfield
      obtain ⟨item, hitem, hpart⟩ :=
        (exists_item_of_heldBy (hstored.symm.trans hcontent) hheld).resolve_right nofun
      obtain ⟨value, hvalue, hitem⟩ := Tree.exists_right hitems.flip item hitem
      exact exists_site_of_itemOf hregistry hsite hfield hvalue hitem hpart
    · rcases hdraft.payload with ⟨hnone, _⟩ |
        ⟨url', inner, type, own, place, hsome, hgiven, _, hresolve, hinner⟩
      · rw [hnone] at hpayload
        cases hpayload
      · rw [hsome] at hpayload
        cases hpayload
        have hany := (htyped.payload_any hsome).1
        rw [hdescriptor] at hany
        have hnames := Registry.resolve?_eq_some_iff.mp hresolve
        rw [String.toList_ofList] at hnames
        obtain ⟨_, hknown⟩ := message?_of_resolve? hresolve
        obtain rfl := (messageOf_typed hregistry (hregistry.descriptors _ _ hknown).2 hinner).2
        exact ⟨own, .payload hsite hany (hgiven ▸ List.mem_singleton_self _) hnames, hinner⟩
  · rcases Message.inside_iff.mp hinside with ⟨_, _, hmem, _⟩ | ⟨_, hpayload⟩
    · cases hmem
    · cases hpayload
      exact ⟨[], .url hsite hany hmem hnames, messageOf_nil _⟩

/-- Every message in one that fields make up is made up by the fields of a site. -/
theorem exists_site (hregistry : registry.WellFormed) (hroot : root.WellFormed registry)
    (hm : messageOf registry root fields = .ok m) (hpart : part.Within m) :
    ∃ given, Site registry root fields part.descriptor given ∧
      messageOf registry part.descriptor given = .ok part := by
  -- By how deep the part lies: it has its site in that of the message around it.
  induction hpart with
  | self =>
      obtain rfl := (messageOf_typed hregistry hroot hm).2
      exact ⟨fields, .self, hm⟩
  | inside hinside _ ih =>
      obtain ⟨given, hsite, houter⟩ := ih hm
      exact exists_site_of_inside hregistry (hsite.wellFormed hregistry hroot) hsite houter hinside

end

/-- Every message in a decoded one is made up by fields that lie in its text. -/
theorem exists_site_of_decode {name : String} {root : Descriptor}
    (hknown : Registry.bundled.message? name = some root) {bytes : List UInt8} {m : Message}
    (h : decode .bundled root bytes = .ok m) :
    ∃ text fields, Utf8.decode bytes = .ok text ∧ Tree.parse text = .ok fields ∧
      ∀ part : Message, part.Within m → part.descriptor.WellFormed .bundled ∧
        ∃ given, Site .bundled root fields part.descriptor given ∧
          messageOf .bundled part.descriptor given = .ok part := by
  have hregistry := Registry.bundled_wellFormed
  have hroot := (hregistry.descriptors name root hknown).2
  obtain ⟨text, fields, htext, hfields, hm⟩ := decode_eq_ok_iff.mp h
  refine ⟨text, fields, htext, hfields, fun part hpart => ?_⟩
  obtain ⟨given, hsite, hgiven⟩ := exists_site hregistry hroot hm hpart
  exact ⟨hsite.wellFormed hregistry hroot, given, hsite, hgiven⟩

end Textproto.Binding
