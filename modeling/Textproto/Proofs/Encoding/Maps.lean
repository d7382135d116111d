import Textproto.Proofs.Binding.Sites
import Textproto.Proofs.Encoding.Injectivity

namespace Textproto

/-! Maps, from the entries that are written for them to the members of an object. -/

namespace Binding

/-- The value of a field in an entry: what is written for it, or else zero or a message with nothing
in it. -/
inductive Stands (registry : Registry) (own : List Tree.Field) (field : Field) : Value → Prop
  | written {element : Tree.Value} {value : Value} :
      writtenTo field own = [element] → itemOf registry field element = .ok (.value value) →
      Stands registry own field value
  | zero {value : Value} :
      writtenTo field own = [] → Value.zero? field.kind = some value →
      Stands registry own field value
  | empty {name : String} {inner : Descriptor} :
      writtenTo field own = [] → field.kind = .message name →
      registry.message? name = some inner → Stands registry own field (.message (.empty inner))

/-- The entry that an element of a map stands for. -/
inductive StandsFor (registry : Registry) (entry : MapEntry) : Tree.Value → Key × Value → Prop
  | mk {own : List Tree.Field} {place : Position} {keyValue value : Value} {key : Key} :
      Stands registry own entry.keyField keyValue → keyValue.key? = some key →
      Stands registry own entry.valueField value →
      StandsFor registry entry (.message own place) (key, value)

variable {registry : Registry} {field : Field} {name : String} {entry : MapEntry}
  {element : Tree.Value}

theorem Written.stands (hregistry : registry.WellFormed)
    (hd : Descriptor.WellFormed registry ⟨name, .mapEntry entry⟩) {own : List Tree.Field}
    {bound : Message} (hbound : messageOf registry ⟨name, .mapEntry entry⟩ own = .ok bound)
    (hfield : field ∈ Descriptor.fields ⟨name, .mapEntry entry⟩)
    (hsingle : field.repeated = false) {position : Position} {value : Value}
    (h : Written registry bound field position value) : Stands registry own field value := by
  have hdescriptor := (messageOf_typed hregistry hd hbound).2
  have hfound : bound.single? field.name = _ :=
    Message.single?_of_fieldNamed? (hdescriptor ▸ hd.fieldNamed? hfield)
  rw [Written, hfound] at h
  rcases content?_of_single hregistry hd nofun hbound hfield hsingle with
    ⟨hnone, hcontent⟩ | ⟨element, found, hone, hitem, hcontent⟩
  · rw [hcontent] at h
    rcases unwritten_eq_ok_iff.mp (h.resolve_left nofun).2 with hzero | ⟨_, _, hkind, hknown, rfl⟩
    · exact .zero hnone hzero
    · exact .empty hnone hkind hknown
  · rw [hcontent] at h
    cases h.resolve_right nofun
    exact .written hone hitem

theorem standsFor_of_itemOf (hregistry : registry.WellFormed)
    (hmap : field.mapEntry? registry = some (name, entry)) {key : Key} {value : Value}
    (h : itemOf registry field element = .ok (.entry key value)) :
    StandsFor registry entry element (key, value) := by
  cases element with
  | list => exact absurd h itemOf_list
  | scalar =>
      obtain ⟨_, _, _, heq⟩ := itemOf_scalar.mp h
      cases heq
  | message own place =>
      rcases itemOf_message.mp h with ⟨_, _, bound, hmap', hbound, hentry⟩ |
        ⟨_, _, _, _, _, _, _, heq⟩
      · rw [hmap] at hmap'
        cases hmap'
        obtain ⟨_, _, hknown⟩ := Field.message?_of_mapEntry? hmap
        have hd := (hregistry.descriptors _ _ hknown).2
        obtain ⟨keyValue, _, _, hkeyValue, hkey, hvalue, heq⟩ := entryOf_eq_ok_iff.mp hentry
        cases heq
        exact .mk (hkeyValue.stands hregistry hd hbound List.mem_cons_self rfl) hkey
          (hvalue.stands hregistry hd hbound (List.mem_cons_of_mem _ List.mem_cons_self) rfl)
      · cases heq

/-- What is stored for a map are the last entries under each of its keys. -/
theorem content?_of_map (hregistry : registry.WellFormed) {descriptor : Descriptor}
    (hd : descriptor.WellFormed registry) (hplain : descriptor.wellKnown? ≠ some .any)
    {given : List Tree.Field} {m : Message}
    (h : messageOf registry descriptor given = .ok m) (hfield : field ∈ descriptor.fields)
    (hmap : field.mapEntry? registry = some (name, entry)) :
    ∃ pairs, List.Forall₂ (StandsFor registry entry) (writtenTo field given) pairs ∧
      m.content? field.number = if pairs = [] then none else some (.map (Key.collect pairs)) := by
  obtain ⟨draft, hdraft, rfl⟩ := (messageOf_cases hd h).resolve_right fun hany => hplain hany.1
  obtain ⟨pairs, hpairs, hcontent⟩ := hdraft.content?_map hfield hmap
  refine ⟨pairs, List.Forall₂.imp ?_ hpairs, hcontent⟩
  rintro element ⟨key, value⟩ hitem
  exact standsFor_of_itemOf hregistry hmap hitem

end Binding

theorem Message.WellTyped.entries {registry : Registry} {m : Message} (hm : m.WellTyped registry)
    {field : Field} (hfield : field ∈ m.descriptor.fields) {name : String} {entry : MapEntry}
    (hmap : field.mapEntry? registry = some (name, entry)) :
    ∃ entries : List (Key × Value),
      m.content? field.number = (if entries = [] then none else some (.map entries)) ∧
        Key.Sorted entries ∧ ∀ key ∈ entries.map Prod.fst, key.HasKind entry.key := by
  cases hcontent : m.content? field.number with
  | none => exact ⟨[], rfl, .nil, nofun⟩
  | some content =>
      cases hm.fits hfield hcontent with
      | single hsingle => simp [Field.repeated_of_mapEntry? hmap] at hsingle
      | list _ hlist => simp [hmap] at hlist
      | @map _ _ _ entries hother hne hsorted hkeys _ =>
          rw [hmap] at hother
          cases hother
          exact ⟨entries, (if_neg hne).symm, hsorted, hkeys⟩

theorem Key.HasKind.rank_eq {kind : Kind} {a b : Key} (ha : a.HasKind kind) (hb : b.HasKind kind) :
    a.rank = b.rank := by
  cases ha <;> cases hb <;> simp only [rank]

/-- Sorted keys of one kind stand in their order. -/
theorem Key.Sorted.precedes {α : Type} {entries : List (Key × α)} (h : Sorted entries)
    {kind : Kind} (hkeys : ∀ key ∈ entries.map Prod.fst, key.HasKind kind) :
    entries.Pairwise fun first second => first.1.Precedes second.1 := by
  refine h.imp_of_mem fun {first second} hfirst hsecond hbefore => ?_
  refine precedes_of_before ?_ hbefore
  exact (hkeys _ (List.mem_map_of_mem hfirst)).rank_eq (hkeys _ (List.mem_map_of_mem hsecond))

namespace Encoding

variable {registry : Registry} {field : Field} {name : String} {entry : MapEntry} {m : Message}

/-- Entries as members of an object: under the text of each key its value. -/
def MembersOf (registry : Registry) (kind : Kind) (entries : List (Key × Value))
    (members : List (String × Json)) : Prop :=
  List.Forall₂ (fun entry member => member.1 = entry.1.text ∧
    valueJson registry kind entry.2 = .ok member.2) entries members

theorem MembersOf.map_fst {kind : Kind} {entries : List (Key × Value)}
    {members : List (String × Json)} (h : MembersOf registry kind entries members) :
    members.map Prod.fst = entries.map fun entry => entry.1.text := by
  induction h with
  | nil => rfl
  | cons hfirst _ ih => rw [List.map_cons, List.map_cons, hfirst.1, ih]

/-- Entries of distinct texts are written as a list of their values is. -/
theorem entriesJson_eq {kind : Kind} {entries : List (Key × Value)}
    {members : List (String × Json)}
    (htexts : (entries.map fun entry => entry.1.text).Nodup)
    (hfresh : ∀ entry ∈ entries, entry.1.text ∉ members.map Prod.fst) :
    entriesJson registry kind members entries =
      (listJson registry kind (entries.map Prod.snd)).map fun items =>
        members ++ (entries.map fun entry => entry.1.text).zip items := by
  induction entries generalizing members with
  | nil => simp [entriesJson, listJson, Except.map]
  | cons entry rest ih =>
      obtain ⟨key, value⟩ := entry
      rw [List.map_cons, List.nodup_cons] at htexts
      simp only [entriesJson, List.map_cons, listJson]
      cases valueJson registry kind value with
      | error error => rfl
      | ok json =>
          have hfreshRest : ∀ other ∈ rest,
              other.1.text ∉ (members ++ [(key.text, json)]).map Prod.fst := by
            intro other hother
            rw [List.map_append, List.mem_append, not_or, List.map_singleton, List.mem_singleton]
            refine ⟨hfresh other (List.mem_cons_of_mem _ hother), fun heq => htexts.1 ?_⟩
            exact List.mem_map.mpr ⟨other, hother, heq⟩
          have hrest := ih htexts.2 hfreshRest
          rw [← Entries.put_of_not_mem (hfresh _ List.mem_cons_self)] at hrest
          refine hrest.trans ?_
          rw [Entries.put_of_not_mem (hfresh _ List.mem_cons_self)]
          cases listJson registry kind (rest.map Prod.snd) with
          | error error => rfl
          | ok items => simp [Except.map, bind, Except.bind, pure, Except.pure]

/-- Entries of distinct texts are written one behind another. -/
theorem membersOf_entriesJson {kind : Kind} {entries : List (Key × Value)}
    {members found : List (String × Json)}
    (htexts : (entries.map fun entry => entry.1.text).Nodup)
    (hfresh : ∀ entry ∈ entries, entry.1.text ∉ members.map Prod.fst)
    (h : entriesJson registry kind members entries = .ok found) :
    ∃ more, found = members ++ more ∧ MembersOf registry kind entries more := by
  rw [entriesJson_eq htexts hfresh, Except.map_eq_ok_iff] at h
  obtain ⟨items, hitems, rfl⟩ := h
  refine ⟨_, rfl, ?_⟩
  clear htexts hfresh
  induction entries generalizing items with
  | nil => exact .nil
  | cons entry rest ih =>
      rw [List.map_cons, listJson] at hitems
      obtain ⟨json, hjson, hrest⟩ := Except.bind_eq_ok_iff.mp hitems
      obtain ⟨more, hmore, heq⟩ := Except.bind_eq_ok_iff.mp hrest
      cases heq
      exact .cons ⟨rfl, hjson⟩ (ih more hmore)

theorem contentJson_map_eq_ok (hmap : field.mapEntry? registry = some (name, entry))
    {entries : List (Key × Value)} (hsorted : Key.Sorted entries)
    (hkeys : ∀ key ∈ entries.map Prod.fst, key.HasKind entry.key) {json : Json}
    (h : contentJson registry field (.map entries) = .ok json) :
    ∃ members, json = .object members ∧ MembersOf registry entry.value entries members := by
  rw [contentJson_map, Except.map_eq_ok_iff] at h
  obtain ⟨found, hfound, rfl⟩ := h
  obtain ⟨members, rfl, hmembers⟩ :=
    membersOf_entriesJson (nodup_texts hsorted hkeys) (fun _ _ => List.not_mem_nil) hfound
  simp only [mapValueKind, hmap] at hmembers
  exact ⟨_, rfl, hmembers⟩

theorem memberJson_map_eq_ok (hmap : field.mapEntry? registry = some (name, entry))
    {entries : List (Key × Value)}
    (hcontent : m.content? field.number = if entries = [] then none else some (.map entries))
    (hsorted : Key.Sorted entries) (hkeys : ∀ key ∈ entries.map Prod.fst, key.HasKind entry.key)
    {found : Option Json} (h : memberJson registry field m.contents = .ok found) :
    ∃ members, MembersOf registry entry.value entries members ∧
      found = if entries = [] then none else some (.object members) := by
  rw [memberJson_eq, hcontent] at h
  by_cases hentries : entries = []
  · subst hentries
    cases h
    exact ⟨[], .nil, rfl⟩
  · have hshows : Message.shows field (.map entries) = true := by
      simp [Message.shows, hentries]
    simp only [if_neg hentries, hshows, if_true, Except.map_eq_ok_iff] at h
    obtain ⟨json, hjson, rfl⟩ := h
    obtain ⟨members, rfl, hmembers⟩ := contentJson_map_eq_ok hmap hsorted hkeys hjson
    exact ⟨members, hmembers, (if_neg hentries).symm⟩

/-- Of the types with a form of their own only one has a map. -/
theorem wellKnown?_of_map {descriptor : Descriptor} (hd : descriptor.WellFormed registry)
    (hfield : field ∈ descriptor.fields)
    (hmap : field.mapEntry? registry = some (name, entry)) :
    descriptor.wellKnown? = none ∨
      descriptor.wellKnown? = some .struct ∧ field.jsonName = "fields" := by
  have hrepeated := Field.repeated_of_mapEntry? hmap
  obtain ⟨typeName, hkind, hknown⟩ := Field.message?_of_mapEntry? hmap
  have hsingle {fields : List Field} (hfields : descriptor.fields = fields)
      (hall : fields.all (!·.repeated) = true) : False := by
    have hone := List.all_eq_true.mp hall field (hfields ▸ hfield)
    rw [hrepeated] at hone
    cases hone
  cases htype : descriptor.wellKnown? with
  | none => exact .inl rfl
  | some type =>
      have hdeclares := hd.declares htype
      cases type with
      | struct =>
          rw [hdeclares.1, List.mem_singleton] at hfield
          subst hfield
          exact .inr ⟨rfl, by decide +kernel⟩
      | listValue =>
          rw [hdeclares.1, List.mem_singleton] at hfield
          subst hfield
          cases hkind
          cases hdeclares.2 _ hknown
      | fieldMask =>
          rw [show descriptor.fields = _ from hdeclares, List.mem_singleton] at hfield
          subst hfield
          cases hkind
      | wrapper =>
          obtain ⟨_, _, _, hfields⟩ := hdeclares
          exact (hsingle hfields rfl).elim
      | value => exact (hsingle hdeclares.1 rfl).elim
      | any => exact (hsingle hdeclares rfl).elim
      | empty => exact (hsingle hdeclares rfl).elim
      | duration => exact (hsingle hdeclares rfl).elim
      | timestamp => exact (hsingle hdeclares rfl).elim

/-- What a message with a map is written as: an object with the map as one of its members, or the
map itself. -/
theorem messageJson_map (hd : m.descriptor.WellFormed registry)
    (hfield : field ∈ m.descriptor.fields) (hmap : field.mapEntry? registry = some (name, entry))
    {json : Json} (h : messageJson registry m = .ok json) :
    ∃ found, memberJson registry field m.contents = .ok found ∧
      ((m.descriptor.wellKnown? = none ∧ ∃ all, json = .object all ∧ (all.map Prod.fst).Nodup ∧
          Entries.get? field.jsonName all = found) ∨
        (m.descriptor.wellKnown? = some .struct ∧ json = found.getD (.object []))) := by
  rcases wellKnown?_of_map hd hfield hmap with hplain | ⟨hstruct, hname⟩
  · rw [messageJson_plain hplain, Except.map_eq_ok_iff] at h
    obtain ⟨all, hall, rfl⟩ := h
    exact ⟨_, (membersJson_eq_ok hd hall).1 field hfield,
      .inl ⟨hplain, all, rfl, nodup_membersJson hall, rfl⟩⟩
  · rw [messageJson_struct hstruct, Except.map_eq_ok_iff] at h
    obtain ⟨all, hall, rfl⟩ := h
    refine ⟨_, (membersJson_eq_ok hd hall).1 field hfield, .inr ⟨hstruct, ?_⟩⟩
    rw [memberOr, hname]

end Encoding

open Binding in
/-- A map has the last of the entries that are written under each of its keys, in the order of the
keys, and is written as an object with one member for each. -/
theorem toJson_map {name : String} {root : Descriptor}
    (hknown : Registry.bundled.message? name = some root) {bytes : List UInt8} {m : Message}
    (h : decode .bundled root bytes = .ok m) :
    ∃ text fields, Utf8.decode bytes = .ok text ∧ Tree.parse text = .ok fields ∧
      ∀ part : Message, part.Within m → ∀ field ∈ part.descriptor.fields, ∀ type entry,
        field.mapEntry? .bundled = some (type, entry) →
        (∃ given, Site .bundled root fields part.descriptor given ∧
          messageOf .bundled part.descriptor given = .ok part) ∧
        ∃ entries : List (Key × Value),
          part.content? field.number = (if entries = [] then none else some (.map entries)) ∧
          entries.Pairwise (fun first second => first.1.Precedes second.1) ∧
          (∀ given, messageOf .bundled part.descriptor given = .ok part →
            ∃ pairs, List.Forall₂ (StandsFor .bundled entry) (writtenTo field given) pairs ∧
              (entries = [] ↔ pairs = []) ∧
              ∀ key value, (key, value) ∈ entries ↔ Key.LastUnder key value pairs) ∧
          ∀ json, part.toJson .bundled = .ok json → ∃ members,
            Encoding.MembersOf .bundled entry.value entries members ∧
            (members.map Prod.fst).Nodup ∧
            ((part.descriptor.wellKnown? = none ∧ ∃ all, json = .object all ∧
                (all.map Prod.fst).Nodup ∧ Entries.get? field.jsonName all =
                  if entries = [] then none else some (.object members)) ∨
              (part.descriptor.wellKnown? = some .struct ∧ json = .object members)) := by
  have hregistry := Registry.bundled_wellFormed
  obtain ⟨text, fields, htext, hfields, hsites⟩ := exists_site_of_decode hknown h
  refine ⟨text, fields, htext, hfields, fun part hpart field hfield type entry hmap => ?_⟩
  obtain ⟨hd, given, hsite, hgiven⟩ := hsites part hpart
  have htyped := (messageOf_typed hregistry hd hgiven).1
  obtain ⟨entries, hcontent, hsorted, hkeys⟩ := htyped.entries hfield hmap
  refine ⟨⟨given, hsite, hgiven⟩, entries, hcontent, hsorted.precedes hkeys, ?_, ?_⟩
  · intro own hown
    -- Fields are stored as they are written, unless the message is an `Any`.
    have hplain : part.descriptor.wellKnown? ≠ some .any := by
      intro hany
      rcases Encoding.wellKnown?_of_map hd hfield hmap with hnone | ⟨hstruct, _⟩
      · rw [hnone] at hany
        cases hany
      · rw [hstruct] at hany
        cases hany
    obtain ⟨pairs, hpairs, hstored⟩ := content?_of_map hregistry hd hplain hown hfield hmap
    have hsame := hcontent.symm.trans hstored
    obtain ⟨hempty, rfl⟩ : (entries = [] ↔ pairs = []) ∧ entries = Key.collect pairs := by
      by_cases hpairs : pairs = [] <;> by_cases hentries : entries = [] <;>
        simp_all [Key.collect]
    exact ⟨pairs, hpairs, hempty, fun key value => Key.mem_collect_iff⟩
  · intro json hjson
    obtain ⟨found, hfound, hform⟩ := Encoding.messageJson_map hd hfield hmap hjson
    obtain ⟨members, hmembers, rfl⟩ :=
      Encoding.memberJson_map_eq_ok hmap hcontent hsorted hkeys hfound
    refine ⟨members, hmembers, ?_, ?_⟩
    · rw [hmembers.map_fst]
      exact Encoding.nodup_texts hsorted hkeys
    · rcases hform with hplain | ⟨hstruct, rfl⟩
      · exact .inl hplain
      · refine .inr ⟨hstruct, ?_⟩
        by_cases hentries : entries = []
        · subst hentries
          cases hmembers
          rfl
        · rw [if_neg hentries]
          rfl

open Binding in
/-- Keys that are written twice or left out, in messages and in a list of them. -/
theorem toJson_map_twice :
    let struct : Descriptor :=
      ⟨Bundled.struct, .wellKnown .struct [.many "fields" 1 (.message Bundled.structEntry)]⟩
    let bytes := Utf8.encode ("fields < value < bool_value: true > > fields [ < key: 'b' >, " ++
      "< key: 'a' value < bool_value: true > >, < key: 'b' value < bool_value: false > > ]").toList
    ∃ m given entries pairs members, decode .bundled struct bytes = .ok m ∧
      messageOf .bundled struct given = .ok m ∧
      List.Forall₂ (StandsFor .bundled ⟨.string, .message Bundled.structValue⟩)
        (writtenTo (.many "fields" 1 (.message Bundled.structEntry)) given) pairs ∧
      (∀ key value, (key, value) ∈ entries ↔ Key.LastUnder key value pairs) ∧
      Encoding.MembersOf .bundled (.message Bundled.structValue) entries members ∧
      (Json.object members).compact = "\x7b\"\":true,\"a\":true,\"b\":false\x7d" := by
  intro struct bytes
  obtain ⟨m, json, hdecode, hjson, hcompact⟩ :=
    @exists_of_compact .bundled struct bytes "\x7b\"\":true,\"a\":true,\"b\":false\x7d"
      (by decide +kernel)
  have hdescriptor : m.descriptor = struct :=
    (decode_typed Registry.bundled_wellFormed Bundled.message?_struct hdecode).2
  have hmap : Field.mapEntry? .bundled (.many "fields" 1 (.message Bundled.structEntry)) =
      some (Bundled.structEntry, ⟨.string, .message Bundled.structValue⟩) := by
    simp [Field.mapEntry?, Field.many, Bundled.message?_structEntry, Descriptor.mapEntry?]
  obtain ⟨_, _, _, _, hmaps⟩ := toJson_map Bundled.message?_struct hdecode
  obtain ⟨⟨given, _, hgiven⟩, entries, _, _, hpairs, hmembers⟩ :=
    hmaps m .self (.many "fields" 1 (.message Bundled.structEntry))
      (by rw [hdescriptor]; exact List.mem_singleton_self _) _ _ hmap
  obtain ⟨pairs, hpairs, _, hlast⟩ := hpairs given hgiven
  obtain ⟨members, hmembers, _, hform⟩ := hmembers json hjson
  rw [hdescriptor] at hgiven hform
  rcases hform with ⟨hplain, _⟩ | ⟨_, rfl⟩
  · cases hplain
  · exact ⟨m, given, entries, pairs, members, hdecode, hgiven, hpairs, hlast, hmembers, hcompact⟩

end Textproto
