import Textproto.Proofs.Encoding.Forms
import Textproto.Proofs.Schema.WellFormed

namespace Textproto

/-! What is found in JSON that was written. -/

namespace Encoding

variable {registry : Registry} {m : Message}

/-- What every field gives is there under its name, and what was there before under other names. -/
theorem gather_eq_ok {member : Field → Except EncodeError (Option Json)} {fields : List Field}
    {members found : List (String × Json)} (hnames : (fields.map Field.jsonName).Nodup)
    (hfresh : ∀ field ∈ fields, Entries.get? field.jsonName members = none)
    (h : gather member members fields = .ok found) :
    (∀ field ∈ fields, member field = .ok (Entries.get? field.jsonName found)) ∧
      ∀ key, key ∉ fields.map Field.jsonName →
        Entries.get? key found = Entries.get? key members := by
  -- By the fields: no field after the first has its name, so that its member stays.
  induction fields generalizing members with
  | nil =>
      cases h
      exact ⟨nofun, fun _ _ => rfl⟩
  | cons field fields ih =>
      rw [List.map_cons, List.nodup_cons] at hnames
      rw [gather] at h
      obtain ⟨given, hgiven, hrest⟩ := Except.bind_eq_ok_iff.mp h
      have hother : ∀ other ∈ fields, other.jsonName ≠ field.jsonName := by
        intro other hmem heq
        exact hnames.1 (heq ▸ List.mem_map_of_mem hmem)
      cases given with
      | none =>
          obtain ⟨hfields, hkeys⟩ := ih hnames.2
            (fun other hmem => hfresh other (List.mem_cons_of_mem _ hmem)) hrest
          refine ⟨?_, ?_⟩
          · intro other hmem
            rcases List.mem_cons.mp hmem with rfl | hmem
            · rw [hgiven, hkeys _ hnames.1, hfresh _ List.mem_cons_self]
            · exact hfields other hmem
          · intro key hkey
            exact hkeys key fun hmem => hkey (List.mem_cons_of_mem _ hmem)
      | some json =>
          obtain ⟨hfields, hkeys⟩ := ih hnames.2
            (fun other hmem => by
              rw [Entries.get?_put_of_ne (hother other hmem)]
              exact hfresh other (List.mem_cons_of_mem _ hmem)) hrest
          refine ⟨?_, ?_⟩
          · intro other hmem
            rcases List.mem_cons.mp hmem with rfl | hmem
            · rw [hgiven, hkeys _ hnames.1, Entries.get?_put_self]
            · exact hfields other hmem
          · intro key hkey
            rw [hkeys key fun hmem => hkey (List.mem_cons_of_mem _ hmem),
              Entries.get?_put_of_ne]
            rintro rfl
            exact hkey List.mem_cons_self

/-- Members of a message that is written are what its fields give. -/
theorem membersJson_eq_ok (hd : m.descriptor.WellFormed registry)
    {members : List (String × Json)} (h : membersJson registry m = .ok members) :
    (∀ field ∈ m.descriptor.fields,
      memberJson registry field m.contents = .ok (Entries.get? field.jsonName members)) ∧
      ∀ key, key ∉ m.descriptor.fields.map Field.jsonName → Entries.get? key members = none := by
  rw [membersJson_eq] at h
  exact gather_eq_ok hd.jsonNames (fun _ _ => rfl) h

theorem nodup_gather {member : Field → Except EncodeError (Option Json)} {fields : List Field}
    {members found : List (String × Json)} (hmembers : (members.map Prod.fst).Nodup)
    (h : gather member members fields = .ok found) : (found.map Prod.fst).Nodup := by
  induction fields generalizing members with
  | nil =>
      cases h
      exact hmembers
  | cons field fields ih =>
      rw [gather] at h
      obtain ⟨given, _, hrest⟩ := Except.bind_eq_ok_iff.mp h
      cases given with
      | none => exact ih hmembers hrest
      | some json => exact ih (Entries.nodup_put hmembers) hrest

theorem nodup_membersJson {members : List (String × Json)}
    (h : membersJson registry m = .ok members) : (members.map Prod.fst).Nodup := by
  rw [membersJson_eq] at h
  exact nodup_gather (by simp) h

theorem untagged_membersJson (hd : m.descriptor.WellFormed registry)
    {members : List (String × Json)} (h : membersJson registry m = .ok members) :
    "@type" ∉ members.map Prod.fst := by
  refine Entries.get?_eq_none_iff.mp ((membersJson_eq_ok hd h).2 "@type" fun hmem => ?_)
  obtain ⟨field, hfield, hname⟩ := List.mem_map.mp hmem
  exact hd.untagged field hfield hname

/-- An `Any` is written with its type URL and then its payload: as a value if that has a form of
its own, and with its members otherwise. -/
theorem messageJson_url {inner : Message} (hd : inner.descriptor.WellFormed registry)
    (hany : m.descriptor.wellKnown? = some .any) {url : String}
    (hpayload : m.payload? = some (url, inner)) :
    messageJson registry m =
      if inner.descriptor.wellKnown?.isSome then
        (messageJson registry inner).map fun json =>
          .object [("@type", .string url), ("value", json)]
      else
        (membersJson registry inner).map fun members =>
          .object (("@type", .string url) :: members) := by
  rw [messageJson_any hany, hpayload]
  simp only
  congr 1
  cases hmembers : membersJson registry inner with
  | error => rfl
  | ok members =>
      rw [Except.map, Entries.foldl_put_of_not_mem (nodup_membersJson hmembers)]
      · rfl
      · intro member hmember hmem
        rw [List.map_singleton, List.mem_singleton] at hmem
        exact untagged_membersJson hd hmembers (List.mem_map.mpr ⟨member, hmember, hmem⟩)

theorem messageJson_payload {inner : Message} (hd : inner.descriptor.WellFormed registry)
    (hany : m.descriptor.wellKnown? = some .any) {url : String}
    (hpayload : m.payload? = some (url, inner)) {json : Json}
    (h : messageJson registry m = .ok json) :
    (inner.descriptor.wellKnown?.isSome = true ∧ ∃ value, messageJson registry inner = .ok value ∧
        json = .object [("@type", .string url), ("value", value)]) ∨
      (inner.descriptor.wellKnown? = none ∧ ∃ members,
        messageJson registry inner = .ok (.object members) ∧ "@type" ∉ members.map Prod.fst ∧
          json = .object (("@type", .string url) :: members)) := by
  rw [messageJson_url hd hany hpayload] at h
  cases hown : inner.descriptor.wellKnown? with
  | some own =>
      rw [hown, Option.isSome_some, if_pos rfl] at h
      obtain ⟨value, hvalue, rfl⟩ := Except.map_eq_ok_iff.mp h
      exact .inl ⟨rfl, value, hvalue, rfl⟩
  | none =>
      rw [hown] at h
      obtain ⟨members, hmembers, rfl⟩ := Except.map_eq_ok_iff.mp h
      refine .inr ⟨rfl, members, ?_, untagged_membersJson hd hmembers, rfl⟩
      rw [messageJson_plain hown, hmembers]
      rfl

/-- A field gives something if it shows. -/
theorem memberJson_eq_ok {field : Field} {found : Option Json}
    (h : memberJson registry field m.contents = .ok found) :
    found.isSome = m.has field ∧ ∀ json, found = some json →
      ∃ content, m.content? field.number = some content ∧
        contentJson registry field content = .ok json := by
  rw [memberJson_eq] at h
  rw [Message.has]
  cases hcontent : m.content? field.number with
  | none =>
      rw [hcontent] at h
      cases h
      exact ⟨rfl, nofun⟩
  | some content =>
      rw [hcontent] at h
      simp only at h ⊢
      cases hshows : Message.shows field content with
      | false =>
          rw [hshows] at h
          cases h
          exact ⟨rfl, nofun⟩
      | true =>
          simp only [hshows, if_true] at h
          cases hjson : contentJson registry field content with
          | error error =>
              rw [hjson] at h
              cases h
          | ok json =>
              rw [hjson] at h
              cases h
              exact ⟨rfl, fun _ heq => ⟨content, rfl, Option.some.inj heq ▸ hjson⟩⟩

/-- A field's member is of another name than those of the fields after it. -/
theorem fresh_put {field : Field} {fields : List Field} {members : List (String × Json)}
    (hname : field.jsonName ∉ fields.map Field.jsonName)
    (hfresh : ∀ other ∈ fields, other.jsonName ∉ members.map Prod.fst) (json : Json) :
    ∀ other ∈ fields, other.jsonName ∉ (Entries.put field.jsonName json members).map Prod.fst := by
  intro other hother hmem
  rcases Entries.mem_map_fst_put.mp hmem with heq | hmem
  · exact hname (heq ▸ List.mem_map_of_mem hother)
  · exact hfresh other hother hmem

/-- Members stand in the order of the fields that give them. -/
theorem map_fst_gather {member : Field → Except EncodeError (Option Json)} {shows : Field → Bool}
    {fields : List Field} {members found : List (String × Json)}
    (hshows : ∀ field ∈ fields, ∀ given, member field = .ok given → given.isSome = shows field)
    (hnames : (fields.map Field.jsonName).Nodup)
    (hfresh : ∀ field ∈ fields, field.jsonName ∉ members.map Prod.fst)
    (h : gather member members fields = .ok found) :
    found.map Prod.fst = members.map Prod.fst ++ (fields.filter shows).map Field.jsonName := by
  induction fields generalizing members with
  | nil =>
      cases h
      simp
  | cons field fields ih =>
      rw [List.map_cons, List.nodup_cons] at hnames
      rw [gather] at h
      obtain ⟨given, hgiven, hrest⟩ := Except.bind_eq_ok_iff.mp h
      have hfield := hshows field List.mem_cons_self given hgiven
      have hothers := fun other hmem => hshows other (List.mem_cons_of_mem field hmem)
      have hfreshRest := fun other hmem => hfresh other (List.mem_cons_of_mem field hmem)
      cases given with
      | none =>
          rw [ih hothers hnames.2 hfreshRest hrest, List.filter_cons, ← hfield]
          rfl
      | some json =>
          have hput := Entries.map_fst_put field.jsonName json members
          rw [if_neg (hfresh field List.mem_cons_self)] at hput
          rw [ih hothers hnames.2 (fresh_put hnames.1 hfreshRest json) hrest, hput,
            List.filter_cons, ← hfield]
          simp

/-- A message is written with a member for each field that shows, in their order. -/
theorem map_fst_membersJson (hd : m.descriptor.WellFormed registry)
    {members : List (String × Json)} (h : membersJson registry m = .ok members) :
    members.map Prod.fst = (m.descriptor.fields.filter m.has).map Field.jsonName := by
  rw [membersJson_eq] at h
  exact map_fst_gather (fun _ _ _ hgiven => (memberJson_eq_ok hgiven).1) hd.jsonNames
    (fun _ _ => List.not_mem_nil) h

theorem listJson_eq_ok {kind : Kind} {values : List Value} {items : List Json}
    (h : listJson registry kind values = .ok items) :
    items.length = values.length ∧ ∀ (i : Nat) (value : Value), values[i]? = some value →
      ∃ json, items[i]? = some json ∧ valueJson registry kind value = .ok json := by
  induction values generalizing items with
  | nil =>
      rw [listJson] at h
      cases h
      exact ⟨rfl, nofun⟩
  | cons value rest ih =>
      rw [listJson] at h
      obtain ⟨json, hjson, h⟩ := Except.bind_eq_ok_iff.mp h
      obtain ⟨more, hmore, h⟩ := Except.bind_eq_ok_iff.mp h
      cases h
      obtain ⟨hlength, hitems⟩ := ih hmore
      refine ⟨by rw [List.length_cons, hlength, List.length_cons], ?_⟩
      intro i other hother
      cases i with
      | zero =>
          cases hother
          exact ⟨json, rfl, hjson⟩
      | succ i => exact hitems i other hother

theorem entriesJson_eq_ok {kind : Kind} {entries : List (Key × Value)}
    {members found : List (String × Json)}
    (htexts : (entries.map fun entry => entry.1.text).Nodup)
    (h : entriesJson registry kind members entries = .ok found) :
    (∀ entry ∈ entries, ∃ json, Entries.get? entry.1.text found = some json ∧
      valueJson registry kind entry.2 = .ok json) ∧
      ∀ text, text ∉ entries.map (fun entry => entry.1.text) →
        Entries.get? text found = Entries.get? text members := by
  induction entries generalizing members with
  | nil =>
      rw [entriesJson] at h
      cases h
      exact ⟨nofun, fun _ _ => rfl⟩
  | cons entry rest ih =>
      obtain ⟨key, value⟩ := entry
      rw [List.map_cons, List.nodup_cons] at htexts
      rw [entriesJson] at h
      obtain ⟨json, hjson, hrest⟩ := Except.bind_eq_ok_iff.mp h
      obtain ⟨hentries, htext⟩ := ih htexts.2 hrest
      refine ⟨?_, ?_⟩
      · intro other hother
        rcases List.mem_cons.mp hother with rfl | hother
        · exact ⟨json, by rw [htext _ htexts.1, Entries.get?_put_self], hjson⟩
        · exact hentries other hother
      · intro text hnot
        rw [List.map_cons, List.mem_cons, not_or] at hnot
        rw [htext text hnot.2, Entries.get?_put_of_ne hnot.1]

end Encoding

end Textproto
