import Textproto.Proofs.Binding.Occurrences

namespace Textproto.Binding

/-! What a field stores, by its kind: the last of its values, all of them, or entries. -/

variable {registry : Registry} {descriptor : Descriptor} {field : Field} {m : Message}
  {elements : List Tree.Value} {items : List Item} {given : List Tree.Field} {draft : Draft}

/-- Elements of a field and the values that they stand for, one by one. -/
def ValuesOf (registry : Registry) (field : Field) (elements : List Tree.Value)
    (values : List Value) : Prop :=
  List.Forall₂ (fun element value => itemOf registry field element = .ok (.value value))
    elements values

/-- Elements of a map and the entries that they stand for, one by one. -/
def EntriesOf (registry : Registry) (field : Field) (elements : List Tree.Value)
    (pairs : List (Key × Value)) : Prop :=
  List.Forall₂ (fun element pair => itemOf registry field element = .ok (.entry pair.1 pair.2))
    elements pairs

theorem exists_value_of_itemOf (hmap : field.mapEntry? registry = none) {element : Tree.Value}
    {item : Item} (h : itemOf registry field element = .ok item) : ∃ value, item = .value value := by
  cases element with
  | list => exact absurd h itemOf_list
  | scalar =>
      obtain ⟨_, value, _, rfl⟩ := itemOf_scalar.mp h
      exact ⟨value, rfl⟩
  | message =>
      rcases itemOf_message.mp h with ⟨_, _, _, hsome, _⟩ | ⟨_, _, _, bound, _, _, _, rfl⟩
      · rw [hmap] at hsome
        cases hsome
      · exact ⟨_, rfl⟩

theorem exists_entry_of_itemOf {found : String × MapEntry}
    (hmap : field.mapEntry? registry = some found) {element : Tree.Value} {item : Item}
    (h : itemOf registry field element = .ok item) : ∃ key value, item = .entry key value := by
  cases element with
  | list => exact absurd h itemOf_list
  | scalar =>
      rw [(itemOf_scalar.mp h).1] at hmap
      cases hmap
  | message =>
      rcases itemOf_message.mp h with ⟨_, _, _, _, _, hentry⟩ | ⟨hnone, _⟩
      · obtain ⟨_, key, value, _, _, _, rfl⟩ := entryOf_eq_ok_iff.mp hentry
        exact ⟨key, value, rfl⟩
      · rw [hnone] at hmap
        cases hmap

theorem ItemsOf.values (hmap : field.mapEntry? registry = none)
    (h : ItemsOf registry field elements items) :
    ∃ values, ValuesOf registry field elements values ∧ items = values.map .value := by
  induction h with
  | nil => exact ⟨[], .nil, rfl⟩
  | cons hitem _ ih =>
      obtain ⟨value, rfl⟩ := exists_value_of_itemOf hmap hitem
      obtain ⟨values, hvalues, rfl⟩ := ih
      exact ⟨value :: values, .cons hitem hvalues, rfl⟩

theorem ItemsOf.entries {found : String × MapEntry} (hmap : field.mapEntry? registry = some found)
    (h : ItemsOf registry field elements items) :
    ∃ pairs, EntriesOf registry field elements pairs ∧
      items = pairs.map fun pair => .entry pair.1 pair.2 := by
  induction h with
  | nil => exact ⟨[], .nil, rfl⟩
  | cons hitem _ ih =>
      obtain ⟨key, value, rfl⟩ := exists_entry_of_itemOf hmap hitem
      obtain ⟨pairs, hpairs, rfl⟩ := ih
      exact ⟨(key, value) :: pairs, .cons hitem hpairs, rfl⟩

/-- What is not written counts as zero, or as a message with nothing in it. -/
theorem unwritten_eq_ok_iff {kind : Kind} {position : Position} {value : Value} :
    unwritten registry kind position = .ok value ↔
      Value.zero? kind = some value ∨ ∃ name inner, kind = .message name ∧
        registry.message? name = some inner ∧ value = .message (.empty inner) := by
  cases kind with
  | message name =>
      simp only [unwritten, Kind.message.injEq, Value.zero?, reduceCtorEq, false_or]
      cases hknown : registry.message? name with
      | none =>
          constructor
          · intro h
            cases h
          · rintro ⟨_, _, rfl, hsome, _⟩
            rw [hknown] at hsome
            cases hsome
      | some inner =>
          constructor
          · intro h
            cases h
            exact ⟨name, inner, rfl, hknown, rfl⟩
          · rintro ⟨_, _, rfl, hsome, rfl⟩
            rw [hknown] at hsome
            cases hsome
            rfl
  | _ => simp [unwritten, Value.zero?]

theorem store_snoc (content : Option Content) (items : List Item) (item : Item) :
    store field content (items ++ [item]) = some (item.onto field (store field content items)) := by
  rw [store, List.foldl_append]
  rfl

theorem store_single (hsingle : field.repeated = false) (values : List Value) :
    store field none (values.map .value) = values.getLast?.map .single := by
  induction values using List.reverseRecOn with
  | nil => rfl
  | append_singleton values value =>
      rw [List.map_append, List.map_singleton, store_snoc]
      simp [Item.onto, hsingle]

theorem store_list (hrepeated : field.repeated = true) (values : List Value) :
    store field none (values.map .value) = if values = [] then none else some (.list values) := by
  induction values using List.reverseRecOn with
  | nil => rfl
  | append_singleton values value ih =>
      rw [List.map_append, List.map_singleton, store_snoc, ih]
      by_cases hvalues : values = []
      · subst hvalues
        simp [Item.onto, hrepeated]
      · simp [Item.onto, hrepeated, hvalues, Content.list?]

theorem store_map (pairs : List (Key × Value)) :
    store field none (pairs.map fun pair => .entry pair.1 pair.2) =
      if pairs = [] then none else some (.map (Key.collect pairs)) := by
  induction pairs using List.reverseRecOn with
  | nil => rfl
  | append_singleton pairs pair ih =>
      rw [List.map_append, List.map_singleton, store_snoc, ih, Key.collect_snoc]
      by_cases hpairs : pairs = []
      · subst hpairs
        rfl
      · simp [Item.onto, hpairs, entriesOf]

namespace Draft.Holds

theorem content?_single (h : draft.Holds registry descriptor given)
    (hfield : field ∈ descriptor.fields) (hsingle : field.repeated = false) :
    ∃ values, ValuesOf registry field (writtenTo field given) values ∧
      draft.message.content? field.number = values.getLast?.map .single := by
  obtain ⟨items, hitems, hstored⟩ := h.stored field hfield
  have hmap : field.mapEntry? registry = none := by
    cases hmap : field.mapEntry? registry with
    | none => rfl
    | some found =>
        rw [Field.repeated_of_mapEntry? hmap] at hsingle
        cases hsingle
  obtain ⟨values, hvalues, rfl⟩ := hitems.values hmap
  exact ⟨values, hvalues, by rw [hstored, store_single hsingle]⟩

theorem content?_list (h : draft.Holds registry descriptor given)
    (hfield : field ∈ descriptor.fields) (hrepeated : field.repeated = true)
    (hmap : field.mapEntry? registry = none) :
    ∃ values, ValuesOf registry field (writtenTo field given) values ∧
      draft.message.content? field.number = if values = [] then none else some (.list values) := by
  obtain ⟨items, hitems, hstored⟩ := h.stored field hfield
  obtain ⟨values, hvalues, rfl⟩ := hitems.values hmap
  exact ⟨values, hvalues, by rw [hstored, store_list hrepeated]⟩

theorem content?_map (h : draft.Holds registry descriptor given)
    (hfield : field ∈ descriptor.fields) {found : String × MapEntry}
    (hmap : field.mapEntry? registry = some found) :
    ∃ pairs, EntriesOf registry field (writtenTo field given) pairs ∧
      draft.message.content? field.number =
        if pairs = [] then none else some (.map (Key.collect pairs)) := by
  obtain ⟨items, hitems, hstored⟩ := h.stored field hfield
  obtain ⟨pairs, hpairs, rfl⟩ := hitems.entries hmap
  exact ⟨pairs, hpairs, by rw [hstored, store_map]⟩

/-- A single value that is found is the last one that is written. -/
theorem single?_eq (h : draft.Holds registry descriptor given)
    (hd : descriptor.WellFormed registry) (hfield : field ∈ descriptor.fields)
    (hsingle : field.repeated = false) :
    ∃ values, ValuesOf registry field (writtenTo field given) values ∧
      draft.message.single? field.name = values.getLast? := by
  obtain ⟨values, hvalues, hcontent⟩ := h.content?_single hfield hsingle
  refine ⟨values, hvalues, ?_⟩
  rw [Message.single?_of_fieldNamed? (by rw [h.type]; exact hd.fieldNamed? hfield), hcontent]
  cases values.getLast? <;> rfl

theorem written_of_single? (h : draft.Holds registry descriptor given)
    (hd : descriptor.WellFormed registry) (hfield : field ∈ descriptor.fields)
    (hsingle : field.repeated = false) {v : Value}
    (hv : draft.message.single? field.name = some v) :
    ∃ value ∈ writtenTo field given, itemOf registry field value = .ok (.value v) := by
  obtain ⟨values, hvalues, hlast⟩ := h.single?_eq hd hfield hsingle
  exact Tree.exists_right hvalues.flip v (List.mem_of_getLast? (hlast.symm.trans hv))

theorem writtenTo_eq_nil (h : draft.Holds registry descriptor given)
    (hd : descriptor.WellFormed registry) (hfield : field ∈ descriptor.fields)
    (hsingle : field.repeated = false) (hnone : draft.message.single? field.name = none) :
    writtenTo field given = [] := by
  obtain ⟨values, hvalues, hlast⟩ := h.single?_eq hd hfield hsingle
  obtain rfl := List.getLast?_eq_none_iff.mp (hlast.symm.trans hnone)
  exact List.forall₂_nil_right_iff.mp hvalues

end Draft.Holds

/-- A message is what its fields give, or it is an `Any` of which a type URL is written alone. -/
theorem messageOf_cases (hd : descriptor.WellFormed registry)
    (h : messageOf registry descriptor given = .ok m) :
    (∃ draft : Draft, draft.Holds registry descriptor given ∧ draft.message = m) ∨
      (descriptor.wellKnown? = some .any ∧ ∃ url inner place,
        .scalar (.string (Utf8.encode url)) place ∈ writtenTo (.single "type_url" 1 .string) given ∧
          registry.Names url inner ∧
          m = (Message.empty descriptor).withPayload (String.ofList url) (.empty inner)) := by
  obtain ⟨draft, hdraft, hfinish⟩ := messageOf_holds hd h
  rcases finish_eq_ok_iff.mp hfinish with ⟨_, rfl⟩ | ⟨hany, hcheck⟩
  · exact .inl ⟨draft, hdraft, rfl⟩
  · rcases checkAny_eq_ok_iff.mp hcheck with ⟨_, ⟨_, rfl⟩ | ⟨_, hurl, inner, hresolve, rfl⟩⟩
    · exact .inl ⟨draft, hdraft, rfl⟩
    · rw [hdraft.type] at hany ⊢
      have hfield : Field.single "type_url" 1 .string ∈ descriptor.fields := by
        simp [hd.fields_of_any hany]
      obtain ⟨value, hvalue, hitem⟩ :=
        hdraft.written_of_single? hd hfield rfl ((Message.string_eq_iff hurl).mp rfl)
      obtain ⟨place, rfl⟩ := (itemOf_string rfl).mp hitem
      refine .inr ⟨hany, _, inner, place, hvalue, Registry.resolve?_eq_some_iff.mp hresolve, ?_⟩
      rw [String.ofList_toList]

/-- Lists are written for repeated fields only. -/
theorem repeated_of_list (hd : descriptor.WellFormed registry) {written : Tree.Field}
    (hvalid : ValidField registry descriptor written) (hset : Sets descriptor field written)
    {values : List Tree.Value} {place : Position} (hlist : written.value = .list values place) :
    field.repeated = true := by
  cases hvalid with
  | @item _ other _ _ hitem =>
      rw [hlist] at hitem
      generalize other.kind = kind at hitem
      cases hitem
  | list hother hrepeated _ => rwa [hset.unique hd hother]
  | payload => cases hset.2

/-- A single field is written at most once. -/
theorem writtenTo_single (hregistry : registry.WellFormed)
    (hd : descriptor.WellFormed registry) (h : messageOf registry descriptor given = .ok m)
    (hfield : field ∈ descriptor.fields) (hsingle : field.repeated = false) :
    writtenTo field given = [] ∨ ∃ element, writtenTo field given = [element] := by
  obtain ⟨hvalid, hpairs, _⟩ := (messageOf_iff_valid hregistry hd given).mp ⟨m, h⟩
  have hpairs := hpairs.filter fun written => written.name = .plain field.name.toList
  have hsets : ∀ written ∈ given.filter fun written => written.name = .plain field.name.toList,
      written ∈ given ∧ Sets descriptor field written := by
    intro written hmem
    rw [List.mem_filter, decide_eq_true_eq] at hmem
    exact ⟨hmem.1, hfield, hmem.2⟩
  -- Two fields of the name would clash, and one of them gives one element unless it is a list.
  rw [writtenTo, Tree.given]
  generalize given.filter _ = own at hsets hpairs
  rcases own with _ | ⟨written, _ | ⟨second, rest⟩⟩
  · exact .inl rfl
  · obtain ⟨hmem, hset⟩ := hsets written List.mem_cons_self
    refine .inr ⟨written.value, ?_⟩
    cases hvalue : written.value with
    | list values place =>
        rw [repeated_of_list hd (hvalid written hmem) hset hvalue] at hsingle
        cases hsingle
    | scalar => simp [Binding.elements, hvalue]
    | message => simp [Binding.elements, hvalue]
  · refine absurd (.single hsingle (hsets _ List.mem_cons_self).2 ?_)
      (List.rel_of_pairwise_cons hpairs List.mem_cons_self)
    exact (hsets _ (List.mem_cons_of_mem _ List.mem_cons_self)).2

/-- A single field stores what is written for it, if anything is. -/
theorem content?_of_single (hregistry : registry.WellFormed)
    (hd : descriptor.WellFormed registry) (hplain : descriptor.wellKnown? ≠ some .any)
    (h : messageOf registry descriptor given = .ok m) (hfield : field ∈ descriptor.fields)
    (hsingle : field.repeated = false) :
    (writtenTo field given = [] ∧ m.content? field.number = none) ∨
      ∃ element value, writtenTo field given = [element] ∧
        itemOf registry field element = .ok (.value value) ∧
        m.content? field.number = some (.single value) := by
  obtain ⟨draft, hdraft, rfl⟩ := (messageOf_cases hd h).resolve_right fun hany => hplain hany.1
  obtain ⟨values, hvalues, hcontent⟩ := hdraft.content?_single hfield hsingle
  rcases writtenTo_single hregistry hd h hfield hsingle with hnone | ⟨element, hone⟩
  · rw [hnone] at hvalues
    cases hvalues
    exact .inl ⟨hnone, hcontent⟩
  · rw [hone] at hvalues
    obtain ⟨value, _, hitem, hrest, rfl⟩ := List.forall₂_cons_left_iff.mp hvalues
    cases hrest
    exact .inr ⟨element, value, hone, hitem, hcontent⟩

end Textproto.Binding
