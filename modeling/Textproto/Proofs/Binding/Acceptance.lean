import Textproto.Proofs.Binding.Typed
import Textproto.Proofs.Binding.Valid
import Textproto.Proofs.Data.Runs

namespace Textproto

/-! The binder takes the valid fields and no others. -/

theorem Value.IsScalar.not_message {kind : Kind} {value : Value} (h : value.IsScalar kind) :
    kind.isMessage = false := by
  cases h <;> rfl

/-- The entries of a map are messages. -/
theorem Field.mapEntry?_eq_none {registry : Registry} {field : Field}
    (hkind : field.kind.isMessage = false) : field.mapEntry? registry = none := by
  cases hentry : field.mapEntry? registry with
  | none => rfl
  | some found =>
      obtain ⟨type, htype, _⟩ := Field.message?_of_mapEntry? hentry
      rw [htype] at hkind
      cases hkind

theorem Registry.afterSlash?_eq_some_iff {url name : List Char} :
    afterSlash? url = some name ↔ ∃ lead, url = lead ++ '/' :: name ∧ '/' ∉ name := by
  unfold afterSlash?
  constructor
  · intro h
    split at h
    next hslash =>
      cases h
      have hsplit := takeWhile_append_drop (· ≠ '/') url.reverse
      have hstops := @Stops.drop_takeWhile (· ≠ '/') url.reverse
      have hrun : '/' ∉ url.reverse.takeWhile (· ≠ '/') := by
        intro hmem
        have hwanted := List.all_eq_true.mp (List.all_takeWhile (l := url.reverse)) '/' hmem
        simp at hwanted
      generalize url.reverse.takeWhile (· ≠ '/') = run at hsplit hstops hrun ⊢
      generalize url.reverse.drop run.length = rest at hsplit hstops
      cases rest with
      | nil =>
          rw [List.append_nil] at hsplit
          rw [hsplit, List.mem_reverse] at hrun
          exact absurd hslash hrun
      | cons c rest =>
          obtain rfl : c = '/' := by simpa using Stops.cons_iff.mp hstops
          refine ⟨rest.reverse, ?_, by simpa using hrun⟩
          have hurl := congrArg List.reverse hsplit
          simpa using hurl.symm
    next => cases h
  · rintro ⟨lead, rfl, hname⟩
    rw [if_pos (by simp)]
    have hstops : Stops (· ≠ '/') ('/' :: lead.reverse) := by simp
    have hrun : name.reverse.all (· ≠ '/') = true := List.all_eq_true.mpr fun c hc => by
      simpa using fun heq : c = '/' => hname (List.mem_reverse.mp (heq ▸ hc))
    simpa using congrArg List.reverse (hstops.takeWhile_append hrun)

theorem Registry.resolve?_eq_some_iff {registry : Registry} {url : String}
    {descriptor : Descriptor} :
    registry.resolve? url = some descriptor ↔ registry.Names url.toList descriptor := by
  simp only [resolve?, Option.bind_eq_some_iff, afterSlash?_eq_some_iff, Names]
  constructor
  · rintro ⟨name, ⟨lead, hurl, hname⟩, hknown⟩
    exact ⟨lead, name, hurl, hname, hknown⟩
  · rintro ⟨lead, name, hurl, hname, hknown⟩
    exact ⟨name, ⟨lead, hurl, hname⟩, hknown⟩

namespace Binding

variable {registry : Registry} {descriptor : Descriptor} {field other : Field}
  {first second written : Tree.Field}

theorem fieldNamed?_eq_some_iff (hd : descriptor.WellFormed registry) {name : List Char}
    (position : Position) (value : Tree.Value) :
    descriptor.fieldNamed? (String.ofList name) = some field ↔
      Sets descriptor field ⟨.plain name, position, value⟩ := by
  constructor
  · intro h
    obtain ⟨hfield, hname⟩ := Descriptor.fieldNamed?_mem h
    refine ⟨hfield, ?_⟩
    rw [hname, String.toList_ofList]
    rfl
  · rintro ⟨hfield, hname⟩
    cases hname
    rw [String.ofList_toList]
    exact hd.fieldNamed? hfield

theorem Sets.unique (hd : descriptor.WellFormed registry) (hfield : Sets descriptor field written)
    (hother : Sets descriptor other written) : field = other := by
  refine hd.eq_of_name hfield.1 hother.1 ?_
  have hname := hfield.2.symm.trans hother.2
  rw [Tree.Name.plain.injEq] at hname
  exact String.toList_injective hname

/-- What comes later clashes over the field that it sets. -/
theorem clash_iff (hd : descriptor.WellFormed registry) (hsecond : Sets descriptor field second) :
    Clash descriptor first second ↔
      (field.repeated = false ∧ Sets descriptor field first) ∨
        ∃ oneof other, field.oneof = some oneof ∧ other.oneof = some oneof ∧
          Sets descriptor other first := by
  constructor
  · intro h
    cases h with
    | single hsingle hfirst hset =>
        rw [hsecond.unique hd hset]
        exact .inl ⟨hsingle, hfirst⟩
    | oneof hfirstOneof hsecondOneof hfirst hset =>
        rw [hsecond.unique hd hset]
        exact .inr ⟨_, _, hsecondOneof, hfirstOneof, hfirst⟩
    | payload _ hname =>
        rw [hsecond.2] at hname
        cases hname
  · rintro (⟨hsingle, hfirst⟩ | ⟨oneof, other, hfieldOneof, hotherOneof, hfirst⟩)
    · exact .single hsingle hfirst hsecond
    · exact .oneof hotherOneof hfieldOneof hfirst hsecond

/-! What an occurrence gives to a single field. -/

theorem itemOf_single (hsingle : field.repeated = false) {value : Tree.Value} {item : Item}
    (h : itemOf registry field value = .ok item) : ∃ v, item = .value v := by
  have hmap : field.mapEntry? registry = none := by
    cases hentry : field.mapEntry? registry with
    | none => rfl
    | some found =>
        rw [Field.repeated_of_mapEntry? hentry] at hsingle
        cases hsingle
  cases value with
  | message fields place =>
      rcases itemOf_message.mp h with ⟨_, _, _, hentry, _⟩ | ⟨_, _, _, bound, _, _, _, rfl⟩
      · rw [hmap] at hentry
        cases hentry
      · exact ⟨_, rfl⟩
  | scalar scalar place =>
      obtain ⟨_, v, _, rfl⟩ := itemOf_scalar.mp h
      exact ⟨v, rfl⟩
  | list values place => exact absurd h itemOf_list

/-- A bound entry has a key, and a value where none is written. -/
theorem entryOf_total (hregistry : registry.WellFormed) {name type : String} {entry : MapEntry}
    (hknown : registry.message? type = some ⟨name, .mapEntry entry⟩) {bound : Message}
    (hbound : bound.WellTyped registry) (hdescriptor : bound.descriptor = ⟨name, .mapEntry entry⟩)
    (position : Position) : ∃ item, entryOf registry entry bound position = .ok item := by
  have hd := (hregistry.descriptors _ _ hknown).2
  have hwritten (own : Field) (hown : own ∈ bound.descriptor.fields) :
      ∃ value, Written registry bound own position value := by
    cases hfound : bound.single? own.name with
    | some value => exact ⟨value, .inl hfound⟩
    | none =>
        have hresolves := hd.kinds own (hdescriptor ▸ hown)
        have hzero : ∃ value, unwritten registry own.kind position = .ok value := by
          unfold unwritten
          cases hkind : own.kind with
          | message inner =>
              rw [hkind] at hresolves
              obtain ⟨descriptor, hinner⟩ := Option.isSome_iff_exists.mp hresolves
              simp only [hinner]
              exact ⟨_, rfl⟩
          | _ => exact ⟨_, rfl⟩
        obtain ⟨value, hvalue⟩ := hzero
        exact ⟨value, .inr ⟨hfound, hvalue⟩⟩
  obtain ⟨keyValue, hkeyValue⟩ := hwritten entry.keyField
    (by simp [hdescriptor, Descriptor.fields])
  obtain ⟨value, hvalue⟩ := hwritten entry.valueField
    (by simp [hdescriptor, Descriptor.fields])
  obtain ⟨key, hkey, _⟩ :=
    Value.key?_of_isKey hd.shape (hasKind_of_written_key hbound hdescriptor hkeyValue)
  exact ⟨_, entryOf_eq_ok_iff.mpr ⟨keyValue, key, value, hkeyValue, hkey, hvalue, rfl⟩⟩

/-! A draft keeps account of the fields that are done. -/

structure Draft.After (registry : Registry) (descriptor : Descriptor) (done : List Tree.Field)
    (draft : Draft) : Prop where
  type : draft.message.descriptor = descriptor
  bound : ∀ written ∈ done, ∀ field, Sets descriptor field written → field.repeated = false →
    ∃ item, itemOf registry field written.value = .ok item
  seen : ∀ field ∈ descriptor.fields, field.repeated = false →
    ((Entries.get? field.number draft.seen).isSome = true ↔
      ∃ written ∈ done, Sets descriptor field written)
  members : ∀ oneof, (Entries.get? oneof draft.members).isSome = true ↔
    ∃ written ∈ done, ∃ field, Sets descriptor field written ∧ field.oneof = some oneof
  payload : draft.message.payload?.isSome = true ↔
    ∃ written ∈ done, ∃ url, written.name = .expanded url
  stored : ∀ field ∈ descriptor.fields, field.repeated = false → ∀ value,
    draft.message.content? field.number = some (.single value) ↔
      ∃ written ∈ done, Sets descriptor field written ∧
        itemOf registry field written.value = .ok (.value value)

namespace Draft.After

variable {done : List Tree.Field} {draft draft' : Draft}

theorem exists_mem_snoc {P : Tree.Field → Prop} :
    (∃ before ∈ done ++ [written], P before) ↔ (∃ before ∈ done, P before) ∨ P written := by
  simp [or_and_right, exists_or]

theorem empty (descriptor : Descriptor) :
    (Draft.empty descriptor).After registry descriptor [] where
  type := rfl
  bound := by simp
  seen := by simp [Draft.empty]
  members := by simp [Draft.empty]
  payload := by simp [Draft.empty, Message.empty, Message.payload?]
  stored := by simp [Draft.empty]

/-- A field may follow those that are done if it finds its number and its oneof free. -/
theorem free_iff (h : draft.After registry descriptor done)
    (hd : descriptor.WellFormed registry) (hset : Sets descriptor field written) :
    (∀ before ∈ done, ¬ Clash descriptor before written) ↔
      field.repeated = true ∨ (Entries.get? field.number draft.seen = none ∧
        ∀ oneof, field.oneof = some oneof → Entries.get? oneof draft.members = none) := by
  have hseen (hsingle : field.repeated = false) :
      Entries.get? field.number draft.seen = none ↔
        ∀ before ∈ done, ¬ Sets descriptor field before := by
    rw [← Option.not_isSome_iff_eq_none, h.seen field hset.1 hsingle]
    simp
  have hmembers (oneof : String) : Entries.get? oneof draft.members = none ↔
      ∀ before ∈ done, ∀ other, Sets descriptor other before → other.oneof ≠ some oneof := by
    rw [← Option.not_isSome_iff_eq_none, h.members oneof]
    simp
  constructor
  · intro hno
    cases hrepeated : field.repeated with
    | true => exact .inl rfl
    | false =>
        refine .inr ⟨(hseen hrepeated).mpr fun before hbefore hfirst => ?_, ?_⟩
        · exact hno before hbefore (.single hrepeated hfirst hset)
        · intro oneof honeof
          refine (hmembers oneof).mpr fun before hbefore other hother hotherOneof => ?_
          exact hno before hbefore (.oneof hotherOneof honeof hother hset)
  · intro hfree before hbefore hclash
    rcases hfree with hrepeated | ⟨hfree, hfreeOneof⟩
    · rcases (clash_iff hd hset).mp hclash with ⟨hsingle, _⟩ | ⟨oneof, _, honeof, _⟩
      · simp [hrepeated] at hsingle
      · rw [hd.choices field hset.1 hrepeated] at honeof
        cases honeof
    · rcases (clash_iff hd hset).mp hclash with ⟨hsingle, hfirst⟩ |
        ⟨oneof, other, honeof, hotherOneof, hother⟩
      · exact (hseen hsingle).mp hfree before hbefore hfirst
      · exact (hmembers oneof).mp (hfreeOneof oneof honeof) before hbefore other hother
          hotherOneof

/-- A repeated field changes nothing that is kept account of. -/
theorem repeated (h : draft.After registry descriptor done) (hd : descriptor.WellFormed registry)
    (hset : Sets descriptor field written) (hrepeated : field.repeated = true) {message : Message}
    (hdescriptor : message.descriptor = draft.message.descriptor)
    (hpayload : message.payload? = draft.message.payload?)
    (hothers : ∀ number, number ≠ field.number →
      message.content? number = draft.message.content? number) :
    Draft.After registry descriptor (done ++ [written]) { draft with message := message } := by
  have hno {other : Field} (hsingle : other.repeated = false) :
      ¬ Sets descriptor other written := by
    intro hother
    rw [hset.unique hd hother, hsingle] at hrepeated
    cases hrepeated
  have honeof {other : Field} (hother : Sets descriptor other written) : other.oneof = none := by
    rw [← hset.unique hd hother]
    exact hd.choices field hset.1 hrepeated
  refine ⟨hdescriptor.trans h.type, ?_, ?_, ?_, ?_, ?_⟩
  · intro before hbefore other hother hsingle
    rcases List.mem_append.mp hbefore with hbefore | hbefore
    · exact h.bound before hbefore other hother hsingle
    · rw [List.mem_singleton.mp hbefore] at hother
      exact absurd hother (hno hsingle)
  · intro other hother hsingle
    simp only [h.seen other hother hsingle, exists_mem_snoc, hno hsingle, or_false]
  · intro oneof
    rw [h.members oneof, exists_mem_snoc]
    refine ⟨.inl, Or.rec id ?_⟩
    rintro ⟨other, hother, hmember⟩
    rw [honeof hother] at hmember
    cases hmember
  · rw [hpayload, h.payload, exists_mem_snoc, hset.2]
    simp
  · intro other hother hsingle value
    have hne : other.number ≠ field.number := by
      intro heq
      rw [hd.eq_of_number hother hset.1 heq, hrepeated] at hsingle
      cases hsingle
    simp only [hothers _ hne, h.stored other hother hsingle, exists_mem_snoc, hno hsingle,
      false_and, or_false]

/-- A single field is seen, takes its oneof and is stored. -/
theorem single (h : draft.After registry descriptor done) (hd : descriptor.WellFormed registry)
    (hset : Sets descriptor field written) (hsingle : field.repeated = false) {item : Item}
    (hitem : itemOf registry field written.value = .ok item) {position : Position}
    (hfree : Entries.get? field.number draft.seen = none) :
    Draft.After registry descriptor (done ++ [written])
      { draft.noted field position with message := item.setIn field draft.message } := by
  obtain ⟨value, rfl⟩ := itemOf_single hsingle hitem
  have hsame {other : Field} : Sets descriptor other written ↔ other = field := by
    refine ⟨fun hother => hother.unique hd hset, ?_⟩
    rintro rfl
    exact hset
  have hno : ¬ ∃ before ∈ done, Sets descriptor field before := by
    rw [← h.seen field hset.1 hsingle, hfree]
    simp
  -- The fields, then the numbers seen, the oneofs, the payload and the contents.
  refine ⟨h.type, ?_, ?_, ?_, ?_, ?_⟩
  · intro before hbefore other hother hsingle
    rcases List.mem_append.mp hbefore with hbefore | hbefore
    · exact h.bound before hbefore other hother hsingle
    · rw [List.mem_singleton.mp hbefore] at hother ⊢
      rw [hsame.mp hother]
      exact ⟨_, hitem⟩
  · intro other hother hotherSingle
    simp only [exists_mem_snoc, hsame, Draft.noted]
    by_cases heq : other = field
    · simp [heq]
    · have hne : other.number ≠ field.number := fun hnumber =>
        heq (hd.eq_of_number hother hset.1 hnumber)
      simp only [Entries.get?_put_of_ne hne, h.seen other hother hotherSingle, heq, or_false]
  · intro oneof
    have hmember : (∃ other, Sets descriptor other written ∧ other.oneof = some oneof) ↔
        field.oneof = some oneof := by
      simp [hsame]
    rw [exists_mem_snoc, hmember, ← h.members oneof]
    simp only [Draft.noted]
    cases hfield : field.oneof with
    | none => simp
    | some own =>
        by_cases heq : oneof = own
        · simp [heq]
        · simp [Entries.get?_put_of_ne heq, Ne.symm heq]
  · rw [exists_mem_snoc, hset.2, ← h.payload]
    simp [Item.setIn, Message.set]
  · intro other hother hotherSingle found
    simp only [exists_mem_snoc, hsame, Item.setIn, Message.set]
    by_cases heq : other = field
    · subst heq
      have hstored : ¬ ∃ before ∈ done, Sets descriptor other before ∧
          itemOf registry other before.value = .ok (.value found) := by
        rintro ⟨before, hbefore, hother, _⟩
        exact hno ⟨before, hbefore, hother⟩
      simp [hstored, hitem]
    · have hne : other.number ≠ field.number := fun hnumber =>
        heq (hd.eq_of_number hother hset.1 hnumber)
      simp only [Message.content?_put_of_ne _ hne, h.stored other hother hotherSingle, heq,
        false_and, or_false]

theorem expanded (h : draft.After registry descriptor done) {url : List Char}
    (hurl : written.name = .expanded url) {key : String} {payload : Message} :
    Draft.After registry descriptor (done ++ [written])
      { draft with message := draft.message.withPayload key payload } := by
  have hno {other : Field} : ¬ Sets descriptor other written := by
    intro hother
    rw [hother.2] at hurl
    cases hurl
  refine ⟨h.type, ?_, ?_, ?_, ?_, ?_⟩
  · intro before hbefore other hother hsingle
    rcases List.mem_append.mp hbefore with hbefore | hbefore
    · exact h.bound before hbefore other hother hsingle
    · rw [List.mem_singleton.mp hbefore] at hother
      exact absurd hother hno
  · intro other hother hsingle
    simp only [exists_mem_snoc, hno, or_false, h.seen other hother hsingle]
  · intro oneof
    simp only [exists_mem_snoc, hno, false_and, exists_false, or_false, h.members oneof]
  · rw [exists_mem_snoc, hurl]
    simp [Message.withPayload, Message.payload?]
  · intro other hother hsingle value
    simp only [exists_mem_snoc, hno, false_and, or_false, Message.content?_withPayload,
      h.stored other hother hsingle]

end Draft.After

/-! What is checked of an `Any` once all fields are in. -/

theorem itemOf_of_not_message (hkind : field.kind.isMessage = false) {value : Tree.Value}
    {item : Item} : itemOf registry field value = .ok item ↔
      ∃ scalar place v, value = .scalar scalar place ∧
        scalarAs registry field scalar = .ok v ∧ item = .value v := by
  have hmap := @Field.mapEntry?_eq_none registry _ hkind
  constructor
  · intro h
    cases value with
    | message fields place =>
        rcases itemOf_message.mp h with ⟨_, _, _, hentry, _⟩ | ⟨_, _, _, _, htype, _⟩
        · rw [hmap] at hentry
          cases hentry
        · rw [htype] at hkind
          cases hkind
    | scalar scalar place =>
        obtain ⟨_, v, hv, rfl⟩ := itemOf_scalar.mp h
        exact ⟨scalar, place, v, rfl, hv, rfl⟩
    | list values place => exact absurd h itemOf_list
  · rintro ⟨scalar, place, v, rfl, hv, rfl⟩
    exact itemOf_scalar.mpr ⟨hmap, v, hv, rfl⟩

theorem itemOf_bytes (hkind : field.kind = .bytes) {value : Tree.Value} {bytes : List UInt8} :
    itemOf registry field value = .ok (.value (.bytes bytes)) ↔
      ∃ place, value = .scalar (.string bytes) place := by
  rw [itemOf_of_not_message (by rw [hkind]; rfl)]
  constructor
  · rintro ⟨scalar, place, v, rfl, hv, heq⟩
    cases heq
    simp only [scalarAs, hkind] at hv
    split at hv
    next => cases hv; exact ⟨place, rfl⟩
    next => cases hv
  · rintro ⟨place, rfl⟩
    exact ⟨_, place, _, rfl, by simp only [scalarAs, hkind], rfl⟩

theorem itemOf_string (hkind : field.kind = .string) {value : Tree.Value} {text : String} :
    itemOf registry field value = .ok (.value (.string text)) ↔
      ∃ place, value = .scalar (.string (Utf8.encode text.toList)) place := by
  rw [itemOf_of_not_message (by rw [hkind]; rfl)]
  constructor
  · rintro ⟨scalar, place, v, rfl, hv, heq⟩
    cases heq
    simp only [scalarAs, hkind] at hv
    split at hv
    next bytes =>
      split at hv
      next found hdecode =>
        cases hv
        rw [Utf8.decode_eq_ok_iff.mp hdecode, String.toList_ofList]
        exact ⟨place, rfl⟩
      next => cases hv
    next => cases hv
  · rintro ⟨place, rfl⟩
    refine ⟨_, place, _, rfl, ?_, rfl⟩
    simp only [scalarAs, hkind, Utf8.decode_encode, String.ofList_toList]

theorem exists_text_of_itemOf (hkind : field.kind = .string) {value : Tree.Value} {item : Item}
    (h : itemOf registry field value = .ok item) :
    ∃ text place, value = .scalar (.string (Utf8.encode text)) place := by
  obtain ⟨scalar, place, v, rfl, hv, rfl⟩ :=
    (itemOf_of_not_message (by rw [hkind]; rfl)).mp h
  have hscalar := scalarAs_isScalar hv
  rw [hkind] at hscalar
  cases hscalar with
  | @string text =>
      obtain ⟨_, heq⟩ := (itemOf_string hkind).mp h
      exact ⟨text.toList, place, by cases heq; rfl⟩

theorem holdsBytes_eq_true_iff {message : Message} :
    holdsBytes message = true ↔
      ∃ bytes, message.single? "value" = some (.bytes bytes) ∧ bytes ≠ [] := by
  unfold holdsBytes
  split
  next bytes h => simp [h]
  next hno =>
    simp only [Bool.false_eq_true, false_iff, not_exists, not_and]
    intro bytes h
    exact absurd h (hno bytes)

theorem Message.string_eq_iff {message : Message} {name text : String} (htext : text ≠ "") :
    message.string name = text ↔ message.single? name = some (.string text) := by
  unfold Message.string
  cases message.single? name with
  | none => simpa using htext.symm
  | some value => cases value <;> simp [Value.string?, htext.symm]

namespace Draft.After

variable {done : List Tree.Field} {draft draft' : Draft}

theorem single?_eq_some_iff (h : draft.After registry descriptor done)
    (hd : descriptor.WellFormed registry) (hfield : field ∈ descriptor.fields)
    (hsingle : field.repeated = false) {value : Value} :
    draft.message.single? field.name = some value ↔
      ∃ written ∈ done, Sets descriptor field written ∧
        itemOf registry field written.value = .ok (.value value) := by
  rw [← h.stored field hfield hsingle]
  rw [Textproto.Message.single?_of_fieldNamed? (by rw [h.type]; exact hd.fieldNamed? hfield),
    Option.bind_eq_some_iff]
  constructor
  · rintro ⟨content, hcontent, hvalue⟩
    cases content with
    | single v =>
        cases hvalue
        exact hcontent
    | list => cases hvalue
    | map => cases hvalue
  · intro hcontent
    exact ⟨_, hcontent, rfl⟩

/-- A value that only one scalar gives is stored where that scalar is written. -/
theorem single?_iff_written (h : draft.After registry descriptor done)
    (hd : descriptor.WellFormed registry) (hfield : field ∈ descriptor.fields)
    (hsingle : field.repeated = false) {value : Value} {scalar : Tree.Scalar}
    (hitem : ∀ found, itemOf registry field found = .ok (.value value) ↔
      ∃ place, found = .scalar scalar place) :
    draft.message.single? field.name = some value ↔ ∃ position place,
      .mk (.plain field.name.toList) position (.scalar scalar place) ∈ done := by
  rw [h.single?_eq_some_iff hd hfield hsingle]
  constructor
  · rintro ⟨⟨name, position, found⟩, hwritten, ⟨_, hname⟩, hfound⟩
    obtain ⟨place, rfl⟩ := (hitem _).mp hfound
    cases hname
    exact ⟨position, place, hwritten⟩
  · rintro ⟨position, place, hwritten⟩
    exact ⟨_, hwritten, ⟨hfield, rfl⟩, (hitem _).mpr ⟨place, rfl⟩⟩

theorem single?_bytes_iff (h : draft.After registry descriptor done)
    (hd : descriptor.WellFormed registry) (hany : descriptor.wellKnown? = some .any)
    (bytes : List UInt8) :
    draft.message.single? "value" = some (.bytes bytes) ↔ ∃ position place,
      .mk (.plain "value".toList) position (.scalar (.string bytes) place) ∈ done := by
  have hfield : .single "value" 2 .bytes ∈ descriptor.fields := by simp [hd.fields_of_any hany]
  exact h.single?_iff_written hd hfield rfl fun _ => itemOf_bytes rfl

theorem string_url_iff (h : draft.After registry descriptor done)
    (hd : descriptor.WellFormed registry) (hany : descriptor.wellKnown? = some .any)
    {text : String} (htext : text ≠ "") :
    draft.message.string "type_url" = text ↔ ∃ position place, .mk (.plain "type_url".toList)
      position (.scalar (.string (Utf8.encode text.toList)) place) ∈ done := by
  have hfield : .single "type_url" 1 .string ∈ descriptor.fields := by
    simp [hd.fields_of_any hany]
  exact (Message.string_eq_iff htext).trans
    (h.single?_iff_written hd hfield rfl fun _ => itemOf_string rfl)

theorem plainAny_of_checkAny (h : draft.After registry descriptor done)
    (hd : descriptor.WellFormed registry) (hany : descriptor.wellKnown? = some .any)
    {start : Position} {message : Message}
    (hchecked : checkAny registry draft.message start = .ok message) : PlainAny registry done := by
  obtain ⟨hnone, hcases⟩ := checkAny_eq_ok_iff.mp hchecked
  refine ⟨fun position bytes place hmem => ?_, fun position bytes place hmem hne => ?_⟩
  · refine Decidable.byContradiction fun hne => ?_
    have hholds := holdsBytes_eq_true_iff.mpr
      ⟨bytes, (h.single?_bytes_iff hd hany bytes).mpr ⟨position, place, hmem⟩, hne⟩
    rw [hnone] at hholds
    cases hholds
  · have hfield : .single "type_url" 1 .string ∈ descriptor.fields := by
      simp [hd.fields_of_any hany]
    obtain ⟨item, hitem⟩ := h.bound _ hmem _ ⟨hfield, rfl⟩ rfl
    obtain ⟨text, _, heq⟩ := exists_text_of_itemOf rfl hitem
    cases heq
    have htext : String.ofList text ≠ "" := fun heq =>
      hne (Utf8.encode_eq_nil_iff.mpr (String.ofList_eq_empty_iff.mp heq))
    have hstring := (h.string_url_iff hd hany htext).mpr
      ⟨position, place, (String.toList_ofList (l := text)).symm ▸ hmem⟩
    rw [hstring] at hcases
    -- The URL is not empty, so that the second case has been checked: there is no payload.
    obtain ⟨hpayload, _, descriptor, hresolve, _⟩ := hcases.resolve_left fun heq => htext heq.1
    refine ⟨fun written hwritten url hname => ?_, text, descriptor, rfl, ?_⟩
    · have hset := h.payload.mpr ⟨written, hwritten, url, hname⟩
      rw [hpayload] at hset
      cases hset
    · rw [← String.toList_ofList (l := text)]
      exact Registry.resolve?_eq_some_iff.mp hresolve

theorem exists_checkAny (h : draft.After registry descriptor done)
    (hd : descriptor.WellFormed registry) (hany : descriptor.wellKnown? = some .any)
    {start : Position} (hplain : PlainAny registry done) :
    ∃ message, checkAny registry draft.message start = .ok message := by
  simp only [checkAny_eq_ok_iff]
  have hnone : holdsBytes draft.message = false := by
    rw [← Bool.not_eq_true, holdsBytes_eq_true_iff]
    rintro ⟨bytes, hsingle, hne⟩
    obtain ⟨position, place, hmem⟩ := (h.single?_bytes_iff hd hany bytes).mp hsingle
    exact hne (hplain.bytes position bytes place hmem)
  by_cases htext : draft.message.string "type_url" = ""
  · exact ⟨_, hnone, .inl ⟨htext, rfl⟩⟩
  · obtain ⟨position, place, hmem⟩ := (h.string_url_iff hd hany htext).mp rfl
    have hne : Utf8.encode (draft.message.string "type_url").toList ≠ [] := by
      rw [ne_eq, Utf8.encode_eq_nil_iff]
      exact fun heq => htext (String.toList_eq_nil_iff.mp heq)
    obtain ⟨hno, text, inner, htextEq, hnames⟩ := hplain.url position _ place hmem hne
    refine ⟨_, hnone, .inr ⟨?_, htext, inner, ?_, rfl⟩⟩
    · rw [← Option.not_isSome_iff_eq_none, h.payload]
      rintro ⟨written, hwritten, url, hname⟩
      exact hno written hwritten url hname
    · rw [Registry.resolve?_eq_some_iff, Utf8.encode_injective htextEq]
      exact hnames

/-- The fields of an `Any`, as they are stored and as they are written. -/
theorem finish_iff (h : draft.After registry descriptor done)
    (hd : descriptor.WellFormed registry) {start : Position} :
    (∃ message, finish registry start draft.message = .ok message) ↔
      (descriptor.wellKnown? = some .any → PlainAny registry done) := by
  simp only [finish_eq_ok_iff, h.type]
  by_cases hany : descriptor.wellKnown? = some .any
  · simp only [hany, ne_eq, not_true_eq_false, false_and, true_and, false_or, forall_const]
    constructor
    · rintro ⟨message, hchecked⟩
      exact h.plainAny_of_checkAny hd hany hchecked
    · exact h.exists_checkAny hd hany
  · simp [hany]

end Draft.After

/-! One field after those that are done. -/

section

variable {done : List Tree.Field} {draft draft' : Draft}

theorem addItems_frame {values : List Tree.Value} {message message' : Message}
    (h : addItems registry field message values = .ok message') :
    message'.descriptor = message.descriptor ∧ message'.payload? = message.payload? ∧
      ∀ number, number ≠ field.number → message'.content? number = message.content? number := by
  induction values generalizing message with
  | nil =>
      rw [addItems_nil] at h
      cases h
      exact ⟨rfl, rfl, fun _ _ => rfl⟩
  | cons value rest ih =>
      obtain ⟨item, _, hrest⟩ := addItems_cons.mp h
      obtain ⟨hdescriptor, hpayload, hothers⟩ := ih hrest
      refine ⟨hdescriptor.trans (descriptor_addTo field message item), hpayload.trans ?_, ?_⟩
      · cases item <;> rfl
      · intro number hne
        rw [hothers number hne, content?_addTo_of_ne _ _ hne]

theorem after_addField (hd : descriptor.WellFormed registry)
    (hdraft : draft.After registry descriptor done)
    (h : addField registry draft written = .ok draft') :
    draft'.After registry descriptor (done ++ [written]) := by
  obtain ⟨name | url, position, value⟩ := written
  · obtain ⟨field, hnamed, hcases⟩ := addField_plain.mp h
    rw [hdraft.type] at hnamed
    have hset := (fieldNamed?_eq_some_iff hd position value).mp hnamed
    rcases hcases with ⟨hrepeated, values, place, message, rfl, hitems, rfl⟩ |
      ⟨hrepeated, _, item, hitem, rfl⟩ | ⟨hsingle, item, hitem, hseen, _, rfl⟩
    · obtain ⟨hdescriptor, hpayload, hothers⟩ := addItems_frame hitems
      exact hdraft.repeated hd hset hrepeated hdescriptor hpayload hothers
    · exact hdraft.repeated hd hset hrepeated (descriptor_addTo _ _ _) (by cases item <;> rfl)
        (fun _ hne => content?_addTo_of_ne _ _ hne)
    · exact hdraft.single hd hset hsingle hitem hseen
  · obtain ⟨_, _, _, _, _, _, _, rfl⟩ := addField_expanded.mp h
    exact hdraft.expanded rfl

/-- A plain field is taken if its items are, and if it clashes with none that are done. -/
theorem addField_plain_iff (hd : descriptor.WellFormed registry)
    (hdraft : draft.After registry descriptor done) {name : List Char} {position : Position}
    {value : Tree.Value}
    (hitem : ∀ field ∈ descriptor.fields,
      (∃ item, itemOf registry field value = .ok item) ↔ ValidItem registry field.kind value)
    (hlist : ∀ field ∈ descriptor.fields, ∀ values place, value = .list values place →
      ((∃ message, addItems registry field draft.message values = .ok message) ↔
        ∀ element ∈ values, ValidItem registry field.kind element)) :
    (∃ draft', addField registry draft ⟨.plain name, position, value⟩ = .ok draft') ↔
      ValidField registry descriptor ⟨.plain name, position, value⟩ ∧
        ∀ before ∈ done, ¬ Clash descriptor before ⟨.plain name, position, value⟩ := by
  simp only [addField_plain, hdraft.type, fieldNamed?_eq_some_iff hd position value]
  constructor
  · rintro ⟨draft', field, hset, hcases⟩
    rw [hdraft.free_iff hd hset]
    rcases hcases with ⟨hrepeated, values, place, message, rfl, hitems, _⟩ |
      ⟨hrepeated, _, item, hfound, _⟩ | ⟨_, item, hfound, hseen, hmembers, _⟩
    · have helements := (hlist field hset.1 values place rfl).mp ⟨message, hitems⟩
      exact ⟨.list hset hrepeated helements, .inl hrepeated⟩
    · exact ⟨.item hset ((hitem field hset.1).mp ⟨item, hfound⟩), .inl hrepeated⟩
    · exact ⟨.item hset ((hitem field hset.1).mp ⟨item, hfound⟩), .inr ⟨hseen, hmembers⟩⟩
  · rintro ⟨hvalid, hfree⟩
    cases hvalid with
    | @item _ field _ hset hvalue =>
        obtain ⟨item, hfound⟩ := (hitem field hset.1).mpr hvalue
        rw [hdraft.free_iff hd hset] at hfree
        cases hrepeated : field.repeated with
        | true =>
            refine ⟨_, field, hset, .inr (.inl ⟨hrepeated, ?_, item, hfound, rfl⟩)⟩
            rintro values place rfl
            exact itemOf_list hfound
        | false =>
            rw [hrepeated] at hfree
            obtain ⟨hseen, hmembers⟩ := hfree.resolve_left nofun
            exact ⟨_, field, hset, .inr (.inr ⟨hrepeated, item, hfound, hseen, hmembers, rfl⟩)⟩
    | @list _ field _ _ values place hset hrepeated helements =>
        obtain ⟨message, hitems⟩ := (hlist field hset.1 values place rfl).mpr helements
        exact ⟨_, field, hset, .inl ⟨hrepeated, values, place, message, rfl, hitems, rfl⟩⟩

theorem addField_expanded_iff (hregistry : registry.WellFormed)
    (hdraft : draft.After registry descriptor done) {url : List Char} {position : Position}
    {value : Tree.Value}
    (hinner : ∀ inner fields place, value = .message fields place → inner.WellFormed registry →
      ((∃ message, messageOf registry inner fields = .ok message) ↔
        Valid registry inner fields)) :
    (∃ draft', addField registry draft ⟨.expanded url, position, value⟩ = .ok draft') ↔
      ValidField registry descriptor ⟨.expanded url, position, value⟩ ∧
        ∀ before ∈ done, ¬ Clash descriptor before ⟨.expanded url, position, value⟩ := by
  have hfree : draft.message.payload? = none ↔
      ∀ before ∈ done, ¬ Clash descriptor before ⟨.expanded url, position, value⟩ := by
    rw [← Option.not_isSome_iff_eq_none, hdraft.payload]
    constructor
    · intro hno before hbefore hclash
      cases hclash with
      | single _ _ hset => cases hset.2
      | oneof _ _ _ hset => cases hset.2
      | payload hfirst _ => exact hno ⟨before, hbefore, _, hfirst⟩
    · rintro hno ⟨before, hbefore, other, hfirst⟩
      exact hno before hbefore (.payload hfirst rfl)
  have hknown {inner : Descriptor} (hnames : registry.Names url inner) :
      inner.WellFormed registry := by
    obtain ⟨_, _, _, _, hmessage⟩ := hnames
    exact (hregistry.descriptors _ _ hmessage).2
  simp only [addField_expanded, payloadType_eq_ok_iff, hdraft.type, hfree,
    Registry.resolve?_eq_some_iff, String.toList_ofList]
  constructor
  · rintro ⟨_, inner, fields, place, payload, ⟨hany, hfree, _, hnames⟩, rfl, hpayload, _⟩
    have hvalid := (hinner inner fields place rfl (hknown hnames)).mp ⟨payload, hpayload⟩
    exact ⟨.payload hany hnames hvalid, hfree⟩
  · rintro ⟨hvalid, hfree⟩
    cases hvalid with
    | item hset _ => cases hset.2
    | list hset _ _ => cases hset.2
    | @payload _ inner _ _ fields place hany hnames hfields =>
        obtain ⟨payload, hpayload⟩ := (hinner inner fields place rfl (hknown hnames)).mpr hfields
        have hslash : '/' ∈ url := by
          obtain ⟨lead, name, rfl, _⟩ := hnames
          simp
        exact ⟨_, inner, fields, place, payload, ⟨hany, hfree, hslash, hnames⟩, rfl, hpayload, rfl⟩

/-- A message is taken for an item if its fields make up a message of the type that the kind
names. -/
theorem itemOf_message_iff (hregistry : registry.WellFormed) {fields : List Tree.Field}
    {place : Position}
    (hinner : ∀ inner : Descriptor, inner.WellFormed registry →
      ((∃ message, messageOf registry inner fields = .ok message) ↔
        Valid registry inner fields)) :
    (∃ item, itemOf registry field (.message fields place) = .ok item) ↔
      ValidItem registry field.kind (.message fields place) := by
  simp only [itemOf_message]
  constructor
  · rintro ⟨item, ⟨name, entry, bound, hmap, hbound, _⟩ |
      ⟨_, name, inner, bound, hkind, hknown, hbound, _⟩⟩
    · obtain ⟨type, hkind, hknown⟩ := Field.message?_of_mapEntry? hmap
      rw [hkind]
      exact .message hknown
        ((hinner _ (hregistry.descriptors _ _ hknown).2).mp ⟨bound, hbound⟩)
    · rw [hkind]
      exact .message hknown
        ((hinner _ (hregistry.descriptors _ _ hknown).2).mp ⟨bound, hbound⟩)
  · intro hvalid
    generalize hkind : field.kind = kind at hvalid
    cases hvalid with
    | @message name inner _ _ hknown hfields =>
        have hd := (hregistry.descriptors _ _ hknown).2
        obtain ⟨bound, hbound⟩ := (hinner inner hd).mpr hfields
        cases hmap : field.mapEntry? registry with
        | none => exact ⟨_, .inr ⟨rfl, name, inner, bound, rfl, hknown, hbound, rfl⟩⟩
        | some found =>
            obtain ⟨own, entry⟩ := found
            obtain ⟨type, htype, hentry⟩ := Field.message?_of_mapEntry? hmap
            rw [hkind, Kind.message.injEq] at htype
            subst htype
            rw [hknown] at hentry
            cases hentry
            obtain ⟨hwellTyped, hdescriptor⟩ := messageOf_typed hregistry hd hbound
            obtain ⟨item, hitem⟩ := entryOf_total hregistry hknown hwellTyped hdescriptor place
            exact ⟨item, .inl ⟨own, entry, bound, rfl, hbound, hitem⟩⟩

theorem itemOf_scalar_iff {scalar : Tree.Scalar} {place : Position} :
    (∃ item, itemOf registry field (.scalar scalar place) = .ok item) ↔
      ValidItem registry field.kind (.scalar scalar place) := by
  simp only [itemOf_scalar]
  constructor
  · rintro ⟨_, _, value, hvalue, rfl⟩
    exact .scalar (admits_iff.mpr ⟨value, hvalue⟩)
  · intro hvalid
    have hadmits : Admits registry field.kind scalar := by
      generalize field.kind = kind at hvalid
      cases hvalid
      assumption
    obtain ⟨value, hvalue⟩ := admits_iff.mp hadmits
    exact ⟨_, Field.mapEntry?_eq_none (scalarAs_isScalar hvalue).not_message, value, hvalue, rfl⟩

end

theorem valid_iff {fields : List Tree.Field} : Valid registry descriptor fields ↔
    (∀ field ∈ fields, ValidField registry descriptor field) ∧
      (∀ before ∈ [], ∀ field ∈ fields, ¬ Clash descriptor before field) ∧
      fields.Pairwise (fun first second => ¬ Clash descriptor first second) ∧
      (descriptor.wellKnown? = some .any → PlainAny registry ([] ++ fields)) := by
  constructor
  · rintro ⟨hvalid, hpairs, hany⟩
    exact ⟨hvalid, by simp, hpairs, hany⟩
  · rintro ⟨hvalid, _, hpairs, hany⟩
    exact ⟨hvalid, hpairs, hany⟩

/-! By induction on the fields as they are written. -/

mutual

theorem addFields_iff (hregistry : registry.WellFormed) {descriptor : Descriptor}
    (hd : descriptor.WellFormed registry) {start : Position} :
    (fields : List Tree.Field) → (done : List Tree.Field) → (draft : Draft) →
    draft.After registry descriptor done →
    ((∃ message, addFields registry start draft fields = .ok message) ↔
      (∀ field ∈ fields, ValidField registry descriptor field) ∧
        (∀ before ∈ done, ∀ field ∈ fields, ¬ Clash descriptor before field) ∧
        fields.Pairwise (fun first second => ¬ Clash descriptor first second) ∧
        (descriptor.wellKnown? = some .any → PlainAny registry (done ++ fields)))
  | [], done, draft, hdraft => by
      simp only [addFields_nil, hdraft.finish_iff hd]
      simp
  | field :: rest, done, draft, hdraft => by
      have hfield := addField_iff hregistry hd field done draft hdraft
      have hrest {next : Draft} (h : addField registry draft field = .ok next) :=
        @addFields_iff hregistry _ hd start rest (done ++ [field]) next
          (after_addField hd hdraft h)
      simp only [addFields_cons]
      constructor
      · rintro ⟨message, next, hnext, hmessage⟩
        obtain ⟨hvalid, hclash⟩ := hfield.mp ⟨next, hnext⟩
        obtain ⟨hvalids, hclashes, hpairs, hany⟩ := (hrest hnext).mp ⟨message, hmessage⟩
        rw [List.append_assoc, List.singleton_append] at hany
        refine ⟨List.forall_mem_cons.mpr ⟨hvalid, hvalids⟩, fun before hbefore => ?_,
          List.pairwise_cons.mpr ⟨hclashes field (by simp), hpairs⟩, hany⟩
        exact List.forall_mem_cons.mpr
          ⟨hclash before hbefore, hclashes before (List.mem_append_left _ hbefore)⟩
      · rintro ⟨hvalids, hclashes, hpairs, hany⟩
        obtain ⟨hvalid, hvalids⟩ := List.forall_mem_cons.mp hvalids
        obtain ⟨hfirst, hpairs⟩ := List.pairwise_cons.mp hpairs
        obtain ⟨next, hnext⟩ := hfield.mpr
          ⟨hvalid, fun before hbefore => hclashes before hbefore field List.mem_cons_self⟩
        have hclash : ∀ before ∈ done ++ [field], ∀ other ∈ rest,
            ¬ Clash descriptor before other := by
          intro before hbefore other hother
          rcases List.mem_append.mp hbefore with hbefore | hbefore
          · exact hclashes before hbefore other (List.mem_cons_of_mem _ hother)
          · rw [List.mem_singleton.mp hbefore]
            exact hfirst other hother
        obtain ⟨message, hmessage⟩ := (hrest hnext).mpr
          ⟨hvalids, hclash, hpairs, by rwa [List.append_assoc, List.singleton_append]⟩
        exact ⟨message, next, hnext, hmessage⟩

theorem addField_iff (hregistry : registry.WellFormed) {descriptor : Descriptor}
    (hd : descriptor.WellFormed registry) :
    (written : Tree.Field) → (done : List Tree.Field) → (draft : Draft) →
    draft.After registry descriptor done →
    ((∃ draft', addField registry draft written = .ok draft') ↔
      ValidField registry descriptor written ∧
        ∀ before ∈ done, ¬ Clash descriptor before written)
  | ⟨.expanded url, position, .message fields place⟩, done, draft, hdraft => by
      refine addField_expanded_iff hregistry hdraft fun inner _ _ heq hinner => ?_
      cases heq
      exact (addFields_iff hregistry hinner fields [] (.empty inner) (.empty inner)).trans
        valid_iff.symm
  | ⟨.expanded url, position, .scalar scalar place⟩, done, draft, hdraft =>
      addField_expanded_iff hregistry hdraft fun _ _ _ heq => nomatch heq
  | ⟨.expanded url, position, .list values place⟩, done, draft, hdraft =>
      addField_expanded_iff hregistry hdraft fun _ _ _ heq => nomatch heq
  | ⟨.plain name, position, .message fields place⟩, done, draft, hdraft =>
      addField_plain_iff hd hdraft
        (fun field _ => itemOf_iff hregistry field _)
        (fun _ _ _ _ heq => nomatch heq)
  | ⟨.plain name, position, .scalar scalar place⟩, done, draft, hdraft =>
      addField_plain_iff hd hdraft
        (fun field _ => itemOf_iff hregistry field _)
        (fun _ _ _ _ heq => nomatch heq)
  | ⟨.plain name, position, .list values place⟩, done, draft, hdraft => by
      refine addField_plain_iff hd hdraft
        (fun field _ => itemOf_iff hregistry field _) ?_
      intro field _ _ _ heq
      cases heq
      exact addItems_iff hregistry field values draft.message

theorem addItems_iff (hregistry : registry.WellFormed) (field : Field) :
    (values : List Tree.Value) → (message : Message) →
    ((∃ message', addItems registry field message values = .ok message') ↔
      ∀ value ∈ values, ValidItem registry field.kind value)
  | [], message => by
      simp [addItems_nil]
  | value :: rest, message => by
      have hvalue := itemOf_iff hregistry field value
      have hrest (item : Item) :=
        addItems_iff hregistry field rest (item.addTo field message)
      simp only [addItems_cons, List.forall_mem_cons]
      constructor
      · rintro ⟨message', item, hitem, hmessage⟩
        exact ⟨hvalue.mp ⟨item, hitem⟩, (hrest item).mp ⟨message', hmessage⟩⟩
      · rintro ⟨hvalid, hvalids⟩
        obtain ⟨item, hitem⟩ := hvalue.mpr hvalid
        obtain ⟨message', hmessage⟩ := (hrest item).mpr hvalids
        exact ⟨message', item, hitem, hmessage⟩

theorem itemOf_iff (hregistry : registry.WellFormed) (field : Field) :
    (value : Tree.Value) → ((∃ item, itemOf registry field value = .ok item) ↔
      ValidItem registry field.kind value)
  | .message fields place =>
      itemOf_message_iff hregistry fun inner hinner =>
        (addFields_iff hregistry hinner fields [] (.empty inner) (.empty inner)).trans valid_iff.symm
  | .scalar scalar place => itemOf_scalar_iff
  | .list values place => by
      simp only [itemOf_list, exists_false, false_iff]
      intro hvalid
      generalize field.kind = kind at hvalid
      cases hvalid

end

/-- Fields make up a message of a type if and only if they are valid for it. -/
theorem messageOf_iff_valid (hregistry : registry.WellFormed) (hd : descriptor.WellFormed registry)
    (fields : List Tree.Field) :
    (∃ message, messageOf registry descriptor fields = .ok message) ↔
      Valid registry descriptor fields :=
  (addFields_iff hregistry hd fields [] (.empty descriptor) (.empty descriptor)).trans
    valid_iff.symm

end Binding

end Textproto
