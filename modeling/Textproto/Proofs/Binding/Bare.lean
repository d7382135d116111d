import Textproto.Proofs.Binding.Typed

namespace Textproto.Binding

/-!
What an `Any` carries stands in its payload alone: where the binder is done with one, its plain
fields are empty or not there.
-/

variable {registry : Registry} {field : Field} {m inner : Message} {item : Item}

def Bare (m : Message) : Prop :=
  m.descriptor.wellKnown? = some .any → m.string "type_url" = "" ∧ holdsBytes m = false

/-- Every message in another one, though not that one itself, is bare. -/
def BareInside (m : Message) : Prop :=
  ∀ inner : Message, inner.Inside m → inner.Throughout Bare

/-- The message that an item gives to its field. -/
def Item.message? : Item → Option Message
  | .value v => v.message?
  | .entry _ v => v.message?

def Item.Bare (item : Item) : Prop :=
  ∀ inner, item.message? = some inner → inner.Throughout Binding.Bare

theorem message_of_message? {value : Value} (h : value.message? = some inner) :
    value = .message inner := by
  cases value <;> simp only [Value.message?, reduceCtorEq, Option.some.injEq] at h
  rw [h]

theorem not_inside_empty (descriptor : Descriptor) : ¬inner.Inside (.empty descriptor) := by
  intro h
  cases h with
  | single hmem => cases hmem
  | list hmem _ => cases hmem
  | map hmem _ => cases hmem
  | payload hpayload => cases hpayload

theorem bareInside_empty (descriptor : Descriptor) : BareInside (.empty descriptor) :=
  fun _ hinner => absurd hinner (not_inside_empty descriptor)

theorem throughout_bare_empty (descriptor : Descriptor) :
    (Message.empty descriptor).Throughout Bare := by
  refine Message.throughout_iff.mpr ⟨fun _ => ?_, bareInside_empty descriptor⟩
  have hnone (name : String) : (Message.empty descriptor).single? name = none := by
    unfold Message.single? Message.named?
    cases (Message.empty descriptor).descriptor.fieldNamed? name <;> rfl
  exact ⟨by rw [Message.string, hnone]; rfl, by rw [holdsBytes, hnone]⟩

/-! What writing to a message puts inside it. -/

theorem inside_put {number : Nat} {content : Content} (h : inner.Inside (m.put number content)) :
    inner.Inside m ∨ inner.HeldBy content := by
  rcases Message.inside_iff.mp h with ⟨_, found, hmem, hheld⟩ | ⟨url, hpayload⟩
  · rcases Entries.of_mem_put hmem with ⟨_, rfl⟩ | hmem
    · exact .inr hheld
    · exact .inl (hheld.inside_of_mem hmem)
  · exact .inl (.payload hpayload)

theorem inside_set {value : Value} (h : inner.Inside (m.set field value)) :
    inner.Inside m ∨ value = .message inner := by
  rcases inside_put h with hinner | hheld
  · exact .inl hinner
  · cases hheld
    exact .inr rfl

theorem inside_push {value : Value} (h : inner.Inside (m.push field value)) :
    inner.Inside m ∨ value = .message inner := by
  rcases inside_put h with hinner | hheld
  · exact .inl hinner
  · cases hheld with
    | list hvalue =>
        rcases List.mem_append.mp hvalue with hvalue | hvalue
        · cases hcontent : m.content? field.number with
          | none =>
              rw [hcontent] at hvalue
              cases hvalue
          | some content =>
              rw [hcontent] at hvalue
              cases content with
              | list values => exact .inl ((Message.HeldBy.list hvalue).inside hcontent)
              | single => cases hvalue
              | map => cases hvalue
        · exact .inr (List.mem_singleton.mp hvalue).symm

theorem inside_insert {key : Key} {value : Value} (h : inner.Inside (m.insert field key value)) :
    inner.Inside m ∨ value = .message inner := by
  rcases inside_put h with hinner | hheld
  · exact .inl hinner
  · cases hheld with
    | map hvalue =>
        rcases Key.mem_insert hvalue with hnew | hvalue
        · exact .inr (Prod.mk.inj hnew).2.symm
        · split at hvalue
          next entries hcontent => exact .inl ((Message.HeldBy.map hvalue).inside hcontent)
          next => cases hvalue

theorem BareInside.addTo (h : BareInside m) (hitem : item.Bare) :
    BareInside (item.addTo field m) := by
  intro inner hinner
  cases item with
  | value v =>
      rcases inside_push hinner with hinner | rfl
      · exact h inner hinner
      · exact hitem inner rfl
  | entry k v =>
      rcases inside_insert hinner with hinner | rfl
      · exact h inner hinner
      · exact hitem inner rfl

theorem BareInside.setIn (h : BareInside m) (hitem : item.Bare) :
    BareInside (item.setIn field m) := by
  intro inner hinner
  cases item with
  | value v =>
      rcases inside_set hinner with hinner | rfl
      · exact h inner hinner
      · exact hitem inner rfl
  | entry k v =>
      rcases inside_insert hinner with hinner | rfl
      · exact h inner hinner
      · exact hitem inner rfl

theorem BareInside.withPayload (h : BareInside m) {url : String} {payload : Message}
    (hpayload : payload.Throughout Bare) : BareInside (m.withPayload url payload) := by
  intro inner hinner
  cases hinner with
  | single hmem => exact h inner (.single hmem)
  | list hmem hvalue => exact h inner (.list hmem hvalue)
  | map hmem hvalue => exact h inner (.map hmem hvalue)
  | payload hfound =>
      cases hfound
      exact hpayload

theorem throughout_finish {start : Position} {m' : Message} (h : BareInside m)
    (hfinish : finish registry start m = .ok m') : m'.Throughout Bare := by
  rcases finish_eq_ok_iff.mp hfinish with ⟨hany, rfl⟩ | ⟨_, hcheck⟩
  · exact Message.throughout_iff.mpr ⟨fun hany' => absurd hany' hany, h⟩
  · rcases checkAny_eq_ok_iff.mp hcheck with ⟨hbytes, ⟨hurl, rfl⟩ | ⟨_, _, descriptor, _, rfl⟩⟩
    · exact Message.throughout_iff.mpr ⟨fun _ => ⟨hurl, hbytes⟩, h⟩
    · refine Message.throughout_iff.mpr ⟨?_, (bareInside_empty _).withPayload
        (throughout_bare_empty descriptor)⟩
      exact (Message.throughout_iff.mp (throughout_bare_empty m.descriptor)).1

/-- What stands for a value that is not written is bare. -/
theorem throughout_of_written {own : Field} {bound : Message} {position : Position}
    {value : Value} (h : Written registry bound own position value)
    (hbound : BareInside bound) (hinner : value.message? = some inner) :
    inner.Throughout Bare := by
  obtain rfl := message_of_message? hinner
  rcases h with hfound | ⟨_, hunwritten⟩
  · simp only [Message.single?, Message.named?, Option.bind_eq_some_iff] at hfound
    obtain ⟨content, ⟨_, _, hcontent⟩, hsingle⟩ := hfound
    cases content with
    | single value =>
        cases hsingle
        exact hbound inner (Message.HeldBy.single.inside hcontent)
    | list => cases hsingle
    | map => cases hsingle
  · unfold unwritten at hunwritten
    split at hunwritten
    next =>
      split at hunwritten
      next descriptor _ =>
        cases hunwritten
        exact throughout_bare_empty descriptor
      next => cases hunwritten
    next =>
      split at hunwritten
      next hzero =>
        cases hunwritten
        cases Value.isZero_of_zero? hzero
      next => cases hunwritten

theorem bare_entryOf {entry : MapEntry} {bound : Message} {position : Position}
    (hbound : bound.Throughout Bare) (h : entryOf registry entry bound position = .ok item) :
    item.Bare := by
  obtain ⟨_, key, value, _, _, hvalue, rfl⟩ := entryOf_eq_ok_iff.mp h
  intro inner hinner
  exact throughout_of_written hvalue (Message.throughout_iff.mp hbound).2 hinner

/-- A plain field adds what is bare, if its items are. -/
theorem bareInside_plain {draft draft' : Draft} {name : List Char} {position : Position}
    {value : Tree.Value} (hdraft : BareInside draft.message)
    (h : addField registry draft ⟨.plain name, position, value⟩ = .ok draft')
    (hbare : ∀ field item, itemOf registry field value = .ok item → item.Bare)
    (hlist : ∀ field values place m', value = .list values place →
      addItems registry field draft.message values = .ok m' → BareInside m') :
    BareInside draft'.message := by
  obtain ⟨field, _, hcases⟩ := addField_plain.mp h
  rcases hcases with ⟨_, values, place, m', hvalue, hitems, rfl⟩ | ⟨_, _, item, hitem, rfl⟩ |
    ⟨_, item, hitem, _, _, rfl⟩
  · exact hlist field values place m' hvalue hitems
  · exact hdraft.addTo (hbare field item hitem)
  · exact hdraft.setIn (hbare field item hitem)

/-! By induction on the fields as they are written. -/

mutual

theorem addFields_bare {start : Position} {m : Message} : (fields : List Tree.Field) →
    (draft : Draft) → BareInside draft.message →
    addFields registry start draft fields = .ok m → m.Throughout Bare
  | [], draft, hdraft, h => by
      rw [addFields_nil] at h
      exact throughout_finish hdraft h
  | field :: rest, draft, hdraft, h => by
      obtain ⟨next, hfield, hrest⟩ := addFields_cons.mp h
      exact addFields_bare rest next (addField_bare field draft hdraft hfield) hrest

theorem addField_bare {draft' : Draft} : (field : Tree.Field) → (draft : Draft) →
    BareInside draft.message → addField registry draft field = .ok draft' →
    BareInside draft'.message
  | ⟨.expanded url, position, .message fields place⟩, draft, hdraft, h => by
      obtain ⟨descriptor, _, _, payload, _, heq, hpayload, rfl⟩ := addField_expanded.mp h
      cases heq
      exact hdraft.withPayload
        (addFields_bare fields (.empty descriptor) (bareInside_empty descriptor) hpayload)
  | ⟨.expanded url, position, .scalar scalar place⟩, draft, hdraft, h => by
      obtain ⟨_, _, _, _, _, heq, _⟩ := addField_expanded.mp h
      cases heq
  | ⟨.expanded url, position, .list values place⟩, draft, hdraft, h => by
      obtain ⟨_, _, _, _, _, heq, _⟩ := addField_expanded.mp h
      cases heq
  | ⟨.plain name, position, .message fields place⟩, draft, hdraft, h => by
      refine bareInside_plain hdraft h (fun field _ => itemOf_bare field (.message fields place)) ?_
      intro _ _ _ _ heq
      cases heq
  | ⟨.plain name, position, .scalar scalar place⟩, draft, hdraft, h => by
      refine bareInside_plain hdraft h (fun field _ => itemOf_bare field (.scalar scalar place)) ?_
      intro _ _ _ _ heq
      cases heq
  | ⟨.plain name, position, .list values place⟩, draft, hdraft, h => by
      refine bareInside_plain hdraft h (fun _ _ hitem => absurd hitem itemOf_list) ?_
      intro field _ _ m' heq hitems
      cases heq
      exact addItems_bare field values draft.message hdraft hitems

theorem addItems_bare (field : Field) {m' : Message} : (values : List Tree.Value) →
    (m : Message) → BareInside m → addItems registry field m values = .ok m' → BareInside m'
  | [], m, hm, h => by
      rw [addItems_nil] at h
      cases h
      exact hm
  | value :: rest, m, hm, h => by
      obtain ⟨item, hitem, hrest⟩ := addItems_cons.mp h
      exact addItems_bare field rest (item.addTo field m)
        (hm.addTo (itemOf_bare field value hitem)) hrest

theorem itemOf_bare (field : Field) {item : Item} : (value : Tree.Value) →
    itemOf registry field value = .ok item → item.Bare
  | .message fields place, h => by
      rcases itemOf_message.mp h with ⟨name, entry, bound, _, hbound, hentry⟩ |
        ⟨_, name, descriptor, bound, _, _, hbound, rfl⟩
      · exact bare_entryOf (addFields_bare fields (.empty ⟨name, .mapEntry entry⟩)
          (bareInside_empty _) hbound) hentry
      · have hbare := addFields_bare fields (.empty descriptor) (bareInside_empty _) hbound
        intro inner hinner
        cases hinner
        exact hbare
  | .scalar scalar place, h => by
      obtain ⟨_, value, hvalue, rfl⟩ := itemOf_scalar.mp h
      intro inner hinner
      obtain rfl := message_of_message? hinner
      have hscalar := scalarAs_isScalar hvalue
      generalize field.kind = kind at hscalar
      cases hscalar
  | .list values place, h => absurd h itemOf_list

end

theorem messageOf_bare {descriptor : Descriptor} {fields : List Tree.Field}
    (h : messageOf registry descriptor fields = .ok m) : m.Throughout Bare :=
  addFields_bare fields (.empty descriptor) (bareInside_empty descriptor) h

end Textproto.Binding
