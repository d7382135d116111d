import Textproto.Proofs.Binding.Occurrences
import Textproto.Proofs.Binding.Order
import Textproto.Proofs.Message.Alike

namespace Textproto

/-! Fields that are alike make up messages that are alike. -/

/-- Writing under one key keeps entries alike. -/
theorem Key.insert_alike {key : Key} {value other : Value} {entries others : List (Key × Value)}
    (hvalue : value.Alike other) (h : List.Forall₂ EntryAlike entries others) :
    List.Forall₂ EntryAlike (key.insert value entries) (key.insert other others) := by
  induction h with
  | nil => exact .cons ⟨rfl, hvalue⟩ .nil
  | @cons entry found _ _ halike hrest ih =>
      obtain ⟨k, v⟩ := entry
      obtain ⟨own, w⟩ := found
      obtain ⟨rfl, hfirst⟩ : k = own ∧ v.Alike w := halike
      unfold Key.insert
      split
      next => exact .cons ⟨rfl, hvalue⟩ hrest
      next =>
        split
        next => exact .cons ⟨rfl, hvalue⟩ (.cons ⟨rfl, hfirst⟩ hrest)
        next => exact .cons ⟨rfl, hfirst⟩ ih

namespace Binding

variable {registry : Registry} {descriptor : Descriptor} {field : Field} {m n : Message}
  {fields others : List Tree.Field} {item item' : Item}

/-! Items, and what they store. -/

inductive Item.Alike : Item → Item → Prop
  | value {v w : Value} : v.Alike w → Item.Alike (.value v) (.value w)
  | entry {k : Key} {v w : Value} : v.Alike w → Item.Alike (.entry k v) (.entry k w)

theorem Item.Alike.onto {content other : Option Content} (h : item.Alike item')
    (hcontent : Option.Rel Content.Alike content other) :
    (item.onto field content).Alike (item'.onto field other) := by
  cases h with
  | value h =>
      by_cases hrepeated : field.repeated = true
      · simp only [Item.onto, if_pos hrepeated]
        refine .list (List.rel_append ?_ (.cons h .nil))
        cases hcontent with
        | none => exact .nil
        | some hcontent =>
            cases hcontent with
            | single => exact .nil
            | list hvalues => exact hvalues
            | map => exact .nil
      · simp only [Item.onto, if_neg hrepeated]
        exact .single h
  | entry h =>
      have hentries : List.Forall₂ EntryAlike (entriesOf content) (entriesOf other) := by
        cases hcontent with
        | none => exact .nil
        | some hcontent =>
            cases hcontent with
            | single => exact .nil
            | list => exact .nil
            | map hkeys hvalues => exact Content.alike_map_iff.mp (.map hkeys hvalues)
      exact Content.alike_map_iff.mpr (Key.insert_alike h hentries)

theorem store_alike {items others : List Item} {content other : Option Content}
    (h : List.Forall₂ Item.Alike items others) (hcontent : Option.Rel Content.Alike content other) :
    Option.Rel Content.Alike (store field content items) (store field other others) := by
  induction h generalizing content other with
  | nil => exact hcontent
  | cons h _ ih => exact ih (.some (h.onto hcontent))

/-! Items of values that are alike. -/

/-- What is not written is the same wherever it is not. -/
theorem unwritten_alike {kind : Kind} {position place : Position} {value other : Value}
    (h : unwritten registry kind position = .ok value)
    (h' : unwritten registry kind place = .ok other) : value.Alike other := by
  unfold unwritten at h h'
  cases kind with
  | message name =>
      simp only at h h'
      cases hknown : registry.message? name with
      | none =>
          rw [hknown] at h
          cases h
      | some descriptor =>
          rw [hknown] at h h'
          cases h
          cases h'
          exact .message (Message.alike_empty descriptor)
  | _ =>
      cases h
      cases h'
      refine .scalar fun m heq => ?_
      cases heq

theorem Written.alike {position place : Position} {value other : Value} (h : m.Alike n)
    (hvalue : Written registry m field position value)
    (hother : Written registry n field place other) : value.Alike other := by
  rcases rel_cases (h.rel.single? field.name) with ⟨hm, hn⟩ | ⟨_, _, hm, hn, halike⟩
  · rw [Written, hm] at hvalue
    rw [Written, hn] at hother
    exact unwritten_alike (hvalue.resolve_left nofun).2 (hother.resolve_left nofun).2
  · rw [Written, hm] at hvalue
    rw [Written, hn] at hother
    cases hvalue.resolve_right nofun
    cases hother.resolve_right nofun
    exact halike

theorem entryOf_alike {entry : MapEntry} {position place : Position} (h : m.Alike n)
    (hitem : entryOf registry entry m position = .ok item)
    (hitem' : entryOf registry entry n place = .ok item') : item.Alike item' := by
  obtain ⟨keyValue, key, value, hkeyValue, hkey, hvalue, rfl⟩ := entryOf_eq_ok_iff.mp hitem
  obtain ⟨keyValue', key', value', hkeyValue', hkey', hvalue', rfl⟩ := entryOf_eq_ok_iff.mp hitem'
  have hsame : some key = some key' := by
    rw [← hkey, ← hkey', (hkeyValue.alike h hkeyValue').key?]
  cases hsame
  exact .entry (hvalue.alike h hvalue')

/-- Fields make up messages that are alike with whatever fields they are alike to. -/
def MakesAlike (registry : Registry) (fields : List Tree.Field) : Prop :=
  ∀ (descriptor : Descriptor) (others : List Tree.Field) (m n : Message),
    descriptor.WellFormed registry → Tree.Alike fields others →
    messageOf registry descriptor fields = .ok m → messageOf registry descriptor others = .ok n →
    m.Alike n

theorem itemOf_alike (hregistry : registry.WellFormed) {value other : Tree.Value}
    (hinner : ∀ fields place, value = .message fields place → MakesAlike registry fields)
    (h : Tree.Value.Alike value other) (hitem : itemOf registry field value = .ok item)
    (hitem' : itemOf registry field other = .ok item') : item.Alike item' := by
  cases h with
  | list => exact absurd hitem itemOf_list
  | scalar =>
      obtain ⟨_, v, hv, rfl⟩ := itemOf_scalar.mp hitem
      obtain ⟨_, w, hw, rfl⟩ := itemOf_scalar.mp hitem'
      rw [hv] at hw
      cases hw
      exact .value (.scalar (scalarAs_isScalar hv).ne_message)
  | message halike =>
      have hmakes := hinner _ _ rfl
      rcases itemOf_message.mp hitem with ⟨name, entry, bound, hmap, hbound, hentry⟩ |
        ⟨hmap, name, type, bound, hkind, hknown, hbound, rfl⟩
      · rcases itemOf_message.mp hitem' with ⟨_, _, bound', hmap', hbound', hentry'⟩ | ⟨hmap', _⟩
        · rw [hmap] at hmap'
          cases hmap'
          obtain ⟨_, _, hknown⟩ := Field.message?_of_mapEntry? hmap
          have hd := (hregistry.descriptors _ _ hknown).2
          exact entryOf_alike (hmakes _ _ _ _ hd halike hbound hbound') hentry hentry'
        · rw [hmap] at hmap'
          cases hmap'
      · rcases itemOf_message.mp hitem' with ⟨_, _, _, hmap', _⟩ |
          ⟨_, _, _, bound', hkind', hknown', hbound', rfl⟩
        · rw [hmap] at hmap'
          cases hmap'
        · rw [hkind] at hkind'
          cases hkind'
          rw [hknown] at hknown'
          cases hknown'
          have hd := (hregistry.descriptors _ _ hknown).2
          exact .value (.message (hmakes _ _ _ _ hd halike hbound hbound'))

theorem itemsOf_alike (hregistry : registry.WellFormed) {values found : List Tree.Value}
    {items items' : List Item} (h : List.Forall₂ Tree.Value.Alike values found)
    (hinner : ∀ fields place, .message fields place ∈ values → MakesAlike registry fields)
    (hitems : ItemsOf registry field values items) (hitems' : ItemsOf registry field found items') :
    List.Forall₂ Item.Alike items items' := by
  induction h generalizing items items' with
  | nil =>
      cases hitems
      cases hitems'
      exact .nil
  | cons halike _ ih =>
      cases hitems with
      | cons hitem hitems =>
          cases hitems' with
          | cons hitem' hitems' =>
              refine .cons (itemOf_alike hregistry ?_ halike hitem hitem') (ih ?_ hitems hitems')
              · rintro fields place rfl
                exact hinner fields place List.mem_cons_self
              · exact fun fields place hmem => hinner fields place (List.mem_cons_of_mem _ hmem)

/-! Fields that are alike. -/

theorem elements_alike {value other : Tree.Value} (h : Tree.Value.Alike value other) :
    List.Forall₂ Tree.Value.Alike (elements value) (elements other) := by
  cases h with
  | scalar => exact .cons .scalar .nil
  | message h => exact .cons (.message h) .nil
  | list h => exact h

theorem writtenTo_alike (h : Tree.Alike fields others) (field : Field) :
    List.Forall₂ Tree.Value.Alike (writtenTo field fields) (writtenTo field others) := by
  rw [writtenTo, writtenTo]
  have hgiven := h.values (.plain field.name.toList)
  generalize Tree.given (.plain field.name.toList) fields = values,
    Tree.given (.plain field.name.toList) others = found at hgiven
  induction hgiven with
  | nil => exact .nil
  | cons halike _ ih =>
      rw [List.flatMap_cons, List.flatMap_cons]
      exact List.rel_append (elements_alike halike) ih

theorem under_of_mem_writtenTo {inner : List Tree.Field} {place : Position}
    (h : .message inner place ∈ writtenTo field fields) : Tree.Under inner fields := by
  obtain ⟨value, hvalue, hmem⟩ := List.mem_flatMap.mp h
  obtain ⟨position, hfield⟩ := Tree.mem_given.mp hvalue
  cases value with
  | scalar scalar own => simp [elements] at hmem
  | message found own =>
      cases List.mem_singleton.mp hmem
      exact ⟨_, hfield, .inl ⟨_, rfl⟩⟩
  | list values own => exact ⟨_, hfield, .inr ⟨values, own, place, rfl, hmem⟩⟩

section

variable {draft draft' : Draft}

/-- Each field stores the same where alike fields are held. -/
theorem Draft.Holds.content_alike (hregistry : registry.WellFormed)
    (h : draft.Holds registry descriptor fields) (h' : draft'.Holds registry descriptor others)
    (halike : Tree.Alike fields others)
    (hinner : ∀ inner, Tree.Under inner fields → MakesAlike registry inner) (number : Nat) :
    Option.Rel Content.Alike (draft.message.content? number) (draft'.message.content? number) := by
  by_cases hdeclared : ∃ field ∈ descriptor.fields, field.number = number
  · obtain ⟨field, hfield, rfl⟩ := hdeclared
    obtain ⟨items, hitems, hstored⟩ := h.stored field hfield
    obtain ⟨items', hitems', hstored'⟩ := h'.stored field hfield
    have hsame := itemsOf_alike hregistry (writtenTo_alike halike field)
      (fun _ _ hmem => hinner _ (under_of_mem_writtenTo hmem)) hitems hitems'
    rw [hstored, hstored']
    exact store_alike hsame .none
  · have hnone : draft.message.content? number = none :=
      Option.eq_none_iff_forall_ne_some.mpr fun content hsome =>
        hdeclared (h.declared number content hsome)
    have hnone' : draft'.message.content? number = none :=
      Option.eq_none_iff_forall_ne_some.mpr fun content hsome =>
        hdeclared (h'.declared number content hsome)
    rw [hnone, hnone']
    exact .none

/-- Both have the payload that is written, or none is. -/
theorem Draft.Holds.payload_alike (hregistry : registry.WellFormed)
    (h : draft.Holds registry descriptor fields) (h' : draft'.Holds registry descriptor others)
    (halike : Tree.Alike fields others)
    (hinner : ∀ inner, Tree.Under inner fields → MakesAlike registry inner) :
    (draft.message.payload? = none ∧ draft'.message.payload? = none) ∨
      ∃ url inner other, draft.message.payload? = some (url, inner) ∧
        draft'.message.payload? = some (url, other) ∧ inner.Alike other := by
  rcases h.payload with ⟨hnone, hno⟩ |
    ⟨url, inner, type, own, place, hsome, hgiven, hno, hresolve, hbound⟩
  · rcases h'.payload with ⟨hnone', _⟩ | ⟨url, _, _, _, _, _, hgiven, _⟩
    · exact .inl ⟨hnone, hnone'⟩
    · have hvalues := halike.values (.expanded url)
      rw [hno url, hgiven] at hvalues
      cases hvalues
  · have hvalues := halike.values (.expanded url)
    rw [hgiven] at hvalues
    rcases h'.payload with ⟨_, hno'⟩ |
      ⟨other, inner', _, _, _, hsome', hgiven', hno', hresolve', hbound'⟩
    · rw [hno' url] at hvalues
      cases hvalues
    · obtain rfl : url = other := by
        by_contra hne
        rw [hno' url hne] at hvalues
        cases hvalues
      rw [hresolve] at hresolve'
      cases hresolve'
      rw [hgiven', List.forall₂_cons] at hvalues
      cases hvalues.1 with
      | message hsame =>
          obtain ⟨position, hfield⟩ := Tree.mem_given.mp (hgiven ▸ List.mem_singleton_self _)
          obtain ⟨_, hknown⟩ := message?_of_resolve? hresolve
          exact .inr ⟨_, inner, inner', hsome, hsome',
            hinner own ⟨_, hfield, .inl ⟨place, rfl⟩⟩ type _ _ _
              (hregistry.descriptors _ _ hknown).2 hsame hbound hbound'⟩

end

/-- What is checked at the end of alike messages comes out the same. -/
theorem finish_alike {start place : Position} {m' n' : Message} (h : m.Alike n)
    (hm : finish registry start m = .ok m') (hn : finish registry place n = .ok n') :
    m'.Alike n' := by
  rcases finish_eq_ok_iff.mp hm with ⟨hno, rfl⟩ | ⟨hany, hcheck⟩
  · rcases finish_eq_ok_iff.mp hn with ⟨_, rfl⟩ | ⟨hany, _⟩
    · exact h
    · rw [h.descriptor] at hno
      exact absurd hany hno
  · rcases finish_eq_ok_iff.mp hn with ⟨hno, _⟩ | ⟨_, hcheck'⟩
    · rw [h.descriptor] at hany
      exact absurd hany hno
    · rcases checkAny_eq_ok_iff.mp hcheck with ⟨_, ⟨hurl, rfl⟩ | ⟨_, hurl, type, hresolve, rfl⟩⟩
      · rcases checkAny_eq_ok_iff.mp hcheck' with ⟨_, ⟨_, rfl⟩ | ⟨_, hurl', _⟩⟩
        · exact h
        · rw [h.string] at hurl
          exact absurd hurl hurl'
      · rcases checkAny_eq_ok_iff.mp hcheck' with ⟨_, ⟨hurl', _⟩ | ⟨_, _, other, hresolve', rfl⟩⟩
        · rw [h.string] at hurl
          exact absurd hurl' hurl
        · rw [h.string, hresolve'] at hresolve
          cases hresolve
          rw [h.string, h.descriptor]
          exact .mk rfl (fun _ => .none) rfl (.some (Message.alike_empty _))

/-- Alike fields that make up messages make up messages that are alike. -/
theorem makesAlike (hregistry : registry.WellFormed) (fields : List Tree.Field) :
    MakesAlike registry fields := by
  -- By how deep the fields lie: the messages in them are alike before those around them are.
  induction fields using Tree.under_induction with
  | step fields ih =>
      intro descriptor others m n hd halike hm hn
      obtain ⟨draft, hdraft, hm⟩ := messageOf_holds hd hm
      obtain ⟨draft', hdraft', hn⟩ := messageOf_holds hd hn
      refine finish_alike ?_ hm hn
      have hcontent := hdraft.content_alike hregistry hdraft' halike ih
      have htype := hdraft.type.trans hdraft'.type.symm
      rcases hdraft.payload_alike hregistry hdraft' halike ih with
        ⟨hnone, hnone'⟩ | ⟨_, _, _, hsome, hsome', hpayload⟩
      · exact .mk htype hcontent (by rw [hnone, hnone']) (by rw [hnone, hnone']; exact .none)
      · exact .mk htype hcontent (by rw [hsome, hsome']; rfl)
          (by rw [hsome, hsome']; exact .some hpayload)

end Binding

end Textproto
