import Textproto.Proofs.Binding.Valid
import Textproto.Proofs.Tree.Alike

namespace Textproto.Binding

/-! Whether fields make up a message does not depend on the order of different ones. -/

variable {registry : Registry} {descriptor : Descriptor} {fields others : List Tree.Field}

theorem Sets.of_name {field : Field} {written other : Tree.Field} (h : written.name = other.name)
    (hset : Sets descriptor field written) : Sets descriptor field other :=
  ⟨hset.1, h ▸ hset.2⟩

/-- Clashes are a matter of names. -/
theorem Clash.of_name {first second first' second' : Tree.Field} (h : first.name = first'.name)
    (h' : second.name = second'.name) (hclash : Clash descriptor first second) :
    Clash descriptor first' second' := by
  cases hclash with
  | single hsingle hfirst hsecond => exact .single hsingle (hfirst.of_name h) (hsecond.of_name h')
  | oneof honeof hother hfirst hsecond =>
      exact .oneof honeof hother (hfirst.of_name h) (hsecond.of_name h')
  | payload hfirst hsecond => exact .payload (h ▸ hfirst) (h' ▸ hsecond)

theorem Clash.symm {first second : Tree.Field} (h : Clash descriptor first second) :
    Clash descriptor second first := by
  cases h with
  | single hsingle hfirst hsecond => exact .single hsingle hsecond hfirst
  | oneof honeof hother hfirst hsecond => exact .oneof hother honeof hsecond hfirst
  | payload hfirst hsecond => exact .payload hsecond hfirst

/-- Fields that go by two names clash. -/
def ClashOf (descriptor : Descriptor) (name other : Tree.Name) : Prop :=
  ∃ first second : Tree.Field, first.name = name ∧ second.name = other ∧
    Clash descriptor first second

theorem clashOf_iff {first second : Tree.Field} :
    ClashOf descriptor first.name second.name ↔ Clash descriptor first second := by
  constructor
  · rintro ⟨_, _, hfirst, hsecond, hclash⟩
    exact hclash.of_name hfirst hsecond
  · intro hclash
    exact ⟨first, second, rfl, rfl, hclash⟩

theorem pairwise_clash_iff :
    fields.Pairwise (fun first second => ¬Clash descriptor first second) ↔
      (fields.map Tree.Field.name).Pairwise fun name other => ¬ClashOf descriptor name other := by
  rw [List.pairwise_map]
  simp only [clashOf_iff]

theorem pairwise_clash_alike (h : Tree.Alike fields others)
    (hpairs : fields.Pairwise fun first second => ¬Clash descriptor first second) :
    others.Pairwise fun first second => ¬Clash descriptor first second := by
  refine pairwise_clash_iff.mpr ((h.perm.pairwise_iff ?_).mp (pairwise_clash_iff.mp hpairs))
  rintro _ _ hno ⟨first, second, rfl, rfl, hclash⟩
  exact hno (clashOf_iff.mpr hclash.symm)

/-- The scalars that are given under a name are given there in the same way. -/
theorem exists_scalar_of_alike (h : Tree.Alike fields others) {name : Tree.Name}
    {position place : Position} {scalar : Tree.Scalar}
    (hfield : .mk name position (.scalar scalar place) ∈ others) :
    ∃ position place, .mk name position (.scalar scalar place) ∈ fields := by
  obtain ⟨⟨_, position', value⟩, hother, rfl, halike⟩ := h.left hfield
  cases halike
  exact ⟨_, _, hother⟩

theorem PlainAny.alike (h : Tree.Alike fields others) (hplain : PlainAny registry fields) :
    PlainAny registry others := by
  refine ⟨?_, ?_⟩
  · intro position bytes place hfield
    obtain ⟨position', place', hother⟩ := exists_scalar_of_alike h hfield
    exact hplain.bytes position' bytes place' hother
  · intro position bytes place hfield hne
    obtain ⟨position', place', hother⟩ := exists_scalar_of_alike h hfield
    obtain ⟨hno, hnames⟩ := hplain.url position' bytes place' hother hne
    refine ⟨?_, hnames⟩
    intro field hmem url hname
    obtain ⟨other, hmem, hsame, _⟩ := h.left hmem
    exact hno other hmem url (hsame.trans hname)

theorem ValidItem.alike {kind : Kind} {value other : Tree.Value}
    (hinner : ∀ inner place, value = .message inner place → ∀ descriptor others,
      Tree.Alike inner others → Valid registry descriptor inner → Valid registry descriptor others)
    (halike : Tree.Value.Alike value other) (h : ValidItem registry kind value) :
    ValidItem registry kind other := by
  cases h with
  | message hknown hvalid =>
      cases halike with
      | message halike => exact .message hknown (hinner _ _ rfl _ _ halike hvalid)
  | scalar hadmits =>
      cases halike
      exact .scalar hadmits

theorem ValidField.alike {field other : Tree.Field}
    (hinner : ∀ inner, Tree.Under inner [field] → ∀ descriptor others,
      Tree.Alike inner others → Valid registry descriptor inner → Valid registry descriptor others)
    (hname : field.name = other.name) (halike : Tree.Value.Alike field.value other.value)
    (h : ValidField registry descriptor field) : ValidField registry descriptor other := by
  obtain ⟨name, position, value⟩ := other
  obtain rfl : field.name = name := hname
  cases h with
  | item hset hitem =>
      refine .item (hset.of_name rfl) (hitem.alike ?_ halike)
      rintro inner place hvalue
      exact hinner inner ⟨_, List.mem_singleton_self _, .inl ⟨place, hvalue⟩⟩
  | list hset hrepeated hitems =>
      cases halike with
      | list halike =>
          refine .list (hset.of_name rfl) hrepeated ?_
          intro other hother
          obtain ⟨value, hvalue, hsame⟩ := Tree.exists_right halike.flip other hother
          refine (hitems value hvalue).alike ?_ hsame
          rintro inner own rfl
          exact hinner inner ⟨_, List.mem_singleton_self _, .inr ⟨_, _, own, rfl, hvalue⟩⟩
  | payload hany hnames hvalid =>
      cases halike with
      | message halike =>
          exact .payload hany hnames
            (hinner _ ⟨_, List.mem_singleton_self _, .inl ⟨_, rfl⟩⟩ _ _ halike hvalid)

/-- Fields that are alike are valid together. -/
theorem Valid.alike (h : Tree.Alike fields others) (hvalid : Valid registry descriptor fields) :
    Valid registry descriptor others := by
  -- By how deep the fields lie, since a message is valid if the fields in it are.
  induction fields using Tree.under_induction generalizing descriptor others with
  | step fields ih =>
      obtain ⟨hfields, hpairs, hany⟩ := hvalid
      refine .mk ?_ (pairwise_clash_alike h hpairs) fun htype => (hany htype).alike h
      intro other hother
      obtain ⟨field, hfield, hname, halike⟩ := h.left hother
      refine (hfields field hfield).alike ?_ hname halike
      rintro inner ⟨_, hmem, hvalue⟩ descriptor others hsame hinner
      rw [List.mem_singleton.mp hmem] at hvalue
      exact ih inner ⟨field, hfield, hvalue⟩ hsame hinner

end Textproto.Binding
