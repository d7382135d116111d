import Mathlib.Data.List.Forall2
import Textproto.Tree.Basic

namespace Textproto.Tree

/-! Trees that are alike but for positions and for the order of different fields. -/

/-- The values given under a name, in their order. -/
def given (name : Name) (fields : List Field) : List Value :=
  (fields.filter fun field => field.name = name).map Field.value

mutual

inductive Value.Alike : Value → Value → Prop
  | scalar {scalar : Scalar} {position other : Position} :
      Value.Alike (.scalar scalar position) (.scalar scalar other)
  | message {fields others : List Field} {position other : Position} :
      Alike fields others → Value.Alike (.message fields position) (.message others other)
  | list {values others : List Value} {position other : Position} :
      List.Forall₂ Value.Alike values others →
      Value.Alike (.list values position) (.list others other)

/-- Under every name alike values are given in one order. -/
inductive Alike : List Field → List Field → Prop
  | mk {fields others : List Field} :
      (∀ name, List.Forall₂ Value.Alike (given name fields) (given name others)) →
      Alike fields others

end

variable {fields others : List Field} {field : Field} {name : Name}

theorem Alike.values (h : Alike fields others) (name : Name) :
    List.Forall₂ Value.Alike (given name fields) (given name others) := by
  cases h with
  | mk h => exact h name

theorem mem_given {value : Value} :
    value ∈ given name fields ↔ ∃ position, ⟨name, position, value⟩ ∈ fields := by
  simp only [given, List.mem_map, List.mem_filter, decide_eq_true_eq]
  constructor
  · rintro ⟨⟨_, position, _⟩, ⟨hfield, rfl⟩, rfl⟩
    exact ⟨position, hfield⟩
  · rintro ⟨position, hfield⟩
    exact ⟨_, ⟨hfield, rfl⟩, rfl⟩

theorem exists_right {α β : Type} {R : α → β → Prop} {items : List α} {more : List β}
    (h : List.Forall₂ R items more) : ∀ item ∈ items, ∃ other ∈ more, R item other := by
  induction h with
  | nil => exact nofun
  | @cons first second rest others hfirst _ ih =>
      intro item hitem
      rcases List.mem_cons.mp hitem with rfl | hitem
      · exact ⟨second, List.mem_cons_self, hfirst⟩
      · obtain ⟨other, hother, hrel⟩ := ih item hitem
        exact ⟨other, List.mem_cons_of_mem _ hother, hrel⟩

/-- Every field stands for one on the other side, of the same name. -/
theorem Alike.right (h : Alike fields others) (hfield : field ∈ fields) :
    ∃ other ∈ others, other.name = field.name ∧ Value.Alike field.value other.value := by
  obtain ⟨name, position, value⟩ := field
  obtain ⟨found, hfound, halike⟩ := exists_right (h.values name) value (mem_given.mpr ⟨_, hfield⟩)
  obtain ⟨place, hother⟩ := mem_given.mp hfound
  exact ⟨_, hother, rfl, halike⟩

theorem sizeOf_given_le (name : Name) (fields : List Field) :
    sizeOf (given name fields) ≤ sizeOf fields := by
  induction fields with
  | nil => exact Nat.le_refl _
  | cons field fields ih =>
      obtain ⟨other, position, value⟩ := field
      rw [given, List.filter_cons] at *
      split
      next =>
        simp only [List.map_cons, List.cons.sizeOf_spec, Field.value, Field.mk.sizeOf_spec]
        omega
      next =>
        rw [List.cons.sizeOf_spec]
        omega

theorem given_decreasing (name : Name) (fields : List Field) :
    Prod.Lex Nat.lt Nat.lt (sizeOf (given name fields), 0) (sizeOf fields, 1) := by
  rcases Nat.lt_or_eq_of_le (sizeOf_given_le name fields) with hlt | heq
  · exact .left _ _ hlt
  · rw [heq]
    exact .right _ Nat.zero_lt_one

mutual

theorem value_refl : (value : Value) → Value.Alike value value
  | .scalar _ _ => .scalar
  | .message fields _ => .message (alike_refl fields)
  | .list values _ => .list (values_refl values)
termination_by value => (sizeOf value, 0)

theorem values_refl : (values : List Value) → List.Forall₂ Value.Alike values values
  | [] => .nil
  | value :: rest => .cons (value_refl value) (values_refl rest)
termination_by values => (sizeOf values, 0)

theorem alike_refl (fields : List Field) : Alike fields fields :=
  .mk fun name => values_refl (given name fields)
termination_by (sizeOf fields, 1)
decreasing_by exact given_decreasing name fields

end

/-- Fields of different names may change places. -/
theorem alike_swap {before after : List Field} {field other : Field}
    (hne : field.name ≠ other.name) :
    Alike (before ++ field :: other :: after) (before ++ other :: field :: after) := by
  refine .mk fun name => ?_
  have hsame : given name (before ++ field :: other :: after) =
      given name (before ++ other :: field :: after) := by
    rw [given, given, List.filter_append, List.filter_append]
    by_cases hfield : field.name = name
    · have hother : other.name ≠ name := fun hother => hne (hfield.trans hother.symm)
      simp [hfield, hother]
    · simp [List.filter_cons, hfield]
  rw [hsame]
  exact values_refl _

mutual

theorem value_symm : (value : Value) → {other : Value} →
    Value.Alike value other → Value.Alike other value
  | .scalar scalar position, _, h => by
      cases h
      exact .scalar
  | .message fields position, _, h => by
      cases h with
      | message h => exact .message (alike_symm fields h)
  | .list values position, _, h => by
      cases h with
      | list h => exact .list (values_symm values h)
termination_by value => (sizeOf value, 0)

theorem values_symm : (values : List Value) → {others : List Value} →
    List.Forall₂ Value.Alike values others → List.Forall₂ Value.Alike others values
  | [], _, .nil => .nil
  | value :: rest, _, .cons h hrest => .cons (value_symm value h) (values_symm rest hrest)
termination_by values => (sizeOf values, 0)

theorem alike_symm (fields : List Field) {others : List Field} (h : Alike fields others) :
    Alike others fields :=
  .mk fun name => values_symm (given name fields) (h.values name)
termination_by (sizeOf fields, 1)
decreasing_by exact given_decreasing name fields

end

theorem Value.Alike.symm {value other : Value} (h : Value.Alike value other) :
    Value.Alike other value :=
  value_symm value h

theorem Alike.symm (h : Alike fields others) : Alike others fields :=
  alike_symm fields h

theorem Alike.left (h : Alike fields others) (hfield : field ∈ others) :
    ∃ other ∈ fields, other.name = field.name ∧ Value.Alike other.value field.value := by
  obtain ⟨other, hother, hname, halike⟩ := h.symm.right hfield
  exact ⟨other, hother, hname, halike.symm⟩

/-- The same names are there, each as many times. -/
theorem Alike.perm (h : Alike fields others) :
    (fields.map Field.name).Perm (others.map Field.name) := by
  have hcount (name : Name) (fields : List Field) :
      (fields.map Field.name).count name = (given name fields).length := by
    rw [given, List.length_map, List.count, List.countP_map, List.countP_eq_length_filter]
    congr 1
  rw [List.perm_iff_count]
  intro name
  rw [hcount, hcount, (h.values name).length_eq]

/-! Fields inside fields. -/

/-- Fields are those of a message that is given, or that is an element of a list. -/
def Under (inner fields : List Field) : Prop :=
  ∃ field ∈ fields, (∃ place, field.value = .message inner place) ∨
    ∃ values place own, field.value = .list values place ∧ .message inner own ∈ values

theorem Under.sizeOf_lt {inner : List Field} (h : Under inner fields) :
    sizeOf inner < sizeOf fields := by
  obtain ⟨⟨name, position, value⟩, hfield, hvalue⟩ := h
  have hlt := List.sizeOf_lt_of_mem hfield
  rw [Field.mk.sizeOf_spec] at hlt
  rcases hvalue with ⟨place, rfl⟩ | ⟨values, place, own, rfl, hmem⟩
  · rw [Value.message.sizeOf_spec] at hlt
    omega
  · have hinner := List.sizeOf_lt_of_mem hmem
    rw [Value.list.sizeOf_spec] at hlt
    rw [Value.message.sizeOf_spec] at hinner
    omega

/-- What holds of fields if it holds of those under them holds of all. -/
theorem under_induction {motive : List Field → Prop}
    (step : ∀ fields, (∀ inner, Under inner fields → motive inner) → motive fields)
    (fields : List Field) : motive fields :=
  step fields fun inner hunder =>
    have := hunder.sizeOf_lt
    under_induction step inner
termination_by sizeOf fields

end Textproto.Tree
