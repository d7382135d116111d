import Textproto.Proofs.Schema.Bundled
import Textproto.Proofs.Text.Lines
import Textproto.Tree.Numeral

namespace Textproto

/-! The names of bundled types. -/

/-! Names that are lines, which is all that the binder needs of them to tell what is wrong. -/

/-- What is told of a field is on one line. -/
structure Field.OneLine (field : Field) : Prop where
  name : IsLine field.name
  type : IsLine field.kind.typeName
  oneof : ∀ oneof, field.oneof = some oneof → IsLine oneof

structure Descriptor.OneLine (descriptor : Descriptor) : Prop where
  fullName : IsLine descriptor.fullName
  fields : ∀ field ∈ descriptor.fields, field.OneLine

def Registry.OneLine (registry : Registry) : Prop :=
  ∀ name descriptor, registry.message? name = some descriptor → descriptor.OneLine

namespace Bundled

theorem names_checked :
    (∀ d ∈ types, IsLine d.fullName ∧ ∀ field ∈ d.fields,
      (Utf8.asciiOf field.name).head?.any Tree.isIdentifierStart = true ∧
        (Utf8.asciiOf field.name).all Tree.isIdentifierChar = true ∧
        ∀ oneof ∈ field.oneof, IsLine oneof) ∧
      ∀ e ∈ enumerations, IsLine e.fullName := by
  decide +kernel

/-- The names of fields are identifiers. -/
theorem names_are_identifiers : ∀ d ∈ types, ∀ field ∈ d.fields,
    field.name.toList.head?.any Tree.isIdentifierStart = true ∧
      field.name.toList.all Tree.isIdentifierChar = true := by
  intro d hd field hfield
  obtain ⟨hstart, hall, _⟩ := (names_checked.1 d hd).2 field hfield
  rw [Utf8.toList_eq_asciiOf ((types_checked d hd).ascii field hfield)]
  exact ⟨hstart, hall⟩

theorem typeName_isLine {descriptor : Descriptor} (hd : descriptor ∈ types) {field : Field}
    (hfield : field ∈ descriptor.fields) : IsLine field.kind.typeName := by
  have hresolves := resolves hd hfield
  generalize field.kind = kind at hresolves
  cases kind with
  | enum name =>
      obtain ⟨found, hfound⟩ := Option.isSome_iff_exists.mp hresolves
      obtain ⟨hmem, rfl⟩ := Registry.mem_of_enumeration?_ofLists hfound
      exact names_checked.2 found hmem
  | message name =>
      obtain ⟨found, hfound⟩ := Option.isSome_iff_exists.mp hresolves
      obtain ⟨hmem, rfl⟩ := Registry.mem_of_message?_ofLists hfound
      exact (names_checked.1 found hmem).1
  | _ => decide

end Bundled

theorem Registry.bundled_oneLine : Registry.bundled.OneLine := by
  intro name descriptor hknown
  obtain ⟨hd, _⟩ := Registry.mem_of_message?_ofLists hknown
  obtain ⟨hfullName, hfields⟩ := Bundled.names_checked.1 descriptor hd
  refine ⟨hfullName, fun field hfield => ⟨?_, ?_, ?_⟩⟩
  · obtain ⟨_, hall⟩ := Bundled.names_are_identifiers descriptor hd field hfield
    exact newline_not_mem_of_all (by decide) hall
  · exact Bundled.typeName_isLine hd hfield
  · exact (hfields field hfield).2.2

end Textproto
