import Textproto.Proofs.Binding.Sites
import Textproto.Proofs.Encoding.Written

namespace Textproto

/-! Which fields of a message are written as JSON is told by the text that it was read from. -/

namespace Binding

/-- An element stands for a scalar other than zero. -/
def isNonzero (registry : Registry) (field : Field) : Tree.Value → Bool
  | .scalar scalar _ =>
      match scalarAs registry field scalar with
      | .ok value => !value.isZero
      | .error _ => false
  | _ => false

/-- A field that is written shows if it is a list or a map, if it tells being set apart from zero,
if it holds a message, or else if it is not zero. -/
def isShown (registry : Registry) (given : List Tree.Field) (field : Field) : Bool :=
  (writtenTo field given).any fun element =>
    field.repeated || field.presence || field.oneof.isSome || field.kind.isMessage ||
      isNonzero registry field element

variable {registry : Registry} {descriptor : Descriptor} {given : List Tree.Field} {field : Field}
  {m : Message}

theorem isShown_of_repeated (hrepeated : field.repeated = true) :
    isShown registry given field = !(writtenTo field given).isEmpty := by
  rw [isShown]
  cases writtenTo field given with
  | nil => rfl
  | cons element rest => simp [hrepeated]

theorem has_of_content? {content : Content} (h : m.content? field.number = some content) :
    m.has field = Message.shows field content := by
  rw [Message.has, h]

theorem has_of_content?_none (h : m.content? field.number = none) : m.has field = false := by
  rw [Message.has, h]

theorem isNonzero_of_itemOf (hkind : field.kind.isMessage = false) {element : Tree.Value}
    {value : Value} (h : itemOf registry field element = .ok (.value value)) :
    isNonzero registry field element = !value.isZero := by
  obtain ⟨scalar, place, v, rfl, hv, heq⟩ := (itemOf_of_not_message hkind).mp h
  cases heq
  rw [isNonzero, hv]

theorem has_eq_isShown (hregistry : registry.WellFormed) (hd : descriptor.WellFormed registry)
    (hplain : descriptor.wellKnown? ≠ some .any)
    (h : messageOf registry descriptor given = .ok m) (hfield : field ∈ descriptor.fields) :
    m.has field = isShown registry given field := by
  cases hrepeated : field.repeated with
  | true =>
      obtain ⟨draft, hdraft, rfl⟩ := (messageOf_cases hd h).resolve_right fun hany => hplain hany.1
      rw [isShown_of_repeated hrepeated]
      cases hmap : field.mapEntry? registry with
      | some found =>
          obtain ⟨pairs, hpairs, hcontent⟩ := hdraft.content?_map hfield hmap
          generalize writtenTo field given = elements at hpairs
          -- Entries under one key are stored once, yet some are stored if any are written.
          cases hpairs with
          | nil => exact has_of_content?_none hcontent
          | cons =>
              rw [has_of_content? hcontent, Message.shows, List.isEmpty_eq_false_iff.mpr]
              · rfl
              · exact Key.collect_ne_nil (List.cons_ne_nil _ _)
      | none =>
          obtain ⟨values, hvalues, hcontent⟩ := hdraft.content?_list hfield hrepeated hmap
          generalize writtenTo field given = elements at hvalues
          cases hvalues with
          | nil => exact has_of_content?_none hcontent
          | cons => exact has_of_content? hcontent
  | false =>
      rcases content?_of_single hregistry hd hplain h hfield hrepeated with
        ⟨hnone, hcontent⟩ | ⟨element, value, hone, hitem, hcontent⟩
      · rw [has_of_content?_none hcontent, isShown, hnone]
        rfl
      · rw [has_of_content? hcontent, isShown, hone, Message.shows, List.any_cons, List.any_nil,
          hrepeated]
        cases hkind : field.kind.isMessage with
        | true => simp
        | false => simp [isNonzero_of_itemOf hkind hitem]

end Binding

open Binding in
/-- A message without a form of its own is written with the fields that its text shows, each of
them once and in the order of their declaration. -/
theorem toJson_keys {name : String} {root : Descriptor}
    (hknown : Registry.bundled.message? name = some root) {bytes : List UInt8} {m : Message}
    (h : decode .bundled root bytes = .ok m) :
    ∃ text fields, Utf8.decode bytes = .ok text ∧ Tree.parse text = .ok fields ∧
      ∀ part : Message, part.Within m → part.descriptor.wellKnown? = none →
        (∃ given, Site .bundled root fields part.descriptor given ∧
          messageOf .bundled part.descriptor given = .ok part) ∧
        ∀ json, part.toJson .bundled = .ok json → ∃ members, json = .object members ∧
          (members.map Prod.fst).Nodup ∧
          ∀ given, messageOf .bundled part.descriptor given = .ok part →
            members.map Prod.fst =
              (part.descriptor.fields.filter (isShown .bundled given)).map Field.jsonName := by
  obtain ⟨text, fields, htext, hfields, hsites⟩ := exists_site_of_decode hknown h
  refine ⟨text, fields, htext, hfields, fun part hpart hplain => ?_⟩
  obtain ⟨hd, hgiven⟩ := hsites part hpart
  refine ⟨hgiven, fun json hjson => ?_⟩
  rw [Message.toJson, Encoding.messageJson_plain hplain, Except.map_eq_ok_iff] at hjson
  obtain ⟨members, hmembers, rfl⟩ := hjson
  refine ⟨members, rfl, Encoding.nodup_membersJson hmembers, fun own hown => ?_⟩
  -- Both sides are declared fields in their order: the ones that show, and the ones that are
  -- written.
  rw [Encoding.map_fst_membersJson hd hmembers]
  congr 1
  apply List.filter_congr
  intro field hfield
  exact has_eq_isShown Registry.bundled_wellFormed hd (by rw [hplain]; exact nofun) hown hfield

/-- A file with an empty description, which is not written, and a section with nothing in it, which
is. -/
theorem toJson_keys_file :
    let m : Message := ⟨Bundled.testFileType, [
      (3, .list [.message (.empty ⟨Bundled.testSection, .message [.single "name" 1 .string,
        .single "description" 2 .string, .many "test" 3 (.message Bundled.test)]⟩)]),
      (2, .single (.string "")), (1, .single (.string "x"))], none⟩
    decode .bundled Bundled.testFileType
        (Utf8.encode "section {} description: \"\" name: \"x\"".toList) = .ok m ∧
      ∃ members, m.toJson .bundled = .ok (.object members) ∧
        members.map Prod.fst = ["name", "section"] := by
  intro m
  have hdecode : decode .bundled Bundled.testFileType
      (Utf8.encode "section {} description: \"\" name: \"x\"".toList) = .ok m := by
    rw [decode_encode]
    cbv
  have hjson : m.toJson .bundled =
      .ok (.object [("name", .string "x"), ("section", .array [.object []])]) := by
    cbv
  let given : List Tree.Field :=
    [ ⟨.plain "section".toList, .start, .message [] .start⟩,
      ⟨.plain "description".toList, .start, .scalar (.string []) .start⟩,
      ⟨.plain "name".toList, .start, .scalar (.string [120]) .start⟩ ]
  have hgiven : Binding.messageOf .bundled Bundled.testFileType given = .ok m := by
    cbv
  have hshown : (Bundled.testFileType.fields.filter (Binding.isShown .bundled given)).map
      Field.jsonName = ["name", "section"] := by
    cbv
  have hknown : Registry.bundled.message? Bundled.testFile = some Bundled.testFileType :=
    @Bundled.message?_of_mem Bundled.testFileType (by simp [Bundled.types, Bundled.conformanceTypes])
  obtain ⟨_, _, _, _, hparts⟩ := toJson_keys hknown hdecode
  obtain ⟨members, hmembers, _, hkeys⟩ := (hparts m .self rfl).2 _ hjson
  exact ⟨hdecode, members, hmembers ▸ hjson, (hkeys given hgiven).trans hshown⟩

end Textproto
