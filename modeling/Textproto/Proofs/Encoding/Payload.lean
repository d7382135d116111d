import Textproto.Proofs.Binding.Sites
import Textproto.Proofs.Encoding.Decoded
import Textproto.Proofs.Tree.Completeness

namespace Textproto

/-! What an `Any` carries, how it is spelled, and what it is written as. -/

namespace Binding

variable {registry : Registry} {any inner : Descriptor} {m : Message} {url : List Char}

/-- Beside its payload an `Any` stores nothing that is not empty. -/
theorem contents_of_bare (hm : m.WellTyped registry) (hd : m.descriptor.WellFormed registry)
    (hany : m.descriptor.wellKnown? = some .any) (hbare : Bare m) :
    m.contents ⊆ [(1, .single (.string "")), (2, .single (.bytes []))] := by
  rintro ⟨number, content⟩ hmem
  obtain ⟨field, hfield, rfl⟩ := hm.declared (List.mem_map_of_mem hmem)
  have hcontent := (Message.content?_eq_some_iff hm.distinct).mpr hmem
  rcases Encoding.blank_of_bare hm hd hany hbare field hfield with hnone |
    ⟨value, hsome, hzero, _, _, hscalar⟩
  · rw [hnone] at hcontent
    cases hcontent
  · rw [hsome] at hcontent
    cases hcontent
    cases hm.fits hfield hsome with
    | single _ hkind =>
        rcases hkind.cases with hkind | ⟨_, _, _, _, hkind, _⟩
        · have hzero := hkind.zero?_eq hzero
          rw [hd.fields_of_any hany, List.mem_cons, List.mem_singleton] at hfield
          rcases hfield with rfl | rfl <;> cases hzero <;> simp [Field.single]
        · rw [hkind] at hscalar
          cases hscalar

/-! Two spellings of a payload without fields. -/

theorem messageOf_expanded (hany : any.wellKnown? = some .any) (hnames : registry.Names url inner)
    (position place : Position) :
    messageOf registry any [⟨.expanded url, position, .message [] place⟩] =
      .ok ((Message.empty any).withPayload (String.ofList url) (.empty inner)) := by
  have hresolve : registry.resolve? (String.ofList url) = some inner := by
    rwa [Registry.resolve?_eq_some_iff, String.toList_ofList]
  have hslash : '/' ∈ (String.ofList url).toList := by
    obtain ⟨lead, name, rfl, _⟩ := hnames
    simp
  have hbare := (Message.throughout_iff.mp (throughout_bare_empty any)).1 hany
  refine addFields_cons.mpr ⟨_, addField_expanded.mpr ⟨inner, [], place, .empty inner,
    payloadType_eq_ok_iff.mpr ⟨hany, rfl, hslash, hresolve⟩, rfl, messageOf_nil inner, rfl⟩, ?_⟩
  rw [addFields_nil]
  exact finish_eq_ok_iff.mpr (.inr ⟨hany, checkAny_eq_ok_iff.mpr ⟨hbare.2, .inl ⟨hbare.1, rfl⟩⟩⟩)

theorem messageOf_url (hd : any.WellFormed registry) (hany : any.wellKnown? = some .any)
    (hnames : registry.Names url inner) (position place : Position) :
    messageOf registry any
        [⟨.plain "type_url".toList, position, .scalar (.string (Utf8.encode url)) place⟩] =
      .ok ((Message.empty any).withPayload (String.ofList url) (.empty inner)) := by
  have hresolve : registry.resolve? (String.ofList url) = some inner := by
    rwa [Registry.resolve?_eq_some_iff, String.toList_ofList]
  have hne : String.ofList url ≠ "" := by
    obtain ⟨lead, name, rfl, _⟩ := hnames
    rw [ne_eq, String.ofList_eq_empty_iff]
    simp
  let field : Field := .single "type_url" 1 .string
  have hfield : field ∈ any.fields := by simp [hd.fields_of_any hany, field]
  have hother : Field.single "value" 2 .bytes ∈ any.fields := by simp [hd.fields_of_any hany]
  let stored := (Message.empty any).set field (.string (String.ofList url))
  have hurl : stored.string "type_url" = String.ofList url := by
    have hsingle : stored.single? "type_url" = _ :=
      Message.single?_of_fieldNamed? (hd.fieldNamed? hfield)
    rw [Message.string, hsingle]
    rfl
  have hbytes : holdsBytes stored = false := by
    have hsingle : stored.single? "value" = _ :=
      Message.single?_of_fieldNamed? (hd.fieldNamed? hother)
    rw [holdsBytes, hsingle]
    rfl
  have hitem : itemOf registry field (.scalar (.string (Utf8.encode url)) place) =
      .ok (.value (.string (String.ofList url))) :=
    (itemOf_string rfl).mpr ⟨place, by rw [String.toList_ofList]⟩
  refine addFields_cons.mpr ⟨_, addField_plain.mpr ⟨field, hd.fieldNamed? hfield,
    .inr (.inr ⟨rfl, _, hitem, rfl, fun _ _ => rfl, rfl⟩)⟩, ?_⟩
  rw [addFields_nil]
  refine finish_eq_ok_iff.mpr (.inr ⟨hany, checkAny_eq_ok_iff.mpr ⟨hbytes, .inr ⟨rfl, ?_⟩⟩⟩)
  -- The draft also notes where the field was written, which is nothing to its message.
  change stored.string "type_url" ≠ "" ∧ ∃ descriptor,
    registry.resolve? (stored.string "type_url") = some descriptor ∧
      _ = (Message.empty any).withPayload (stored.string "type_url") (.empty descriptor)
  rw [hurl]
  exact ⟨hne, inner, hresolve, rfl⟩

/-- A payload without fields, as its type URL alone and as a message. -/
inductive Spells (url : List Char) : List Tree.Outline.Field → Prop
  | url : Spells url [⟨.plain "type_url".toList, .scalar (.string (Utf8.encode url))⟩]
  | message : Spells url [⟨.expanded url, .message []⟩]

theorem Spells.nestings_le {written : List Tree.Outline.Field} (h : Spells url written) :
    Tree.Outline.Field.nestings written ≤ Tree.nestingLimit := by
  cases h <;> simp [Tree.Outline.Field.nestings, Tree.Outline.Field.nesting,
    Tree.Outline.Value.nesting, Tree.nestingLimit]

theorem messageOf_of_spells (hd : any.WellFormed registry) (hany : any.wellKnown? = some .any)
    (hnames : registry.Names url inner) {given : List Tree.Field}
    (h : Spells url (Tree.Field.outlines given)) :
    messageOf registry any given =
      .ok ((Message.empty any).withPayload (String.ofList url) (.empty inner)) := by
  generalize hwritten : Tree.Field.outlines given = written at h
  cases h with
  | url =>
      obtain ⟨position, value, rfl, hvalue⟩ := Tree.Field.outlines_eq_singleton hwritten
      obtain ⟨place, rfl⟩ := Tree.Value.outline_eq_string hvalue
      exact messageOf_url hd hany hnames position place
  | message =>
      obtain ⟨position, value, rfl, hvalue⟩ := Tree.Field.outlines_eq_singleton hwritten
      obtain ⟨place, rfl⟩ := Tree.Value.outline_eq_message hvalue
      exact messageOf_expanded hany hnames position place

end Binding

open Binding in
/-- An `Any` holds nothing, or a payload of the type that its URL names, which it is written with.
A type URL that stands alone is that of a payload without fields. -/
theorem toJson_any {name : String} {root : Descriptor}
    (hknown : Registry.bundled.message? name = some root) {bytes : List UInt8} {m : Message}
    (h : decode .bundled root bytes = .ok m) :
    (∀ part : Message, part.Within m → part.descriptor.wellKnown? = some .any →
      part.contents ⊆ [(1, .single (.string "")), (2, .single (.bytes []))] ∧
      ((part.payload? = none ∧ part.toJson .bundled = .ok (.object [])) ∨
        ∃ url inner, part.payload? = some (url, inner) ∧
          Registry.bundled.Names url.toList inner.descriptor ∧
          ∀ json, part.toJson .bundled = .ok json →
            (inner.descriptor.wellKnown?.isSome = true ∧
              ∃ value, inner.toJson .bundled = .ok value ∧
                json = .object [("@type", .string url), ("value", value)]) ∨
            (inner.descriptor.wellKnown? = none ∧
              ∃ members, inner.toJson .bundled = .ok (.object members) ∧
                "@type" ∉ members.map Prod.fst ∧
                json = .object (("@type", .string url) :: members)))) ∧
      ∀ type any, Registry.bundled.message? type = some any → any.wellKnown? = some .any →
        ∀ (url : String) inner, Registry.bundled.Names url.toList inner →
          let carried := (Message.empty any).withPayload url (.empty inner)
          (∀ given, Spells url.toList (Tree.Field.outlines given) →
            messageOf .bundled any given = .ok carried) ∧
          ∀ text written, Spells url.toList written → Tree.Renders written text →
            decode .bundled any (Utf8.encode text) = .ok carried := by
  have hregistry := Registry.bundled_wellFormed
  constructor
  · intro part hpart hany
    obtain ⟨hm, hdescriptor⟩ := decode_typed hregistry hknown h
    obtain ⟨htyped, type, hpartKnown⟩ := hm.within (hdescriptor ▸ hknown) hpart
    have hd := (hregistry.descriptors type _ hpartKnown).2
    refine ⟨contents_of_bare htyped hd hany (decode_bare h part hpart), ?_⟩
    cases hpayload : part.payload? with
    | none =>
        refine .inl ⟨rfl, ?_⟩
        rw [Message.toJson, Encoding.messageJson_any hany, hpayload]
    | some payload =>
        obtain ⟨url, inner⟩ := payload
        have hresolve := (htyped.payload_any hpayload).2
        obtain ⟨_, hinnerKnown⟩ := message?_of_resolve? hresolve
        have hinner := (hregistry.descriptors _ _ hinnerKnown).2
        exact .inr ⟨url, inner, rfl, Registry.resolve?_eq_some_iff.mp hresolve, fun json hjson =>
          Encoding.messageJson_payload hinner hany hpayload hjson⟩
  · intro type any hanyKnown hany url inner hnames
    have hd := (hregistry.descriptors type any hanyKnown).2
    have hgiven {given : List Tree.Field}
        (hspells : Spells url.toList (Tree.Field.outlines given)) :
        messageOf .bundled any given =
          .ok ((Message.empty any).withPayload url (.empty inner)) := by
      rw [messageOf_of_spells hd hany hnames hspells, String.ofList_toList]
    refine ⟨fun _ => hgiven, fun text written hspells hrenders => ?_⟩
    obtain ⟨read, hread, rfl⟩ := Tree.parse_of_renders hrenders hspells.nestings_le
    exact decode_eq_ok_iff.mpr ⟨text, read, Utf8.decode_encode text, hread, hgiven hspells⟩

open Binding in
/-- A payload without fields in its two spellings. -/
theorem toJson_any_empty :
    let any : Descriptor :=
      ⟨Bundled.any, .wellKnown .any [.single "type_url" 1 .string, .single "value" 2 .bytes]⟩
    let inner : Descriptor := ⟨Bundled.empty, .wellKnown .empty []⟩
    let url := "a/google.protobuf.Empty"
    let m := (Message.empty any).withPayload url (.empty inner)
    decode .bundled any (Utf8.encode "[a/google.protobuf.Empty] <>".toList) = .ok m ∧
      messageOf .bundled any [⟨.plain "type_url".toList, .start,
        .scalar (.string (Utf8.encode url.toList)) .start⟩] = .ok m ∧
      ∃ value, (Message.empty inner).toJson .bundled = .ok value ∧
        m.toJson .bundled = .ok (.object [("@type", .string url), ("value", value)]) := by
  intro any inner url m
  have hdecode : decode .bundled any
      (Utf8.encode "[a/google.protobuf.Empty] <>".toList) = .ok m := by
    rw [decode_encode]
    cbv
  have hknown : Registry.bundled.message? Bundled.any = some any :=
    @Bundled.message?_of_mem any (Bundled.mem_types_of_wellKnown (by
      simp [Bundled.wellKnownTypes, any]))
  have hjson : m.toJson .bundled =
      .ok (.object [("@type", .string url), ("value", .object [])]) := by
    cbv
  obtain ⟨hparts, hspellings⟩ := toJson_any hknown hdecode
  have hurl : url.toList = "a".toList ++ '/' :: Bundled.empty.toList := by
    decide
  have hslash : '/' ∉ Bundled.empty.toList := by
    decide
  have hinner : Registry.bundled.message? (String.ofList Bundled.empty.toList) = some inner := by
    rw [String.ofList_toList]
    exact @Bundled.message?_of_mem inner (Bundled.mem_types_of_wellKnown (by
      simp [Bundled.wellKnownTypes, inner]))
  have hnames : Registry.bundled.Names url.toList inner := ⟨_, _, hurl, hslash, hinner⟩
  have hspells (text : List Char) : Spells text (Tree.Field.outlines
      [⟨.plain "type_url".toList, .start, .scalar (.string (Utf8.encode text)) .start⟩]) :=
    .url
  have hany : any.wellKnown? = some .any := rfl
  have hsame := (hspellings Bundled.any any hknown hany url inner hnames).1 _ (hspells _)
  refine ⟨hdecode, hsame, ?_⟩
  rcases (hparts m .self rfl).2 with ⟨hnone, _⟩ | ⟨_, _, hpayload, _, hforms⟩
  · cases hnone
  · cases hpayload
    rcases hforms _ hjson with ⟨_, value, hvalue, heq⟩ | ⟨hplain, _⟩
    · exact ⟨value, hvalue, heq ▸ hjson⟩
    · cases hplain

end Textproto
