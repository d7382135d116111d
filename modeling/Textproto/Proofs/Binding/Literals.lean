import Textproto.Proofs.Encoding.Lists
import Textproto.Proofs.Message.Alike
import Textproto.Proofs.Schema.Names
import Textproto.Proofs.Tree.Completeness

namespace Textproto

/-! Scalars anywhere in a text, as what the fields that they are written for store. -/

/-- A message has a value in a field, by itself or among others. -/
def Message.Stores (m : Message) (field : Field) (value : Value) : Prop :=
  ∃ content, m.content? field.number = some content ∧ value ∈ content.values

/-- A type URL names one type at most. -/
theorem Registry.Names.unique {registry : Registry} {url : List Char}
    {descriptor other : Descriptor} (h : registry.Names url descriptor)
    (hother : registry.Names url other) : descriptor = other := by
  rw [← String.toList_ofList (l := url), ← Registry.resolve?_eq_some_iff] at h hother
  exact Option.some.inj (h.symm.trans hother)

namespace Binding

variable {registry : Registry} {root outer : Descriptor} {fields given : List Tree.Field}
  {field : Field} {m : Message}

theorem valid_nil (registry : Registry) (descriptor : Descriptor) : Valid registry descriptor [] :=
  .mk nofun .nil fun _ => ⟨nofun, nofun⟩

/-- What is written for a field of a valid message is valid for the kind of the field. -/
theorem validItem_of_writtenTo (hd : outer.WellFormed registry) (h : Valid registry outer given)
    (hfield : field ∈ outer.fields) {element : Tree.Value}
    (helement : element ∈ writtenTo field given) : ValidItem registry field.kind element := by
  obtain ⟨value, hvalue, helement⟩ := List.mem_flatMap.mp helement
  obtain ⟨position, hwritten⟩ := Tree.mem_given.mp hvalue
  obtain ⟨hvalid, _, _⟩ := h
  have hset : Sets outer field ⟨.plain field.name.toList, position, value⟩ := ⟨hfield, rfl⟩
  cases hvalid _ hwritten with
  | @item _ other _ hother hitem =>
      obtain rfl := hset.unique hd hother
      cases value with
      | list => generalize field.kind = kind at hitem; cases hitem
      | scalar => rwa [List.mem_singleton.mp helement]
      | message => rwa [List.mem_singleton.mp helement]
  | list hother _ hitems =>
      obtain rfl := hset.unique hd hother
      exact hitems element helement

/-- The fields of a site in a valid message are themselves those of a valid one. -/
theorem Site.valid (hregistry : registry.WellFormed) (hroot : root.WellFormed registry)
    (h : Valid registry root fields) (hsite : Site registry root fields outer given) :
    Valid registry outer given := by
  induction hsite with
  | self => exact h
  | unwritten => exact valid_nil _ _
  | url => exact valid_nil _ _
  | item houter hfield hkind hknown hwritten ih =>
      have hitem := validItem_of_writtenTo (houter.wellFormed hregistry hroot) ih hfield hwritten
      rw [hkind] at hitem
      cases hitem with
      | message hother hvalid =>
          rw [hknown] at hother
          cases hother
          exact hvalid
  | payload houter hany hgiven hnames ih =>
      obtain ⟨position, hwritten⟩ := Tree.mem_given.mp hgiven
      obtain ⟨hvalid, _, _⟩ := ih
      cases hvalid _ hwritten with
      | item hset => cases hset.2
      | payload _ hother hvalid =>
          obtain rfl := hnames.unique hother
          exact hvalid

/-- A number is written for no field of an `Any`. -/
theorem not_any_of_kind (hd : outer.WellFormed registry) (hfield : field ∈ outer.fields)
    (hstring : field.kind ≠ .string) (hbytes : field.kind ≠ .bytes) :
    outer.wellKnown? ≠ some .any := by
  intro hany
  rw [hd.fields_of_any hany] at hfield
  simp only [List.mem_cons, List.not_mem_nil, or_false] at hfield
  rcases hfield with rfl | rfl
  · exact hstring rfl
  · exact hbytes rfl

/-- A scalar that is written for a field is stored as the value that it stands for. -/
theorem stores_of_writtenTo (hregistry : registry.WellFormed) (hd : outer.WellFormed registry)
    (hplain : outer.wellKnown? ≠ some .any) (h : messageOf registry outer given = .ok m)
    (hfield : field ∈ outer.fields) {scalar : Tree.Scalar} {place : Position}
    (hwritten : .scalar scalar place ∈ writtenTo field given) :
    ∃ value, scalarAs registry field scalar = .ok value ∧ m.Stores field value := by
  by_cases hrepeated : field.repeated = true
  · have hitem := validItem_of_writtenTo hd ((messageOf_iff_valid hregistry hd given).mp ⟨m, h⟩)
      hfield hwritten
    obtain ⟨_, hitem⟩ := itemOf_scalar_iff.mpr hitem
    obtain ⟨hmap, value, hvalue, rfl⟩ := itemOf_scalar.mp hitem
    obtain ⟨values, hvalues, hcontent⟩ := content?_of_list hd h hfield hrepeated hmap
    obtain ⟨other, hother, hsame⟩ := Tree.exists_right hvalues _ hwritten
    rw [hitem] at hsame
    cases hsame
    rw [if_neg (List.ne_nil_of_mem hother)] at hcontent
    exact ⟨value, hvalue, _, hcontent, hother⟩
  · rw [Bool.not_eq_true] at hrepeated
    rcases content?_of_single hregistry hd hplain h hfield hrepeated with
      ⟨hnone, _⟩ | ⟨element, value, hone, hitem, hcontent⟩
    · rw [hnone] at hwritten
      cases hwritten
    · rw [hone] at hwritten
      cases List.mem_singleton.mp hwritten
      obtain ⟨_, _, hvalue, heq⟩ := itemOf_scalar.mp hitem
      cases heq
      exact ⟨value, hvalue, _, hcontent, List.mem_singleton_self value⟩

/-- In a text that is decoded every scalar is taken by its field, and stored in the message that the
fields around it make up. -/
theorem stores_of_site (hregistry : registry.WellFormed) (hroot : root.WellFormed registry)
    (hm : messageOf registry root fields = .ok m)
    (hsite : Site registry root fields outer given) (hplain : outer.wellKnown? ≠ some .any)
    (hfield : field ∈ outer.fields) {scalar : Tree.Scalar} {place : Position}
    (hwritten : .scalar scalar place ∈ writtenTo field given) :
    ∃ part value, messageOf registry outer given = .ok part ∧
      scalarAs registry field scalar = .ok value ∧ part.Stores field value := by
  have hd := hsite.wellFormed hregistry hroot
  have hvalid := (messageOf_iff_valid hregistry hroot fields).mp ⟨m, hm⟩
  obtain ⟨part, hpart⟩ :=
    (messageOf_iff_valid hregistry hd given).mpr (hsite.valid hregistry hroot hvalid)
  obtain ⟨value, hvalue, hstores⟩ :=
    stores_of_writtenTo hregistry hd hplain hpart hfield hwritten
  exact ⟨part, value, hpart, hvalue, hstores⟩

end Binding

/-! A document with nothing in it but one scalar. -/

namespace Tree

theorem Value.outline_eq_scalar {value : Value} {scalar : Scalar}
    (h : value.outline = .scalar scalar.outline) (hnan : ∀ x, scalar = .float x → x.isNaN = false) :
    ∃ place, value = .scalar scalar place := by
  match value, h with
  | .scalar read place, h =>
      refine ⟨place, ?_⟩
      simp only [Value.outline, Outline.Value.scalar.injEq] at h
      cases scalar with
      | float x =>
          have hx := hnan x rfl
          simp only [Scalar.outline, hx, Bool.false_eq_true, if_false] at h
          cases read with
          | float y =>
              by_cases hy : y.isNaN = true
              · simp only [hy, if_true, Scalar.float.injEq] at h
                subst h
                exact absurd hx (by decide)
              · simp only [hy, Bool.false_eq_true, if_false] at h
                rw [h]
          | _ => cases h
      | _ =>
          cases read with
          | float y => cases h
          | _ => exact congrArg (Value.scalar · place) h

/-- A name, a colon and a scalar are read as one field. -/
theorem parse_singleton {name text : List Char} {scalar : Scalar} {tokens : List Token}
    (hname : (Token.word name).Spells name) (htokens : ScalarTokens scalar.outline tokens)
    (htext : Written tokens text) (hnan : ∀ x, scalar = .float x → x.isNaN = false) :
    ∃ position place,
      parse (name ++ ':' :: text) = .ok [⟨.plain name, position, .scalar scalar place⟩] := by
  have hrenders : Renders [⟨.plain name, .scalar scalar.outline⟩] (name ++ ':' :: text) := by
    refine ⟨_, .cons (.mk .plain .colon (.scalar htokens) .absent) .nil, ?_⟩
    have hcolon : Stops (Token.word name).joins (':' :: text) := Stops.cons_iff.mpr rfl
    simpa using Written.token .nil hname hcolon (htext.mark rfl)
  obtain ⟨fields, hparse, houtlines⟩ := parse_of_renders hrenders (by
    simp [Outline.Field.nestings, Outline.Field.nesting, Outline.Value.nesting])
  obtain ⟨position, value, rfl, hvalue⟩ := Field.outlines_eq_singleton houtlines
  obtain ⟨place, rfl⟩ := Value.outline_eq_scalar hvalue hnan
  exact ⟨position, place, hparse⟩

end Tree

theorem Bundled.spells_name {name : String} {root : Descriptor}
    (hknown : Registry.bundled.message? name = some root) {field : Field}
    (hfield : field ∈ root.fields) :
    (Tree.Token.word field.name.toList).Spells field.name.toList := by
  obtain ⟨hmem, _⟩ := Registry.mem_of_message?_ofLists hknown
  obtain ⟨hfirst, hall⟩ := names_are_identifiers root hmem field hfield
  cases hname : field.name.toList with
  | nil =>
      rw [hname] at hfirst
      cases hfirst
  | cons x more =>
      rw [hname] at hfirst hall
      rw [List.all_cons, Bool.and_eq_true] at hall
      exact .word hfirst hall.2

namespace Binding

variable {registry : Registry} {root : Descriptor} {field : Field} {scalar : Tree.Scalar}
  {text : List Char} {position place : Position}

theorem mem_writtenTo_singleton (field : Field) (scalar : Tree.Scalar) (position place : Position) :
    .scalar scalar place ∈
      writtenTo field [⟨.plain field.name.toList, position, .scalar scalar place⟩] := by
  simp [writtenTo, Tree.given, Tree.Field.name, Tree.Field.value, elements]

/-- A field that stands alone needs no more than a scalar of its kind. -/
theorem valid_singleton (hd : root.WellFormed registry) (hplain : root.wellKnown? ≠ some .any)
    (hfield : field ∈ root.fields) (scalar : Tree.Scalar) (position place : Position) :
    Valid registry root [⟨.plain field.name.toList, position, .scalar scalar place⟩] ↔
      ∃ value, scalarAs registry field scalar = .ok value := by
  rw [← admits_iff]
  constructor
  · intro h
    have hitem := validItem_of_writtenTo hd h hfield (mem_writtenTo_singleton field scalar _ _)
    generalize field.kind = kind at hitem
    cases hitem
    assumption
  · intro h
    refine .mk ?_ (List.pairwise_singleton _ _) fun hany => absurd hany hplain
    intro written hwritten
    rw [List.mem_singleton.mp hwritten]
    exact .item ⟨hfield, rfl⟩ (.scalar h)

/-- The document is decoded if the field takes the scalar, and then stores it. -/
theorem decode_singleton (hregistry : registry.WellFormed) (hd : root.WellFormed registry)
    (hplain : root.wellKnown? ≠ some .any) (hfield : field ∈ root.fields)
    (hparse : Tree.parse text =
      .ok [⟨.plain field.name.toList, position, .scalar scalar place⟩]) :
    (∃ value m, scalarAs registry field scalar = .ok value ∧
        decode registry root (Utf8.encode text) = .ok m ∧ m.Stores field value) ∨
      (∃ refused error, scalarAs registry field scalar = .error refused ∧
        decode registry root (Utf8.encode text) = .error error) := by
  have hvalid := valid_singleton hd hplain hfield scalar position place
  cases hscalar : scalarAs registry field scalar with
  | ok value =>
      obtain ⟨m, hm⟩ := (messageOf_iff_valid hregistry hd _).mpr (hvalid.mpr ⟨value, hscalar⟩)
      obtain ⟨other, hother, hstores⟩ := stores_of_writtenTo hregistry hd hplain hm hfield
        (mem_writtenTo_singleton field scalar position place)
      rw [hscalar] at hother
      cases hother
      exact .inl ⟨value, m, rfl, (decode_of_parse hparse).mpr hm, hstores⟩
  | error refused =>
      cases hdecode : decode registry root (Utf8.encode text) with
      | error error => exact .inr ⟨refused, error, rfl, rfl⟩
      | ok m =>
          obtain ⟨value, hvalue⟩ := hvalid.mp ((messageOf_iff_valid hregistry hd _).mp
            ⟨m, (decode_of_parse hparse).mp hdecode⟩)
          rw [hscalar] at hvalue
          cases hvalue

end Binding

end Textproto
