import Textproto.Proofs.Encoding.Emission
import Textproto.Proofs.Encoding.Flaw

namespace Textproto

/-! A message is refused for the first flaw among the messages that are written for it. -/

namespace Encoding

section

variable {α β : Type}

/-- Of two results the first that is not there counts. -/
theorem refusal?_bind {first : Except EncodeError α} {second : α → Except EncodeError β}
    {rest : Option EncodeError} (h : ∀ a, refusal? (second a) = rest) :
    refusal? (first >>= second) = (refusal? first).or rest := by
  cases first with
  | error error => rfl
  | ok a => exact h a

theorem refusal?_gather (member : Field → Except EncodeError (Option Json)) (fields : List Field)
    (members : List (String × Json)) :
    refusal? (gather member members fields) =
      fields.findSome? fun field => refusal? (member field) := by
  induction fields generalizing members with
  | nil => rfl
  | cons field fields ih =>
      rw [gather, refusal?_bind fun found => ?_, List.findSome?_cons]
      · cases refusal? (member field) <;> rfl
      · cases found with
        | none => exact ih _
        | some json => exact ih _

theorem findSome?_flatMap (f : β → Option EncodeError) (g : α → List β) (items : List α) :
    (items.flatMap g).findSome? f = items.findSome? fun item => (g item).findSome? f := by
  induction items with
  | nil => rfl
  | cons item items ih =>
      rw [List.flatMap_cons, List.findSome?_append, List.findSome?_cons, ih]
      cases (g item).findSome? f <;> rfl

theorem findSome?_congr {f g : α → Option EncodeError} {items : List α}
    (h : ∀ item ∈ items, f item = g item) : items.findSome? f = items.findSome? g := by
  induction items with
  | nil => rfl
  | cons item items ih =>
      rw [List.findSome?_cons, List.findSome?_cons, h item List.mem_cons_self,
        ih fun other hother => h other (List.mem_cons_of_mem _ hother)]

/-- Where only one item can give anything, that is what all of them give. -/
theorem findSome?_of_unique {f : α → Option EncodeError} {items : List α} {item : α}
    (hitem : item ∈ items) (h : ∀ other ∈ items, other ≠ item → f other = none) :
    items.findSome? f = f item := by
  induction items with
  | nil => cases hitem
  | cons first items ih =>
      have hrest : ∀ other ∈ items, other ≠ item → f other = none :=
        fun other hother => h other (List.mem_cons_of_mem _ hother)
      rw [List.findSome?_cons]
      by_cases hfirst : first = item
      · subst hfirst
        cases hf : f first with
        | some error => rfl
        | none =>
            apply List.findSome?_eq_none_iff.mpr
            intro other hother
            by_cases heq : other = first
            · rw [heq, hf]
            · exact hrest other hother heq
      · rw [h first List.mem_cons_self hfirst]
        exact ih ((List.mem_cons.mp hitem).resolve_left (Ne.symm hfirst)) hrest

end

end Encoding

/-- Whether a type has no field of messages. -/
def WellKnown.isLeaf : WellKnown → Bool
  | struct | value | listValue => false
  | _ => true

namespace Encoding

open Message

variable {registry : Registry} {m : Message}

/-! What is stored is refused for the first flaw in it, if the messages inside are. -/

section

variable {kind : Kind}

theorem refusal?_valueJson {value : Value}
    (h : ∀ inner, value = .message inner →
      refusal? (messageJson registry inner) = inner.emitted.findSome? flaw?) :
    refusal? (valueJson registry kind value) = value.emitted.findSome? flaw? := by
  cases value with
  | message inner =>
      rw [valueJson_message, Value.emitted]
      exact h inner rfl
  | _ =>
      rw [valueJson_scalar, Value.emitted]
      · rfl
      · rintro _ ⟨⟩
      · rintro _ ⟨⟩

theorem refusal?_listJson {values : List Value}
    (h : ∀ inner, .message inner ∈ values →
      refusal? (messageJson registry inner) = inner.emitted.findSome? flaw?) :
    refusal? (listJson registry kind values) =
      (values.flatMap Value.emitted).findSome? flaw? := by
  induction values with
  | nil =>
      rw [listJson]
      rfl
  | cons value rest ih =>
      have hrest := ih fun inner hinner => h inner (List.mem_cons_of_mem _ hinner)
      have hvalue : refusal? (valueJson registry kind value) = value.emitted.findSome? flaw? :=
        refusal?_valueJson fun inner hinner => h inner (hinner ▸ List.mem_cons_self)
      rw [listJson, List.flatMap_cons, List.findSome?_append, ← hvalue, ← hrest]
      apply refusal?_bind
      intro json
      cases listJson registry kind rest <;> rfl

theorem refusal?_entriesJson {entries : List (Key × Value)}
    (h : ∀ key inner, (key, .message inner) ∈ entries →
      refusal? (messageJson registry inner) = inner.emitted.findSome? flaw?)
    (members : List (String × Json)) :
    refusal? (entriesJson registry kind members entries) =
      (entries.flatMap fun entry => entry.2.emitted).findSome? flaw? := by
  induction entries generalizing members with
  | nil =>
      rw [entriesJson]
      rfl
  | cons entry rest ih =>
      obtain ⟨key, value⟩ := entry
      have hrest := ih fun key inner hinner => h key inner (List.mem_cons_of_mem _ hinner)
      have hvalue : refusal? (valueJson registry kind value) = value.emitted.findSome? flaw? :=
        refusal?_valueJson fun inner hinner => h key inner (hinner ▸ List.mem_cons_self)
      rw [entriesJson, List.flatMap_cons, List.findSome?_append, ← hvalue]
      apply refusal?_bind
      intro json
      exact hrest _

theorem refusal?_contentJson {content : Content}
    (h : ∀ inner : Message, inner.HeldBy content →
      refusal? (messageJson registry inner) = inner.emitted.findSome? flaw?) (field : Field) :
    refusal? (contentJson registry field content) = content.emitted.findSome? flaw? := by
  cases content with
  | single value =>
      rw [contentJson_single, Content.emitted]
      apply refusal?_valueJson
      rintro inner rfl
      exact h inner .single
  | list values =>
      rw [contentJson_list, refusal?_map, Content.emitted, Value.listEmitted_eq]
      apply refusal?_listJson
      exact fun inner hinner => h inner (.list hinner)
  | map entries =>
      rw [contentJson_map, refusal?_map, Content.emitted, Value.entriesEmitted_eq]
      apply refusal?_entriesJson
      exact fun key inner hinner => h inner (.map hinner)

/-- Only what holds no message is left out. -/
theorem emitted_of_not_shows {field : Field} {content : Content}
    (h : shows field content = false) : content.emitted = [] := by
  cases content with
  | single value =>
      cases value with
      | message inner => simp [shows, Value.isZero] at h
      | _ => rfl
  | list values =>
      obtain rfl : values = [] := by simpa [shows] using h
      rfl
  | map entries =>
      obtain rfl : entries = [] := by simpa [shows] using h
      rfl

theorem refusal?_memberJson
    (h : ∀ inner : Message, inner.Inside m →
      refusal? (messageJson registry inner) = inner.emitted.findSome? flaw?) (field : Field) :
    refusal? (memberJson registry field m.contents) =
      (Content.emittedAt field.number m.contents).findSome? flaw? := by
  rw [memberJson_eq, Content.emittedAt_eq, ← content?]
  cases hcontent : m.content? field.number with
  | none => rfl
  | some content =>
      cases hshows : shows field content with
      | false => simp [hshows, emitted_of_not_shows hshows]
      | true =>
          simp only [hshows, if_true, refusal?_map]
          exact refusal?_contentJson (fun inner hheld => h inner (hheld.inside hcontent)) field

theorem refusal?_membersJson
    (h : ∀ inner : Message, inner.Inside m →
      refusal? (messageJson registry inner) = inner.emitted.findSome? flaw?) :
    refusal? (membersJson registry m) = m.emittedInside.findSome? flaw? := by
  rw [membersJson_eq, refusal?_gather, emittedInside, findSome?_flatMap]
  apply findSome?_congr
  exact fun field _ => refusal?_memberJson h field

end

/-- What fits a field of scalars holds no message. -/
theorem emitted_of_scalar {field : Field} {content : Content}
    (hfits : Content.Fits registry field content) (hkind : field.kind.isMessage = false) :
    content.emitted = [] := by
  have hvalue {value : Value} (hvalue : Value.HasKind registry field.kind value) :
      value.emitted = [] := by
    rcases hvalue.cases with hscalar | ⟨_, _, _, name, hname, _⟩
    · generalize field.kind = kind at hscalar
      cases hscalar <;> rfl
    · rw [hname] at hkind
      cases hkind
  cases hfits with
  | single _ hsingle => exact hvalue hsingle
  | list _ _ _ hvalues =>
      rw [Content.emitted, Value.listEmitted_eq, List.flatMap_eq_nil_iff]
      exact fun value hmem => hvalue (hvalues value hmem)
  | map hmap _ _ _ _ =>
      obtain ⟨type, htype, _⟩ := Field.message?_of_mapEntry? hmap
      rw [htype] at hkind
      cases hkind

/-- The fields of most well-known types are scalars. -/
theorem scalar_fields (hd : m.descriptor.WellFormed registry) {type : WellKnown}
    (htype : m.descriptor.wellKnown? = some type) (hleaf : type.isLeaf = true) :
    ∀ field ∈ m.descriptor.fields, field.kind.isMessage = false := by
  have hdeclares := hd.declares htype
  cases type with
  | struct | value | listValue => cases hleaf
  | wrapper =>
      obtain ⟨kind, hkind, _, hfields⟩ := hdeclares
      rw [hfields]
      intro field hfield
      rw [List.mem_singleton.mp hfield]
      exact hkind
  | any | empty | duration | timestamp | fieldMask =>
      rw [show m.descriptor.fields = _ from hdeclares]
      decide

theorem emittedInside_of_leaf (hm : m.WellTyped registry) (hd : m.descriptor.WellFormed registry)
    {type : WellKnown} (htype : m.descriptor.wellKnown? = some type)
    (hleaf : type.isLeaf = true) : m.emittedInside = [] := by
  rw [emittedInside, List.flatMap_eq_nil_iff]
  intro field hfield
  rw [Content.emittedAt_eq, ← content?]
  cases hcontent : m.content? field.number with
  | none => rfl
  | some content =>
      exact emitted_of_scalar (hm.fits hfield hcontent) (scalar_fields hd htype hleaf field hfield)

/-- The member of a `Value` that is set is all that it holds. -/
theorem refusal?_structValue (hm : m.WellTyped registry) (hd : m.descriptor.WellFormed registry)
    (htype : m.descriptor.wellKnown? = some .value)
    (h : ∀ inner : Message, inner.Inside m →
      refusal? (messageJson registry inner) = inner.emitted.findSome? flaw?) :
    refusal? (messageJson registry m) = m.flaw?.or (m.emittedInside.findSome? flaw?) := by
  rw [messageJson_value htype, flaw?, htype]
  simp only
  cases hmember : (m.member? "kind").bind m.descriptor.fieldNamed? with
  | none => rfl
  | some field =>
      obtain ⟨hfield, _, value, hcontent, _⟩ := hm.member hd hmember
      have hunset : ∀ other ∈ m.descriptor.fields, other ≠ field →
          (Content.emittedAt other.number m.contents).findSome? flaw? = none := by
        intro other hother hne
        rw [Content.emittedAt_eq, ← content?]
        cases hset : m.content? other.number with
        | none => rfl
        | some content =>
            have honeof := hd.oneof_of_value htype other hother
            exact absurd (hm.member_unique hd hmember hother honeof (by rw [hset]; rfl)) hne
      have hinside : m.emittedInside.findSome? flaw? = value.emitted.findSome? flaw? := by
        rw [emittedInside, findSome?_flatMap, findSome?_of_unique hfield hunset,
          Content.emittedAt_eq, ← content?, hcontent]
        rfl
      have hsingle : m.single? field.name = some value := by
        rw [single?_of_fieldNamed? (hd.fieldNamed? hfield), hcontent]
        rfl
      have hvalue : refusal? (valueJson registry field.kind value) =
          value.emitted.findSome? flaw? := by
        apply refusal?_valueJson
        rintro inner rfl
        exact h inner (HeldBy.single.inside hcontent)
      simp only [hinside, hsingle, hcontent, ← hvalue, Option.bind_some, Content.single?,
        Option.map_some, Option.getD_some]
      cases value with
      | double x =>
          simp only
          cases x.isFinite with
          | true =>
              rw [valueJson_scalar]
              · rfl
              · rintro _ ⟨⟩
          | false => rfl
      | _ => rfl

/-- What is written for a message, be it refused for itself, for its fields or for its payload. -/
theorem findSome?_emitted (m : Message) :
    m.emitted.findSome? flaw? =
      m.flaw?.or ((m.emittedInside.findSome? flaw?).or
        (m.payload?.bind fun payload => payload.2.emitted.findSome? flaw?)) := by
  rw [emitted_eq, List.findSome?_cons, List.findSome?_append]
  cases m.flaw? with
  | some error => rfl
  | none => cases m.payload? <;> rfl

theorem refusal?_wrapper (hm : m.WellTyped registry) (hd : m.descriptor.WellFormed registry)
    (htype : m.descriptor.wellKnown? = some .wrapper) :
    refusal? (messageJson registry m) = none := by
  obtain ⟨field, zero, hfields, hzero, hfield⟩ := wrapper_zero hd htype
  have hscalar := scalar_fields hd htype rfl field hfield
  rw [messageJson_wrapper htype hfields hzero]
  cases hcontent : m.content? field.number with
  | none => rfl
  | some content =>
      cases hm.fits hfield hcontent with
      | list => rfl
      | map => rfl
      | single _ hvalue =>
          rcases hvalue.cases with hvalue | ⟨_, _, _, _, hkind, _⟩
          · rw [Option.bind_some, Content.single?, Option.map_some, Option.getD_some,
              valueJson_scalar hvalue.ne_message]
            rfl
          · rw [hkind] at hscalar
            cases hscalar

/-- An `Any` is refused for its payload, which is written by its type or field by field. -/
theorem refusal?_any (htype : m.descriptor.wellKnown? = some .any)
    (h : ∀ url inner, m.payload? = some (url, inner) →
      inner.WellTyped registry ∧
        refusal? (messageJson registry inner) = inner.emitted.findSome? flaw? ∧
        refusal? (membersJson registry inner) = inner.emittedInside.findSome? flaw?) :
    refusal? (messageJson registry m) =
      m.payload?.bind fun payload => payload.2.emitted.findSome? flaw? := by
  rw [messageJson_any htype]
  cases hpayload : m.payload? with
  | none => rfl
  | some payload =>
      obtain ⟨url, inner⟩ := payload
      obtain ⟨hinner, hjson, hfields⟩ := h url inner hpayload
      cases hplain : inner.descriptor.wellKnown? with
      | some own => simp [hplain, hjson]
      | none =>
          have hnone := hinner.payload?_eq_none (by simp [hplain])
          simp [hplain, hfields, findSome?_emitted inner, hnone, flaw?]

theorem refusal?_json (hregistry : registry.WellFormed) (hm : m.WellTyped registry)
    (hd : m.descriptor.WellFormed registry) :
    refusal? (messageJson registry m) = m.emitted.findSome? flaw? ∧
      refusal? (membersJson registry m) = m.emittedInside.findSome? flaw? := by
  -- By messages from those inside out: both ways to write one come down to those in it.
  induction m using inside_induction with
  | step m ih =>
      have hinside (inner : Message) (hinner : inner.Inside m) :
          refusal? (messageJson registry inner) = inner.emitted.findSome? flaw? ∧
            refusal? (membersJson registry inner) = inner.emittedInside.findSome? flaw? := by
        obtain ⟨hwellTyped, name, hname⟩ := hm.inside hinner
        exact ih inner hinner hwellTyped (hregistry.descriptors name _ hname).2
      have hmembers := refusal?_membersJson fun inner hinner => (hinside inner hinner).1
      refine ⟨?_, hmembers⟩
      have hpayload := hm.payload?_eq_none
      rw [findSome?_emitted]
      cases htype : m.descriptor.wellKnown? with
      | none =>
          rw [messageJson_plain htype, refusal?_map, hmembers, hpayload (by simp [htype])]
          simp [flaw?, htype]
      | some type =>
          have hleaf (h : type.isLeaf = true) := emittedInside_of_leaf hm hd htype h
          cases type with
          | any =>
              rw [hleaf rfl, refusal?_any htype fun url inner hinner =>
                ⟨hm.payload hinner, hinside inner (.payload hinner)⟩]
              simp [flaw?, htype]
          | empty =>
              rw [messageJson_empty htype, hpayload (by simp [htype]), hleaf rfl]
              simp [flaw?, htype]
          | duration =>
              rw [messageJson_duration htype, hpayload (by simp [htype]), hleaf rfl]
              simp [flaw?, htype]
          | timestamp =>
              rw [messageJson_timestamp htype, hpayload (by simp [htype]), hleaf rfl]
              simp [flaw?, htype]
          | wrapper =>
              rw [refusal?_wrapper hm hd htype, hpayload (by simp [htype]), hleaf rfl]
              simp [flaw?, htype]
          | struct =>
              rw [messageJson_struct htype, refusal?_map, hmembers, hpayload (by simp [htype])]
              simp [flaw?, htype]
          | value =>
              rw [refusal?_structValue hm hd htype fun inner hinner => (hinside inner hinner).1,
                hpayload (by simp [htype])]
              simp
          | listValue =>
              rw [messageJson_listValue htype, refusal?_map, hmembers, hpayload (by simp [htype])]
              simp [flaw?, htype]
          | fieldMask =>
              rw [messageJson_fieldMask htype, hpayload (by simp [htype]), hleaf rfl]
              simp [flaw?, htype]

end Encoding

end Textproto
