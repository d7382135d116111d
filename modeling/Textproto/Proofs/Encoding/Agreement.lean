import Textproto.Proofs.Encoding.Injectivity
import Textproto.Proofs.Time.Text

namespace Textproto

/-! Messages of the well-known types that are written alike agree. -/

namespace Encoding

open Message

variable {registry : Registry} {m n : Message} {field : Field}

/-! Types of one plain scalar field, or two. -/

/-- What a message holds in a field, or else `zero`. -/
def valueOr (zero : Value) (m : Message) (field : Field) : Value :=
  ((m.content? field.number).bind Content.single?).getD zero

/-- A field of scalars that is not told apart from zero. -/
structure IsPlain (field : Field) : Prop where
  single : field.repeated = false
  presence : field.presence = false
  oneof : field.oneof = none
  scalar : field.kind.isMessage = false
  notNull : field.kind ≠ .enum Bundled.nullValue

theorem valueOr_cases (hm : m.WellTyped registry) (hfield : field ∈ m.descriptor.fields)
    (hplain : IsPlain field) (zero : Value) :
    (m.content? field.number = none ∧ valueOr zero m field = zero) ∨
      ∃ value, m.content? field.number = some (.single value) ∧ valueOr zero m field = value ∧
        Value.IsScalar field.kind value := by
  rw [valueOr]
  cases hcontent : m.content? field.number with
  | none => exact .inl ⟨rfl, rfl⟩
  | some content =>
      cases hm.fits hfield hcontent with
      | @single _ value _ hvalue =>
          rcases hvalue.cases with hscalar | ⟨_, _, _, _, hkind, _⟩
          · exact .inr ⟨value, rfl, rfl, hscalar⟩
          · have hno := hplain.scalar
            rw [hkind] at hno
            cases hno
      | list hrepeated =>
          rw [hplain.single] at hrepeated
          cases hrepeated
      | map hmap =>
          have hrepeated := Field.repeated_of_mapEntry? hmap
          rw [hplain.single] at hrepeated
          cases hrepeated

theorem blank_iff_isZero (hm : m.WellTyped registry) (hfield : field ∈ m.descriptor.fields)
    (hplain : IsPlain field) {zero : Value} (hzero : Value.zero? field.kind = some zero) :
    m.Blank field ↔ (valueOr zero m field).isZero = true := by
  rw [Blank]
  rcases valueOr_cases hm hfield hplain zero with ⟨hcontent, hvalue⟩ | ⟨value, hcontent, hvalue, _⟩
  · simp [hcontent, hvalue, Value.isZero_of_zero? hzero]
  · simp [hcontent, hvalue, hplain.presence, hplain.oneof, hplain.scalar]

/-- Two messages agree on a plain field if what they hold in it does, be it written or not. -/
theorem agreesOn_of_valueOr (hm : m.WellTyped registry) (hn : n.WellTyped registry)
    (hfield : field ∈ m.descriptor.fields) (hfield' : field ∈ n.descriptor.fields)
    (hplain : IsPlain field) {zero : Value} (hzero : Value.zero? field.kind = some zero)
    (h : Value.Agrees registry field.kind (valueOr zero m field) (valueOr zero n field)) :
    m.AgreesOn registry n field := by
  refine ⟨?_, ?_⟩
  · rw [blank_iff_isZero hm hfield hplain hzero, blank_iff_isZero hn hfield' hplain hzero,
      h.isZero hplain.notNull]
  · intro content other hcontent hother _
    rcases valueOr_cases hm hfield hplain zero with ⟨hnone, _⟩ | ⟨value, hsome, hvalue, _⟩
    · rw [hcontent] at hnone
      cases hnone
    · rcases valueOr_cases hn hfield' hplain zero with ⟨hnone', _⟩ | ⟨value', hsome', hvalue', _⟩
      · rw [hother] at hnone'
        cases hnone'
      · rw [hcontent] at hsome
        rw [hother] at hsome'
        cases hsome
        cases hsome'
        rw [hvalue, hvalue'] at h
        exact .single h

theorem valueOr_isScalar (hm : m.WellTyped registry) (hfield : field ∈ m.descriptor.fields)
    (hplain : IsPlain field) {zero : Value} (hzero : Value.zero? field.kind = some zero) :
    Value.IsScalar field.kind (valueOr zero m field) := by
  rcases valueOr_cases hm hfield hplain zero with ⟨_, hvalue⟩ | ⟨value, _, hvalue, hscalar⟩
  · rw [hvalue]
    exact Value.isScalar_of_zero? hzero
  · rw [hvalue]
    exact hscalar

/-- A wrapper is written as what it holds, be it written or not. -/
theorem messageJson_valueOr (hm : m.WellTyped registry) {kind : Kind}
    (hplain : IsPlain (.single "value" 1 kind)) (htype : m.descriptor.wellKnown? = some .wrapper)
    (hfields : m.descriptor.fields = [.single "value" 1 kind]) {zero : Value}
    (hzero : Value.zero? kind = some zero) :
    messageJson registry m =
      .ok (scalarJson registry kind (valueOr zero m (.single "value" 1 kind))) := by
  have hfield : Field.single "value" 1 kind ∈ m.descriptor.fields := by
    rw [hfields]
    exact List.mem_singleton_self _
  rw [messageJson_wrapper htype hfields hzero]
  rcases valueOr_cases hm hfield hplain zero with ⟨hcontent, hvalue⟩ |
    ⟨value, hcontent, hvalue, hscalar⟩
  · rw [hcontent, hvalue]
    rfl
  · rw [hcontent, hvalue]
    exact valueJson_scalar hscalar.ne_message

theorem told_wrapper (hregistry : registry.WellFormed) (hm : m.WellTyped registry)
    (hn : n.WellTyped registry) (hd : m.descriptor.WellFormed registry)
    (hdescriptor : m.descriptor = n.descriptor)
    (htype : m.descriptor.wellKnown? = some .wrapper) : Told registry m n := by
  intro json other hjson hother h
  obtain ⟨kind, hscalar, hnull, hfields⟩ := hd.declares htype
  have hfields' : n.descriptor.fields = [.single "value" 1 kind] := by rw [← hdescriptor, hfields]
  have htype' : n.descriptor.wellKnown? = some .wrapper := by rw [← hdescriptor, htype]
  have hfield : Field.single "value" 1 kind ∈ m.descriptor.fields := by
    rw [hfields]
    exact List.mem_singleton_self _
  have hplain : IsPlain (.single "value" 1 kind) := ⟨rfl, rfl, rfl, hscalar, hnull⟩
  obtain ⟨zero, hzero⟩ : ∃ zero, Value.zero? kind = some zero := by
    cases kind <;> first | exact ⟨_, rfl⟩ | cases hscalar
  rw [messageJson_valueOr hm hplain htype hfields hzero] at hjson
  rw [messageJson_valueOr hn hplain htype' hfields' hzero] at hother
  cases hjson
  cases hother
  refine .of_fields hdescriptor ?_ (hm.payload?_eq_none (by simp [htype]))
    (hn.payload?_eq_none (by simp [htype']))
  intro field hmem
  rw [hfields, List.mem_singleton] at hmem
  subst hmem
  exact agreesOn_of_valueOr hm hn hfield (hdescriptor ▸ hfield) hplain hzero
    (scalarJson_same hregistry (valueOr_isScalar hm hfield hplain hzero)
      (valueOr_isScalar hn (hdescriptor ▸ hfield) hplain hzero) h)

/-! Seconds and nanoseconds. -/

theorem seconds_eq (hm : m.WellTyped registry) (hd : m.descriptor.WellFormed registry)
    (hfields : m.descriptor.fields = Bundled.secondsAndNanos) :
    ∃ k, valueOr (.int64 0) m (.single "seconds" 1 .int64) = .int64 k ∧ seconds m = k.toInt := by
  have hfield : Field.single "seconds" 1 .int64 ∈ m.descriptor.fields := by
    rw [hfields]
    decide
  have hnamed : m.descriptor.fieldNamed? "seconds" = _ := hd.fieldNamed? hfield
  rw [seconds, single?_of_fieldNamed? hnamed]
  rcases valueOr_cases hm hfield ⟨rfl, rfl, rfl, rfl, by decide⟩ (.int64 0) with
    ⟨hcontent, hvalue⟩ | ⟨value, hcontent, hvalue, hscalar⟩
  · exact ⟨0, hvalue, by rw [hcontent]; rfl⟩
  · rw [hcontent, hvalue]
    cases hscalar with
    | @int64 k => exact ⟨k, rfl, rfl⟩

theorem nanos_eq (hm : m.WellTyped registry) (hd : m.descriptor.WellFormed registry)
    (hfields : m.descriptor.fields = Bundled.secondsAndNanos) :
    ∃ k, valueOr (.int32 0) m (.single "nanos" 2 .int32) = .int32 k ∧ nanos m = k.toInt := by
  have hfield : Field.single "nanos" 2 .int32 ∈ m.descriptor.fields := by
    rw [hfields]
    decide
  have hnamed : m.descriptor.fieldNamed? "nanos" = _ := hd.fieldNamed? hfield
  rw [nanos, single?_of_fieldNamed? hnamed]
  rcases valueOr_cases hm hfield ⟨rfl, rfl, rfl, rfl, by decide⟩ (.int32 0) with
    ⟨hcontent, hvalue⟩ | ⟨value, hcontent, hvalue, hscalar⟩
  · exact ⟨0, hvalue, by rw [hcontent]; rfl⟩
  · rw [hcontent, hvalue]
    cases hscalar with
    | @int32 k => exact ⟨k, rfl, rfl⟩

/-- Spans and points of time agree if they are the same. -/
theorem agrees_of_time (hm : m.WellTyped registry) (hn : n.WellTyped registry)
    (hd : m.descriptor.WellFormed registry) (hdescriptor : m.descriptor = n.descriptor)
    (hfields : m.descriptor.fields = Bundled.secondsAndNanos)
    (hany : m.descriptor.wellKnown? ≠ some .any) (hseconds : seconds m = seconds n)
    (hnanos : nanos m = nanos n) : m.Agrees registry n := by
  have hfields' : n.descriptor.fields = Bundled.secondsAndNanos := by rw [← hdescriptor, hfields]
  refine .of_fields hdescriptor ?_ (hm.payload?_eq_none hany)
    (hn.payload?_eq_none (hdescriptor ▸ hany))
  intro field hmem
  have hmem' : field ∈ n.descriptor.fields := hdescriptor ▸ hmem
  have hcases : field = .single "seconds" 1 .int64 ∨ field = .single "nanos" 2 .int32 := by
    rw [hfields] at hmem
    simpa [Bundled.secondsAndNanos] using hmem
  rcases hcases with rfl | rfl
  · refine agreesOn_of_valueOr hm hn hmem hmem' ⟨rfl, rfl, rfl, rfl, by decide⟩ rfl ?_
    obtain ⟨k, hk, hsize⟩ := seconds_eq hm hd hfields
    obtain ⟨l, hl, hsize'⟩ := seconds_eq hn (hdescriptor ▸ hd) hfields'
    rw [hk, hl, Int64.toInt_inj.mp (hsize.symm.trans (hseconds.trans hsize'))]
    exact .same
  · refine agreesOn_of_valueOr hm hn hmem hmem' ⟨rfl, rfl, rfl, rfl, by decide⟩ rfl ?_
    obtain ⟨k, hk, hsize⟩ := nanos_eq hm hd hfields
    obtain ⟨l, hl, hsize'⟩ := nanos_eq hn (hdescriptor ▸ hd) hfields'
    rw [hk, hl, Int32.toInt_inj.mp (hsize.symm.trans (hnanos.trans hsize'))]
    exact .same

theorem told_duration (hm : m.WellTyped registry) (hn : n.WellTyped registry)
    (hd : m.descriptor.WellFormed registry) (hdescriptor : m.descriptor = n.descriptor)
    (htype : m.descriptor.wellKnown? = some .duration) : Told registry m n := by
  intro json other hjson hother h
  have htype' : n.descriptor.wellKnown? = some .duration := by rw [← hdescriptor, htype]
  rw [messageJson_duration htype, durationJson] at hjson
  rw [messageJson_duration htype', durationJson] at hother
  cases htext : Time.duration? (seconds m) (nanos m) with
  | none =>
      rw [htext] at hjson
      cases hjson
  | some text =>
      cases htext' : Time.duration? (seconds n) (nanos n) with
      | none =>
          rw [htext'] at hother
          cases hother
      | some text' =>
          rw [htext] at hjson
          rw [htext'] at hother
          cases hjson
          cases hother
          obtain ⟨hseconds, hnanos⟩ := Time.duration?_injective htext (h.string_inj ▸ htext')
          exact agrees_of_time hm hn hd hdescriptor (hd.declares htype) (by simp [htype]) hseconds
            hnanos

theorem told_timestamp (hm : m.WellTyped registry) (hn : n.WellTyped registry)
    (hd : m.descriptor.WellFormed registry) (hdescriptor : m.descriptor = n.descriptor)
    (htype : m.descriptor.wellKnown? = some .timestamp) : Told registry m n := by
  have hwritten {p : Message} {json : Json} (hp : p.descriptor.wellKnown? = some .timestamp)
      (hjson : messageJson registry p = .ok json) :
      0 ≤ nanos p ∧ nanos p < 1000000000 ∧
        json = .string (Time.timestamp (seconds p) (nanos p).toNat) := by
    rw [messageJson_timestamp hp, timestampJson] at hjson
    split at hjson
    next => cases hjson
    next hnanos =>
      split at hjson
      next => cases hjson
      next =>
        cases hjson
        simp only [Bool.or_eq_true, decide_eq_true_eq, not_or] at hnanos
        exact ⟨by omega, by omega, rfl⟩
  intro json other hjson hother h
  obtain ⟨hlow, hhigh, rfl⟩ := hwritten htype hjson
  obtain ⟨hlow', hhigh', rfl⟩ := hwritten (hdescriptor ▸ htype) hother
  obtain ⟨hseconds, hnanos⟩ := Time.timestamp_injective (by omega) (by omega) h.string_inj
  exact agrees_of_time hm hn hd hdescriptor (hd.declares htype) (by simp [htype]) hseconds
    (by omega)

/-! Structs, lists and values. -/

/-- JSON that holds other JSON. -/
def Holding : Json → Prop
  | .array items => items ≠ []
  | .object members => members ≠ []
  | _ => False

theorem holding_of_repeated {content : Content} (hcontent : Content.Fits registry field content)
    (hrepeated : field.repeated = true) {json : Json}
    (hjson : contentJson registry field content = .ok json) : Holding json := by
  cases hcontent with
  | single hsingle =>
      rw [hrepeated] at hsingle
      cases hsingle
  | list _ _ hne _ =>
      rw [contentJson_list] at hjson
      obtain ⟨items, hitems, rfl⟩ := Except.map_eq_ok_iff.mp hjson
      have hlength := (listJson_eq_ok hitems).1
      rintro rfl
      exact hne (List.length_eq_zero_iff.mp hlength.symm)
  | @map _ name entry entries hmap hne hsorted hkeys _ =>
      rw [contentJson_map, show mapValueKind registry field = entry.value by
        simp [mapValueKind, hmap]] at hjson
      obtain ⟨members, hmembers, rfl⟩ := Except.map_eq_ok_iff.mp hjson
      rintro rfl
      cases entries with
      | nil => exact hne rfl
      | cons first rest =>
          obtain ⟨json, hjson, _⟩ :=
            (entriesJson_eq_ok (nodup_texts hsorted hkeys) hmembers).1 first List.mem_cons_self
          cases hjson

theorem not_holding_of_same {json : Json}
    (h : Json.Same json (.object []) ∨ Json.Same json (.array []) ∨ Json.Same (.object []) json ∨
      Json.Same (.array []) json) : ¬Holding json := by
  intro hholding
  rcases h with h | h | h | h
  · cases h with
    | @object members _ hsame =>
        cases members with
        | nil => exact hholding rfl
        | cons member members => simpa [Entries.get?] using hsame member.1
  · cases h with
    | array hlength => exact hholding (List.length_eq_zero_iff.mp hlength)
  · cases h with
    | @object _ members hsame =>
        cases members with
        | nil => exact hholding rfl
        | cons member members => simpa [Entries.get?] using hsame member.1
  · cases h with
    | array hlength => exact hholding (List.length_eq_zero_iff.mp hlength.symm)

/-- Messages of one repeated field that are written as what it holds. -/
theorem told_repeated (hregistry : registry.WellFormed) (hm : m.WellTyped registry)
    (hn : n.WellTyped registry) (hd : m.descriptor.WellFormed registry)
    (hdescriptor : m.descriptor = n.descriptor)
    (htold : ∀ inner found : Message, inner.Inside m → found.Inside n →
      inner.descriptor = found.descriptor → Told registry inner found)
    (hany : m.descriptor.wellKnown? ≠ some .any) (hrepeated : field.repeated = true)
    (hfields : m.descriptor.fields = [field]) {default : Json}
    (hdefault : default = .object [] ∨ default = .array [])
    (hjson : messageJson registry m =
      (membersJson registry m).map (memberOr default field.jsonName))
    (hother : messageJson registry n =
      (membersJson registry n).map (memberOr default field.jsonName)) : Told registry m n := by
  have hfield : field ∈ m.descriptor.fields := by
    rw [hfields]
    exact List.mem_singleton_self field
  have hholding {p : Message} (hp : p.WellTyped registry) (hmem : field ∈ p.descriptor.fields)
      {json? : Option Json} (hgiven : memberJson registry field p.contents = .ok json?)
      {json : Json} (hsome : json? = some json) : Holding json := by
    obtain ⟨content, hcontent, hjson⟩ := (memberJson_eq_ok hgiven).2 json hsome
    exact holding_of_repeated (hp.fits hmem hcontent) hrepeated hjson
  intro json other hm' hn' h
  rw [hjson] at hm'
  rw [hother] at hn'
  obtain ⟨members, hmembers, rfl⟩ := Except.map_eq_ok_iff.mp hm'
  obtain ⟨found, hfound, rfl⟩ := Except.map_eq_ok_iff.mp hn'
  have hgiven := (membersJson_eq_ok hd hmembers).1 field hfield
  have hgiven' := (membersJson_eq_ok (hdescriptor ▸ hd) hfound).1 field (hdescriptor ▸ hfield)
  refine .of_fields hdescriptor ?_ (hm.payload?_eq_none hany)
    (hn.payload?_eq_none (hdescriptor ▸ hany))
  intro own hown
  rw [hfields, List.mem_singleton] at hown
  subst hown
  -- A list or map that is stored is not written as the default, so that both have one or none.
  unfold memberOr at h
  cases hleft : Entries.get? own.jsonName members with
  | none =>
      cases hright : Entries.get? own.jsonName found with
      | none =>
          rw [hleft] at hgiven
          rw [hright] at hgiven'
          exact memberJson_same hregistry hm hn hdescriptor hfield htold hgiven hgiven' rfl nofun
      | some other =>
          rw [hleft, hright] at h
          refine absurd (hholding hn (hdescriptor ▸ hfield) hgiven' hright) (not_holding_of_same ?_)
          rcases hdefault with rfl | rfl
          · exact .inr (.inr (.inl h))
          · exact .inr (.inr (.inr h))
  | some json =>
      cases hright : Entries.get? own.jsonName found with
      | none =>
          rw [hleft, hright] at h
          refine absurd (hholding hm hfield hgiven hleft) (not_holding_of_same ?_)
          rcases hdefault with rfl | rfl
          · exact .inl h
          · exact .inr (.inl h)
      | some other =>
          rw [hleft, hright] at h
          rw [hleft] at hgiven
          rw [hright] at hgiven'
          refine memberJson_same hregistry hm hn hdescriptor hfield htold hgiven hgiven' rfl ?_
          rintro _ _ ⟨⟩ ⟨⟩
          exact h

/-- The member of a `Value` that JSON is written for. -/
def memberOf : Json → String
  | .null => "null_value"
  | .int _ | .double _ => "number_value"
  | .string _ => "string_value"
  | .bool _ => "bool_value"
  | .object _ => "struct_value"
  | .array _ => "list_value"

theorem memberOf_same {json other : Json} (h : Json.Same json other) :
    memberOf json = memberOf other := by
  cases h <;> rfl

theorem memberOf_doubleJson {x : Double} (hfinite : x.isFinite = true) :
    memberOf (doubleJson x) = "number_value" := by
  simp only [Ieee.isFinite, decide_eq_true_eq] at hfinite
  rcases doubleJson_cases x with ⟨hx, _⟩ | ⟨hx, _⟩ | ⟨_, _, _, hjson⟩ | ⟨_, hjson⟩
  · simp only [Ieee.isNaN, decide_eq_true_eq] at hx
    omega
  · simp only [Ieee.isInfinite, decide_eq_true_eq] at hx
    omega
  · rw [hjson]
    rfl
  · rw [hjson]
    rfl

/-- The member that is set is all that a `Value` holds, and what it is written as. -/
theorem structValue_eq_ok (hm : m.WellTyped registry) (hd : m.descriptor.WellFormed registry)
    (htype : m.descriptor.wellKnown? = some .value) {json : Json}
    (hjson : messageJson registry m = .ok json) :
    ∃ field value, field ∈ m.descriptor.fields ∧ m.content? field.number = some (.single value) ∧
      Value.HasKind registry field.kind value ∧ valueJson registry field.kind value = .ok json ∧
      (∀ x, value = .double x → x.isFinite = true) ∧
      ∀ other ∈ m.descriptor.fields, (m.content? other.number).isSome = true → other = field := by
  rw [messageJson_value htype] at hjson
  cases hmember : (m.member? "kind").bind m.descriptor.fieldNamed? with
  | none =>
      rw [hmember] at hjson
      cases hjson
  | some field =>
      obtain ⟨hfield, _, value, hcontent, hkind⟩ := hm.member hd hmember
      have hsingle : m.single? field.name = some value := by
        rw [single?_of_fieldNamed? (hd.fieldNamed? hfield), hcontent]
        rfl
      have hvalue : valueJson registry field.kind value = .ok json ∧
          ∀ x, value = .double x → x.isFinite = true := by
        simp only [hmember, hsingle, hcontent, Option.bind_some, Content.single?, Option.map_some,
          Option.getD_some] at hjson
        cases value with
        | double x =>
            simp only at hjson
            split at hjson
            next hfinite =>
              refine ⟨?_, ?_⟩
              · rw [valueJson_scalar (by rintro p ⟨⟩)]
                exact hjson
              · rintro _ ⟨⟩
                exact hfinite
            next => cases hjson
        | _ =>
            refine ⟨hjson, ?_⟩
            rintro _ ⟨⟩
      refine ⟨field, value, hfield, hcontent, hkind, hvalue.1, hvalue.2, ?_⟩
      exact fun other hother =>
        hm.member_unique hd hmember hother (hd.oneof_of_value htype other hother)

/-- A struct is written as an object. -/
theorem memberOf_struct (hm : m.WellTyped registry) (hd : m.descriptor.WellFormed registry)
    (htype : m.descriptor.wellKnown? = some .struct) {json : Json}
    (hjson : messageJson registry m = .ok json) : memberOf json = "struct_value" := by
  obtain ⟨hfields, hentry⟩ := hd.declares htype
  have hfield : Field.many "fields" 1 (.message Bundled.structEntry) ∈ m.descriptor.fields := by
    rw [hfields]
    exact List.mem_singleton_self _
  rw [messageJson_struct htype] at hjson
  obtain ⟨members, hmembers, rfl⟩ := Except.map_eq_ok_iff.mp hjson
  have hgiven := (membersJson_eq_ok hd hmembers).1 _ hfield
  rw [show (Field.many "fields" 1 (.message Bundled.structEntry)).jsonName = "fields" by decide]
    at hgiven
  unfold memberOr
  cases hfound : Entries.get? "fields" members with
  | none => rfl
  | some json =>
      obtain ⟨content, hcontent, hwritten⟩ := (memberJson_eq_ok hgiven).2 json hfound
      cases hm.fits hfield hcontent with
      | single hsingle => cases hsingle
      | list _ hlist => simp [Field.mapEntry?, Field.many, hentry, Descriptor.mapEntry?] at hlist
      | map =>
          rw [contentJson_map] at hwritten
          obtain ⟨_, _, rfl⟩ := Except.map_eq_ok_iff.mp hwritten
          rfl

/-- A list of values is written as an array. -/
theorem memberOf_listValue (hm : m.WellTyped registry) (hd : m.descriptor.WellFormed registry)
    (htype : m.descriptor.wellKnown? = some .listValue) {json : Json}
    (hjson : messageJson registry m = .ok json) : memberOf json = "list_value" := by
  obtain ⟨hfields, hvalue⟩ := hd.declares htype
  have hfield : Field.many "values" 1 (.message Bundled.structValue) ∈ m.descriptor.fields := by
    rw [hfields]
    exact List.mem_singleton_self _
  rw [messageJson_listValue htype] at hjson
  obtain ⟨members, hmembers, rfl⟩ := Except.map_eq_ok_iff.mp hjson
  have hgiven := (membersJson_eq_ok hd hmembers).1 _ hfield
  rw [show (Field.many "values" 1 (.message Bundled.structValue)).jsonName = "values" by decide]
    at hgiven
  unfold memberOr
  cases hfound : Entries.get? "values" members with
  | none => rfl
  | some json =>
      obtain ⟨content, hcontent, hwritten⟩ := (memberJson_eq_ok hgiven).2 json hfound
      cases hm.fits hfield hcontent with
      | single hsingle => cases hsingle
      | map hmap =>
          simp only [Field.mapEntry?, Field.many, Option.bind_eq_bind, Option.bind_eq_some_iff,
            Option.pure_def] at hmap
          obtain ⟨descriptor, hknown, entry, hentry, _⟩ := hmap
          rw [hvalue descriptor hknown] at hentry
          cases hentry
      | list =>
          rw [contentJson_list] at hwritten
          obtain ⟨_, _, rfl⟩ := Except.map_eq_ok_iff.mp hwritten
          rfl

/-- JSON tells which member of a `Value` is set. -/
theorem memberOf_valueJson (hregistry : registry.WellFormed)
    (hd : m.descriptor.WellFormed registry) (htype : m.descriptor.wellKnown? = some .value)
    (hfield : field ∈ m.descriptor.fields) {value : Value}
    (hvalue : Value.HasKind registry field.kind value)
    (hfinite : ∀ x, value = .double x → x.isFinite = true) {json : Json}
    (hjson : valueJson registry field.kind value = .ok json) : memberOf json = field.name := by
  obtain ⟨hfields, hstruct, hlist⟩ := hd.declares htype
  have hscalar (h : field.kind.isMessage = false) : Value.IsScalar field.kind value ∧
      json = scalarJson registry field.kind value := by
    rcases hvalue.cases with hscalar | ⟨_, _, _, _, hkind, _⟩
    · rw [valueJson_scalar hscalar.ne_message] at hjson
      exact ⟨hscalar, (Except.ok.inj hjson).symm⟩
    · rw [hkind] at h
      cases h
  rw [hfields] at hfield
  simp only [List.mem_cons, List.not_mem_nil, or_false] at hfield
  rcases hfield with rfl | rfl | rfl | rfl | rfl | rfl
  · obtain ⟨hkind, rfl⟩ := hscalar rfl
    cases hkind
    rfl
  · obtain ⟨hkind, rfl⟩ := hscalar rfl
    cases hkind
    exact memberOf_doubleJson (hfinite _ rfl)
  · obtain ⟨hkind, rfl⟩ := hscalar rfl
    cases hkind
    rfl
  · obtain ⟨hkind, rfl⟩ := hscalar rfl
    cases hkind
    rfl
  · rcases hvalue.cases with hscalar | ⟨inner, hinner, rfl, name, hkind, hknown⟩
    · cases hscalar
    · cases hkind
      rw [valueJson_message] at hjson
      exact memberOf_struct hinner (hregistry.descriptors _ _ hknown).2 (hstruct _ hknown) hjson
  · rcases hvalue.cases with hscalar | ⟨inner, hinner, rfl, name, hkind, hknown⟩
    · cases hscalar
    · cases hkind
      rw [valueJson_message] at hjson
      exact memberOf_listValue hinner (hregistry.descriptors _ _ hknown).2 (hlist _ hknown) hjson

theorem told_value (hregistry : registry.WellFormed) (hm : m.WellTyped registry)
    (hn : n.WellTyped registry) (hd : m.descriptor.WellFormed registry)
    (hdescriptor : m.descriptor = n.descriptor)
    (htold : ∀ inner found : Message, inner.Inside m → found.Inside n →
      inner.descriptor = found.descriptor → Told registry inner found)
    (htype : m.descriptor.wellKnown? = some .value) : Told registry m n := by
  intro json other hjson hother h
  have htype' : n.descriptor.wellKnown? = some .value := by rw [← hdescriptor, htype]
  obtain ⟨field, value, hfield, hcontent, hkind, hwritten, hfinite, honly⟩ :=
    structValue_eq_ok hm hd htype hjson
  obtain ⟨field', value', hfield', hcontent', hkind', hwritten', hfinite', honly'⟩ :=
    structValue_eq_ok hn (hdescriptor ▸ hd) htype' hother
  -- The JSON tells which member is set, and of a oneof there is no other.
  have hname : field.name = field'.name := by
    rw [← memberOf_valueJson hregistry hd htype hfield hkind hfinite hwritten, memberOf_same h]
    exact memberOf_valueJson hregistry (hdescriptor ▸ hd) htype' hfield' hkind' hfinite' hwritten'
  rw [← hdescriptor] at hfield' honly'
  obtain rfl := hd.eq_of_name hfield hfield' hname
  have hblank {p : Message} {own : Field} (hown : own ∈ m.descriptor.fields) :
      p.Blank own ↔ p.content? own.number = none := by
    rw [Blank]
    refine or_iff_left ?_
    rintro ⟨_, _, _, _, hnone, _⟩
    rw [hd.oneof_of_value htype own hown] at hnone
    cases hnone
  refine .of_fields hdescriptor ?_ (hm.payload?_eq_none (by simp [htype]))
    (hn.payload?_eq_none (by simp [htype']))
  intro own hown
  by_cases heq : own = field
  · subst heq
    refine ⟨?_, ?_⟩
    · rw [hblank hown, hblank hown, hcontent, hcontent']
      simp
    · intro content found hstored hstored' _
      rw [hcontent] at hstored
      rw [hcontent'] at hstored'
      cases hstored
      cases hstored'
      refine .single (valueJson_same hregistry hkind hkind' ?_ hwritten hwritten' h)
      rintro inner found rfl rfl
      exact htold inner found (HeldBy.single.inside hcontent) (HeldBy.single.inside hcontent')
  · have hnone : m.content? own.number = none := by
      rw [← Option.not_isSome_iff_eq_none]
      exact fun hset => heq (honly own hown hset)
    have hnone' : n.content? own.number = none := by
      rw [← Option.not_isSome_iff_eq_none]
      exact fun hset => heq (honly' own hown hset)
    refine ⟨by rw [hblank hown, hblank hown, hnone, hnone'], ?_⟩
    intro content _ hstored
    rw [hnone] at hstored
    cases hstored

/-! An `Any` and its payload. -/

/-- The plain fields of an `Any` that is bare are blank. -/
theorem blank_of_bare (hm : m.WellTyped registry) (hd : m.descriptor.WellFormed registry)
    (htype : m.descriptor.wellKnown? = some .any) (hbare : Binding.Bare m) :
    ∀ field ∈ m.descriptor.fields, m.Blank field := by
  obtain ⟨hurl, hbytes⟩ := hbare htype
  have hfields := hd.fields_of_any htype
  intro field hfield
  have hcases : field = .single "type_url" 1 .string ∨ field = .single "value" 2 .bytes := by
    rw [hfields] at hfield
    simpa using hfield
  have hnamed := hd.fieldNamed? hfield
  rcases hcases with rfl | rfl
  · rw [blank_iff_isZero hm hfield ⟨rfl, rfl, rfl, rfl, by decide⟩ rfl]
    rcases valueOr_cases hm hfield ⟨rfl, rfl, rfl, rfl, by decide⟩ (.string "") with
      ⟨_, hvalue⟩ | ⟨value, hcontent, hvalue, hscalar⟩
    · rw [hvalue]
      rfl
    · cases hscalar with
      | @string text =>
          have hsingle : m.single? "type_url" = _ := single?_of_fieldNamed? hnamed
          rw [Message.string, hsingle, hcontent] at hurl
          rw [hvalue, Value.isZero]
          exact decide_eq_true hurl
  · rw [blank_iff_isZero hm hfield ⟨rfl, rfl, rfl, rfl, by decide⟩ rfl]
    rcases valueOr_cases hm hfield ⟨rfl, rfl, rfl, rfl, by decide⟩ (.bytes []) with
      ⟨_, hvalue⟩ | ⟨value, hcontent, hvalue, hscalar⟩
    · rw [hvalue]
      rfl
    · cases hscalar with
      | @bytes bytes =>
          have hsingle : m.single? "value" = _ := single?_of_fieldNamed? hnamed
          rw [Binding.holdsBytes, hsingle, hcontent] at hbytes
          rw [hvalue, Value.isZero]
          simpa [Content.single?] using hbytes

/-- A payload is written beside its type URL. -/
theorem any_eq_ok (hd : m.descriptor.WellFormed registry)
    (htype : n.descriptor.wellKnown? = some .any) {url : String}
    (hpayload : n.payload? = some (url, m)) {json : Json}
    (hjson : messageJson registry n = .ok json) :
    ∃ members, json = .object members ∧ Entries.get? "@type" members = some (.string url) ∧
      (m.descriptor.wellKnown? ≠ none → ∃ own, messageJson registry m = .ok own ∧
        Entries.get? "value" members = some own) ∧
      (m.descriptor.wellKnown? = none → ∃ more, messageJson registry m = .ok (.object more) ∧
        Entries.get? "@type" more = none ∧
        ∀ key, key ≠ "@type" → Entries.get? key members = Entries.get? key more) := by
  rcases messageJson_payload hd htype hpayload hjson with
    ⟨hsome, own, hown, rfl⟩ | ⟨hnone, more, hmore, htag, rfl⟩
  · refine ⟨_, rfl, rfl, fun _ => ⟨own, hown, rfl⟩, fun hnone => ?_⟩
    rw [hnone] at hsome
    cases hsome
  · refine ⟨_, rfl, rfl, fun hno => absurd hnone hno, fun _ => ⟨more, hmore, ?_, ?_⟩⟩
    · exact Entries.get?_eq_none_iff.mpr htag
    · intro key hkey
      rw [Entries.get?, if_neg hkey.symm]

/-- Two payloads that are written alike stand under one type URL and agree. -/
theorem told_payload (hm : m.WellTyped registry) (hn : n.WellTyped registry)
    {url url' : String} {inner found : Message} (hinner : inner.descriptor.WellFormed registry)
    (hfound : found.descriptor.WellFormed registry)
    (htold : inner.descriptor = found.descriptor → Told registry inner found)
    (hpayload : m.payload? = some (url, inner)) (hpayload' : n.payload? = some (url', found))
    {json other : Json} (hjson : messageJson registry m = .ok json)
    (hother : messageJson registry n = .ok other) (h : Json.Same json other) :
    url = url' ∧ inner.Agrees registry found := by
  obtain ⟨htype, hresolve⟩ := hm.payload_any hpayload
  obtain ⟨htype', hresolve'⟩ := hn.payload_any hpayload'
  obtain ⟨members, rfl, htag, hvalue, hplain⟩ := any_eq_ok hinner htype hpayload hjson
  obtain ⟨members', rfl, htag', hvalue', hplain'⟩ := any_eq_ok hfound htype' hpayload' hother
  cases h with
  | object hsame hmember =>
      obtain rfl : url = url' := (hmember "@type" _ _ htag htag').string_inj
      have hdescriptor : inner.descriptor = found.descriptor :=
        Option.some.inj (hresolve.symm.trans hresolve')
      have hagrees := htold hdescriptor
      refine ⟨rfl, ?_⟩
      cases hown : inner.descriptor.wellKnown? with
      | some own =>
          obtain ⟨json, hjson, hfound⟩ := hvalue (by simp [hown])
          obtain ⟨other, hother, hfound'⟩ := hvalue' (by simp [← hdescriptor, hown])
          exact hagrees _ _ hjson hother (hmember "value" _ _ hfound hfound')
      | none =>
          obtain ⟨more, hmore, hnone, hkeys⟩ := hplain hown
          obtain ⟨more', hmore', hnone', hkeys'⟩ := hplain' (by rw [← hdescriptor, hown])
          refine hagrees _ _ hmore hmore' (.object ?_ ?_)
          · intro key
            by_cases hkey : key = "@type"
            · rw [hkey, hnone, hnone']
            · rw [← hkeys key hkey, ← hkeys' key hkey, hsame]
          · intro key a b ha hb
            by_cases hkey : key = "@type"
            · rw [hkey, hnone] at ha
              cases ha
            · rw [← hkeys key hkey] at ha
              rw [← hkeys' key hkey] at hb
              exact hmember key a b ha hb

theorem told_any (hregistry : registry.WellFormed) (hm : m.WellTyped registry)
    (hn : n.WellTyped registry) (hd : m.descriptor.WellFormed registry)
    (hdescriptor : m.descriptor = n.descriptor)
    (htold : ∀ inner found : Message, inner.Inside m → found.Inside n →
      inner.descriptor = found.descriptor → Told registry inner found)
    (hbare : Binding.Bare m) (hbare' : Binding.Bare n)
    (htype : m.descriptor.wellKnown? = some .any) : Told registry m n := by
  intro json other hjson hother h
  have htype' : n.descriptor.wellKnown? = some .any := by rw [← hdescriptor, htype]
  have hblank := blank_of_bare hm hd htype hbare
  have hblank' := blank_of_bare hn (hdescriptor ▸ hd) htype' hbare'
  have hwellFormed {p inner : Message} (hp : p.WellTyped registry) (hinner : inner.Inside p) :
      inner.descriptor.WellFormed registry := by
    obtain ⟨_, name, hname⟩ := hp.inside hinner
    exact (hregistry.descriptors name _ hname).2
  -- The plain fields are blank on both sides, so that only the payloads are left to compare.
  have hpayloads : m.payload?.map Prod.fst = n.payload?.map Prod.fst ∧
      ∀ payload found, m.payload? = some payload → n.payload? = some found →
        payload.2.Agrees registry found.2 := by
    cases hpayload : m.payload? with
    | none =>
        rw [messageJson_any htype, hpayload] at hjson
        cases hjson
        cases hpayload' : n.payload? with
        | none => exact ⟨rfl, nofun⟩
        | some found =>
            obtain ⟨url, found⟩ := found
            obtain ⟨members, rfl, htag, _⟩ :=
              any_eq_ok (hwellFormed hn (.payload hpayload')) htype' hpayload' hother
            cases h with
            | object hsame => simpa [htag, Entries.get?] using hsame "@type"
    | some payload =>
        obtain ⟨url, inner⟩ := payload
        cases hpayload' : n.payload? with
        | none =>
            obtain ⟨members, rfl, htag, _⟩ :=
              any_eq_ok (hwellFormed hm (.payload hpayload)) htype hpayload hjson
            rw [messageJson_any htype', hpayload'] at hother
            cases hother
            cases h with
            | object hsame => simpa [htag, Entries.get?] using hsame "@type"
        | some found =>
            obtain ⟨url', found⟩ := found
            obtain ⟨rfl, hagrees⟩ := told_payload hm hn (hwellFormed hm (.payload hpayload))
              (hwellFormed hn (.payload hpayload'))
              (htold inner found (.payload hpayload) (.payload hpayload')) hpayload hpayload' hjson
              hother h
            refine ⟨rfl, ?_⟩
            rintro _ _ ⟨⟩ ⟨⟩
            exact hagrees
  refine .mk hdescriptor ?_ ?_ hpayloads.1 hpayloads.2
  · intro field hfield
    exact iff_of_true (hblank field hfield) (hblank' field (hdescriptor ▸ hfield))
  · intro field hfield _ _ _ _ hno
    exact absurd (hblank field hfield) hno

/-! All messages, by induction from those inside out. -/

/-- What JSON tells apart: messages that are bare, and no field masks. -/
def Distinct (m : Message) : Prop :=
  Binding.Bare m ∧ m.descriptor.wellKnown? ≠ some .fieldMask

theorem told (hregistry : registry.WellFormed) (hm : m.WellTyped registry)
    (hn : n.WellTyped registry) (hd : m.descriptor.WellFormed registry)
    (hdescriptor : m.descriptor = n.descriptor) (hdistinct : m.Throughout Distinct)
    (hdistinct' : n.Throughout Distinct) : Told registry m n := by
  -- By messages from those inside out, which both messages have of the same types.
  induction m using inside_induction generalizing n with
  | step m ih =>
      obtain ⟨⟨hbare, hmask⟩, hinside⟩ := throughout_iff.mp hdistinct
      obtain ⟨⟨hbare', _⟩, hinside'⟩ := throughout_iff.mp hdistinct'
      have htold : ∀ inner found : Message, inner.Inside m → found.Inside n →
          inner.descriptor = found.descriptor → Told registry inner found := by
        intro inner found hinner hfound hsame
        obtain ⟨hwellTyped, name, hname⟩ := hm.inside hinner
        exact ih inner hinner hwellTyped (hn.inside hfound).1
          (hregistry.descriptors name _ hname).2 hsame (hinside inner hinner)
          (hinside' found hfound)
      cases htype : m.descriptor.wellKnown? with
      | none =>
          intro json other hjson hother h
          have htype' : n.descriptor.wellKnown? = none := by rw [← hdescriptor, htype]
          rw [messageJson_plain htype] at hjson
          rw [messageJson_plain htype'] at hother
          obtain ⟨members, hmembers, rfl⟩ := Except.map_eq_ok_iff.mp hjson
          obtain ⟨found, hfound, rfl⟩ := Except.map_eq_ok_iff.mp hother
          exact .of_fields hdescriptor
            (membersJson_same hregistry hm hn hd hdescriptor htold hmembers hfound h)
            (hm.payload?_eq_none (by simp [htype])) (hn.payload?_eq_none (by simp [htype']))
      | some type =>
          have hother : n.descriptor.wellKnown? = some type := by rw [← hdescriptor, htype]
          cases type with
          | any => exact told_any hregistry hm hn hd hdescriptor htold hbare hbare' htype
          | empty =>
              intro _ _ _ _ _
              refine .of_fields hdescriptor ?_ (hm.payload?_eq_none (by simp [htype]))
                (hn.payload?_eq_none (by simp [hother]))
              rw [show m.descriptor.fields = [] from hd.declares htype]
              exact nofun
          | duration => exact told_duration hm hn hd hdescriptor htype
          | timestamp => exact told_timestamp hm hn hd hdescriptor htype
          | wrapper => exact told_wrapper hregistry hm hn hd hdescriptor htype
          | struct =>
              exact told_repeated hregistry hm hn hd hdescriptor htold (by simp [htype]) rfl
                (hd.declares htype).1 (.inl rfl) (messageJson_struct htype)
                (messageJson_struct hother)
          | value => exact told_value hregistry hm hn hd hdescriptor htold htype
          | listValue =>
              exact told_repeated hregistry hm hn hd hdescriptor htold (by simp [htype]) rfl
                (hd.declares htype).1 (.inr rfl) (messageJson_listValue htype)
                (messageJson_listValue hother)
          | fieldMask => exact absurd htype hmask

end Encoding

end Textproto
