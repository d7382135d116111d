import Textproto.Proofs.Binding.Typed
import Textproto.Proofs.Encoding.Forms

namespace Textproto

/-! Well-typed messages are not refused for their form. -/

/-- Whether a cause lays the blame on the form of a message, not on the values it holds. -/
def EncodeCause.isForm : EncodeCause → Bool
  | noWrapperValue => true
  | notSingle _ => true
  | _ => false

namespace Encoding

/-- What fails does not fail for the form of a message. -/
def Formed {α : Type} (result : Except EncodeError α) : Prop :=
  ∀ error, result = .error error → error.cause.isForm = false

theorem formed_ok {α : Type} (a : α) : Formed (.ok a) := by
  intro error h
  cases h

theorem Formed.bind {α β : Type} {first : Except EncodeError α}
    {second : α → Except EncodeError β} (h : Formed first) (h' : ∀ a, Formed (second a)) :
    Formed (first >>= second) := by
  cases first with
  | error error =>
      intro other hother
      cases hother
      exact h error rfl
  | ok a => exact h' a

theorem Formed.map {α β : Type} {result : Except EncodeError α} (h : Formed result) (f : α → β) :
    Formed (result.map f) := by
  cases result with
  | error error =>
      intro other hother
      cases hother
      exact h error rfl
  | ok a => exact formed_ok _

theorem formed_gather {member : Field → Except EncodeError (Option Json)} {fields : List Field}
    (h : ∀ field ∈ fields, Formed (member field)) (members : List (String × Json)) :
    Formed (gather member members fields) := by
  induction fields generalizing members with
  | nil => exact formed_ok _
  | cons field fields ih =>
      have hrest := ih fun other hother => h other (List.mem_cons_of_mem _ hother)
      refine (h field List.mem_cons_self).bind fun found => ?_
      cases found with
      | none => exact hrest members
      | some json => exact hrest _

variable {registry : Registry}

theorem formed_valueJson {kind : Kind} {value : Value}
    (h : ∀ m, value = .message m → Formed (messageJson registry m)) :
    Formed (valueJson registry kind value) := by
  cases value with
  | message m =>
      rw [valueJson_message]
      exact h m rfl
  | _ =>
      rw [valueJson_scalar]
      · exact formed_ok _
      · exact nofun

theorem formed_listJson {kind : Kind} {values : List Value}
    (h : ∀ m, .message m ∈ values → Formed (messageJson registry m)) :
    Formed (listJson registry kind values) := by
  induction values with
  | nil =>
      rw [listJson]
      exact formed_ok _
  | cons value rest ih =>
      rw [listJson]
      refine (formed_valueJson fun m hm => h m (hm ▸ List.mem_cons_self)).bind fun json => ?_
      refine (ih fun m hm => h m (List.mem_cons_of_mem _ hm)).bind fun more => ?_
      exact formed_ok _

theorem formed_entriesJson {kind : Kind} {entries : List (Key × Value)}
    (h : ∀ key m, (key, .message m) ∈ entries → Formed (messageJson registry m))
    (members : List (String × Json)) : Formed (entriesJson registry kind members entries) := by
  induction entries generalizing members with
  | nil =>
      rw [entriesJson]
      exact formed_ok _
  | cons entry rest ih =>
      obtain ⟨key, value⟩ := entry
      rw [entriesJson]
      refine (formed_valueJson fun m hm => h key m (hm ▸ List.mem_cons_self)).bind fun json => ?_
      exact ih (fun key m hm => h key m (List.mem_cons_of_mem _ hm)) _

section

variable {m : Message}

/-- Whatever a message stores is not refused for its form, if what is inside it is not. -/
theorem formed_memberJson
    (h : ∀ inner, inner.Inside m → Formed (messageJson registry inner)) (field : Field) :
    Formed (memberJson registry field m.contents) := by
  rw [memberJson_eq]
  cases hcontent : m.content? field.number with
  | none => exact formed_ok _
  | some content =>
      have hmem := Entries.mem_of_get? hcontent
      simp only
      split
      next =>
        refine Formed.map ?_ _
        cases content with
        | single value =>
            rw [contentJson_single]
            exact formed_valueJson fun inner hinner => h inner (.single (hinner ▸ hmem))
        | list values =>
            rw [contentJson_list]
            exact (formed_listJson fun inner hinner => h inner (.list hmem hinner)).map _
        | map entries =>
            rw [contentJson_map]
            exact (formed_entriesJson (fun key inner hinner => h inner (.map hmem hinner)) []).map _
      next => exact formed_ok _

theorem formed_membersJson
    (h : ∀ inner, inner.Inside m → Formed (messageJson registry inner)) :
    Formed (membersJson registry m) := by
  rw [membersJson_eq]
  exact formed_gather (fun field _ => formed_memberJson h field) []

theorem formed_camelPaths (paths : List Value) : Formed (camelPaths paths) := by
  induction paths with
  | nil => exact formed_ok _
  | cons path rest ih =>
      simp only [camelPaths]
      split
      next =>
        intro error herror
        cases herror
        rfl
      next => exact ih.map _

theorem formed_durationJson (seconds nanos : Int) : Formed (durationJson seconds nanos) := by
  unfold durationJson
  split
  next => exact formed_ok _
  next =>
    intro error herror
    cases herror
    rfl

theorem formed_timestampJson (seconds nanos : Int) : Formed (timestampJson seconds nanos) := by
  unfold timestampJson
  split
  next =>
    intro error herror
    cases herror
    rfl
  next =>
    split
    next =>
      intro error herror
      cases herror
      rfl
    next => exact formed_ok _

/-- The value of a `Value` is one that its descriptor names, stored as a single one. -/
theorem formed_structValue (hm : m.WellTyped registry) (hd : m.descriptor.WellFormed registry)
    (hvalue : m.descriptor.wellKnown? = some .value)
    (h : ∀ inner, inner.Inside m → Formed (messageJson registry inner)) :
    Formed (messageJson registry m) := by
  rw [messageJson_value hvalue]
  cases hmember : (m.member? "kind").bind m.descriptor.fieldNamed? with
  | none =>
      intro error herror
      cases herror
      rfl
  | some field =>
      obtain ⟨_, _, value, hcontent, _⟩ := hm.member hd hmember
      simp only
      split
      next x _ =>
        split
        next => exact formed_ok _
        next =>
          intro error herror
          cases herror
          rfl
      next =>
        rw [hcontent]
        refine formed_valueJson fun inner hinner => ?_
        subst hinner
        exact h inner (.single (Entries.mem_of_get? hcontent))

/-- The first field of a wrapper is a scalar with a zero value. -/
theorem wrapper_zero (hd : m.descriptor.WellFormed registry)
    (hwrapper : m.descriptor.wellKnown? = some .wrapper) :
    ∃ field zero, m.descriptor.fields = [field] ∧ Value.zero? field.kind = some zero ∧
      field ∈ m.descriptor.fields := by
  obtain ⟨kind, hkind, _, hfields⟩ := hd.declares hwrapper
  rw [hfields]
  cases kind <;> first | exact ⟨_, _, rfl, rfl, List.mem_singleton_self _⟩ | cases hkind

theorem formed_wrapper (hd : m.descriptor.WellFormed registry)
    (hwrapper : m.descriptor.wellKnown? = some .wrapper)
    (h : ∀ inner, inner.Inside m → Formed (messageJson registry inner)) :
    Formed (messageJson registry m) := by
  obtain ⟨field, zero, hfields, hzero, _⟩ := wrapper_zero hd hwrapper
  rw [messageJson_wrapper hwrapper hfields hzero]
  cases hcontent : m.content? field.number with
  | none => exact formed_ok _
  | some content =>
      cases content with
      | single value =>
          refine formed_valueJson fun inner hinner => ?_
          subst hinner
          exact h inner (.single (Entries.mem_of_get? hcontent))
      | list values => exact formed_ok _
      | map entries => exact formed_ok _

theorem formed_any (hany : m.descriptor.wellKnown? = some .any)
    (h : ∀ inner, inner.Inside m →
      Formed (messageJson registry inner) ∧ Formed (membersJson registry inner)) :
    Formed (messageJson registry m) := by
  rw [messageJson_any hany]
  cases hpayload : m.payload? with
  | none => exact formed_ok _
  | some payload =>
      obtain ⟨url, inner⟩ := payload
      obtain ⟨hjson, hmembers⟩ := h inner (.payload hpayload)
      simp only
      split
      next => exact hjson.map _
      next => exact hmembers.map _

end

theorem formed_json (hregistry : registry.WellFormed) {m : Message}
    (hm : m.WellTyped registry) (hd : m.descriptor.WellFormed registry) :
    Formed (messageJson registry m) ∧ Formed (membersJson registry m) := by
  -- By messages from those inside out.
  induction m using Message.inside_induction with
  | step m ih =>
      have hinside (inner : Message) (hinner : inner.Inside m) :
          Formed (messageJson registry inner) ∧ Formed (membersJson registry inner) := by
        obtain ⟨hwellTyped, name, hname⟩ := hm.inside hinner
        exact ih inner hinner hwellTyped (hregistry.descriptors name _ hname).2
      have hformed : ∀ inner, inner.Inside m → Formed (messageJson registry inner) :=
        fun inner hinner => (hinside inner hinner).1
      have hmembers := formed_membersJson hformed
      refine ⟨?_, hmembers⟩
      cases htype : m.descriptor.wellKnown? with
      | none =>
          rw [messageJson_plain htype]
          exact hmembers.map _
      | some type =>
          cases type with
          | any => exact formed_any htype hinside
          | empty =>
              rw [messageJson_empty htype]
              exact formed_ok _
          | duration =>
              rw [messageJson_duration htype]
              exact formed_durationJson _ _
          | timestamp =>
              rw [messageJson_timestamp htype]
              exact formed_timestampJson _ _
          | wrapper => exact formed_wrapper hd htype hformed
          | struct =>
              rw [messageJson_struct htype]
              exact hmembers.map _
          | value => exact formed_structValue hm hd htype hformed
          | listValue =>
              rw [messageJson_listValue htype]
              exact hmembers.map _
          | fieldMask =>
              rw [messageJson_fieldMask htype]
              exact (formed_camelPaths _).map _

end Encoding

end Textproto
