import Textproto.Proofs.Decoding
import Textproto.Proofs.Encoding.Number
import Textproto.Proofs.Encoding.Written
import Textproto.Proofs.Encoding.Order
import Textproto.Proofs.Json.Near
import Textproto.Proofs.Message.Opposed

namespace Textproto

namespace Encoding

/-! Equal messages are written the same, except for zeros of opposite signs. -/

open Json Message

/-- Two results agree: the same failure, or values that are related. -/
inductive Outcome {α : Type} (R : α → α → Prop) :
    Except EncodeError α → Except EncodeError α → Prop
  | error {e : EncodeError} : Outcome R (.error e) (.error e)
  | ok {a b : α} : R a b → Outcome R (.ok a) (.ok b)

namespace Outcome

variable {α β : Type} {R : α → α → Prop} {S : β → β → Prop} {result other : Except EncodeError α}

theorem refl (hR : ∀ a, R a a) (result : Except EncodeError α) : Outcome R result result := by
  cases result with
  | error e => exact .error
  | ok a => exact .ok (hR a)

theorem mono {R' : α → α → Prop} (h : Outcome R result other) (hR : ∀ a b, R a b → R' a b) :
    Outcome R' result other := by
  cases h with
  | error => exact .error
  | ok hvalue => exact .ok (hR _ _ hvalue)

theorem map {f g : α → β} (h : Outcome R result other) (hnext : ∀ a b, R a b → S (f a) (g b)) :
    Outcome S (result.map f) (other.map g) := by
  cases h with
  | error => exact .error
  | ok hvalue => exact .ok (hnext _ _ hvalue)

theorem bind {next next' : α → Except EncodeError β} (h : Outcome R result other)
    (hnext : ∀ a b, R a b → Outcome S (next a) (next' b)) :
    Outcome S (result >>= next) (other >>= next') := by
  cases h with
  | error => exact .error
  | ok hvalue => exact hnext _ _ hvalue

end Outcome

variable {registry : Registry} {m n : Message}

/-! Scalars. -/

/-- A zero as a number. Only the negative one keeps its sign. -/
def zeroJson (negative : Bool) : Json :=
  if negative then .double Ieee.zero.neg else .int 0

theorem near_zeroJson (negative : Bool) : Near (zeroJson negative) (zeroJson !negative) := by
  cases negative with
  | false => exact .positive
  | true => exact .negative

theorem doubleJson_zero {x : Double} (h : x.code = 0) : doubleJson x = zeroJson x.negative := by
  rcases doubleJson_cases x with ⟨hnan, _⟩ | ⟨hinfinite, _⟩ | ⟨n, hn, hsign, hjson⟩ | ⟨hsign, hjson⟩
  · simp [Ieee.isNaN, h] at hnan
  · simp only [Ieee.isInfinite, h, decide_eq_true_eq] at hinfinite
    cases hinfinite
  · rw [toInt?_zero h, Option.some.injEq] at hn
    subst hn
    rw [hjson, zeroJson, if_neg (by simpa using hsign)]
  · rw [hjson, zeroJson, if_pos (hsign h), eq_of_code (w := Ieee.zero.neg) (hsign h) h]

theorem widen_zero {x : Single} (h : x.code = 0) :
    (widen x).code = 0 ∧ (widen x).negative = x.negative := by
  have hzero : x = .zero ∨ x = Ieee.zero.neg := by
    cases hnegative : x.negative with
    | false => exact .inl (eq_of_code hnegative h)
    | true => exact .inr (eq_of_code hnegative h)
  rcases hzero with rfl | rfl <;> decide +kernel

section

variable {f : Ieee.Format} {x y : Ieee f}

theorem negative_of_opposed (h : x.Opposed y) : y.negative = !x.negative :=
  Bool.eq_not.mpr (Ne.symm h.signs)

theorem isZero_of_code (h : x.code = 0) : decide (x = .zero) = !x.negative := by
  obtain ⟨negative, code, _⟩ := x
  cases h
  cases negative <;> simp [Ieee.zero]

theorem isFinite_of_code (h : x.code = 0) (hf : 0 < f.infinity) : x.isFinite = true := by
  rw [Ieee.isFinite, h]
  exact decide_eq_true hf

end

/-- One of two zeros of opposite signs is written with its sign and is no default. -/
theorem zeros_cases {value other : Value} (h : value.Zeros other) (kind : Kind) : ∃ negative,
    value.isZero = !negative ∧ other.isZero = negative ∧
      valueJson registry kind value = .ok (zeroJson negative) ∧
      valueJson registry kind other = .ok (zeroJson !negative) := by
  cases h with
  | @float x y hopposed =>
      have hsign := negative_of_opposed hopposed
      refine ⟨x.negative, isZero_of_code hopposed.left, ?_, ?_, ?_⟩
      · rw [Value.isZero, isZero_of_code hopposed.right, hsign, Bool.not_not]
      · obtain ⟨hcode, hnegative⟩ := widen_zero hopposed.left
        rw [valueJson_scalar (by simp), scalarJson, doubleJson_zero hcode, hnegative]
      · obtain ⟨hcode, hnegative⟩ := widen_zero hopposed.right
        rw [valueJson_scalar (by simp), scalarJson, doubleJson_zero hcode, hnegative, hsign]
  | @double x y hopposed =>
      have hsign := negative_of_opposed hopposed
      refine ⟨x.negative, isZero_of_code hopposed.left, ?_, ?_, ?_⟩
      · rw [Value.isZero, isZero_of_code hopposed.right, hsign, Bool.not_not]
      · rw [valueJson_scalar (by simp), scalarJson, doubleJson_zero hopposed.left]
      · rw [valueJson_scalar (by simp), scalarJson, doubleJson_zero hopposed.right, hsign]

/-! Values, lists and maps. -/

/-- Both messages are refused for the same reason, or written as nearly the same, by their type and
field by field. -/
structure NearlyWritten (registry : Registry) (m n : Message) : Prop where
  message : Outcome Near (messageJson registry m) (messageJson registry n)
  members : Outcome (NearMembers Near) (membersJson registry m) (membersJson registry n)

/-- What is held by two messages that are equal is nearly written the same. -/
def InnerNear (registry : Registry) (m : Message) : Prop :=
  ∀ inner other : Message, inner.Inside m → inner.equals other = true →
    NearlyWritten registry inner other

theorem outcome_valueJson (kind : Kind) {value other : Value} (h : value.Equal other)
    (hinner : ∀ m n, value = .message m → m.equals n = true → NearlyWritten registry m n) :
    Outcome Near (valueJson registry kind value) (valueJson registry kind other) := by
  rcases Value.equals_cases h with ⟨rfl, _⟩ | hzeros | ⟨m, n, rfl, rfl, hequal⟩
  · exact .refl (fun _ => .same) _
  · obtain ⟨negative, _, _, hvalue, hother⟩ := @zeros_cases registry _ _ hzeros kind
    rw [hvalue, hother]
    exact .ok (near_zeroJson negative)
  · rw [valueJson_message, valueJson_message]
    exact (hinner m n rfl hequal).message

theorem outcome_listJson (kind : Kind) {values others : List Value}
    (h : List.Forall₂ Value.Equal values others)
    (hinner : ∀ m n, .message m ∈ values → m.equals n = true → NearlyWritten registry m n) :
    Outcome (List.Forall₂ Near) (listJson registry kind values)
      (listJson registry kind others) := by
  induction h with
  | nil =>
      rw [listJson]
      exact .ok .nil
  | cons hvalue _ ih =>
      rw [listJson, listJson]
      have hfirst := outcome_valueJson kind hvalue fun m n hm =>
        hinner m n (hm ▸ List.mem_cons_self)
      have hrest := ih fun m n hm => hinner m n (List.mem_cons_of_mem _ hm)
      exact hfirst.bind fun _ _ hjson => hrest.bind fun _ _ hmore => .ok (.cons hjson hmore)

theorem outcome_entriesJson (kind : Kind) {entries others : List (Key × Value)}
    (h : List.Forall₂ (fun entry other => entry.1 = other.1 ∧ entry.2.Equal other.2)
      entries others)
    (hinner : ∀ m n, .message m ∈ entries.map Prod.snd → m.equals n = true →
      NearlyWritten registry m n) {members found : List (String × Json)}
    (hmembers : List.Forall₂ (fun member other => member.1 = other.1 ∧ Near member.2 other.2)
      members found) :
    Outcome (NearMembers Near) (entriesJson registry kind members entries)
      (entriesJson registry kind found others) := by
  induction h generalizing members found with
  | nil =>
      rw [entriesJson, entriesJson]
      exact .ok (.of_forall₂ hmembers)
  | @cons entry other _ _ hentry _ ih =>
      obtain ⟨key, value⟩ := entry
      obtain ⟨own, other⟩ := other
      obtain ⟨rfl, hvalue⟩ : key = own ∧ value.Equal other := hentry
      rw [entriesJson, entriesJson]
      have hfirst := outcome_valueJson kind hvalue fun m n hm =>
        hinner m n (hm ▸ List.mem_cons_self)
      exact hfirst.bind fun _ _ hjson => ih
        (fun m n hm => hinner m n (List.mem_cons_of_mem _ hm)) (forall₂_put hmembers key.text hjson)

theorem outcome_contentJson (field : Field) {content other : Content}
    (h : content.Rel Value.Equal other)
    (hinner : ∀ m n : Message, m.HeldBy content → m.equals n = true → NearlyWritten registry m n) :
    Outcome Near (contentJson registry field content) (contentJson registry field other) := by
  simp only [heldBy_iff] at hinner
  cases h with
  | single h =>
      rw [contentJson_single, contentJson_single]
      exact outcome_valueJson _ h fun m n hm => hinner m n (hm ▸ List.mem_cons_self)
  | list h =>
      rw [contentJson_list, contentJson_list]
      exact (outcome_listJson _ h hinner).map fun _ _ => .array
  | map h =>
      rw [contentJson_map, contentJson_map]
      exact (outcome_entriesJson _ h hinner .nil).map fun _ _ => .object

/-! Fields. -/

/-- Equal contents both show, except where a field hides one of two zeros. -/
theorem shows_of_equal (field : Field) {content other : Content}
    (h : content.Rel Value.Equal other) :
    shows field content = shows field other ∨
      ∃ value found, content = .single value ∧ other = .single found ∧ value.Zeros found := by
  cases h with
  | @single value other h =>
      rcases Value.equals_cases h with ⟨rfl, _⟩ | hzeros | ⟨m, n, rfl, rfl, _⟩
      · exact .inl rfl
      · exact .inr ⟨value, other, rfl, rfl, hzeros⟩
      · exact .inl rfl
  | list h => cases h <;> exact .inl rfl
  | map h => cases h <;> exact .inl rfl

/-- What a field gives, if it does not hide one of two zeros. -/
theorem outcome_memberJson_cases (h : m.Rel Value.Equal n) (hinner : InnerNear registry m)
    (field : Field) :
    Outcome (Option.Rel Near) (memberJson registry field m.contents)
        (memberJson registry field n.contents) ∨
      ∃ value found, m.content? field.number = some (.single value) ∧
        n.content? field.number = some (.single found) ∧ value.Zeros found := by
  rw [memberJson_eq, memberJson_eq]
  rcases h.content field.number with
    ⟨hnone, hnone'⟩ | ⟨content, other, hcontent, hother, hequal⟩
  · rw [hnone, hnone']
    exact .inl (.ok .none)
  · rw [hcontent, hother]
    rcases shows_of_equal field hequal with hshows | ⟨value, found, rfl, rfl, hzeros⟩
    · have hjson := outcome_contentJson field hequal fun m n hheld =>
        hinner m n (hheld.inside hcontent)
      simp only [hshows]
      split
      · exact .inl (hjson.map fun _ _ => .some)
      · exact .inl (.ok .none)
    · exact .inr ⟨value, found, rfl, rfl, hzeros⟩

theorem outcome_memberJson (h : m.Rel Value.Equal n) (hinner : InnerNear registry m)
    (field : Field) :
    Outcome NearMember (memberJson registry field m.contents)
      (memberJson registry field n.contents) := by
  rcases outcome_memberJson_cases h hinner field with
    hgiven | ⟨value, found, hvalue, hfound, hzeros⟩
  · exact hgiven.mono fun _ _ => .both
  · obtain ⟨negative, hzero, hzero', hjson, hjson'⟩ := @zeros_cases registry _ _ hzeros field.kind
    rw [memberJson_eq, memberJson_eq, hvalue, hfound]
    simp only [shows, contentJson_single, hzero, hzero', hjson, hjson', Except.map]
    cases field.presence || field.oneof.isSome || field.kind.isMessage with
    | true => exact .ok (.both (.some (near_zeroJson negative)))
    | false =>
        cases negative with
        | true => exact .ok .left
        | false => exact .ok .right

theorem outcome_gather {member member' : Field → Except EncodeError (Option Json)}
    {fields : List Field} {members others : List (String × Json)}
    (hmember : ∀ field ∈ fields, Outcome NearMember (member field) (member' field))
    (hnames : (fields.map Field.jsonName).Nodup)
    (hfresh : ∀ field ∈ fields, field.jsonName ∉ members.map Prod.fst)
    (hfresh' : ∀ field ∈ fields, field.jsonName ∉ others.map Prod.fst)
    (h : NearMembers Near members others) :
    Outcome (NearMembers Near) (gather member members fields) (gather member' others fields) := by
  induction fields generalizing members others with
  | nil =>
      rw [gather, gather]
      exact .ok h
  | cons field fields ih =>
      rw [List.map_cons, List.nodup_cons] at hnames
      have hrest := fun other hother => hmember other (List.mem_cons_of_mem field hother)
      have hnew := hfresh field List.mem_cons_self
      have hnew' := hfresh' field List.mem_cons_self
      have hkept := fun other hother => hfresh other (List.mem_cons_of_mem field hother)
      have hkept' := fun other hother => hfresh' other (List.mem_cons_of_mem field hother)
      have hput := fresh_put hnames.1 hkept
      have hput' := fresh_put hnames.1 hkept'
      rw [gather, gather]
      refine (hmember field List.mem_cons_self).bind fun given found hgiven => ?_
      cases hgiven with
      | both hjson =>
          cases hjson with
          | none => exact ih hrest hnames.2 hkept hkept' h
          | some hjson => exact ih hrest hnames.2 (hput _) (hput' _) (h.put hnew hnew' hjson)
      | left => exact ih hrest hnames.2 (hput _) hkept' (h.put_left hnew)
      | right => exact ih hrest hnames.2 hkept (hput' _) (h.put_right hnew')

theorem outcome_membersJson (hd : m.descriptor.WellFormed registry) (h : m.Rel Value.Equal n)
    (hinner : InnerNear registry m) :
    Outcome (NearMembers Near) (membersJson registry m) (membersJson registry n) := by
  rw [membersJson_eq, membersJson_eq, ← h.descriptor]
  exact outcome_gather (fun field _ => outcome_memberJson h hinner field) hd.jsonNames
    (fun _ _ => List.not_mem_nil) (fun _ _ => List.not_mem_nil) .nil

/-! Well-known types. -/

theorem map_memberOr_membersJson {field : Field} (hfields : m.descriptor.fields = [field])
    (default : Json) :
    (membersJson registry m).map (memberOr default field.jsonName) =
      (memberJson registry field m.contents).map fun given => given.getD default := by
  rw [membersJson_eq, hfields, gather]
  cases memberJson registry field m.contents with
  | error => rfl
  | ok given =>
      cases given with
      | none => rfl
      | some json =>
          simp [bind, Except.bind, gather, Except.map, memberOr, Entries.put, Entries.get?]

/-- Several values are never hidden, so that the only field of a type stands for the message. -/
theorem outcome_repeated (hm : m.WellTyped registry) (h : m.Rel Value.Equal n)
    (hinner : InnerNear registry m) {field : Field} (hfields : m.descriptor.fields = [field])
    (hrepeated : field.repeated = true) (default : Json) :
    Outcome Near ((membersJson registry m).map (memberOr default field.jsonName))
      ((membersJson registry n).map (memberOr default field.jsonName)) := by
  rw [map_memberOr_membersJson hfields, map_memberOr_membersJson (h.descriptor ▸ hfields)]
  have hfield : field ∈ m.descriptor.fields := hfields ▸ List.mem_singleton_self field
  rcases outcome_memberJson_cases h hinner field with hgiven | ⟨value, _, hvalue, _, _⟩
  · refine hgiven.map fun given found hjson => ?_
    cases hjson with
    | none => exact .same
    | some hjson => exact hjson
  · cases hm.fits hfield hvalue with
    | single hsingle =>
        rw [hrepeated] at hsingle
        cases hsingle

theorem outcome_singleJson? (h : m.Rel Value.Equal n) (hinner : InnerNear registry m)
    (kind : Kind) (number : Nat) :
    Option.Rel (Outcome Near) (singleJson? registry kind number m.contents)
      (singleJson? registry kind number n.contents) := by
  rw [singleJson?_eq, singleJson?_eq]
  rcases h.content number with ⟨hnone, hnone'⟩ | ⟨content, other, hcontent, hother, hequal⟩
  · rw [hnone, hnone']
    exact .none
  · rw [hcontent, hother]
    cases hequal with
    | list => exact .none
    | map => exact .none
    | single hvalue =>
        refine .some (outcome_valueJson kind hvalue ?_)
        rintro inner found rfl
        exact hinner inner found (HeldBy.single.inside hcontent)

theorem seconds_of_rel (h : m.Rel Value.Equal n) : seconds m = seconds n := by
  rw [seconds, seconds]
  rcases rel_cases (h.single? "seconds") with ⟨hm, hn⟩ | ⟨_, _, hm, hn, hvalue⟩
  · rw [hm, hn]
  · rw [hm, hn]
    rcases Value.equals_cases hvalue with ⟨rfl, _⟩ | hzeros | ⟨_, _, rfl, rfl, _⟩
    · rfl
    · cases hzeros <;> rfl
    · rfl

theorem nanos_of_rel (h : m.Rel Value.Equal n) : nanos m = nanos n := by
  rw [nanos, nanos]
  rcases rel_cases (h.single? "nanos") with ⟨hm, hn⟩ | ⟨_, _, hm, hn, hvalue⟩
  · rw [hm, hn]
  · rw [hm, hn]
    rcases Value.equals_cases hvalue with ⟨rfl, _⟩ | hzeros | ⟨_, _, rfl, rfl, _⟩
    · rfl
    · cases hzeros <;> rfl
    · rfl

theorem string?_of_equal {value other : Value} (h : value.Equal other) :
    value.string? = other.string? := by
  rcases Value.equals_cases h with ⟨rfl, _⟩ | hzeros | ⟨_, _, rfl, rfl, _⟩
  · rfl
  · cases hzeros <;> rfl
  · rfl

/-- Zeros are finite, so that a `Value` is refused for a number of both messages or of none. -/
theorem outcome_structValue (h : m.Rel Value.Equal n) (hinner : InnerNear registry m)
    (htype : m.descriptor.wellKnown? = some .value) :
    Outcome Near (messageJson registry m) (messageJson registry n) := by
  rw [messageJson_value htype, messageJson_value (h.descriptor ▸ htype), ← h.descriptor,
    h.member?]
  simp only [← singleJson?_eq]
  cases (n.member? "kind").bind m.descriptor.fieldNamed? with
  | none => exact .error
  | some field =>
      have hsingle : Outcome Near
          ((singleJson? registry field.kind field.number m.contents).getD
            (.error ⟨Bundled.structValue, .notSingle field.name⟩))
          ((singleJson? registry field.kind field.number n.contents).getD
            (.error ⟨Bundled.structValue, .notSingle field.name⟩)) := by
        rcases rel_cases (outcome_singleJson? h hinner field.kind field.number) with
          ⟨hnone, hnone'⟩ | ⟨_, _, hsome, hsome', hjson⟩
        · rw [hnone, hnone']
          exact .error
        · rw [hsome, hsome']
          exact hjson
      rcases rel_cases (h.single? field.name) with
        ⟨hnone, hnone'⟩ | ⟨value, other, hvalue, hother, hequal⟩
      · simp only [hnone, hnone']
        exact hsingle
      · simp only [hvalue, hother]
        rcases Value.equals_cases hequal with ⟨rfl, _⟩ | hzeros | ⟨_, _, rfl, rfl, _⟩
        · cases value with
          | double => exact .refl (fun _ => .same) _
          | _ => exact hsingle
        · cases hzeros with
          | float => exact hsingle
          | @double x y hopposed =>
              simp only [isFinite_of_code hopposed.left (by decide), if_true,
                isFinite_of_code hopposed.right (by decide), doubleJson_zero hopposed.left,
                doubleJson_zero hopposed.right, negative_of_opposed hopposed]
              exact .ok (near_zeroJson x.negative)
        · exact hsingle

theorem outcome_wrapper (h : m.Rel Value.Equal n) (hinner : InnerNear registry m)
    (htype : m.descriptor.wellKnown? = some .wrapper) :
    Outcome Near (messageJson registry m) (messageJson registry n) := by
  rw [messageJson_first htype, messageJson_first (h.descriptor ▸ htype), ← h.descriptor]
  cases m.descriptor.fields with
  | nil => exact .error
  | cons field _ =>
      rcases rel_cases (outcome_singleJson? h hinner field.kind field.number) with
        ⟨hnone, hnone'⟩ | ⟨_, _, hsome, hsome', hjson⟩
      · simp only [hnone, hnone']
        exact .refl (fun _ => .same) _
      · simp only [hsome, hsome']
        exact hjson

theorem outcome_any (hregistry : registry.WellFormed) (hm : m.WellTyped registry)
    (h : m.equals n = true) (hinner : InnerNear registry m)
    (htype : m.descriptor.wellKnown? = some .any)
    (htype' : n.descriptor.wellKnown? = some .any) :
    Outcome Near (messageJson registry m) (messageJson registry n) := by
  rcases payload_of_equals h with ⟨hnone, hnone'⟩ | ⟨url, inner, other, hsome, hsome', hequal⟩
  · rw [messageJson_any htype, messageJson_any htype', hnone, hnone']
    exact .ok .same
  · obtain ⟨_, name, hname⟩ := hm.inside (.payload hsome)
    have hown := (hregistry.descriptors name _ hname).2
    have hdescriptor := (equals_iff.mp hequal).1
    obtain ⟨hjson, hmore⟩ := hinner inner other (.payload hsome) hequal
    rw [messageJson_url hown htype hsome, messageJson_url (hdescriptor ▸ hown) htype' hsome',
      ← hdescriptor]
    split
    · exact hjson.map fun _ _ hjson => .object (.both .same (.both hjson .nil))
    · exact hmore.map fun _ _ hmore => .object (.both .same hmore)

theorem nearlyWritten_of_equals (hregistry : registry.WellFormed) (hm : m.WellTyped registry)
    (hd : m.descriptor.WellFormed registry) (h : m.equals n = true) :
    NearlyWritten registry m n := by
  -- By messages from those inside out, since what is inside equal messages is equal as well.
  induction m using inside_induction generalizing n with
  | step m ih =>
      have hinside {inner : Message} (hinner : inner.Inside m) :
          inner.WellTyped registry ∧ inner.descriptor.WellFormed registry := by
        obtain ⟨htyped, name, hname⟩ := hm.inside hinner
        exact ⟨htyped, (hregistry.descriptors name _ hname).2⟩
      have hinner : InnerNear registry m := fun inner _ hinner hequal =>
        ih inner hinner (hinside hinner).1 (hinside hinner).2 hequal
      have hrel := rel_of_equals hm h
      have hmembers := outcome_membersJson hd hrel hinner
      refine ⟨?_, hmembers⟩
      have hsame : m.descriptor.wellKnown? = n.descriptor.wellKnown? := by rw [hrel.descriptor]
      cases htype : m.descriptor.wellKnown? with
      | none =>
          rw [messageJson_plain htype, messageJson_plain (hsame ▸ htype)]
          exact hmembers.map fun _ _ => .object
      | some type =>
          have htype' := hsame ▸ htype
          cases type with
          | any => exact outcome_any hregistry hm h hinner htype htype'
          | empty =>
              rw [messageJson_empty htype, messageJson_empty htype']
              exact .ok .same
          | wrapper => exact outcome_wrapper hrel hinner htype
          | duration =>
              rw [messageJson_duration htype, messageJson_duration htype', seconds_of_rel hrel,
                nanos_of_rel hrel]
              exact .refl (fun _ => .same) _
          | timestamp =>
              rw [messageJson_timestamp htype, messageJson_timestamp htype', seconds_of_rel hrel,
                nanos_of_rel hrel]
              exact .refl (fun _ => .same) _
          | struct =>
              rw [messageJson_struct htype, messageJson_struct htype']
              exact outcome_repeated hm hrel hinner (hd.declares htype).1 rfl _
          | listValue =>
              rw [messageJson_listValue htype, messageJson_listValue htype']
              exact outcome_repeated hm hrel hinner (hd.declares htype).1 rfl _
          | value => exact outcome_structValue hrel hinner htype
          | fieldMask =>
              rw [messageJson_fieldMask htype, messageJson_fieldMask htype',
                fieldMaskJson_congr ((hrel.list "paths").imp fun _ _ => string?_of_equal)]
              exact .refl (fun _ => .same) _

end Encoding

/-- Messages that are equal to a decoded one are refused for the same reason as it is, or they are
written as it is, but for zeros of the other sign. Where there are none they are written as the
same JSON. -/
theorem toJson_equal {name : String} {root : Descriptor}
    (hknown : Registry.bundled.message? name = some root) {bytes : List UInt8} {a b : Message}
    (ha : decode .bundled root bytes = .ok a) (h : a.equals b = true) :
    Encoding.Outcome Json.Near (a.toJson .bundled) (b.toJson .bundled) ∧
      (¬ a.Opposed b → a.toJson .bundled = b.toJson .bundled) := by
  obtain ⟨hm, hdescriptor⟩ := decode_typed Registry.bundled_wellFormed hknown ha
  have hd := (Registry.bundled_wellFormed.descriptors name root hknown).2
  refine ⟨?_, fun hsigns => ?_⟩
  · exact (Encoding.nearlyWritten_of_equals Registry.bundled_wellFormed hm (hdescriptor ▸ hd)
      h).message
  · exact (Encoding.writtenAs_of_alike (Message.alike_of_equals hm h hsigns)).message

/-- A duration whose fields are stored in either order. -/
theorem toJson_equal_duration :
    let a : Message :=
      ⟨Bundled.durationType, [(1, .single (.int64 3)), (2, .single (.int32 5))], none⟩
    let b : Message :=
      ⟨Bundled.durationType, [(2, .single (.int32 5)), (1, .single (.int64 3))], none⟩
    decode .bundled Bundled.durationType (Utf8.encode "seconds:3 nanos:5".toList) = .ok a ∧
      a.equals b = true ∧ a.toJson .bundled = b.toJson .bundled := by
  intro a b
  have hknown : Registry.bundled.message? Bundled.duration = some Bundled.durationType :=
    @Bundled.message?_of_mem Bundled.durationType
      (Bundled.mem_types_of_wellKnown (by simp [Bundled.wellKnownTypes, Bundled.durationType]))
  -- No field of the type refers to another one, so that any registry will do.
  have hdecode (registry : Registry) : decode registry Bundled.durationType
      (Utf8.encode "seconds:3 nanos:5".toList) = .ok a := by
    rw [decode_encode]
    cbv
  have hequals : a.equals b = true := by decide +kernel
  have hsigns : ¬ a.Opposed b := by
    intro h
    cases h with
    | payload hpayload => cases hpayload
    | content hcontent hother hopposed =>
        have hmem := Entries.mem_of_get? hcontent
        simp only [a, Message.contents, List.mem_cons, Prod.mk.injEq, List.not_mem_nil,
          or_false] at hmem
        rcases hmem with ⟨_, rfl⟩ | ⟨_, rfl⟩ <;>
          cases hopposed with
          | single hvalue =>
              cases hvalue with
              | zeros hzeros => cases hzeros
  exact ⟨hdecode _, hequals, (toJson_equal hknown (hdecode _) hequals).2 hsigns⟩

/-- Equal numbers of opposite signs are written apart. -/
theorem exists_toJson_ne :
    let root := Bundled.wrapper "DoubleValue" .double
    ∃ a b json other, decode .bundled root (Utf8.encode "value:0.0".toList) = .ok a ∧
      decode .bundled root (Utf8.encode "value:-0.0".toList) = .ok b ∧ a.equals b = true ∧
      a.toJson .bundled = .ok json ∧ b.toJson .bundled = .ok other ∧
      json.compact = "0" ∧ other.compact = "-0.0" ∧ a.toJson .bundled ≠ b.toJson .bundled := by
  intro root
  obtain ⟨a, json, ha, hjson, hcompact⟩ :=
    @exists_of_compact .bundled root (Utf8.encode "value:0.0".toList) "0" (by decide +kernel)
  obtain ⟨b, other, hb, hother, hcompact'⟩ :=
    @exists_of_compact .bundled root (Utf8.encode "value:-0.0".toList) "-0.0" (by decide +kernel)
  have hequals : ((decode .bundled root (Utf8.encode "value:0.0".toList)).toOption.bind fun a =>
      (decode .bundled root (Utf8.encode "value:-0.0".toList)).toOption.map a.equals) =
        some true := by
    decide +kernel
  rw [ha, hb] at hequals
  refine ⟨a, b, json, other, ha, hb, Option.some.inj hequals, hjson, hother, hcompact,
    hcompact', fun heq => ?_⟩
  rw [hjson, hother, Except.ok.injEq] at heq
  rw [heq, hcompact'] at hcompact
  exact absurd hcompact (by decide)

end Textproto
