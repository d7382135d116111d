import Textproto.Proofs.Encoding.Typed
import Textproto.Proofs.Schema.Bundled

namespace Textproto

/-! What keeps a message from being written as JSON, whatever is inside it. -/

/-- A path that does not come back from lower camel case: it has a capital, or an underscore that
no lower-case letter follows. -/
def Irreversible (path : List Char) : Prop :=
  (∃ c ∈ path, c.isUpper = true) ∨
    ∃ lead rest, path = lead ++ '_' :: rest ∧ ∀ c, rest.head? = some c → c.isLower = false

/-- What is wrong with a message itself, whatever is inside it. -/
inductive Message.Flaw (m : Message) : EncodeCause → Prop
  | duration :
      m.descriptor.wellKnown? = some .duration →
      (315576000000 < (Encoding.seconds m).natAbs ∨ 999999999 < (Encoding.nanos m).natAbs ∨
        (0 < Encoding.seconds m ∧ Encoding.nanos m < 0) ∨
        (Encoding.seconds m < 0 ∧ 0 < Encoding.nanos m)) →
      Flaw m (.durationOutOfRange (Encoding.seconds m) (Encoding.nanos m))
  | nanos :
      m.descriptor.wellKnown? = some .timestamp →
      (Encoding.nanos m < 0 ∨ 999999999 < Encoding.nanos m) →
      Flaw m (.nanosOutOfRange (Encoding.nanos m))
  | seconds :
      m.descriptor.wellKnown? = some .timestamp →
      0 ≤ Encoding.nanos m → Encoding.nanos m ≤ 999999999 →
      (Encoding.seconds m < Time.firstSecond ∨ Time.lastSecond < Encoding.seconds m) →
      Flaw m (.secondsOutOfRange (Encoding.seconds m))
  | noMember :
      m.descriptor.wellKnown? = some .value →
      (∀ field ∈ m.descriptor.fields, field.oneof = some "kind" →
        m.content? field.number = none) →
      Flaw m .noMember
  | notFinite {x : Double} :
      m.descriptor.wellKnown? = some .value →
      m.single? "number_value" = some (.double x) → x.isFinite = false →
      Flaw m (.notFinite x)
  | path {before after : List Value} {path : String} :
      m.descriptor.wellKnown? = some .fieldMask →
      m.list "paths" = before ++ .string path :: after →
      (∀ other, .string other ∈ before → ¬Irreversible other.toList) →
      Irreversible path.toList →
      Flaw m (.irreversiblePath path)

namespace Encoding

/-- Why a result is not there. -/
def refusal? {α : Type} : Except EncodeError α → Option EncodeError
  | .ok _ => none
  | .error error => some error

variable {α β : Type}

@[simp] theorem refusal?_ok (a : α) : refusal? (.ok a) = none := rfl

@[simp] theorem refusal?_error (error : EncodeError) :
    refusal? (.error error : Except EncodeError α) = some error := rfl

@[simp] theorem refusal?_map (f : α → β) (result : Except EncodeError α) :
    refusal? (result.map f) = refusal? result := by
  cases result <;> rfl

theorem refusal?_eq_some_iff {result : Except EncodeError α} {error : EncodeError} :
    refusal? result = some error ↔ result = .error error := by
  cases result <;> simp

end Encoding

namespace Message

/-- What a message is refused for, if nothing inside it is. -/
def flaw? (m : Message) : Option EncodeError :=
  match m.descriptor.wellKnown? with
  | some .duration => Encoding.refusal? (Encoding.durationJson (Encoding.seconds m) (Encoding.nanos m))
  | some .timestamp => Encoding.refusal? (Encoding.timestampJson (Encoding.seconds m) (Encoding.nanos m))
  | some .value =>
      match (m.member? "kind").bind m.descriptor.fieldNamed? with
      | none => some ⟨Bundled.structValue, .noMember⟩
      | some field =>
          match m.single? field.name with
          | some (.double x) => if x.isFinite then none else some ⟨Bundled.structValue, .notFinite x⟩
          | _ => none
  | some .fieldMask => Encoding.refusal? (Encoding.fieldMaskJson (m.list "paths"))
  | _ => none

end Message

/-! The flaws that are found are those that there are. -/

theorem irreversible_cons {c : Char} {rest : List Char} :
    Irreversible (c :: rest) ↔ c.isUpper = true ∨
      (c = '_' ∧ ∀ next, rest.head? = some next → next.isLower = false) ∨ Irreversible rest := by
  constructor
  · rintro (⟨x, hx, hupper⟩ | ⟨lead, tail, heq, htail⟩)
    · rcases List.mem_cons.mp hx with rfl | hx
      · exact .inl hupper
      · exact .inr (.inr (.inl ⟨x, hx, hupper⟩))
    · cases lead with
      | nil =>
          cases heq
          exact .inr (.inl ⟨rfl, htail⟩)
      | cons first lead =>
          cases heq
          exact .inr (.inr (.inr ⟨lead, tail, rfl, htail⟩))
  · rintro (hupper | ⟨rfl, hrest⟩ | ⟨x, hx, hupper⟩ | ⟨lead, tail, rfl, htail⟩)
    · exact .inl ⟨c, List.mem_cons_self, hupper⟩
    · exact .inr ⟨[], rest, rfl, hrest⟩
    · exact .inl ⟨x, List.mem_cons_of_mem _ hx, hupper⟩
    · exact .inr ⟨c :: lead, tail, rfl, htail⟩

theorem not_irreversible_nil : ¬Irreversible [] := by
  rintro (⟨x, hx, _⟩ | ⟨lead, tail, heq, _⟩)
  · cases hx
  · cases lead <;> cases heq

theorem not_upper_of_lower {c : Char} (h : c.isLower = true) : c.isUpper = false := by
  simp only [Char.isLower, Char.isUpper, Bool.and_eq_true, decide_eq_true_eq,
    decide_eq_false_iff_not, ge_iff_le, UInt32.le_iff_toNat_le] at h ⊢
  simp at h ⊢
  omega

namespace Encoding

theorem camelPath?_eq_none_iff (path : List Char) :
    camelPath? path = none ↔ Irreversible path := by
  induction path using camelPath?.induct with
  | case1 => simp [camelPath?, not_irreversible_nil]
  | case2 next rest hlower ih =>
      have hnext : next ≠ '_' := by
        rintro rfl
        cases hlower
      rw [camelPath?, if_pos hlower, Option.map_eq_none_iff, ih, irreversible_cons,
        irreversible_cons]
      simp [hlower, hnext, not_upper_of_lower hlower]
  | case3 next rest hlower =>
      rw [camelPath?, if_neg hlower]
      simp only [true_iff]
      refine irreversible_cons.mpr (.inr (.inl ⟨rfl, ?_⟩))
      rintro _ ⟨⟩
      simpa using hlower
  | case4 c rest hshort hc =>
      rw [camelPath?, if_pos hc]
      · simp only [Bool.or_eq_true, decide_eq_true_eq] at hc
        simp only [true_iff]
        rcases hc with rfl | hupper
        · refine irreversible_cons.mpr (.inr (.inl ⟨rfl, ?_⟩))
          intro next hnext
          cases rest with
          | nil => cases hnext
          | cons first rest => exact absurd rfl (hshort first rest rfl)
        · exact irreversible_cons.mpr (.inl hupper)
      · exact hshort
  | case5 c rest hshort hc ih =>
      rw [camelPath?, if_neg hc, Option.map_eq_none_iff, ih, irreversible_cons]
      · simp only [Bool.or_eq_true, decide_eq_true_eq, not_or] at hc
        simp [hc.1, hc.2]
      · exact hshort

/-- The paths of a mask are refused for the first one that does not come back. -/
theorem camelPaths_eq_error_iff {paths : List Value}
    (hpaths : ∀ path ∈ paths, ∃ text, path = .string text) {error : EncodeError} :
    camelPaths paths = .error error ↔ ∃ before after text,
      paths = before ++ .string text :: after ∧
        (∀ other, .string other ∈ before → ¬Irreversible other.toList) ∧
        Irreversible text.toList ∧ error = ⟨Bundled.fieldMask, .irreversiblePath text⟩ := by
  -- By the paths: the first one is refused, or else what is refused comes after it.
  induction paths with
  | nil => simp [camelPaths]
  | cons path rest ih =>
      obtain ⟨text, rfl⟩ := hpaths path List.mem_cons_self
      have hrest := ih fun other hother => hpaths other (List.mem_cons_of_mem _ hother)
      rw [camelPaths]
      simp only [Value.string?, Option.getD_some]
      cases hcamel : camelPath? text.toList with
      | none =>
          have hflaw := (camelPath?_eq_none_iff _).mp hcamel
          constructor
          · intro h
            cases h
            exact ⟨[], rest, text, rfl, by simp, hflaw, rfl⟩
          · rintro ⟨before, after, other, heq, hbefore, _, rfl⟩
            cases before with
            | nil =>
                cases heq
                rfl
            | cons first before =>
                cases heq
                exact absurd hflaw (hbefore text List.mem_cons_self)
      | some camel =>
          have hflaw : ¬Irreversible text.toList := by
            rw [← camelPath?_eq_none_iff, hcamel]
            simp
          have hmap : (camelPaths rest).map (String.ofList camel :: ·) = .error error ↔
              camelPaths rest = .error error := by
            cases camelPaths rest <;> simp [Except.map]
          rw [hmap, hrest]
          constructor
          · rintro ⟨before, after, other, rfl, hbefore, hother⟩
            refine ⟨.string text :: before, after, other, rfl, ?_, hother⟩
            intro first hfirst
            rcases List.mem_cons.mp hfirst with heq | hfirst
            · cases heq
              exact hflaw
            · exact hbefore first hfirst
          · rintro ⟨before, after, other, heq, hbefore, hother⟩
            cases before with
            | nil =>
                cases heq
                exact absurd hother.1 hflaw
            | cons first before =>
                cases heq
                exact ⟨before, after, other, rfl,
                  fun x hx => hbefore x (List.mem_cons_of_mem _ hx), hother⟩

theorem durationJson_eq_error_iff {seconds nanos : Int} {error : EncodeError} :
    durationJson seconds nanos = .error error ↔
      (315576000000 < seconds.natAbs ∨ 999999999 < nanos.natAbs ∨ (0 < seconds ∧ nanos < 0) ∨
          (seconds < 0 ∧ 0 < nanos)) ∧
        error = ⟨Bundled.duration, .durationOutOfRange seconds nanos⟩ := by
  unfold durationJson Time.duration? Time.secondsLimit
  split
  next text h =>
    split at h
    next hrange =>
      simp only [reduceCtorEq, false_iff, not_and]
      intro hbad
      omega
    next => cases h
  next h =>
    split at h
    next => cases h
    next hrange =>
      rw [Except.error.injEq, eq_comm]
      refine (and_iff_right ?_).symm
      omega

theorem timestampJson_eq_error_iff {seconds nanos : Int} {error : EncodeError} :
    timestampJson seconds nanos = .error error ↔
      ((nanos < 0 ∨ 999999999 < nanos) ∧
          error = ⟨Bundled.timestamp, .nanosOutOfRange nanos⟩) ∨
        (0 ≤ nanos ∧ nanos ≤ 999999999 ∧
          (seconds < Time.firstSecond ∨ Time.lastSecond < seconds) ∧
          error = ⟨Bundled.timestamp, .secondsOutOfRange seconds⟩) := by
  unfold timestampJson
  simp only [Bool.or_eq_true, decide_eq_true_eq]
  split
  next hnanos =>
    rw [Except.error.injEq, eq_comm]
    constructor
    · exact fun h => .inl ⟨by omega, h⟩
    · rintro (⟨_, h⟩ | ⟨_, _, _⟩)
      · exact h
      · omega
  next hnanos =>
    split
    next hseconds =>
      rw [Except.error.injEq, eq_comm]
      constructor
      · exact fun h => .inr ⟨by omega, by omega, hseconds, h⟩
      · rintro (⟨_, _⟩ | ⟨_, _, _, h⟩)
        · omega
        · exact h
    next hseconds =>
      simp only [reduceCtorEq, false_iff, not_or, not_and]
      exact ⟨fun h => by omega, fun _ _ h => absurd h hseconds⟩

end Encoding

namespace Message

variable {registry : Registry} {m : Message} {error : EncodeError}

theorem flaw?_duration (h : m.descriptor.wellKnown? = some .duration) :
    m.flaw? = some error ↔ m.Flaw error.cause ∧ Bundled.duration = error.type := by
  rw [flaw?, h]
  simp only
  rw [Encoding.refusal?_eq_some_iff, Encoding.durationJson_eq_error_iff]
  constructor
  · rintro ⟨hbad, rfl⟩
    exact ⟨.duration h hbad, rfl⟩
  · obtain ⟨type, cause⟩ := error
    rintro ⟨hflaw, rfl⟩
    cases hflaw with
    | duration _ hbad => exact ⟨hbad, rfl⟩
    | nanos hother | seconds hother | noMember hother | notFinite hother | path hother =>
        rw [h] at hother
        cases hother

theorem flaw?_timestamp (h : m.descriptor.wellKnown? = some .timestamp) :
    m.flaw? = some error ↔ m.Flaw error.cause ∧ Bundled.timestamp = error.type := by
  rw [flaw?, h]
  simp only
  rw [Encoding.refusal?_eq_some_iff, Encoding.timestampJson_eq_error_iff]
  constructor
  · rintro (⟨hnanos, rfl⟩ | ⟨hlow, hhigh, hseconds, rfl⟩)
    · exact ⟨.nanos h hnanos, rfl⟩
    · exact ⟨.seconds h hlow hhigh hseconds, rfl⟩
  · obtain ⟨type, cause⟩ := error
    rintro ⟨hflaw, rfl⟩
    cases hflaw with
    | nanos _ hnanos => exact .inl ⟨hnanos, rfl⟩
    | seconds _ hlow hhigh hseconds => exact .inr ⟨hlow, hhigh, hseconds, rfl⟩
    | duration hother | noMember hother | notFinite hother | path hother =>
        rw [h] at hother
        cases hother

theorem list_paths (hm : m.WellTyped registry) (hd : m.descriptor.WellFormed registry)
    (h : m.descriptor.wellKnown? = some .fieldMask) :
    ∀ path ∈ m.list "paths", ∃ text, path = .string text := by
  have hfields : m.descriptor.fields = [.many "paths" 1 .string] := hd.declares h
  have hfield : Field.many "paths" 1 .string ∈ m.descriptor.fields := by
    rw [hfields]
    exact List.mem_cons_self
  intro path hpath
  rw [list, named?, show m.descriptor.fieldNamed? "paths" = _ from hd.fieldNamed? hfield,
    Option.bind_some] at hpath
  cases hcontent : m.content? (Field.many "paths" 1 .string).number with
  | none =>
      rw [hcontent] at hpath
      cases hpath
  | some content =>
      rw [hcontent] at hpath
      cases hm.fits hfield hcontent with
      | single => cases hpath
      | map => cases hpath
      | list _ _ _ hvalues =>
          rcases (hvalues path hpath).cases with hscalar | ⟨_, _, _, name, hname, _⟩
          · cases hscalar
            exact ⟨_, rfl⟩
          · cases hname

theorem flaw?_fieldMask (hm : m.WellTyped registry) (hd : m.descriptor.WellFormed registry)
    (h : m.descriptor.wellKnown? = some .fieldMask) :
    m.flaw? = some error ↔ m.Flaw error.cause ∧ Bundled.fieldMask = error.type := by
  rw [flaw?, h]
  simp only
  rw [Encoding.fieldMaskJson, Encoding.refusal?_map, Encoding.refusal?_eq_some_iff,
    Encoding.camelPaths_eq_error_iff (list_paths hm hd h)]
  constructor
  · rintro ⟨before, after, text, hpaths, hbefore, htext, rfl⟩
    exact ⟨.path h hpaths hbefore htext, rfl⟩
  · obtain ⟨type, cause⟩ := error
    rintro ⟨hflaw, rfl⟩
    cases hflaw with
    | path _ hpaths hbefore htext => exact ⟨_, _, _, hpaths, hbefore, htext, rfl⟩
    | duration hother | nanos hother | seconds hother | noMember hother | notFinite hother =>
        rw [h] at hother
        cases hother

/-- No member of a oneof is set where none of its fields is. -/
theorem member?_eq_none_iff (hd : m.descriptor.WellFormed registry) {oneof : String} :
    (m.member? oneof).bind m.descriptor.fieldNamed? = none ↔
      ∀ field ∈ m.descriptor.fields, field.oneof = some oneof →
        m.content? field.number = none := by
  rw [member?]
  cases hfound : m.descriptor.fields.find? fun field =>
      field.oneof = some oneof && (m.content? field.number).isSome with
  | none =>
      simp only [Option.map_none, Option.bind_none, true_iff]
      intro field hfield honeof
      have hunset := List.find?_eq_none.mp hfound field hfield
      simpa [honeof] using hunset
  | some field =>
      have hfield := List.mem_of_find?_eq_some hfound
      have hset := List.find?_some hfound
      simp only [Bool.and_eq_true, decide_eq_true_eq] at hset
      rw [Option.map_some, Option.bind_some, hd.fieldNamed? hfield]
      simp only [reduceCtorEq, false_iff]
      intro hnone
      rw [hnone field hfield hset.1] at hset
      cases hset.2

/-- The member of a `Value` that is a number. -/
theorem single?_number (hm : m.WellTyped registry) (hd : m.descriptor.WellFormed registry)
    (h : m.descriptor.wellKnown? = some .value) {x : Double} :
    m.single? "number_value" = some (.double x) ↔
      ∃ field, (m.member? "kind").bind m.descriptor.fieldNamed? = some field ∧
        m.single? field.name = some (.double x) := by
  have hfields := (hd.declares h).1
  constructor
  · intro hsingle
    have hfield : Field.member "kind" "number_value" 2 .double ∈ m.descriptor.fields := by
      rw [hfields]
      decide
    have hnamed := hd.fieldNamed? hfield
    refine ⟨.member "kind" "number_value" 2 .double, ?_, hsingle⟩
    have hset : (m.content? (Field.member "kind" "number_value" 2 .double).number).isSome = true := by
      rw [show m.single? "number_value" = _ from single?_of_fieldNamed? hnamed] at hsingle
      obtain ⟨content, hcontent, _⟩ := Option.bind_eq_some_iff.mp hsingle
      rw [hcontent]
      rfl
    rw [hm.oneOfEach.named _ hfield "kind" rfl hset, Option.bind_some]
    exact hnamed
  · rintro ⟨field, hmember, hsingle⟩
    obtain ⟨hfield, _, value, hcontent, hkind⟩ := hm.member hd hmember
    have hvalue : value = .double x := by
      rw [single?_of_fieldNamed? (hd.fieldNamed? hfield), hcontent] at hsingle
      simpa [Content.single?] using hsingle
    subst hvalue
    have hdouble : field.kind = .double := by
      rcases hkind.cases with hscalar | ⟨_, _, hno, _⟩
      · generalize field.kind = kind at hscalar
        cases hscalar
        rfl
      · cases hno
    have hname : ∀ other ∈ m.descriptor.fields, other.kind = .double →
        other.name = "number_value" := by
      rw [hfields]
      decide
    rwa [hname field hfield hdouble] at hsingle

theorem flaw?_value (hm : m.WellTyped registry) (hd : m.descriptor.WellFormed registry)
    (h : m.descriptor.wellKnown? = some .value) :
    m.flaw? = some error ↔ m.Flaw error.cause ∧ Bundled.structValue = error.type := by
  have hnumber {x : Double} := single?_number (x := x) hm hd h
  rw [flaw?, h]
  simp only
  constructor
  · intro hflaw
    cases hmember : (m.member? "kind").bind m.descriptor.fieldNamed? with
    | none =>
        rw [hmember] at hflaw
        cases hflaw
        exact ⟨.noMember h ((member?_eq_none_iff hd).mp hmember), rfl⟩
    | some field =>
        rw [hmember] at hflaw
        simp only at hflaw
        split at hflaw
        next x hsingle =>
          split at hflaw
          next => cases hflaw
          next hfinite =>
            cases hflaw
            exact ⟨.notFinite h (hnumber.mpr ⟨field, hmember, hsingle⟩) (by simpa using hfinite),
              rfl⟩
        next => cases hflaw
  · obtain ⟨type, cause⟩ := error
    rintro ⟨hflaw, rfl⟩
    cases hflaw with
    | noMember _ hunset => rw [(member?_eq_none_iff hd).mpr hunset]
    | notFinite _ hsingle hfinite =>
        obtain ⟨field, hmember, hfound⟩ := hnumber.mp hsingle
        rw [hmember]
        simp only [hfound, hfinite]
        rfl
    | duration hother | nanos hother | seconds hother | path hother =>
        rw [h] at hother
        cases hother

/-- The flaw that is found names the type of its message. -/
theorem flaw?_eq_some_iff (hm : m.WellTyped registry) (hd : m.descriptor.WellFormed registry) :
    m.flaw? = some error ↔
      m.Flaw error.cause ∧ m.descriptor.wellKnown?.bind Bundled.nameOf? = some error.type := by
  cases htype : m.descriptor.wellKnown? with
  | none =>
      simp only [flaw?, htype, Option.bind_none, reduceCtorEq, and_false]
  | some type =>
      rw [Option.bind_some]
      cases type with
      | duration => simpa only [Bundled.nameOf?, Option.some.injEq] using flaw?_duration htype
      | timestamp => simpa only [Bundled.nameOf?, Option.some.injEq] using flaw?_timestamp htype
      | value => simpa only [Bundled.nameOf?, Option.some.injEq] using flaw?_value hm hd htype
      | fieldMask =>
          simpa only [Bundled.nameOf?, Option.some.injEq] using flaw?_fieldMask hm hd htype
      | any | empty | wrapper | struct | listValue =>
          simp only [flaw?, htype, reduceCtorEq, false_iff, not_and]
          generalize error.cause = cause
          intro hflaw
          cases hflaw with
          | duration hother | nanos hother | seconds hother | noMember hother | notFinite hother
          | path hother =>
              rw [htype] at hother
              cases hother

end Message

end Textproto
