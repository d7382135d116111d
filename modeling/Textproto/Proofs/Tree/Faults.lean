import Textproto.Proofs.Tree.Failures

namespace Textproto.Tree

/-! Faults that describe themselves, through each part of the parser. They pass all that encloses
them unchanged. -/

def Failure.Described (failure : Failure) : Prop :=
  ∃ complaint, failure.cause = .described complaint

theorem Failure.described_complain (complaint : Complaint) (place : Cursor) :
    (complain complaint place).Described :=
  ⟨complaint, rfl⟩

theorem Failure.described_within {failure : Failure} {construct : Construct} :
    (failure.within construct).Described ↔ failure.Described := by
  simp only [Described, cause_within]

theorem Failure.Described.within_eq {failure : Failure} (h : failure.Described)
    (construct : Construct) : failure.within construct = failure := by
  obtain ⟨complaint, hcause⟩ := h
  simp only [within, hcause]

theorem Failure.Described.ne_unexpected {failure : Failure} (h : failure.Described)
    (path : List Construct) (place : Cursor) : failure ≠ unexpected path place := by
  rintro rfl
  obtain ⟨_, ⟨⟩⟩ := h

namespace Attempt

variable {c : Cursor} {α β : Type} {attempt : Attempt c α} {failure : Failure}

theorem within_eq_failed {construct : Construct} (h : failure.Described) :
    attempt.within construct = .failed failure ↔ attempt = .failed failure := by
  rw [within_fails_iff]
  constructor
  · rintro ⟨inner, hinner, rfl⟩
    rwa [Failure.Described.within_eq (inner.described_within.mp h)]
  · exact fun hfailed => ⟨failure, hfailed, (h.within_eq construct).symm⟩

theorem orFail_eq_failed {path : List Construct} {place : Cursor} (h : failure.Described) :
    attempt.orFail (.unexpected path place) = .failed failure ↔ attempt = .failed failure := by
  simp only [orFail_fails_iff, h.ne_unexpected, and_false, or_false]

end Attempt

variable {c : Cursor} {body : Option Body} {element : (c : Cursor) → Attempt c Value}
  {failure : Failure}

/-! Messages and lists. -/

theorem message_eq_failed_iff (h : failure.Described) :
    message body c = .failed failure ↔
      ∃ opening d, (accept (fun x => (closingOf? x).isSome) c).Reads opening d ∧
        ((body = none ∧ failure = .complain .nestedTooDeep c) ∨
          ∃ fields, body = some fields ∧ fields d = .error failure) := by
  simp only [message_fails_iff, h.ne_unexpected, and_false, exists_false, or_false]

theorem list_eq_failed_iff (h : failure.Described) :
    list element c = .failed failure ↔
      ∃ d, (accept (· = '[') c).Reads '[' d ∧ elements element d = .error failure := by
  simp only [list_fails_iff, h.ne_unexpected, and_false, exists_false, or_false]

theorem valueAfterColon_eq_failed_iff (h : failure.Described) :
    valueAfterColon body c = .failed failure ↔
      message body c = .failed failure ∨ message body c = .absent ∧
        (list (fun d => (message body d).orElse fun _ => scalarValue d) c = .failed failure ∨
        list (fun d => (message body d).orElse fun _ => scalarValue d) c = .absent ∧
          scalarValue c = .failed failure) := by
  rw [valueAfterColon, Attempt.within_eq_failed h, Attempt.orElse_eq_failed,
    Attempt.orElse_eq_failed, Attempt.orFail_eq_failed h]

theorem valueWithoutColon_eq_failed_iff (h : failure.Described) :
    valueWithoutColon body c = .failed failure ↔
      message body c = .failed failure ∨
        message body c = .absent ∧ list (message body) c = .failed failure := by
  rw [valueWithoutColon, Attempt.within_eq_failed h, Attempt.orFail_eq_failed h,
    Attempt.orElse_eq_failed]

/-! Fields. -/

theorem fieldName_ne_failed (h : failure.Described) : fieldName c ≠ .failed failure := by
  intro hfailed
  obtain ⟨_, _, _, _, _, _, heq⟩ := fieldName_fails_iff.mp hfailed
  exact h.ne_unexpected _ _ heq

theorem field_eq_failed_iff (h : failure.Described) :
    field body c = .failed failure ↔
      ∃ name d, (fieldName c.skipLayout).Reads name d ∧ fieldValue body d = .failed failure := by
  rw [field_fails_iff]
  exact or_iff_right (fieldName_ne_failed h)

/-! Scalars have no messages in them. -/

theorem ne_nestedTooDeep_of_stringFlaw {complaint : Complaint} {offset : Nat} {text : List Char}
    (h : StringFlaw complaint offset text) : complaint ≠ .nestedTooDeep := by
  have hliteral {offset : Nat} {text : List Char} (h : LiteralFlaw complaint offset text) :
      complaint ≠ .nestedTooDeep := by
    rintro rfl
    cases h with
    | mk _ _ hbroken =>
        cases hbroken with
        | escape hflaw => cases hflaw
  cases h with
  | first h => exact hliteral h
  | later _ _ h => exact hliteral h

theorem scalar_ne_nestedTooDeep (h : failure.cause = .described .nestedTooDeep) :
    scalarValue c ≠ .failed failure := by
  intro hfailed
  obtain ⟨inner, rfl, hstring | ⟨_, hnumeral⟩⟩ := scalarValue_fails_iff.mp hfailed
  · obtain ⟨complaint, _, hflaw, rfl⟩ := string_eq_failed_iff.mp hstring
    cases h
    exact ne_nestedTooDeep_of_stringFlaw hflaw rfl
  · rcases numeral_fails_iff.mp hnumeral with ⟨_, rfl⟩ | ⟨_, _, _, _, rfl⟩
    · cases h
    · cases h

/-! Faults that describe themselves are passed on as they were raised. -/

/-- What the parser complains about: strings, numbers, and messages that lie too deep. -/
inductive Complaint.Raised : Complaint → Prop
  | string {complaint : Complaint} {offset : Nat} {text : List Char} :
      StringFlaw complaint offset text → Raised complaint
  | invalidNumber : Raised .invalidNumber
  | nestedTooDeep : Raised .nestedTooDeep

/-- A failure inside of fields. If it describes itself, it is nothing but a complaint of the parser
and its place. -/
structure Failure.Bare (failure : Failure) : Prop where
  inside : failure.cause ≠ .trailing
  complaint : ∀ complaint, failure.cause = .described complaint →
    failure = .complain complaint failure.place ∧ complaint.Raised

theorem Failure.Bare.within {failure : Failure} (h : failure.Bare) (construct : Construct) :
    (failure.within construct).Bare := by
  refine ⟨by rw [cause_within]; exact h.inside, fun complaint hcause => ?_⟩
  rw [cause_within] at hcause
  rw [Failure.Described.within_eq ⟨complaint, hcause⟩ construct]
  exact h.complaint complaint hcause

theorem Failure.bare_unexpected (path : List Construct) (place : Cursor) :
    (unexpected path place).Bare :=
  ⟨nofun, nofun⟩

theorem Failure.bare_complain {complaint : Complaint} (h : complaint.Raised) (place : Cursor) :
    (complain complaint place).Bare := by
  refine ⟨nofun, ?_⟩
  rintro _ ⟨⟩
  exact ⟨rfl, h⟩

theorem scalarValue_bare (h : scalarValue c = .failed failure) : failure.Bare := by
  obtain ⟨inner, rfl, hinner⟩ := scalarValue_fails_iff.mp h
  refine Failure.Bare.within ?_ _
  rcases hinner with hstring | ⟨_, hnumeral⟩
  · obtain ⟨complaint, offset, hflaw, rfl⟩ := string_eq_failed_iff.mp hstring
    exact Failure.bare_complain (.string hflaw) _
  · rcases numeral_fails_iff.mp hnumeral with ⟨_, rfl⟩ | ⟨_, _, _, _, rfl⟩
    · exact Failure.bare_unexpected _ _
    · exact Failure.bare_complain .invalidNumber _

theorem message_bare
    (hbody : ∀ fields, body = some fields → ∀ c failure, fields c = .error failure → failure.Bare)
    (h : message body c = .failed failure) : failure.Bare := by
  obtain ⟨opening, d, _, ⟨_, rfl⟩ | ⟨fields, hfields, herror | ⟨_, _, _, _, rfl⟩⟩⟩ :=
    message_fails_iff.mp h
  · exact Failure.bare_complain .nestedTooDeep _
  · exact hbody fields hfields _ _ herror
  · exact Failure.bare_unexpected _ _

theorem list_bare (helement : ∀ c failure, element c = .failed failure → failure.Bare)
    (h : list element c = .failed failure) : failure.Bare := by
  obtain ⟨d, _, herror | ⟨_, _, _, _, rfl⟩⟩ := list_fails_iff.mp h
  · rcases elements_eq_error_iff.mp herror with hfirst | ⟨_, _, _, _, _, _, hfurther⟩
    · exact helement _ _ hfirst
    · obtain ⟨_, _, hfailed⟩ := furtherElement_eq_failed_iff.mp hfurther
      exact helement _ _ hfailed
  · exact Failure.bare_unexpected _ _

theorem fieldValue_bare
    (hmessage : ∀ c failure, message body c = .failed failure → failure.Bare)
    (h : fieldValue body c = .failed failure) : failure.Bare := by
  rcases fieldValue_eq_failed_iff.mp h with ⟨d, _, h⟩ | ⟨_, h⟩
  · obtain ⟨inner, rfl, h | ⟨_, h | ⟨_, h | ⟨_, rfl⟩⟩⟩⟩ := valueAfterColon_fails_iff.mp h
    · exact (hmessage _ _ h).within _
    · refine (list_bare (fun c failure helement => ?_) h).within _
      rcases Attempt.orElse_eq_failed.mp helement with helement | ⟨_, helement⟩
      · exact hmessage _ _ helement
      · exact scalarValue_bare helement
    · exact (scalarValue_bare h).within _
    · exact (Failure.bare_unexpected _ _).within _
  · obtain ⟨inner, rfl, h | ⟨_, h | ⟨_, rfl⟩⟩⟩ := valueWithoutColon_fails_iff.mp h
    · exact (hmessage _ _ h).within _
    · exact (list_bare hmessage h).within _
    · exact (Failure.bare_unexpected _ _).within _

theorem manyFields_bare
    (hmessage : ∀ c failure, message body c = .failed failure → failure.Bare)
    (h : many (field body) c = .error failure) : failure.Bare := by
  obtain ⟨_, d, _, h⟩ := breaks_iff_chain.mp (many_eq_error_iff.mp h)
  rcases field_fails_iff.mp h with h | ⟨_, _, _, h⟩
  · obtain ⟨_, _, _, _, _, _, rfl⟩ := fieldName_fails_iff.mp h
    exact Failure.bare_unexpected _ _
  · exact fieldValue_bare hmessage h

theorem fields_bare (levels : Nat) (h : fields levels c = .error failure) : failure.Bare := by
  -- By the levels: the body of a message is read with one level fewer, and with none left there is
  -- no body.
  induction levels generalizing c failure with
  | zero =>
      have hbody : ∀ fields : Body, none = some fields →
          ∀ c failure, fields c = .error failure → failure.Bare := fun _ heq => nomatch heq
      exact manyFields_bare (fun _ _ => message_bare hbody) h
  | succ levels ih =>
      refine manyFields_bare (fun _ _ => message_bare ?_) h
      rintro _ ⟨⟩ c failure h
      exact ih h

theorem complaint_of_parse {text : List Char} {complaint : Complaint}
    (h : parse text = .error failure) (hcause : failure.cause = .described complaint) :
    failure = .complain complaint failure.place ∧ complaint.Raised := by
  rcases parse_eq_error_iff.mp h with h | ⟨_, _, _, _, rfl⟩
  · exact (fields_bare nestingLimit h).complaint complaint hcause
  · cases hcause

end Textproto.Tree
