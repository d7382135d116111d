import Mathlib.Data.List.DropRight
import Textproto.Proofs.Tree.Attempt
import Textproto.Tree.Parser

namespace Textproto

/-! Where a text is refused: at a place in it. -/

/-- Lines are counted by line feeds, and columns by the characters behind the last of them. -/
theorem Position.foldl_after (read : List Char) :
    read.foldl Position.after .start =
      ⟨1 + read.count '\n', 1 + (read.rtakeWhile (· ≠ '\n')).length⟩ := by
  induction read using List.reverseRecOn with
  | nil => rfl
  | append_singleton read c ih =>
      rw [List.foldl_append, ih, List.foldl_cons, List.foldl_nil, Position.after]
      by_cases hc : c = '\n'
      · subst hc
        rw [List.rtakeWhile_concat_neg _ _ _ (by simp)]
        simp [Nat.add_assoc]
      · rw [List.rtakeWhile_concat_pos _ _ _ (by simpa using hc), List.count_append]
        simp [hc, Nat.add_assoc]

namespace Tree

/-- A text without line feeds is its own first line. Otherwise that is followed by a line feed, or
by a carriage return and one. -/
inductive FirstLine : List Char → List Char → Prop
  | last {line : List Char} : '\n' ∉ line → FirstLine line line
  | feed {line rest : List Char} :
      '\n' ∉ line → line.getLast? ≠ some '\r' → FirstLine line (line ++ '\n' :: rest)
  | carriage {line rest : List Char} :
      '\n' ∉ line → FirstLine line (line ++ '\r' :: '\n' :: rest)

theorem FirstLine.cons {c : Char} {line text : List Char} (h : FirstLine line text)
    (hc : c ≠ '\n') (hnext : c = '\r' → text.head? ≠ some '\n') :
    FirstLine (c :: line) (c :: text) := by
  have hmem (hline : '\n' ∉ line) : '\n' ∉ c :: line := by
    simp [hline, Ne.symm hc]
  cases h with
  | last hline => exact .last (hmem hline)
  | carriage hline => exact .carriage (hmem hline)
  | feed hline hlast =>
      refine .feed (hmem hline) ?_
      cases line with
      | nil =>
          intro heq
          exact hnext (by simpa using heq) rfl
      | cons first more => rwa [List.getLast?_cons_cons]

theorem firstLine_spec (text : List Char) : FirstLine (Failure.firstLine text) text := by
  induction text using Failure.firstLine.induct with
  | case1 => exact .last nofun
  | case2 rest => exact @FirstLine.feed [] rest nofun nofun
  | case3 rest => exact @FirstLine.carriage [] rest nofun
  | case4 c rest hfeed hcarriage ih =>
      rw [Failure.firstLine]
      · refine ih.cons hfeed ?_
        rintro rfl hhead
        obtain ⟨more, rfl⟩ := List.head?_eq_some_iff.mp hhead
        exact hcarriage more rfl rfl
      · exact hfeed
      · exact hcarriage

theorem exists_message_eq (failure : Failure) :
    ∃ lead, failure.message = lead ++ Failure.quoted failure.place := by
  unfold Failure.message
  split <;> exact ⟨_, rfl⟩

/-- The attempt goes wrong at a place behind where it begins, if it does. -/
def Attempt.Placed {c : Cursor} {α : Type} (attempt : Attempt c α) : Prop :=
  ∀ failure, attempt = .failed failure → c.Reaches failure.place

namespace Attempt

variable {c d : Cursor} {α β : Type} {attempt : Attempt c α}

theorem placed_absent : (absent : Attempt c α).Placed :=
  nofun

theorem placed_read {value : α} {before : c.Before d} : (read value d before).Placed :=
  nofun

theorem placed_failed {failure : Failure} (h : c.Reaches failure.place) :
    (failed failure : Attempt c α).Placed := by
  rintro _ ⟨⟩
  exact h

theorem Placed.map (h : attempt.Placed) (f : α → β) : (attempt.map f).Placed := by
  cases attempt with
  | absent => exact placed_absent
  | read => exact placed_read
  | failed failure => exact placed_failed (h failure rfl)

theorem Placed.orElse (h : attempt.Placed) {second : Unit → Attempt c α}
    (hsecond : (second ()).Placed) : (attempt.orElse second).Placed := by
  cases attempt with
  | absent => exact hsecond
  | read => exact placed_read
  | failed failure => exact h

theorem Placed.within (h : attempt.Placed) (construct : Construct) :
    (attempt.within construct).Placed := by
  cases attempt with
  | absent => exact placed_absent
  | read => exact placed_read
  | failed failure => exact placed_failed (failure.place_within construct ▸ h failure rfl)

theorem Placed.orFail (h : attempt.Placed) {failure : Failure} (hplace : c.Reaches failure.place) :
    (attempt.orFail failure).Placed := by
  cases attempt with
  | absent => exact placed_failed hplace
  | read => exact placed_read
  | failed other => exact h

theorem Placed.since (h : attempt.Placed) (reaches : d.Reaches c) :
    (attempt.since reaches).Placed := by
  cases attempt with
  | absent => exact placed_absent
  | read => exact placed_read
  | failed failure => exact placed_failed (reaches.trans (h failure rfl))

theorem Placed.andThen (h : attempt.Placed)
    {go : (d : Cursor) → c.Before d → α → Attempt c β}
    (hgo : ∀ d before a, (go d before a).Placed) : (attempt.andThen go).Placed := by
  cases attempt with
  | absent => exact placed_absent
  | read value next before => exact hgo next before value
  | failed failure => exact placed_failed (h failure rfl)

end Attempt

/-- The same of readings that take nothing. -/
def PlacedError {α : Type} (c : Cursor) (result : Except Failure (Extent c α)) : Prop :=
  ∀ failure, result = .error failure → c.Reaches failure.place

section

variable {c d : Cursor} {α : Type}

theorem placed_accept {isWanted : Char → Bool} : (accept isWanted c).Placed :=
  fun _ h => absurd h accept_ne_failed

theorem placed_many {step : (c : Cursor) → Attempt c α} (h : ∀ c, (step c).Placed) :
    PlacedError c (many step c) := by
  intro failure hfailed
  fun_induction many step c with
  | case1 => cases hfailed
  | case2 c other hstep =>
      cases hfailed
      exact h c _ hstep
  | case3 c value next before hread other hmore ih =>
      cases hfailed
      exact before.reaches.trans (ih hmore)
  | case4 => cases hfailed

/-- Where something has to begin, it is missed there. -/
theorem placed_expect {isWanted : Char → Bool} {path : List Construct} :
    ((accept isWanted c).orFail (.unexpected path c)).Placed :=
  placed_accept.orFail (.refl c)

/-! Scalars. -/

theorem placed_literalFrom {start : Cursor} {quote : Char} {read : List UInt8}
    (hstart : start.Reaches c) :
    ∀ failure, literalFrom start quote read c = .error failure → start.Reaches failure.place := by
  intro failure h
  fun_induction literalFrom start quote read c with
  | case1 => cases h; exact .refl start
  | case2 => cases h
  | case3 => cases h; exact .refl start
  | case4 => cases h; exact .refl start
  | case5 => cases h; exact hstart
  | case6 _ c _ _ _ _ _ hmore _ _ _ ih =>
      cases h
      exact ih (hstart.trans (c.reaches_advance _)) hmore
  | case7 => cases h
  | case8 _ c _ _ _ _ _ _ _ hmore ih =>
      cases h
      exact ih (hstart.trans (c.reaches_advance 1)) hmore
  | case9 => cases h

theorem placed_literal : (literal c).Placed := by
  refine placed_accept.andThen fun d before quote => ?_
  split
  next failure hfailed => exact Attempt.placed_failed (placed_literalFrom before.reaches _ hfailed)
  next => exact Attempt.placed_read

theorem placed_string : (string c).Placed := by
  refine placed_literal.andThen fun d before first => ?_
  split
  next failure hfailed =>
    refine Attempt.placed_failed (before.reaches.trans (placed_many ?_ _ hfailed))
    exact fun e => placed_literal.since _
  next => exact Attempt.placed_read

theorem placed_numeral : (numeral c).Placed := by
  unfold numeral
  simp only
  have hsign := (sign c).reaches
  split
  next => exact Attempt.placed_absent
  next => exact Attempt.placed_failed (hsign.trans (Cursor.reaches_advance _ _))
  next =>
    split
    next => exact Attempt.placed_failed hsign
    next => exact Attempt.placed_read

theorem placed_identifier : (identifier c).Placed := by
  refine placed_accept.andThen fun d before first => ?_
  split
  next => exact Attempt.placed_read
  next => exact Attempt.placed_read

theorem placed_scalar : (scalar c).Placed :=
  (placed_string.orElse (placed_numeral.orElse (placed_identifier.map _))).within _

theorem placed_scalarValue : (scalarValue c).Placed :=
  placed_scalar.map _

/-! Messages and lists. -/

/-- A body goes wrong behind where it begins. -/
def BodyPlaced (body : Option Body) : Prop :=
  ∀ fields, body = some fields → ∀ c, PlacedError c (fields c)

variable {body : Option Body} {element : (c : Cursor) → Attempt c Value}

theorem placed_message (hbody : BodyPlaced body) : (message body c).Placed := by
  refine placed_accept.andThen fun d before opening => ?_
  cases body with
  | none => exact Attempt.placed_failed (.refl c)
  | some fields =>
      simp only
      split
      next failure hfailed =>
        exact Attempt.placed_failed (before.reaches.trans (hbody fields rfl d failure hfailed))
      next => exact (placed_expect.map _).since _

theorem placed_furtherElement (h : ∀ c, (element c).Placed) : (furtherElement element c).Placed :=
  (placed_accept.andThen fun d _ _ => (h d.skipLayout).since _).since _

theorem placed_elements (h : ∀ c, (element c).Placed) : PlacedError c (elements element c) := by
  intro failure hfailed
  unfold elements at hfailed
  split at hfailed
  next => cases hfailed
  next other hother =>
    cases hfailed
    exact c.reaches_skipLayout.trans (h _ _ hother)
  next first d before hfirst =>
    split at hfailed
    next other hother =>
      cases hfailed
      have hmore := placed_many (fun _ => placed_furtherElement h) _ hother
      exact c.reaches_skipLayout.trans (before.reaches.trans hmore)
    next => cases hfailed

theorem placed_list (h : ∀ c, (element c).Placed) : (list element c).Placed := by
  refine placed_accept.andThen fun d before _ => ?_
  split
  next failure hfailed =>
    exact Attempt.placed_failed (before.reaches.trans (placed_elements h failure hfailed))
  next => exact (placed_expect.map _).since _

theorem placed_valueAfterColon (hbody : BodyPlaced body) : (valueAfterColon body c).Placed := by
  refine Attempt.Placed.within ?_ _
  refine (placed_message hbody).orElse (Attempt.Placed.orElse ?_ ?_)
  · exact placed_list fun d => (placed_message hbody).orElse placed_scalarValue
  · exact placed_scalarValue.orFail (.refl c)

theorem placed_valueWithoutColon (hbody : BodyPlaced body) :
    (valueWithoutColon body c).Placed := by
  refine Attempt.Placed.within (Attempt.Placed.orFail ?_ (.refl c)) _
  exact (placed_message hbody).orElse (placed_list fun _ => placed_message hbody)

/-! Fields. -/

theorem placed_expandedName : (expandedName c).Placed := by
  refine placed_accept.andThen fun d before _ => ?_
  split
  next => exact (placed_expect.map _).since _
  next => exact Attempt.placed_absent

theorem placed_fieldName : (fieldName c).Placed :=
  (placed_identifier.map _).orElse placed_expandedName

theorem placed_fieldValue (hbody : BodyPlaced body) : (fieldValue body c).Placed := by
  refine Attempt.Placed.since ?_ c.reaches_skipLayout
  split
  next => exact (placed_valueAfterColon hbody).since _
  next => exact placed_valueWithoutColon hbody

theorem placed_field (hbody : BodyPlaced body) : (field body c).Placed := by
  refine Attempt.Placed.since ?_ c.reaches_skipLayout
  refine placed_fieldName.andThen fun d before name => ?_
  exact ((placed_fieldValue hbody).since _).andThen fun _ _ _ => Attempt.placed_read

end

theorem placed_fields (levels : Nat) : BodyPlaced (some (fields levels)) := by
  -- By the levels: a body has one level fewer.
  induction levels with
  | zero =>
      rintro _ ⟨⟩ c
      exact placed_many fun _ => placed_field nofun
  | succ levels ih =>
      rintro _ ⟨⟩ c
      exact placed_many fun _ => placed_field ih

/-- A text is refused at a place in it. -/
theorem reaches_of_parse {text : List Char} {failure : Failure} (h : parse text = .error failure) :
    (Cursor.ofText text).Reaches failure.place := by
  unfold parse at h
  split at h
  next other hother =>
    cases h
    exact placed_fields nestingLimit _ rfl _ _ hother
  next members d reaches _ =>
    simp only at h
    split at h
    next => cases h
    next =>
      cases h
      exact reaches.trans d.reaches_skipLayout

end Tree

end Textproto
