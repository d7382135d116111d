import Textproto.Proofs.Binding.Errors
import Textproto.Proofs.Binding.Sites
import Textproto.Proofs.Tree.Nodes
import Textproto.Proofs.Tree.Places

namespace Textproto

/-! What is wrong with fields is said at one of them, or at a value in them. -/

namespace Binding

/-- Where the result is an error, that is at such a position. -/
def FailsAt {α : Type} (P : Position → Prop) (result : Except Error α) : Prop :=
  ∀ error, result = .error error → P error.position

theorem FailsAt.mono {α : Type} {P Q : Position → Prop} {result : Except Error α}
    (h : FailsAt P result) (himp : ∀ position, P position → Q position) : FailsAt Q result :=
  fun error herror => himp _ (h error herror)

/-- Where the parts of a node stand. -/
def PositionsOf (node : Tree.Node) (position : Position) : Prop :=
  ∃ part, Relation.ReflTransGen Tree.Node.Child node part ∧ part.position = position

/-- Where the nodes in fields stand. -/
def PositionsIn (fields : List Tree.Field) (position : Position) : Prop :=
  ∃ node : Tree.Node, node.In fields ∧ node.position = position

theorem PositionsOf.child {node part : Tree.Node} (hchild : node.Child part) {position : Position}
    (h : PositionsOf part position) : PositionsOf node position := by
  obtain ⟨other, hpart, hposition⟩ := h
  exact ⟨other, hpart.head hchild, hposition⟩

theorem PositionsIn.message {own : List Tree.Field} {place position : Position}
    (h : PositionsIn own position) : PositionsOf (.value (.message own place)) position := by
  obtain ⟨node, ⟨written, hwritten, hpart⟩, hposition⟩ := h
  exact ⟨node, hpart.head (.field hwritten), hposition⟩

variable {registry : Registry} {field : Field} {draft : Draft} {position start : Position}

/-! Steps that look at no fields fail where they are told to. -/

theorem failsAt_note : FailsAt (· = position) (draft.note field position) := by
  intro error h
  obtain ⟨_, rfl⟩ | ⟨_, _, _, _, rfl⟩ := note_eq_error h
  · rfl
  · rfl

theorem failsAt_entryOf {entry : MapEntry} {bound : Message} :
    FailsAt (· = position) (entryOf registry entry bound position) := by
  intro error h
  obtain ⟨_, _, hunwritten⟩ | rfl := entryOf_eq_error h
  · obtain ⟨_, _, rfl⟩ := unwritten_eq_error hunwritten
    rfl
  · rfl

theorem failsAt_payloadType {message : Message} {url : String} :
    FailsAt (· = position) (payloadType registry message url position) := by
  intro error h
  obtain ⟨_, _, rfl⟩ := payloadType_eq_error h
  rfl

theorem failsAt_finish {message : Message} :
    FailsAt (· = start) (finish registry start message) := by
  intro error h
  obtain ⟨_, _, rfl⟩ := finish_eq_error h
  rfl

/-! Values and fields. -/

theorem failsAt_itemOf {value : Tree.Value}
    (hinner : ∀ own place, value = .message own place →
      ∀ descriptor, FailsAt (PositionsIn own) (messageOf registry descriptor own)) :
    FailsAt (PositionsOf (.value value)) (itemOf registry field value) := by
  have hself (position : Position) (h : position = value.position) :
      PositionsOf (.value value) position := ⟨.value value, .refl, h.symm⟩
  intro error h
  cases value with
  | message own place =>
      obtain ⟨_, descriptor, _, h⟩ | ⟨_, _, _, _, h⟩ | ⟨_, _, rfl⟩ := itemOf_message_eq_error h
      · exact (hinner own place rfl descriptor error h).message
      · exact hself _ (failsAt_entryOf error h)
      · exact hself _ rfl
  | scalar scalar place =>
      obtain ⟨_, rfl, _⟩ := itemOf_scalar_eq_error h
      exact hself _ rfl
  | list values place =>
      obtain ⟨_, rfl, _⟩ := itemOf_list_eq_error h
      exact hself _ rfl

theorem failsAt_addField {written : Tree.Field}
    (hinner : ∀ inner, Tree.Under inner [written] →
      ∀ descriptor, FailsAt (PositionsIn inner) (messageOf registry descriptor inner)) :
    FailsAt (PositionsOf (.field written)) (addField registry draft written) := by
  obtain ⟨name, position, value⟩ := written
  have hself (other : Position) (h : other = position) :
      PositionsOf (.field ⟨name, position, value⟩) other := ⟨.field _, .refl, h.symm⟩
  have hvalue (other : Position) (h : PositionsOf (.value value) other) :
      PositionsOf (.field ⟨name, position, value⟩) other :=
    h.child (@Tree.Node.Child.value ⟨name, position, value⟩)
  have hunder (own : List Tree.Field) (place : Position) (h : value = .message own place) :
      Tree.Under own [⟨name, position, value⟩] :=
    ⟨_, List.mem_singleton_self _, .inl ⟨place, h⟩⟩
  intro error h
  cases name with
  | expanded url =>
      obtain htype | ⟨descriptor, _, rfl | ⟨own, place, rfl, hown⟩⟩ := addField_expanded_eq_error h
      · exact hself _ (failsAt_payloadType error htype)
      · exact hvalue _ ⟨_, .refl, rfl⟩
      · exact hvalue _ (hinner own (hunder own place rfl) descriptor error hown).message
  | plain name =>
      obtain rfl | ⟨field, _, h⟩ := addField_plain_eq_error h
      · exact hself _ rfl
      · obtain hnote | hitem | ⟨values, place, rfl, element, helement, hitem⟩ := h
        · exact hself _ (failsAt_note error hnote)
        · refine hvalue _ (failsAt_itemOf ?_ error hitem)
          exact fun own place hown => hinner own (hunder own place hown)
        · refine hvalue _ ((failsAt_itemOf ?_ error hitem).child (.element helement))
          rintro own other rfl
          exact hinner own
            ⟨_, List.mem_singleton_self _, .inr ⟨values, place, other, rfl, helement⟩⟩

theorem failsAt_addFields {fields : List Tree.Field}
    (h : ∀ written ∈ fields, ∀ draft,
      FailsAt (PositionsOf (.field written)) (addField registry draft written)) (draft : Draft) :
    FailsAt (fun position => position = start ∨ PositionsIn fields position)
      (addFields registry start draft fields) := by
  induction fields generalizing draft with
  | nil =>
      rw [addFields]
      exact failsAt_finish.mono fun _ => .inl
  | cons first rest ih =>
      rw [List.forall_mem_cons] at h
      intro error herror
      rw [addFields] at herror
      obtain hfirst | ⟨next, _, hrest⟩ := Except.bind_eq_error_iff.mp herror
      · obtain ⟨part, hpart, hposition⟩ := h.1 draft error hfirst
        exact .inr ⟨part, ⟨first, List.mem_cons_self, hpart⟩, hposition⟩
      · refine (ih h.2 next error hrest).imp_right ?_
        rintro ⟨node, ⟨written, hwritten, hpart⟩, hposition⟩
        exact ⟨node, ⟨written, List.mem_cons_of_mem _ hwritten, hpart⟩, hposition⟩

theorem failsAt_messageOf (descriptor : Descriptor) (fields : List Tree.Field) :
    FailsAt (PositionsIn fields) (messageOf registry descriptor fields) := by
  -- By how deep the fields lie. Without any there is nothing wrong, so that they have a place to
  -- begin at.
  induction fields using Tree.under_induction generalizing descriptor with
  | step fields ih =>
      cases fields with
      | nil =>
          rw [messageOf_nil]
          exact nofun
      | cons first rest =>
          refine (failsAt_addFields ?_ (.empty descriptor)).mono ?_
          · intro written hwritten draft
            refine failsAt_addField fun inner hinner => ?_
            obtain ⟨_, hmem, hvalue⟩ := hinner
            rw [List.mem_singleton.mp hmem] at hvalue
            exact fun descriptor => ih inner ⟨written, hwritten, hvalue⟩ descriptor
          · rintro position (rfl | hposition)
            · exact ⟨.field first, ⟨first, List.mem_cons_self, .refl⟩, rfl⟩
            · exact hposition

end Binding

/-- What an error has to do with the rest of the text, from where it is on: its message ends in the
first line of that, or a field or a value begins there. -/
inductive DecodeError.Regards (registry : Registry) (descriptor : Descriptor)
    (text rest : List Char) : DecodeError → Prop
  | refused {failure : Tree.Failure} {lead : String} {line : List Char} :
      Tree.parse text = .error failure →
      failure.message = lead ++ ("`" ++ String.ofList line ++ "`") → Tree.FirstLine line rest →
      Regards registry descriptor text rest (.refused failure)
  | unbound {fields : List Tree.Field} {error : Binding.Error} {node : Tree.Node} :
      Tree.parse text = .ok fields →
      Binding.messageOf registry descriptor fields = .error error →
      node.In fields → node.Begins rest →
      (∀ written, node = .field written →
        (∃ name, written.name = .plain name ∧ name <+: rest) ∨
          ∃ url more, written.name = .expanded url ∧ rest = '[' :: more) →
      Regards registry descriptor text rest (.unbound error)

variable {registry : Registry} {descriptor : Descriptor} {error : DecodeError}

theorem exists_place_of_decodeText {text : List Char}
    (h : decodeText registry descriptor text = .error error) :
    ∃ read rest, text = read ++ rest ∧
      error.position? = some (read.foldl Position.after .start) ∧
      error.Regards registry descriptor text rest := by
  unfold decodeText at h
  cases hparse : Tree.parse text with
  | error failure =>
      rw [hparse] at h
      cases h
      obtain ⟨read, hrest, hposition⟩ := Tree.reaches_of_parse hparse
      obtain ⟨lead, hmessage⟩ := Tree.exists_message_eq failure
      refine ⟨read, _, hrest, congrArg some hposition, ?_⟩
      exact .refused hparse hmessage (Tree.firstLine_spec _)
  | ok fields =>
      rw [hparse] at h
      cases hbound : Binding.messageOf registry descriptor fields with
      | ok message =>
          simp only [hbound] at h
          cases h
      | error cause =>
          simp only [hbound] at h
          cases h
          -- An error of the binder stands where one of the nodes does, and so where that is
          -- written.
          obtain ⟨node, hnode, hposition⟩ :=
            Binding.failsAt_messageOf descriptor fields cause hbound
          obtain ⟨read, rest, hsplit, hread, hbegins⟩ := (Tree.stands_of_parse hparse hnode).split
          refine ⟨read, rest, hsplit, congrArg some (hposition.symm.trans hread), ?_⟩
          refine .unbound hparse hbound hnode hbegins ?_
          rintro written rfl
          exact hbegins.name

/-- A text is refused at a place in it, and the error regards what follows. Without a text there is
no place. -/
theorem decode_eq_error {bytes : List UInt8} (h : decode registry descriptor bytes = .error error) :
    (∀ text, Utf8.decode bytes = .ok text → ∃ read rest, text = read ++ rest ∧
      error.line = 1 + read.count '\n' ∧
      error.column = 1 + (read.rtakeWhile (· ≠ '\n')).length ∧
      error.Regards registry descriptor text rest) ∧
    (error.line = 0 ∧ error.column = 0 ↔ ∃ malformed, Utf8.decode bytes = .error malformed) := by
  cases htext : Utf8.decode bytes with
  | error malformed =>
      rw [decode, htext] at h
      cases h
      refine ⟨fun text heq => ?_, fun _ => ⟨malformed, rfl⟩, fun _ => ⟨rfl, rfl⟩⟩
      cases heq
  | ok text =>
      rw [decode, htext] at h
      obtain ⟨read, rest, hsplit, hposition, hregards⟩ := exists_place_of_decodeText h
      have hline : error.line = 1 + read.count '\n' := by
        rw [DecodeError.line, hposition, Position.foldl_after]
        rfl
      have hcolumn : error.column = 1 + (read.rtakeWhile (· ≠ '\n')).length := by
        rw [DecodeError.column, hposition, Position.foldl_after]
        rfl
      refine ⟨?_, ?_, ?_⟩
      · rintro _ ⟨⟩
        exact ⟨read, rest, hsplit, hline, hcolumn, hregards⟩
      · rintro ⟨hzero, _⟩
        omega
      · rintro ⟨malformed, hmalformed⟩
        cases hmalformed

/-- A field that its type does not have, behind a line end and a comment. -/
theorem decode_eq_error_field :
    let text := "name: 'x' # ü\n extra: 1".toList
    ∃ error read rest,
      decode .bundled Bundled.testFileType (Utf8.encode text) = .error error ∧
        text = read ++ rest ∧ 2 = 1 + read.count '\n' ∧
        2 = 1 + (read.rtakeWhile (· ≠ '\n')).length ∧
        error.Regards .bundled Bundled.testFileType text rest := by
  intro text
  have hposition : ((decode .bundled Bundled.testFileType (Utf8.encode text)).map fun _ => ()).mapError
      (fun error => (error.line, error.column)) = .error (2, 2) := by
    decide +kernel
  cases hdecode : decode .bundled Bundled.testFileType (Utf8.encode text) with
  | ok message =>
      rw [hdecode] at hposition
      cases hposition
  | error error =>
      rw [hdecode] at hposition
      obtain ⟨hline', hcolumn'⟩ := Prod.mk.inj (Except.error.inj hposition)
      obtain ⟨read, rest, hsplit, hline, hcolumn, hregards⟩ :=
        (decode_eq_error hdecode).1 text (Utf8.decode_encode text)
      exact ⟨error, read, rest, rfl, hsplit, hline'.symm.trans hline,
        hcolumn'.symm.trans hcolumn, hregards⟩

end Textproto
