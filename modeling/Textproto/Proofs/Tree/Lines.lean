import Textproto.Binding.Error
import Textproto.Proofs.Text.Lines
import Textproto.Proofs.Tree.Alike
import Textproto.Proofs.Tree.Faults
import Textproto.Proofs.Tree.Nodes
import Textproto.Proofs.Tree.Places

namespace Textproto.Tree

/-! What is shown of a text is one line, but for one escape and for what strings hold. -/

theorem newline_not_mem_firstLine (text : List Char) : '\n' ∉ Failure.firstLine text := by
  have hline := firstLine_spec text
  generalize Failure.firstLine text = line at hline
  cases hline <;> assumption

theorem isLine_octalOutOfRange {digits : List Char} :
    IsLine (Complaint.octalOutOfRange digits).text ↔ '\n' ∉ digits := by
  change IsLine ("octal escape \\" ++ String.ofList digits ++ " is out of range") ↔ _
  simp +decide

theorem isLine_invalidCodePoint (code : Nat) : IsLine (Complaint.invalidCodePoint code).text := by
  change IsLine ("invalid Unicode code point 0x" ++ String.ofList (Nat.toDigits 16 code)
    ++ " in string escape")
  simp +decide [newline_not_mem_toDigits]

theorem isLine_invalidEscape {c : Char} : IsLine (Complaint.invalidEscape c).text ↔ c ≠ '\n' := by
  change IsLine ("invalid escape sequence \\" ++ String.ofList [c]) ↔ _
  have hlead : IsLine "invalid escape sequence \\" := by decide
  rw [isLine_append, and_iff_right hlead, isLine_ofList, List.mem_singleton, eq_comm]

theorem Escape.Flaw.isLine_text_iff {complaint : Complaint} {text : List Char}
    (h : Flaw complaint text) : IsLine complaint.text ↔ complaint ≠ .invalidEscape '\n' := by
  cases h with
  | octal _ hdigits _ =>
      have hline := newline_not_mem_of_all (by decide) hdigits
      exact iff_of_true (isLine_octalOutOfRange.mpr hline) nofun
  | hex => exact iff_of_true (by decide) nofun
  | short => exact iff_of_true (by decide) nofun
  | long => exact iff_of_true (by decide) nofun
  | unpaired => exact iff_of_true (by decide) nofun
  | shortLow => exact iff_of_true (by decide) nofun
  | invalidLow => exact iff_of_true (by decide) nofun
  | shortCode => exact iff_of_true (isLine_invalidCodePoint _) nofun
  | longCode => exact iff_of_true (isLine_invalidCodePoint _) nofun
  | other => rw [isLine_invalidEscape, ne_eq, ne_eq, Complaint.invalidEscape.injEq]

theorem Complaint.Raised.isLine_text_iff {complaint : Complaint} (h : complaint.Raised) :
    IsLine complaint.text ↔ complaint ≠ .invalidEscape '\n' := by
  have hliteral {complaint : Complaint} {offset : Nat} {text : List Char}
      (h : LiteralFlaw complaint offset text) :
      IsLine complaint.text ↔ complaint ≠ .invalidEscape '\n' := by
    obtain ⟨_, _, hbroken⟩ := h
    cases hbroken with
    | newline => exact iff_of_true (by decide) nofun
    | ended => exact iff_of_true (by decide) nofun
    | unfinished => exact iff_of_true (by decide) nofun
    | escape hflaw => exact hflaw.isLine_text_iff
  cases h with
  | string hflaw =>
      cases hflaw with
      | first hflaw => exact hliteral hflaw
      | later _ _ hflaw => exact hliteral hflaw
  | invalidNumber => exact iff_of_true (by decide) nofun
  | nestedTooDeep => exact iff_of_true (by decide) nofun

theorem isLine_quoted (place : Cursor) : IsLine (Failure.quoted place) := by
  simp +decide [Failure.quoted, newline_not_mem_firstLine]

theorem isLine_path (path : List Construct) :
    IsLine ("/".intercalate (path.map Construct.text)) := by
  refine isLine_intercalate (by decide) ?_
  simp only [List.mem_map, forall_exists_index, and_imp, forall_apply_eq_imp_iff₂]
  rintro (_ | _ | _ | _ | _) _ <;> decide

/-- The message of a refused text is one line, unless a line end stands behind a backslash. -/
theorem isLine_message_iff {text : List Char} {failure : Failure}
    (h : parse text = .error failure) :
    IsLine failure.message ↔ failure.cause ≠ .described (.invalidEscape '\n') := by
  have hquoted := isLine_quoted failure.place
  unfold Failure.message
  split
  next complaint _ hcause =>
    obtain ⟨_, hraised⟩ := complaint_of_parse h hcause
    have hat : IsLine ", at " := by decide
    simp [hraised.isLine_text_iff, hquoted, hcause, hat]
  next hcause => simp +decide [hcause, hquoted]
  next hcause _ => simp +decide [hcause, hquoted]
  next hcause _ => simp +decide [hcause, hquoted, isLine_path]

/-! Names and scalars of a tree. -/

theorem throughout_of_under {P : Node → Prop} {inner fields : List Field} (h : Under inner fields)
    (hfields : ∀ field ∈ fields, Node.Throughout P (.field field)) :
    ∀ field ∈ inner, Node.Throughout P (.field field) := by
  obtain ⟨outer, houter, hvalue⟩ := h
  have hparts := (Node.throughout_field.mp (hfields outer houter)).2
  rcases hvalue with ⟨place, hvalue⟩ | ⟨values, place, own, hvalue, helement⟩
  · rw [hvalue] at hparts
    exact (Node.throughout_message.mp hparts).2
  · rw [hvalue] at hparts
    exact (Node.throughout_message.mp ((Node.throughout_list.mp hparts).2 _ helement)).2

/-- The text that names a field. -/
def Name.text : Name → List Char
  | plain name => name
  | expanded url => url

/-- No line end is shown of a node, unless it is a string. -/
def Node.OneLine : Node → Prop
  | .field written => '\n' ∉ written.name.text
  | .value (.scalar scalar _) => (∀ bytes, scalar ≠ .string bytes) → IsLine scalar.description
  | .value _ => True

theorem Written.spells {tokens : List Token} {text : List Char} (h : Written tokens text) :
    ∀ token ∈ tokens, ∃ word, token.Spells word := by
  induction h with
  | done _ => exact nofun
  | token _ hspells _ _ ih => exact List.forall_mem_cons.mpr ⟨⟨_, hspells⟩, ih⟩

theorem Token.newline_not_mem_word {name text : List Char} (h : (word name).Spells text) :
    '\n' ∉ name := by
  cases h with
  | @word x more hx hmore =>
      rw [List.mem_cons, not_or]
      refine ⟨?_, newline_not_mem_of_all (by decide) hmore⟩
      rintro rfl
      exact absurd hx (by decide)

theorem Token.newline_not_mem_url {url text : List Char} (h : (Token.url url).Spells text) :
    '\n' ∉ url := by
  cases h with
  | url _ hurl => exact newline_not_mem_of_all (by decide) hurl

theorem Numeral.newline_not_mem_digits {digits text : List Char} {radix : Radix}
    (h : Spells (.integer digits radix) text) : '\n' ∉ digits := by
  cases h with
  | decimal _ hdigits _ => exact newline_not_mem_of_all (by decide) hdigits
  | hexadecimal _ _ hdigits => exact newline_not_mem_of_all (by decide) hdigits
  | octal _ hdigits => exact newline_not_mem_of_all (by decide) hdigits
  | zero => decide
  | float hfloat _ => cases hfloat

theorem NameTokens.newline_not_mem {name : Name} {tokens : List Token}
    (h : NameTokens name tokens) (hspells : ∀ token ∈ tokens, ∃ word, token.Spells word) :
    '\n' ∉ name.text := by
  cases h with
  | plain =>
      obtain ⟨_, hword⟩ := hspells _ List.mem_cons_self
      exact Token.newline_not_mem_word hword
  | expanded =>
      obtain ⟨_, hurl⟩ := hspells _ (List.mem_cons_of_mem _ List.mem_cons_self)
      exact Token.newline_not_mem_url hurl

/-- A number is written without line ends in it. -/
theorem isLine_integer {negative : Bool} {digits : List Char} {radix : Radix} (h : '\n' ∉ digits) :
    IsLine (Scalar.integer negative digits radix).description := by
  change IsLine ("integer " ++ (if negative then "-" else "") ++ String.ofList digits)
  have hsign : IsLine (if negative then "-" else "") := by
    cases negative <;> decide
  have hlead : IsLine "integer " := by decide
  simp [hlead, hsign, h]

theorem isLine_float (x : Double) : IsLine (Scalar.float x).description :=
  isLine_append.mpr ⟨by decide, x.isLine_plainText⟩

theorem isLine_identifier {name : List Char} :
    IsLine (Scalar.identifier name).description ↔ '\n' ∉ name := by
  change IsLine ("identifier `" ++ String.ofList name ++ "`") ↔ _
  simp +decide

theorem Numeral.isLine_withSign {numeral : Numeral} {text : List Char}
    (h : numeral.Spells text) (negative : Bool) :
    IsLine (numeral.withSign negative).description := by
  cases numeral with
  | integer digits radix => exact isLine_integer (newline_not_mem_digits h)
  | float x => exact isLine_float _

theorem isLine_outline (scalar : Scalar) :
    IsLine scalar.outline.description ↔ IsLine scalar.description := by
  cases scalar with
  | float x => exact iff_of_true (isLine_float _) (isLine_float x)
  | _ => rfl

theorem ScalarTokens.isLine {scalar : Scalar} {tokens : List Token}
    (h : ScalarTokens scalar tokens) (hspells : ∀ token ∈ tokens, ∃ word, token.Spells word)
    (hstring : ∀ bytes, scalar ≠ .string bytes) : IsLine scalar.description := by
  cases h with
  | string => exact absurd rfl (hstring _)
  | identifier _ =>
      obtain ⟨_, hword⟩ := hspells _ List.mem_cons_self
      exact isLine_identifier.mpr (Token.newline_not_mem_word hword)
  | unsigned =>
      obtain ⟨_, hnumber⟩ := hspells _ List.mem_cons_self
      cases hnumber with
      | number hnumeral => exact (isLine_outline _).mpr (Numeral.isLine_withSign hnumeral false)
  | negative =>
      obtain ⟨_, hnumber⟩ := hspells _ (List.mem_cons_of_mem _ List.mem_cons_self)
      cases hnumber with
      | number hnumeral => exact (isLine_outline _).mpr (Numeral.isLine_withSign hnumeral true)

theorem oneLine_of_parse {text : List Char} {members : List Field} (h : parse text = .ok members)
    {node : Node} (hnode : node.In members) : node.OneLine := by
  obtain ⟨_, _, _, htokens, hwritten⟩ := stands_of_parse h hnode
  have hspells := fun token htoken => hwritten.spells token (List.mem_append_left _ htoken)
  cases node with
  | field written =>
      obtain ⟨name, position, value⟩ := written
      cases htokens with
      | mk hname _ _ _ =>
          refine hname.newline_not_mem fun token htoken => hspells token ?_
          simp [htoken]
  | value value =>
      cases value with
      | scalar scalar place =>
          cases htokens with
          | scalar hscalar =>
              intro hstring
              refine (isLine_outline scalar).mp (hscalar.isLine hspells ?_)
              rintro bytes hbytes
              cases scalar <;> cases hbytes
              exact hstring bytes rfl
      | message own place => trivial
      | list values place => trivial

end Textproto.Tree
