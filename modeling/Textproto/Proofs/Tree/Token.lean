import Textproto.Proofs.Tree.Layout
import Textproto.Proofs.Tree.Literal
import Textproto.Proofs.Tree.Number
import Textproto.Tree.Parser

namespace Textproto.Tree

/-! Texts as tokens with layout between them. -/

inductive Token where
  | mark (x : Char)
  | word (name : List Char)
  | url (url : List Char)
  | literal (bytes : List UInt8)
  | number (numeral : Numeral)

def isPunctuation (x : Char) : Bool :=
  x ∈ ['{', '}', '<', '>', '[', ']', ':', ',', ';', '-']

namespace Token

inductive Spells : Token → List Char → Prop
  | mark {x : Char} : isPunctuation x = true → Spells (.mark x) [x]
  | word {x : Char} {more : List Char} :
      isIdentifierStart x = true → more.all isIdentifierChar = true →
      Spells (.word (x :: more)) (x :: more)
  | url {url : List Char} : url ≠ [] → url.all isUrlChar = true → Spells (.url url) url
  | literal {text : List Char} {bytes : List UInt8} :
      LiteralText text bytes → Spells (.literal bytes) text
  | number {numeral : Numeral} {text : List Char} :
      Numeral.Spells numeral text → Spells (.number numeral) text

/-- Whether a character behind the token would belong to it. -/
def joins : Token → Char → Bool
  | mark _, _ => false
  | word _, x => isIdentifierChar x
  | url _, x => isUrlChar x
  | literal _, _ => false
  | number _, x => Numeral.isJoining x

/-- Whether the token may begin with a character. -/
def begins : Token → Char → Bool
  | mark x, y => x = y
  | word _, y => isIdentifierStart y
  | url _, y => isUrlChar y
  | literal _, y => isQuote y
  | number _, y => y.isAlphanum || y = '.'

theorem begins_number {numeral : Numeral} {text : List Char}
    (h : Numeral.Spells numeral text) :
    ∃ x more, text = x :: more ∧ (x.isAlphanum = true ∨ x = '.') := by
  have digits {digits : List Char} (hne : digits ≠ []) (hdigits : digits.all Char.isDigit = true)
      (rest : List Char) :
      ∃ x more, digits ++ rest = x :: more ∧ (x.isAlphanum = true ∨ x = '.') := by
    obtain ⟨x, more, rfl⟩ := List.exists_cons_of_ne_nil hne
    rw [List.all_cons, Bool.and_eq_true] at hdigits
    exact ⟨x, _, rfl, .inl (by simp [Char.isAlphanum, hdigits.1])⟩
  cases h with
  | decimal hne hdigits => simpa using digits hne hdigits []
  | hexadecimal _ _ _ => exact ⟨'0', _, rfl, .inl rfl⟩
  | octal _ _ => exact ⟨'0', _, rfl, .inl rfl⟩
  | zero => exact ⟨'0', _, rfl, .inl rfl⟩
  | float hfloat _ =>
      cases hfloat with
      | exponent hwhole hne _ =>
          rw [List.append_assoc]
          exact digits hne hwhole _
      | @point whole fraction _ _ hwhole _ _ _ =>
          cases whole with
          | nil => exact ⟨'.', _, rfl, .inr rfl⟩
          | cons x whole =>
              rw [List.append_assoc]
              exact digits (List.cons_ne_nil x whole) hwhole _
  | special hspecial =>
      obtain ⟨x, more, rfl, halpha, _⟩ := Numeral.special_head hspecial
      exact ⟨x, more, rfl, .inl (by simp [Char.isAlphanum, halpha])⟩

theorem begins_of_spells {token : Token} {text : List Char} (h : token.Spells text) :
    ∃ x more, text = x :: more ∧ token.begins x = true := by
  cases h with
  | mark _ => exact ⟨_, [], rfl, decide_eq_true rfl⟩
  | word hx _ => exact ⟨_, _, rfl, hx⟩
  | url hne hurl =>
      obtain ⟨x, more, rfl⟩ := List.exists_cons_of_ne_nil hne
      rw [List.all_cons, Bool.and_eq_true] at hurl
      exact ⟨x, more, rfl, hurl.1⟩
  | literal h =>
      cases h with
      | mk hquote _ => exact ⟨_, _, rfl, hquote⟩
  | number h =>
      obtain ⟨x, more, rfl, hx⟩ := begins_number h
      exact ⟨x, more, rfl, by simpa [begins] using hx⟩

/-- No token begins as layout does. -/
theorem begins_layout_eq_false {token : Token} {text : List Char} (h : token.Spells text)
    (rest : List Char) : Layout.begins (text ++ rest) = false := by
  obtain ⟨x, more, rfl, hx⟩ := begins_of_spells h
  have hclass (isWanted : Char → Bool) (hwanted : isWanted x = true)
      (hno : ['#', ' ', '\t', '\r', '\n'].any isWanted = false) :
      Layout.begins (x :: more ++ rest) = false := by
    have hne (y : Char) (hy : y ∈ ['#', ' ', '\t', '\r', '\n']) : x ≠ y := by
      rintro rfl
      exact List.any_eq_false.mp hno x hy hwanted
    simp only [Layout.begins, Cursor.isBlank, List.cons_append, List.head?_cons, Option.any_some,
      Bool.or_eq_false_iff, decide_eq_false_iff_not]
    exact ⟨hne _ (by simp), ⟨⟨hne _ (by simp), hne _ (by simp)⟩, hne _ (by simp)⟩,
      hne _ (by simp)⟩
  cases h with
  | mark hmark => exact hclass isPunctuation hmark (by decide)
  | word => exact hclass isIdentifierStart hx (by decide)
  | url => exact hclass isUrlChar hx (by decide)
  | literal => exact hclass isQuote hx (by decide)
  | number => exact hclass (fun y => y.isAlphanum || y = '.') hx (by decide)

/-- No token comes first that may begin with a character of the class. -/
def Avoid (isWanted : Char → Bool) (tokens : List Token) : Prop :=
  ∀ token, tokens.head? = some token → ∀ x, token.begins x = true → isWanted x = false

namespace Avoid

variable {isWanted : Char → Bool}

theorem nil : Avoid isWanted [] := by
  intro token h
  cases h

theorem cons {token : Token} (h : ∀ x, token.begins x = true → isWanted x = false)
    (tokens : List Token) : Avoid isWanted (token :: tokens) := by
  intro first hfirst
  cases hfirst
  exact h

theorem mark {x : Char} (h : isWanted x = false) (tokens : List Token) :
    Avoid isWanted (.mark x :: tokens) := by
  refine cons ?_ tokens
  intro y hy
  obtain rfl : x = y := by simpa [begins] using hy
  exact h

theorem mono {isOther : Char → Bool} {tokens : List Token} (h : Avoid isWanted tokens)
    (hle : ∀ x, isOther x = true → isWanted x = true) : Avoid isOther tokens := by
  intro token htoken x hx
  have hwanted := h token htoken x hx
  cases hother : isOther x with
  | false => rfl
  | true => rw [hle x hother] at hwanted; cases hwanted

end Avoid

end Token

/-- A text that spells tokens. Layout may stand anywhere between them, and has to where a
token would run into the next one. -/
inductive Written : List Token → List Char → Prop
  | done {text : List Char} : Layout.Final text → Written [] text
  | token {token : Token} {tokens : List Token} {layout text rest : List Char} :
      Layout layout → token.Spells text → Stops token.joins rest → Written tokens rest →
      Written (token :: tokens) (layout ++ (text ++ rest))

/-- Of a text the front, up to `left`, spells tokens. Where nothing is left, that is the whole
text. -/
inductive WrittenTo (left : List Char) : List Token → List Char → Prop
  | done {layout : List Char} :
      Layout.begins left = false → (Layout layout ∨ (Layout.Final layout ∧ left = [])) →
      WrittenTo left [] (layout ++ left)
  | token {token : Token} {tokens : List Token} {layout text rest : List Char} :
      Layout layout → token.Spells text → Stops token.joins rest → WrittenTo left tokens rest →
      WrittenTo left (token :: tokens) (layout ++ (text ++ rest))

theorem written_iff {tokens : List Token} {text : List Char} :
    Written tokens text ↔ WrittenTo [] tokens text := by
  constructor
  · intro h
    induction h with
    | @done text hfinal =>
        rw [← List.append_nil text]
        exact .done rfl (.inr ⟨hfinal, rfl⟩)
    | token hlayout hspells hstops _ ih => exact .token hlayout hspells hstops ih
  · intro h
    induction h with
    | done _ hlayout =>
        rw [List.append_nil]
        exact .done (hlayout.elim .layout And.left)
    | token hlayout hspells hstops _ ih => exact .token hlayout hspells hstops ih

/-- What is left, as far as the tokens in front of it depend on it: its first character. -/
def Token.ahead : List Char → List Token
  | [] => []
  | x :: _ => [.mark x]

namespace WrittenTo

variable {left : List Char} {c : Cursor} {token : Token} {tokens : List Token}

theorem append_layout {read rest : List Char} (h : WrittenTo left tokens rest)
    (hread : Layout read ∨ (Layout.Final read ∧ rest = [])) :
    WrittenTo left tokens (read ++ rest) := by
  cases h with
  | @done layout hleft hlayout =>
      rw [← List.append_assoc]
      refine .done hleft ?_
      rcases hread with hread | ⟨hread, hend⟩
      · exact hlayout.imp hread.append (And.imp_left hread.append_final)
      · obtain ⟨rfl, rfl⟩ := List.append_eq_nil_iff.mp hend
        rw [List.append_nil]
        exact .inr ⟨hread, rfl⟩
  | @token token tokens layout text rest hlayout hspells hstops hwritten =>
      rcases hread with hread | ⟨_, hend⟩
      · rw [← List.append_assoc]
        exact .token (hread.append hlayout) hspells hstops hwritten
      · obtain ⟨x, more, rfl, _⟩ := Token.begins_of_spells hspells
        simp at hend

theorem of_skipLayout (h : WrittenTo left tokens c.skipLayout.rest) :
    WrittenTo left tokens c.rest := by
  obtain ⟨read, hrest, hread⟩ := c.skipLayout_split
  rw [hrest]
  exact h.append_layout hread

/-- Behind layout stands the first token. -/
theorem first (h : WrittenTo left (token :: tokens) c.rest) :
    ∃ text rest, c.skipLayout.rest = text ++ rest ∧ token.Spells text ∧
      Stops token.joins rest ∧ WrittenTo left tokens rest := by
  generalize hrest : c.rest = whole at h
  cases h with
  | @token _ _ layout text rest hlayout hspells hstops hwritten =>
      exact ⟨text, rest,
        Cursor.skipLayout_rest hrest hlayout (Token.begins_layout_eq_false hspells rest),
        hspells, hstops, hwritten⟩

/-- Behind the last token and layout stands what is left. -/
theorem rest_eq (h : WrittenTo left [] c.rest) : c.skipLayout.rest = left := by
  generalize hrest : c.rest = whole at h
  cases h with
  | done hleft hlayout =>
      rcases hlayout with hlayout | ⟨hfinal, rfl⟩
      · exact Cursor.skipLayout_rest hrest hlayout hleft
      · rw [List.append_nil] at hrest
        exact Cursor.skipLayout_rest_final (hrest ▸ hfinal)

/-- What the first token does not begin with does not come first behind layout. -/
theorem stops {isWanted : Char → Bool} (h : WrittenTo left tokens c.rest)
    (hfirst : Token.Avoid isWanted (tokens ++ Token.ahead left)) :
    Stops isWanted c.skipLayout.rest := by
  cases tokens with
  | nil =>
      rw [h.rest_eq]
      cases left with
      | nil => exact .nil
      | cons x rest => exact Stops.cons_iff.mpr (hfirst (.mark x) rfl x (decide_eq_true rfl))
  | cons token tokens =>
      obtain ⟨text, rest, hrest, hspells, _, _⟩ := h.first
      obtain ⟨x, more, rfl, hx⟩ := Token.begins_of_spells hspells
      rw [hrest]
      exact Stops.cons_iff.mpr (hfirst token rfl x hx)

theorem mark {x : Char} {rest : List Char} (hx : isPunctuation x = true)
    (h : WrittenTo left tokens rest) : WrittenTo left (.mark x :: tokens) (x :: rest) := by
  have hstops : Stops (Token.mark x).joins rest := fun _ _ => rfl
  exact .token .nil (.mark hx) hstops h

end WrittenTo

namespace Written

variable {c : Cursor} {token : Token} {tokens : List Token}

theorem of_skipLayout (h : Written tokens c.skipLayout.rest) : Written tokens c.rest :=
  written_iff.mpr (written_iff.mp h).of_skipLayout

theorem first (h : Written (token :: tokens) c.rest) :
    ∃ text rest, c.skipLayout.rest = text ++ rest ∧ token.Spells text ∧
      Stops token.joins rest ∧ Written tokens rest := by
  simp only [written_iff] at h ⊢
  exact h.first

theorem mark {x : Char} {rest : List Char} (hx : isPunctuation x = true)
    (h : Written tokens rest) : Written (.mark x :: tokens) (x :: rest) :=
  written_iff.mpr ((written_iff.mp h).mark hx)

end Written

/-! Marks are accepted where they stand behind layout. -/

theorem written_of_accept {isWanted : Char → Bool} {left : List Char} {c d : Cursor} {x : Char}
    {tokens : List Token} (haccept : (accept isWanted c).Reads x d)
    (hx : isPunctuation x = true) (h : WrittenTo left tokens d.rest) :
    WrittenTo left (.mark x :: tokens) c.rest := by
  obtain ⟨rest, hrest, _, rfl⟩ := reads_accept.mp haccept
  rw [Cursor.advance_rest, hrest, List.drop_one, List.tail_cons] at h
  rw [hrest]
  exact h.mark hx

theorem accept_of_written (isWanted : Char → Bool) {left : List Char} {c : Cursor} {x : Char}
    {tokens : List Token} (h : WrittenTo left (.mark x :: tokens) c.rest)
    (hx : isWanted x = true) :
    ∃ d, (accept isWanted c.skipLayout).Reads x d ∧ WrittenTo left tokens d.rest := by
  obtain ⟨text, rest, hrest, hspells, _, hwritten⟩ := h.first
  cases hspells
  refine ⟨_, reads_accept.mpr ⟨rest, hrest, hx, rfl⟩, ?_⟩
  rw [Cursor.advance_rest, hrest]
  exact hwritten

end Textproto.Tree
