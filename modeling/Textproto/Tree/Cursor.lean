namespace Textproto

/-- A place in a text: lines and the characters of a line are counted from one. -/
structure Position where
  line : Nat
  column : Nat
  deriving Repr, DecidableEq

namespace Position

def start : Position := ⟨1, 1⟩

def after (p : Position) (c : Char) : Position :=
  if c = '\n' then ⟨p.line + 1, 1⟩ else ⟨p.line, p.column + 1⟩

def text (p : Position) : String :=
  s!"line {p.line} column {p.column}"

end Position

/-- A place in a text and what follows it. -/
structure Cursor where
  position : Position
  rest : List Char
  deriving Repr, DecidableEq

namespace Cursor

def ofText (text : List Char) : Cursor :=
  ⟨.start, text⟩

def next? (c : Cursor) : Option Char :=
  c.rest.head?

/-- Past `n` characters, or at the end. -/
def advance : Nat → Cursor → Cursor
  | 0, c => c
  | _ + 1, ⟨p, []⟩ => ⟨p, []⟩
  | n + 1, ⟨p, x :: rest⟩ => advance n ⟨p.after x, rest⟩

/-! Cursors on the same text, one behind the other. -/

/-- Reading some characters, or none, leads from `c` to `d`. -/
def Reaches (c d : Cursor) : Prop :=
  ∃ read : List Char, c.rest = read ++ d.rest ∧ d.position = read.foldl Position.after c.position

/-- Reading at least one character leads from `c` to `d`. -/
def Before (c d : Cursor) : Prop :=
  c.Reaches d ∧ d.rest.length < c.rest.length

theorem Reaches.refl (c : Cursor) : c.Reaches c :=
  ⟨[], rfl, rfl⟩

theorem Reaches.trans {c d e : Cursor} (h : c.Reaches d) (h' : d.Reaches e) : c.Reaches e := by
  obtain ⟨read, hrest, hposition⟩ := h
  obtain ⟨read', hrest', hposition'⟩ := h'
  exact ⟨read ++ read', by simp [hrest, hrest'], by simp [hposition, hposition']⟩

theorem Reaches.length_le {c d : Cursor} (h : c.Reaches d) :
    d.rest.length ≤ c.rest.length := by
  obtain ⟨read, hrest, _⟩ := h
  simp [hrest]

theorem Before.reaches {c d : Cursor} (h : c.Before d) : c.Reaches d := h.1

theorem Before.shorter {c d : Cursor} (h : c.Before d) : d.rest.length < c.rest.length := h.2

theorem Before.trans_reaches {c d e : Cursor} (h : c.Before d) (h' : d.Reaches e) :
    c.Before e :=
  ⟨h.1.trans h', Nat.lt_of_le_of_lt h'.length_le h.2⟩

theorem Reaches.trans_before {c d e : Cursor} (h : c.Reaches d) (h' : d.Before e) :
    c.Before e :=
  ⟨h.trans h'.1, Nat.lt_of_lt_of_le h'.2 h.length_le⟩

theorem Before.trans {c d e : Cursor} (h : c.Before d) (h' : d.Before e) : c.Before e :=
  h.trans_reaches h'.1

theorem reaches_cons (p : Position) (x : Char) (rest : List Char) :
    Reaches ⟨p, x :: rest⟩ ⟨p.after x, rest⟩ :=
  ⟨[x], rfl, rfl⟩

theorem reaches_advance (n : Nat) (c : Cursor) : c.Reaches (c.advance n) := by
  fun_induction advance n c with
  | case1 c => exact .refl c
  | case2 => exact .refl _
  | case3 n p x rest ih => exact (reaches_cons p x rest).trans ih

theorem before_advance {c : Cursor} {x : Char} {rest : List Char} (h : c.rest = x :: rest)
    (n : Nat) : c.Before (c.advance (n + 1)) := by
  obtain ⟨p, chars⟩ := c
  subst h
  refine Before.trans_reaches ⟨reaches_cons p x rest, by simp⟩ (reaches_advance n _)

theorem advance_rest (n : Nat) (c : Cursor) : (c.advance n).rest = c.rest.drop n := by
  fun_induction advance n c with
  | case1 => rfl
  | case2 => rfl
  | case3 n p x rest ih => simpa using ih

/-! Layout: blanks, line ends, and comments up to the end of their line. -/

def isBlank (c : Char) : Bool :=
  c = ' ' || c = '\t' || c = '\r' || c = '\n'

def skipFrom (inComment : Bool) (p : Position) : List Char → Cursor
  | [] => ⟨p, []⟩
  | x :: rest =>
      if inComment then skipFrom (x ≠ '\n') (p.after x) rest
      else if x = '#' then skipFrom true (p.after x) rest
      else if isBlank x then skipFrom false (p.after x) rest
      else ⟨p, x :: rest⟩

def skipLayout (c : Cursor) : Cursor :=
  skipFrom false c.position c.rest

theorem reaches_skipFrom (inComment : Bool) (p : Position) (chars : List Char) :
    Reaches ⟨p, chars⟩ (skipFrom inComment p chars) := by
  induction chars generalizing inComment p with
  | nil => exact .refl _
  | cons x rest ih =>
      simp only [skipFrom]
      split
      · exact (reaches_cons p x rest).trans (ih _ _)
      · split
        · exact (reaches_cons p x rest).trans (ih _ _)
        · split
          · exact (reaches_cons p x rest).trans (ih _ _)
          · exact .refl _

theorem reaches_skipLayout (c : Cursor) : c.Reaches c.skipLayout :=
  reaches_skipFrom false c.position c.rest

end Cursor

end Textproto
