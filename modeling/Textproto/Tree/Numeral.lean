import Textproto.Ieee.Rounding
import Textproto.Tree.Quoted

namespace Textproto.Tree

/-! Numbers, and the identifiers that they must not run into. -/

def isIdentifierStart (c : Char) : Bool := c.isAlpha || c = '_'

def isIdentifierChar (c : Char) : Bool := c.isAlphanum || c = '_'

/-- A number without its sign. -/
inductive Numeral where
  | integer (digits : List Char) (radix : Radix)
  | float (x : Double)
  deriving DecidableEq

/-- What a text begins with, and how many characters long it is. -/
inductive Scan where
  | nothing
  | numeral (numeral : Numeral) (length : Nat)
  /-- The mark of a hexadecimal number with no digit behind it. -/
  | bareMark (length : Nat)
  deriving DecidableEq

namespace Numeral

/-- The digits of an exponent. Once it has reached `2 ^ 16` more of them change nothing. -/
def exponentValue (digits : List Char) : Nat :=
  digits.foldl (fun value c => if value < 0x10000 then value * 10 + digitValue c else value) 0

def exponentSign : List Char → Bool × Nat
  | '-' :: _ => (true, 1)
  | '+' :: _ => (false, 1)
  | _ => (false, 0)

/-- An exponent at the start of a text, and its length. -/
def exponent? (text : List Char) : Option (Int × Nat) :=
  match text with
  | [] => none
  | mark :: rest =>
      if mark = 'e' || mark = 'E' then
        let (negative, signLength) := exponentSign rest
        let digits := (rest.drop signLength).takeWhile Char.isDigit
        if digits = [] then none
        else
          let size : Int := exponentValue digits
          some (if negative then -size else size, 1 + signLength + digits.length)
      else none

def suffixLength : List Char → Nat
  | 'f' :: _ => 1
  | 'F' :: _ => 1
  | _ => 0

/-- A number written with `whole` digits, a point and `fraction` digits, and an exponent. -/
def ofParts (whole fraction : List Char) (exponent : Int) : Numeral :=
  .float (Ieee.ofDecimal false (valueOf 10 (whole ++ fraction)) (exponent - fraction.length))

/-- Digits with a point, an exponent or both, and perhaps a suffix. -/
def float? (text : List Char) : Option (Numeral × Nat) :=
  let whole := text.takeWhile Char.isDigit
  let found : Option (Numeral × Nat) := match text.drop whole.length with
    | '.' :: rest =>
        let fraction := rest.takeWhile Char.isDigit
        if whole = [] && fraction = [] then none
        else
          let (exponent, length) := (exponent? (rest.drop fraction.length)).getD (0, 0)
          some (ofParts whole fraction exponent, whole.length + 1 + fraction.length + length)
    | rest =>
        if whole = [] then none
        else (exponent? rest).map fun (exponent, length) =>
          (ofParts whole [] exponent, whole.length + length)
  found.map fun (numeral, length) => (numeral, length + suffixLength (text.drop length))

def wholeNumber (text : List Char) : Scan :=
  let decimal : Scan := match text.takeWhile Char.isDigit with
    | [] => .nothing
    | digits => .numeral (.integer digits .decimal) digits.length
  match text with
  | '0' :: rest =>
      let mark := match rest with
        | 'x' :: _ => true
        | 'X' :: _ => true
        | _ => false
      if mark then
        match (rest.drop 1).takeWhile isHexDigit with
        | [] => .bareMark 2
        | digits => .numeral (.integer digits .hexadecimal) (digits.length + 2)
      else
        match rest.takeWhile isOctalDigit with
        | [] => .numeral (.integer ['0'] .octal) 1
        | digits => .numeral (.integer digits .octal) (digits.length + 1)
  | _ => decimal

/-- Whether a text begins with a lower-case word in letters of any case. -/
def beginsWith (word text : List Char) : Bool :=
  (text.take word.length).map Char.toLower = word

def special? (text : List Char) : Option (Numeral × Nat) :=
  let found : Option (Numeral × Nat) :=
    if beginsWith "infinity".toList text then some (.float (Ieee.infinity false), 8)
    else if beginsWith "inf".toList text then some (.float (Ieee.infinity false), 3)
    else if beginsWith "nan".toList text then some (.float Ieee.nan, 3)
    else none
  found.filter fun (_, length) => !((text.drop length).head?.any isIdentifierChar)

def scan (text : List Char) : Scan :=
  match float? text with
  | some (numeral, length) => .numeral numeral length
  | none =>
      match wholeNumber text with
      | .nothing =>
          match special? text with
          | some (numeral, length) => .numeral numeral length
          | none => .nothing
      | found => found

theorem length_float?_pos {text : List Char} {numeral : Numeral} {length : Nat}
    (h : float? text = some (numeral, length)) : 0 < length := by
  simp only [float?] at h
  split at h <;> simp only [Option.map_eq_some_iff, Prod.mk.injEq] at h
  · obtain ⟨⟨_, n⟩, hfound, _, rfl⟩ := h
    split at hfound
    · cases hfound
    · simp only [Option.some.injEq, Prod.mk.injEq] at hfound
      simp only
      omega
  · obtain ⟨⟨_, n⟩, hfound, _, rfl⟩ := h
    split at hfound
    · cases hfound
    · rename_i hne
      simp only [Option.map_eq_some_iff, Prod.mk.injEq] at hfound
      obtain ⟨_, _, _, rfl⟩ := hfound
      have := List.length_pos_iff.mpr hne
      simp only
      omega

theorem length_special?_pos {text : List Char} {numeral : Numeral} {length : Nat}
    (h : special? text = some (numeral, length)) : 0 < length := by
  simp only [special?, Option.filter_eq_some_iff] at h
  have hfound := h.1
  split at hfound
  · obtain ⟨_, rfl⟩ := Prod.mk.inj (Option.some.inj hfound)
    decide
  · split at hfound
    · obtain ⟨_, rfl⟩ := Prod.mk.inj (Option.some.inj hfound)
      decide
    · split at hfound
      · obtain ⟨_, rfl⟩ := Prod.mk.inj (Option.some.inj hfound)
        decide
      · cases hfound

theorem length_wholeNumber_pos {text : List Char} {numeral : Numeral} {length : Nat}
    (h : wholeNumber text = .numeral numeral length) : 0 < length := by
  simp only [wholeNumber] at h
  split at h <;> split at h <;> (try split at h) <;> grind

theorem length_scan_pos {text : List Char} {numeral : Numeral} {length : Nat}
    (h : scan text = .numeral numeral length) : 0 < length := by
  simp only [scan] at h
  split at h
  · cases h
    exact length_float?_pos (by assumption)
  · split at h
    · split at h
      · cases h
        exact length_special?_pos (by assumption)
      · cases h
    · exact length_wholeNumber_pos h

@[simp] theorem scan_nil : scan [] = .nothing := by
  decide

def withSign (negative : Bool) : Numeral → Scalar
  | .integer digits radix => .integer negative digits radix
  | .float x => .float (if negative then x.neg else x)

end Numeral

/-- The place behind a minus sign and layout, or the same place. -/
def sign (c : Cursor) : Extent c Bool :=
  match accept (· = '-') c with
  | .read _ next before =>
      ⟨true, next.skipLayout, before.reaches.trans next.reaches_skipLayout⟩
  | _ => ⟨false, c, .refl c⟩

/-- A number must not run into a letter, a digit, an underscore or a point. -/
def runsOn (text : List Char) : Bool :=
  text.head?.any fun c => isIdentifierChar c || c = '.'

theorem before_advance_scan {c : Cursor} {numeral : Numeral} {length : Nat}
    (h : Numeral.scan c.rest = .numeral numeral length) : c.Before (c.advance length) := by
  cases hrest : c.rest with
  | nil => simp [hrest] at h
  | cons x rest =>
      obtain ⟨n, rfl⟩ := Nat.exists_eq_succ_of_ne_zero (Nat.ne_of_gt (Numeral.length_scan_pos h))
      exact Cursor.before_advance hrest n

def numeral (c : Cursor) : Attempt c Scalar :=
  let ⟨negative, start, reaches⟩ := sign c
  match h : Numeral.scan start.rest with
  | .nothing => .absent
  | .bareMark length => .failed (.unexpected [] (start.advance length))
  | .numeral numeral length =>
      if runsOn (start.rest.drop length) then .failed (.complain .invalidNumber start)
      else
        .read (numeral.withSign negative) (start.advance length)
          (reaches.trans_before (before_advance_scan h))

def identifier (c : Cursor) : Attempt c (List Char) :=
  (accept isIdentifierStart c).andThen fun d before first =>
    match acceptRun isIdentifierChar d with
    | .read more next after => .read (first :: more) next (before.trans after)
    | _ => .read [first] d before

/-- A scalar is a string, a number or an identifier, tried in this order. -/
def scalar (c : Cursor) : Attempt c Scalar :=
  ((string c).orElse fun _ => (numeral c).orElse fun _ =>
    (identifier c).map Scalar.identifier).within .scalarValue

end Textproto.Tree
