import Textproto.Tree.Cursor

namespace Textproto.Tree

/-! Why and where a text is refused. -/

/-- What is being read when the text goes wrong. -/
inductive Construct where
  | fieldValue
  | messageValue
  | scalarValue
  | closingBrace
  | closingBracket
  deriving Repr, DecidableEq

def Construct.text : Construct → String
  | fieldValue => "field value"
  | messageValue => "message value"
  | scalarValue => "scalar value"
  | closingBrace => "closing brace"
  | closingBracket => "closing bracket"

/-- Messages may lie this deep inside one another. -/
def nestingLimit : Nat := 100

/-- Faults that describe themselves. -/
inductive Complaint where
  | newlineInString
  | unterminatedString
  | octalOutOfRange (digits : List Char)
  | missingHexDigits
  | tooFewHexDigits (count : Nat)
  | unpairedSurrogate
  | invalidLowSurrogate
  | invalidCodePoint (code : Nat)
  | invalidEscape (c : Char)
  | invalidNumber
  | nestedTooDeep
  deriving Repr, DecidableEq

def Complaint.text : Complaint → String
  | newlineInString => "newline inside string literal"
  | unterminatedString => "unterminated string literal"
  | octalOutOfRange digits => "octal escape \\" ++ String.ofList digits ++ " is out of range"
  | missingHexDigits => "expected hex digits after \\x"
  | tooFewHexDigits count => s!"expected {count} hex digits in string escape"
  | unpairedSurrogate => "unpaired surrogate in \\u escape"
  | invalidLowSurrogate => "invalid low surrogate in \\u escape"
  | invalidCodePoint code =>
      "invalid Unicode code point 0x" ++ String.ofList (Nat.toDigits 16 code)
        ++ " in string escape"
  | invalidEscape c => "invalid escape sequence \\" ++ String.ofList [c]
  | invalidNumber => "invalid numeric literal"
  | nestedTooDeep => s!"message nesting exceeds {nestingLimit}"

inductive Cause where
  | described (complaint : Complaint)
  | unexpected
  | trailing
  deriving Repr, DecidableEq

/-- Why and where a text is refused. The path names what was being read, outermost first. -/
structure Failure where
  cause : Cause
  path : List Construct
  place : Cursor
  deriving Repr, DecidableEq

namespace Failure

/-- A fault that describes itself needs no path. -/
def within (construct : Construct) (failure : Failure) : Failure :=
  match failure.cause with
  | .described _ => failure
  | _ => { failure with path := construct :: failure.path }

def complain (complaint : Complaint) (place : Cursor) : Failure :=
  ⟨.described complaint, [], place⟩

def unexpected (path : List Construct) (place : Cursor) : Failure :=
  ⟨.unexpected, path, place⟩

/-- The first line of a text without its end, which is a line feed or a carriage return and a
line feed. -/
def firstLine (text : List Char) : List Char :=
  match text with
  | [] => []
  | '\n' :: _ => []
  | '\r' :: '\n' :: _ => []
  | c :: rest => c :: firstLine rest

def quoted (place : Cursor) : String :=
  "`" ++ String.ofList (firstLine place.rest) ++ "`"

def message (failure : Failure) : String :=
  match failure.cause, failure.path with
  | .described complaint, _ => complaint.text ++ ", at " ++ quoted failure.place
  | .trailing, _ => "unexpected content " ++ quoted failure.place
  | .unexpected, [] => "syntax error (Char) at " ++ quoted failure.place
  | .unexpected, path =>
      "syntax error when handling " ++ "/".intercalate (path.map Construct.text)
        ++ ", at " ++ quoted failure.place

@[simp] theorem place_within (construct : Construct) (failure : Failure) :
    (failure.within construct).place = failure.place := by
  unfold within
  split <;> rfl

@[simp] theorem cause_within (construct : Construct) (failure : Failure) :
    (failure.within construct).cause = failure.cause := by
  unfold within
  split <;> rfl

end Failure

end Textproto.Tree
