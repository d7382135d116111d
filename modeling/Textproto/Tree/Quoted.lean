import Textproto.Text.Utf8
import Textproto.Tree.Attempt
import Textproto.Tree.Basic

namespace Textproto.Tree

/-! Quoted literals. They spell bytes, which need not be text. -/

def isOctalDigit (c : Char) : Bool := '0' ≤ c && c ≤ '7'

def isHexDigit (c : Char) : Bool :=
  c.isDigit || ('a' ≤ c && c ≤ 'f') || ('A' ≤ c && c ≤ 'F')

def digitValue (c : Char) : Nat :=
  if c.isDigit then c.toNat - '0'.toNat
  else if 'a' ≤ c && c ≤ 'f' then c.toNat - 'a'.toNat + 10
  else if 'A' ≤ c && c ≤ 'F' then c.toNat - 'A'.toNat + 10
  else 0

/-- The number that digits spell. -/
def valueOf (base : Nat) (digits : List Char) : Nat :=
  digits.foldl (fun value c => value * base + digitValue c) 0

/-- What stands behind a backslash. -/
inductive Escape where
  | bytes (bytes : List UInt8) (length : Nat)
  | wrong (complaint : Complaint)
  | unfinished
  deriving Repr, DecidableEq

namespace Escape

def codePoint (code length : Nat) : Escape :=
  if code.isValidChar then bytes (Utf8.encodeChar (Char.ofNat code)) length
  else wrong (.invalidCodePoint code)

/-- The value of exactly `count` hexadecimal digits. -/
def fixedHex? (count : Nat) (text : List Char) : Option Nat :=
  let digits := text.take count
  if digits.length = count && digits.all isHexDigit then some (valueOf 16 digits) else none

def isHighSurrogate (code : Nat) : Bool := 0xD800 ≤ code && code < 0xDC00

def isLowSurrogate (code : Nat) : Bool := 0xDC00 ≤ code && code < 0xE000

/-- A high surrogate stands for a character together with the low one behind it. -/
def surrogatePair (high : Nat) : List Char → Escape
  | '\\' :: 'u' :: rest =>
      match fixedHex? 4 rest with
      | none => wrong (.tooFewHexDigits 4)
      | some low =>
          if isLowSurrogate low then
            codePoint (0x10000 + (high - 0xD800) * 0x400 + (low - 0xDC00)) 11
          else wrong .invalidLowSurrogate
  | _ => wrong .unpairedSurrogate

def octal (first : Char) (rest : List Char) : Escape :=
  let digits := first :: (rest.takeWhile isOctalDigit).take 2
  let value := valueOf 8 digits
  if value ≤ 0xFF then bytes [UInt8.ofNat value] digits.length
  else wrong (.octalOutOfRange digits)

def hex (rest : List Char) : Escape :=
  match (rest.takeWhile isHexDigit).take 2 with
  | [] => wrong .missingHexDigits
  | digits => bytes [UInt8.ofNat (valueOf 16 digits)] (digits.length + 1)

def short (rest : List Char) : Escape :=
  match fixedHex? 4 rest with
  | none => wrong (.tooFewHexDigits 4)
  | some code => if isHighSurrogate code then surrogatePair code (rest.drop 4) else codePoint code 5

def long (rest : List Char) : Escape :=
  match fixedHex? 8 rest with
  | none => wrong (.tooFewHexDigits 8)
  | some code => codePoint code 9

/-- The bytes of an escape and how many characters behind the backslash spell it. -/
def read : List Char → Escape
  | [] => unfinished
  | 'a' :: _ => bytes [0x07] 1
  | 'b' :: _ => bytes [0x08] 1
  | 'f' :: _ => bytes [0x0C] 1
  | 'n' :: _ => bytes [0x0A] 1
  | 'r' :: _ => bytes [0x0D] 1
  | 't' :: _ => bytes [0x09] 1
  | 'v' :: _ => bytes [0x0B] 1
  | '\\' :: _ => bytes [0x5C] 1
  | '\'' :: _ => bytes [0x27] 1
  | '"' :: _ => bytes [0x22] 1
  | '?' :: _ => bytes [0x3F] 1
  | 'x' :: rest => hex rest
  | 'X' :: rest => hex rest
  | 'u' :: rest => short rest
  | 'U' :: rest => long rest
  | c :: rest => if isOctalDigit c then octal c rest else wrong (.invalidEscape c)

end Escape

/-- The rest of a literal that was opened at `start`, `read` being its bytes so far, last one
first. -/
def literalFrom (start : Cursor) (quote : Char) (read : List UInt8) (c : Cursor) :
    Except Failure (Extent c (List UInt8)) :=
  match _hrest : c.rest with
  | [] => .error (.complain .unterminatedString start)
  | x :: rest =>
      if x = quote then .ok ⟨read.reverse, c.advance 1, c.reaches_advance 1⟩
      else if x = '\n' then .error (.complain .newlineInString start)
      else if x = '\\' then
        match Escape.read rest with
        | .unfinished => .error (.complain .unterminatedString start)
        | .wrong complaint => .error (.complain complaint c)
        | .bytes bytes length =>
            match literalFrom start quote (bytes.reverse ++ read) (c.advance (length + 1)) with
            | .error failure => .error failure
            | .ok ⟨value, next, reaches⟩ =>
                .ok ⟨value, next, (c.reaches_advance (length + 1)).trans reaches⟩
      else
        match literalFrom start quote ((Utf8.encodeChar x).reverse ++ read) (c.advance 1) with
        | .error failure => .error failure
        | .ok ⟨value, next, reaches⟩ => .ok ⟨value, next, (c.reaches_advance 1).trans reaches⟩
termination_by c.rest.length
decreasing_by
  · exact (Cursor.before_advance _hrest length).shorter
  · exact (Cursor.before_advance _hrest 0).shorter

def isQuote (c : Char) : Bool := c = '"' || c = '\''

def literal (c : Cursor) : Attempt c (List UInt8) :=
  (accept isQuote c).andThen fun d before quote =>
    match literalFrom c quote [] d with
    | .error failure => .failed failure
    | .ok ⟨bytes, next, reaches⟩ => .read bytes next (before.trans_reaches reaches)

/-- Literals with nothing but layout between them are one string. -/
def string (c : Cursor) : Attempt c Scalar :=
  (literal c).andThen fun d before first =>
    match many (fun e => (literal e.skipLayout).since e.reaches_skipLayout) d with
    | .error failure => .failed failure
    | .ok ⟨more, next, reaches⟩ =>
        .read (.string (first ++ more.flatten)) next (before.trans_reaches reaches)

end Textproto.Tree
