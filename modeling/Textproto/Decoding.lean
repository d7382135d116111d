import Textproto.Binding.Message
import Textproto.Tree.Parser

namespace Textproto

/-! Messages from bytes in text format. -/

inductive DecodeError where
  | notText (malformed : Utf8.Malformed)
  | refused (failure : Tree.Failure)
  | unbound (error : Binding.Error)
  deriving DecidableEq

namespace DecodeError

/-- Where the text goes wrong, unless it is no text at all. -/
def position? : DecodeError → Option Position
  | notText _ => none
  | refused failure => some failure.place.position
  | unbound error => some error.position

def line (error : DecodeError) : Nat :=
  (error.position?.map Position.line).getD 0

def column (error : DecodeError) : Nat :=
  (error.position?.map Position.column).getD 0

def message : DecodeError → String
  | notText malformed => s!"input is not valid UTF-8 ({malformed.message})"
  | refused failure => failure.message
  | unbound error => error.cause.message

def text (error : DecodeError) : String :=
  s!"line {error.line} column {error.column}: {error.message}"

end DecodeError

/-- The message of a type that a text in text format describes. -/
def decodeText (registry : Registry) (descriptor : Descriptor) (text : List Char) :
    Except DecodeError Message :=
  match Tree.parse text with
  | .error failure => .error (.refused failure)
  | .ok fields => (Binding.messageOf registry descriptor fields).mapError .unbound

def decode (registry : Registry) (descriptor : Descriptor) (bytes : List UInt8) :
    Except DecodeError Message :=
  match Utf8.decode bytes with
  | .error malformed => .error (.notText malformed)
  | .ok text => decodeText registry descriptor text

end Textproto
