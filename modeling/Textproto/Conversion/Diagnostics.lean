import Textproto.Conversion.Fault
import Textproto.Text.Terminal

namespace Textproto

/-- The stream that tells whoever watches a run how it goes on. Only a stream that is kept can
be read back, and one with little room takes no more lines than that. -/
structure Diagnostics where
  kept : Bool := true
  bytes : List UInt8 := []
  room : Option Nat := none
  deriving Repr, DecidableEq

namespace Diagnostics

def write (stream : Diagnostics) (bytes : List UInt8) : Diagnostics :=
  { stream with bytes := stream.bytes ++ bytes }

def writeLine (stream : Diagnostics) (line : String) : Except Fault Diagnostics :=
  let written := stream.write (Utf8.encode (line.toList ++ ['\n']))
  match stream.room with
  | none => .ok written
  | some 0 => .error .noSpace
  | some (room + 1) => .ok { written with room := some room }

def contents (stream : Diagnostics) : List UInt8 :=
  if stream.kept then stream.bytes else []

def text (stream : Diagnostics) : Except Utf8.Malformed String :=
  (Utf8.decode stream.contents).map String.ofList

/-- The text as a terminal would show it. -/
def stripped (stream : Diagnostics) : String :=
  String.ofList (Terminal.strip stream.contents)

end Diagnostics

end Textproto
