import Textproto.Encoding.Error
import Textproto.Json.Basic
import Textproto.Message.Basic
import Textproto.Schema.Bundled.WellKnown
import Textproto.Text.Base64
import Textproto.Time.Text

namespace Textproto.Encoding

/-! Values and messages that hold no other message. -/

/-- Doubles of this size, two to the sixty-third, and above are not written as whole numbers. -/
def wholeLimit : Nat := 9223372036854775808

/-- A double as a number: without a fraction where it is whole, unless it is too large or the
negative zero. Numbers that are not finite are named. -/
def doubleJson (x : Double) : Json :=
  if x.isNaN then .string "NaN"
  else if x.isInfinite then .string (if x.negative then "-Infinity" else "Infinity")
  else
    match x.toInt? with
    | some n => if n.natAbs < wholeLimit && !(x.negative && n = 0) then .int n else .double x
    | none => .double x

/-- A single as the double that its own digits spell. -/
def widen (x : Single) : Double :=
  if x.isFinite then
    let decimal := x.shortest .up
    .ofDecimal x.negative decimal.digits decimal.exponent
  else x.convert

/-- An enumerator by its name where its number has one. The null enumeration is null. -/
def enumJson (registry : Registry) (kind : Kind) (number : Int32) : Json :=
  match kind with
  | .enum name =>
      if name = Bundled.nullValue then .null
      else
        match (registry.enumeration? name).bind fun enumeration => enumeration.nameOf? number with
        | some enumerator => .string enumerator
        | none => .int number.toInt
  | _ => .int number.toInt

/-- Integers of sixty-four bits are written as text, since readers may take numbers for
doubles. -/
def scalarJson (registry : Registry) (kind : Kind) : Value → Json
  | .bool b => .bool b
  | .int32 n => .int n.toInt
  | .uint32 n => .int n.toNat
  | .int64 n => .string (toString n.toInt)
  | .uint64 n => .string (toString n.toNat)
  | .float x => doubleJson (widen x)
  | .double x => doubleJson x
  | .string s => .string s
  | .bytes bytes => .string (String.ofList (Base64.encode bytes))
  | .enum number => enumJson registry kind number
  | .message _ => .null

def seconds (message : Message) : Int :=
  match message.single? "seconds" with
  | some (.int64 n) => n.toInt
  | _ => 0

def nanos (message : Message) : Int :=
  match message.single? "nanos" with
  | some (.int32 n) => n.toInt
  | _ => 0

def durationJson (seconds nanos : Int) : Except EncodeError Json :=
  match Time.duration? seconds nanos with
  | some text => .ok (.string text)
  | none => .error ⟨Bundled.duration, .durationOutOfRange seconds nanos⟩

def timestampJson (seconds nanos : Int) : Except EncodeError Json :=
  if nanos < 0 || 1000000000 ≤ nanos then
    .error ⟨Bundled.timestamp, .nanosOutOfRange nanos⟩
  else if seconds < Time.firstSecond || Time.lastSecond < seconds then
    .error ⟨Bundled.timestamp, .secondsOutOfRange seconds⟩
  else .ok (.string (Time.timestamp seconds nanos.toNat))

/-- A path in lower camel case, if it can be told back from that: it has no capitals, and every
underscore stands before a lower-case letter. -/
def camelPath? : List Char → Option (List Char)
  | [] => some []
  | '_' :: next :: rest =>
      if next.isLower then (camelPath? rest).map (next.toUpper :: ·) else none
  | c :: rest => if c = '_' || c.isUpper then none else (camelPath? rest).map (c :: ·)

def camelPaths : List Value → Except EncodeError (List String)
  | [] => .ok []
  | path :: rest =>
      let text := path.string?.getD ""
      match camelPath? text.toList with
      | none => .error ⟨Bundled.fieldMask, .irreversiblePath text⟩
      | some camel => (camelPaths rest).map (String.ofList camel :: ·)

def fieldMaskJson (paths : List Value) : Except EncodeError Json :=
  (camelPaths paths).map fun camel => .string (",".intercalate camel)

end Textproto.Encoding
