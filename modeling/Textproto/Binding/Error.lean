import Textproto.Ieee.Decimal
import Textproto.Text.Utf8
import Textproto.Tree.Basic

namespace Textproto

/-- How a scalar is shown to whoever wrote it. -/
def Tree.Scalar.description : Tree.Scalar → String
  | .string bytes => "string \"" ++ String.ofList (Utf8.decodeLossy bytes) ++ "\""
  | .identifier name => "identifier `" ++ String.ofList name ++ "`"
  | .integer negative digits _ =>
      "integer " ++ (if negative then "-" else "") ++ String.ofList digits
  | .float x => "float " ++ x.plainText

namespace Binding

/-- Why fields do not make up a message of a type. -/
inductive Cause where
  | unknownField (name message : String)
  | repeatedField (name : String) (first : Position)
  | oneofTaken (name oneof other : String)
  | expectedEntry (entry : String)
  | invalidKeyKind (type : String)
  | noZeroValue (type : String)
  | unknownMessageType (name : String)
  | scalarForMessage (field type : String)
  | messageForScalar (field type : String)
  | listForSingle (field : String)
  | mismatch (type field : String) (found : Tree.Scalar)
  | invalidText (field : String)
  | unknownEnumeration (name : String)
  | unknownEnumerator (name enumeration : String)
  | expandedOutsideAny (url any message : String)
  | secondPayload (url : String)
  | invalidUrl (url : String)
  | unresolvedUrl (url : String)
  | expectedPayload (type url : String)
  | mixedAny
  | serializedAny
  deriving DecidableEq

def Cause.message : Cause → String
  | unknownField name message => s!"unknown field `{name}` in message {message}"
  | repeatedField name first =>
      s!"non-repeated field `{name}` is repeated, first set at {first.text}"
  | oneofTaken name oneof other =>
      s!"field `{name}` is a member of oneof `{oneof}` which is already set by `{other}`"
  | expectedEntry entry => s!"expected a {entry} entry message"
  | invalidKeyKind type => s!"{type} is not a valid map key type"
  | noZeroValue type => s!"no default for {type}"
  | unknownMessageType name => s!"unknown message type {name}"
  | scalarForMessage field type => s!"field `{field}` expects a {type} message, found a scalar"
  | messageForScalar field type => s!"field `{field}` of type {type} can not hold a message"
  | listForSingle field => s!"field `{field}` is not repeated, a list is not allowed"
  | mismatch type field found =>
      s!"invalid value for {type} field `{field}`: {found.description}"
  | invalidText field =>
      s!"field `{field}` contains invalid UTF-8, use a bytes field for binary data"
  | unknownEnumeration name => s!"unknown enum type {name}"
  | unknownEnumerator name enumeration => s!"unknown value `{name}` for enum {enumeration}"
  | expandedOutsideAny url any message =>
      s!"expanded name [{url}] is only allowed inside {any}, not in {message}"
  | secondPayload url => s!"Any payload is set more than once, found another [{url}]"
  | invalidUrl url => s!"invalid Any type URL `{url}`, expected prefix/full.type.Name"
  | unresolvedUrl url => s!"unable to resolve Any type URL `{url}`"
  | expectedPayload type url => s!"expected a {type} message for [{url}]"
  | mixedAny =>
      "Any can not mix an expanded [type_url] payload with type_url or value fields"
  | serializedAny =>
      "Any with serialized `value` bytes is not supported, use the expanded [type_url] "
        ++ "\x7b ... \x7d form"

structure Error where
  position : Position
  cause : Cause
  deriving DecidableEq

end Binding

end Textproto
