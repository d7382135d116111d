import Textproto.Ieee.Decimal

namespace Textproto

/-- Why a message has no JSON form. -/
inductive EncodeCause where
  | noWrapperValue
  | durationOutOfRange (seconds nanos : Int)
  | nanosOutOfRange (nanos : Int)
  | secondsOutOfRange (seconds : Int)
  | noMember
  | notFinite (x : Double)
  | notSingle (name : String)
  | irreversiblePath (path : String)
  deriving DecidableEq

def EncodeCause.message : EncodeCause → String
  | noWrapperValue => "wrapper without a scalar value field"
  | durationOutOfRange seconds nanos =>
      s!"seconds {seconds} and nanos {nanos} are out of range"
  | nanosOutOfRange nanos => s!"nanos {nanos} are out of range"
  | secondsOutOfRange seconds => s!"seconds {seconds} are out of range"
  | noMember => "no member of kind is set"
  | notFinite x => s!"number_value {x.plainText} has no JSON form"
  | notSingle name => s!"{name} is not a singular value"
  | irreversiblePath path => s!"field mask path `{path}` is not reversible"

/-- The type of the message, and why it has no JSON form. -/
structure EncodeError where
  type : String
  cause : EncodeCause
  deriving DecidableEq

namespace EncodeError

def message (error : EncodeError) : String :=
  error.cause.message

def text (error : EncodeError) : String :=
  error.type ++ ": " ++ error.message

end EncodeError

end Textproto
