import Textproto.Schema.Registry
import Textproto.Schema.Bundled.Conformance
import Textproto.Schema.Bundled.AllTypes

namespace Textproto

/-- Every message type that a file of conformance tests can reach. -/
def Bundled.types : List Descriptor :=
  wellKnownTypes ++ valueTypes ++ outcomeTypes ++ checkedTypes ++ conformanceTypes
    ++ Edition.proto2.types ++ Edition.proto3.types

def Bundled.enumerations : List Enumeration :=
  [nullValueType, primitiveTypeValues, wellKnownTypeValues]
    ++ Edition.proto2.enumerations ++ Edition.proto3.enumerations

def Registry.bundled : Registry :=
  .ofLists Bundled.types Bundled.enumerations

end Textproto
