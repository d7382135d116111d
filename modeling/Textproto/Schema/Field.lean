import Textproto.Text.Camel

namespace Textproto

/-! Fields of message types, and the names that they go by. -/

/-- What a field holds. Enumerations and messages are meant by their full names. -/
inductive Kind where
  | bool
  | int32
  | int64
  | uint32
  | uint64
  | float
  | double
  | string
  | bytes
  | enum (name : String)
  | message (name : String)
  deriving Repr, DecidableEq

namespace Kind

def typeName : Kind → String
  | bool => "bool"
  | int32 => "int32"
  | int64 => "int64"
  | uint32 => "uint32"
  | uint64 => "uint64"
  | float => "float"
  | double => "double"
  | string => "string"
  | bytes => "bytes"
  | enum name => name
  | message name => name

def isMessage : Kind → Bool
  | message _ => true
  | _ => false

end Kind

/-- A field of a message type. `presence` marks that being set is told apart from holding the
zero value. -/
structure Field where
  name : String
  number : Nat
  kind : Kind
  repeated : Bool := false
  oneof : Option String := none
  presence : Bool := false
  deriving Repr, DecidableEq

namespace Field

def jsonName (field : Field) : String :=
  Camel.lowerCamel field.name

def single (name : String) (number : Nat) (kind : Kind) : Field where
  name := name
  number := number
  kind := kind

def many (name : String) (number : Nat) (kind : Kind) : Field where
  name := name
  number := number
  kind := kind
  repeated := true

def member (oneof name : String) (number : Nat) (kind : Kind) : Field where
  name := name
  number := number
  kind := kind
  oneof := some oneof

def optional (name : String) (number : Nat) (kind : Kind) : Field where
  name := name
  number := number
  kind := kind
  presence := true

end Field

end Textproto
