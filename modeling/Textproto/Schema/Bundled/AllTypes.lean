import Textproto.Schema.Bundled.WellKnown

namespace Textproto.Bundled

/-!
A message type with a field of every kind, once per edition. The editions differ in the
package and in which plain fields tell being set apart from being zero.
-/

inductive Edition where
  | proto2
  | proto3
  deriving Repr, DecidableEq

namespace Edition

def package : Edition → String
  | proto2 => "cel.expr.conformance.proto2"
  | proto3 => "cel.expr.conformance.proto3"

def allTypes (edition : Edition) : String := edition.package ++ ".TestAllTypes"

def nestedMessage (edition : Edition) : String := edition.allTypes ++ ".NestedMessage"

def nestedEnum (edition : Edition) : String := edition.allTypes ++ ".NestedEnum"

def nestedAllTypes (edition : Edition) : String := edition.package ++ ".NestedTestAllTypes"

def globalEnum (edition : Edition) : String := edition.package ++ ".GlobalEnum"

/-- A field outside any oneof, with presence where the edition gives it to all of them. -/
def plain (edition : Edition) (name : String) (number : Nat) (kind : Kind) : Field :=
  { Field.single name number kind with presence := edition = .proto2 }

/-- Numbers every field from `first` on. -/
def numbered {α : Type} (first : Nat) (names : List α) (field : α → Nat → Field) : List Field :=
  names.zipIdx.map fun (name, index) => field name (first + index)

/-- Signed and fixed-width forms have the text and the JSON of their plain counterparts. -/
def scalars : List (String × Kind) :=
  [ ("int32", .int32), ("int64", .int64), ("uint32", .uint32), ("uint64", .uint64),
    ("sint32", .int32), ("sint64", .int64), ("fixed32", .uint32), ("fixed64", .uint64),
    ("sfixed32", .int32), ("sfixed64", .int64), ("float", .float), ("double", .double),
    ("bool", .bool), ("string", .string), ("bytes", .bytes) ]

def wrappers : List (String × String) :=
  [ ("int64", "Int64Value"), ("int32", "Int32Value"), ("double", "DoubleValue"),
    ("float", "FloatValue"), ("uint64", "UInt64Value"), ("uint32", "UInt32Value"),
    ("string", "StringValue"), ("bool", "BoolValue"), ("bytes", "BytesValue") ]

def singleScalars (edition : Edition) : List Field :=
  numbered 1 scalars fun (name, kind) number => edition.plain ("single_" ++ name) number kind

def optionals : Edition → List Field
  | proto2 => []
  | proto3 => [.optional "optional_bool" 16 .bool, .optional "optional_string" 17 .string]

def singleWellKnown (edition : Edition) : List Field :=
  [ edition.plain "single_any" 100 (.message any),
    edition.plain "single_duration" 101 (.message duration),
    edition.plain "single_timestamp" 102 (.message timestamp),
    edition.plain "single_struct" 103 (.message struct),
    edition.plain "single_value" 104 (.message structValue) ]
  ++ numbered 105 wrappers (fun (name, type) number =>
      edition.plain ("single_" ++ name ++ "_wrapper") number
        (.message ("google.protobuf." ++ type)))
  ++ [ edition.plain "list_value" 114 (.message structList),
    edition.plain "null_value" 115 (.enum nullValue),
    .optional "optional_null_value" 116 (.enum nullValue),
    edition.plain "field_mask" 117 (.message fieldMask),
    edition.plain "empty" 118 (.message empty) ]

def nested (edition : Edition) : List Field :=
  [ .member "nested_type" "single_nested_message" 21 (.message edition.nestedMessage),
    .member "nested_type" "single_nested_enum" 22 (.enum edition.nestedEnum),
    .single "standalone_message" 23 (.message edition.nestedMessage),
    edition.plain "standalone_enum" 24 (.enum edition.nestedEnum) ]

def repeatedScalars : List Field :=
  numbered 31 scalars fun (name, kind) number => .many ("repeated_" ++ name) number kind

def repeatedNested (edition : Edition) : List Field :=
  [ .many "repeated_nested_message" 51 (.message edition.nestedMessage),
    .many "repeated_nested_enum" 52 (.enum edition.nestedEnum),
    .many "repeated_string_piece" 53 .string,
    .many "repeated_cord" 54 .string,
    .many "repeated_lazy_message" 55 (.message edition.nestedMessage) ]

def repeatedWellKnown : List Field :=
  [ .many "repeated_any" 120 (.message any),
    .many "repeated_duration" 121 (.message duration),
    .many "repeated_timestamp" 122 (.message timestamp),
    .many "repeated_struct" 123 (.message struct),
    .many "repeated_value" 124 (.message structValue) ]
  ++ numbered 125 wrappers (fun (name, type) number =>
      .many ("repeated_" ++ name ++ "_wrapper") number (.message ("google.protobuf." ++ type)))
  ++ [ .many "repeated_list_value" 134 (.message structList),
    .many "repeated_null_value" 135 (.enum nullValue) ]

/-- The maps: name, name of the entry type, and its kinds. -/
def maps (edition : Edition) : List (String × String × MapEntry) :=
  [ ("map_string_string", "MapStringStringEntry", ⟨.string, .string⟩),
    ("map_int64_nested_type", "MapInt64NestedTypeEntry",
      ⟨.int64, .message edition.nestedAllTypes⟩),
    ("map_bool_bool", "MapBoolBoolEntry", ⟨.bool, .bool⟩),
    ("map_bool_string", "MapBoolStringEntry", ⟨.bool, .string⟩),
    ("map_bool_bytes", "MapBoolBytesEntry", ⟨.bool, .bytes⟩),
    ("map_bool_int32", "MapBoolInt32Entry", ⟨.bool, .int32⟩),
    ("map_bool_int64", "MapBoolInt64Entry", ⟨.bool, .int64⟩),
    ("map_bool_uint32", "MapBoolUint32Entry", ⟨.bool, .uint32⟩),
    ("map_bool_uint64", "MapBoolUint64Entry", ⟨.bool, .uint64⟩),
    ("map_bool_float", "MapBoolFloatEntry", ⟨.bool, .float⟩),
    ("map_bool_double", "MapBoolDoubleEntry", ⟨.bool, .double⟩),
    ("map_bool_enum", "MapBoolEnumEntry", ⟨.bool, .enum edition.nestedEnum⟩),
    ("map_bool_message", "MapBoolMessageEntry", ⟨.bool, .message edition.nestedMessage⟩) ]

def entryName (edition : Edition) (entry : String) : String :=
  edition.allTypes ++ "." ++ entry

def mapFields (edition : Edition) : List Field :=
  numbered 61 edition.maps fun (name, entry, _) number =>
    .many name number (.message (edition.entryName entry))

def choices (edition : Edition) : List Field :=
  [ .member "kind" "oneof_type" 400 (.message edition.nestedAllTypes),
    .member "kind" "oneof_msg" 401 (.message edition.nestedMessage),
    .member "kind" "oneof_bool" 402 .bool ]

/-- Fields named by words that an expression language reserves. -/
def reserved (edition : Edition) : List Field :=
  numbered 500
    [ "as", "break", "const", "continue", "else", "for", "function", "if", "import", "let",
      "loop", "package", "namespace", "return", "var", "void", "while" ]
    fun name number => edition.plain name number .bool

def fields (edition : Edition) : List Field :=
  edition.singleScalars ++ edition.optionals ++ edition.singleWellKnown ++ edition.nested
    ++ repeatedScalars ++ edition.repeatedNested ++ repeatedWellKnown ++ edition.mapFields
    ++ edition.choices ++ edition.reserved

def types (edition : Edition) : List Descriptor :=
  [ ⟨edition.nestedMessage, .message [edition.plain "bb" 1 .int32]⟩,
    ⟨edition.nestedAllTypes, .message
      [ .single "child" 1 (.message edition.nestedAllTypes),
        .single "payload" 2 (.message edition.allTypes) ]⟩ ]
  ++ edition.maps.map (fun (_, name, entry) => ⟨edition.entryName name, .mapEntry entry⟩)
  ++ [⟨edition.allTypes, .message edition.fields⟩]

def enumerations (edition : Edition) : List Enumeration :=
  [ ⟨edition.nestedEnum, [("FOO", 0), ("BAR", 1), ("BAZ", 2)]⟩,
    ⟨edition.globalEnum, [("GOO", 0), ("GAR", 1), ("GAZ", 2)]⟩ ]

end Edition

end Textproto.Bundled
