import Textproto.Schema.Descriptor

namespace Textproto.Bundled

/-! The well-known types. Fields stand in the order in which JSON writes them. -/

def nullValue : String := "google.protobuf.NullValue"

def any : String := "google.protobuf.Any"

def empty : String := "google.protobuf.Empty"

def duration : String := "google.protobuf.Duration"

def timestamp : String := "google.protobuf.Timestamp"

def struct : String := "google.protobuf.Struct"

def structEntry : String := "google.protobuf.Struct.FieldsEntry"

def structValue : String := "google.protobuf.Value"

def structList : String := "google.protobuf.ListValue"

def fieldMask : String := "google.protobuf.FieldMask"

def nullValueType : Enumeration where
  fullName := nullValue
  values := [("NULL_VALUE", 0)]

def wrapper (name : String) (kind : Kind) : Descriptor :=
  ⟨"google.protobuf." ++ name, .wellKnown .wrapper [.single "value" 1 kind]⟩

def secondsAndNanos : List Field :=
  [.single "seconds" 1 .int64, .single "nanos" 2 .int32]

def wellKnownTypes : List Descriptor :=
  [ ⟨any, .wellKnown .any [.single "type_url" 1 .string, .single "value" 2 .bytes]⟩,
    ⟨empty, .wellKnown .empty []⟩,
    ⟨duration, .wellKnown .duration secondsAndNanos⟩,
    ⟨timestamp, .wellKnown .timestamp secondsAndNanos⟩,
    wrapper "BoolValue" .bool,
    wrapper "Int32Value" .int32,
    wrapper "Int64Value" .int64,
    wrapper "UInt32Value" .uint32,
    wrapper "UInt64Value" .uint64,
    wrapper "FloatValue" .float,
    wrapper "DoubleValue" .double,
    wrapper "StringValue" .string,
    wrapper "BytesValue" .bytes,
    ⟨struct, .wellKnown .struct [.many "fields" 1 (.message structEntry)]⟩,
    ⟨structEntry, .mapEntry ⟨.string, .message structValue⟩⟩,
    ⟨structValue, .wellKnown .value
      [ .member "kind" "null_value" 1 (.enum nullValue),
        .member "kind" "number_value" 2 .double,
        .member "kind" "string_value" 3 .string,
        .member "kind" "bool_value" 4 .bool,
        .member "kind" "struct_value" 5 (.message struct),
        .member "kind" "list_value" 6 (.message structList) ]⟩,
    ⟨structList, .wellKnown .listValue [.many "values" 1 (.message structValue)]⟩,
    ⟨fieldMask, .wellKnown .fieldMask [.many "paths" 1 .string]⟩ ]

end Textproto.Bundled
