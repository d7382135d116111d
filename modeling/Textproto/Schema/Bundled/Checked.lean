import Textproto.Schema.Bundled.WellKnown

namespace Textproto.Bundled

/-! Declarations and types of checked expressions. -/

def declaration : String := "cel.expr.Decl"

def identifierDeclaration : String := "cel.expr.Decl.IdentDecl"

def functionDeclaration : String := "cel.expr.Decl.FunctionDecl"

def overload : String := "cel.expr.Decl.FunctionDecl.Overload"

def type : String := "cel.expr.Type"

def listType : String := "cel.expr.Type.ListType"

def mapType : String := "cel.expr.Type.MapType"

def functionType : String := "cel.expr.Type.FunctionType"

def abstractType : String := "cel.expr.Type.AbstractType"

def constant : String := "cel.expr.Constant"

def primitiveType : String := "cel.expr.Type.PrimitiveType"

def wellKnownType : String := "cel.expr.Type.WellKnownType"

def primitiveTypeValues : Enumeration where
  fullName := primitiveType
  values :=
    [ ("PRIMITIVE_TYPE_UNSPECIFIED", 0),
      ("BOOL", 1),
      ("INT64", 2),
      ("UINT64", 3),
      ("DOUBLE", 4),
      ("STRING", 5),
      ("BYTES", 6) ]

def wellKnownTypeValues : Enumeration where
  fullName := wellKnownType
  values :=
    [ ("WELL_KNOWN_TYPE_UNSPECIFIED", 0),
      ("ANY", 1),
      ("TIMESTAMP", 2),
      ("DURATION", 3) ]

def checkedTypes : List Descriptor :=
  [ ⟨declaration, .message
      [ .single "name" 1 .string,
        .member "decl_kind" "ident" 2 (.message identifierDeclaration),
        .member "decl_kind" "function" 3 (.message functionDeclaration) ]⟩,
    ⟨identifierDeclaration, .message
      [ .single "type" 1 (.message type),
        .single "value" 2 (.message constant),
        .single "doc" 3 .string ]⟩,
    ⟨functionDeclaration, .message [.many "overloads" 1 (.message overload)]⟩,
    ⟨overload, .message
      [ .single "overload_id" 1 .string,
        .many "params" 2 (.message type),
        .many "type_params" 3 .string,
        .single "result_type" 4 (.message type),
        .single "is_instance_function" 5 .bool,
        .single "doc" 6 .string ]⟩,
    ⟨type, .message
      [ .member "type_kind" "dyn" 1 (.message empty),
        .member "type_kind" "null" 2 (.enum nullValue),
        .member "type_kind" "primitive" 3 (.enum primitiveType),
        .member "type_kind" "wrapper" 4 (.enum primitiveType),
        .member "type_kind" "well_known" 5 (.enum wellKnownType),
        .member "type_kind" "list_type" 6 (.message listType),
        .member "type_kind" "map_type" 7 (.message mapType),
        .member "type_kind" "function" 8 (.message functionType),
        .member "type_kind" "message_type" 9 .string,
        .member "type_kind" "type_param" 10 .string,
        .member "type_kind" "type" 11 (.message type),
        .member "type_kind" "error" 12 (.message empty),
        .member "type_kind" "abstract_type" 14 (.message abstractType) ]⟩,
    ⟨listType, .message [.single "elem_type" 1 (.message type)]⟩,
    ⟨mapType, .message
      [ .single "key_type" 1 (.message type),
        .single "value_type" 2 (.message type) ]⟩,
    ⟨functionType, .message
      [ .single "result_type" 1 (.message type),
        .many "arg_types" 2 (.message type) ]⟩,
    ⟨abstractType, .message
      [ .single "name" 1 .string,
        .many "parameter_types" 2 (.message type) ]⟩,
    ⟨constant, .message
      [ .member "constant_kind" "null_value" 1 (.enum nullValue),
        .member "constant_kind" "bool_value" 2 .bool,
        .member "constant_kind" "int64_value" 3 .int64,
        .member "constant_kind" "uint64_value" 4 .uint64,
        .member "constant_kind" "double_value" 5 .double,
        .member "constant_kind" "string_value" 6 .string,
        .member "constant_kind" "bytes_value" 7 .bytes,
        .member "constant_kind" "duration_value" 8 (.message duration),
        .member "constant_kind" "timestamp_value" 9 (.message timestamp) ]⟩ ]

end Textproto.Bundled
