import Textproto.Schema.Bundled.WellKnown

namespace Textproto.Bundled

/-! Values of expressions, and the outcomes of evaluating them. -/

def value : String := "cel.expr.Value"

def enumValue : String := "cel.expr.EnumValue"

def listValue : String := "cel.expr.ListValue"

def mapValue : String := "cel.expr.MapValue"

def mapValueEntry : String := "cel.expr.MapValue.Entry"

def exprValue : String := "cel.expr.ExprValue"

def errorSet : String := "cel.expr.ErrorSet"

def status : String := "cel.expr.Status"

def unknownSet : String := "cel.expr.UnknownSet"

def valueTypes : List Descriptor :=
  [ ⟨value, .message
      [ .member "kind" "null_value" 1 (.enum nullValue),
        .member "kind" "bool_value" 2 .bool,
        .member "kind" "int64_value" 3 .int64,
        .member "kind" "uint64_value" 4 .uint64,
        .member "kind" "double_value" 5 .double,
        .member "kind" "string_value" 6 .string,
        .member "kind" "bytes_value" 7 .bytes,
        .member "kind" "enum_value" 9 (.message enumValue),
        .member "kind" "object_value" 10 (.message any),
        .member "kind" "map_value" 11 (.message mapValue),
        .member "kind" "list_value" 12 (.message listValue),
        .member "kind" "type_value" 15 .string ]⟩,
    ⟨enumValue, .message
      [ .single "type" 1 .string,
        .single "value" 2 .int32 ]⟩,
    ⟨listValue, .message [.many "values" 1 (.message value)]⟩,
    ⟨mapValue, .message [.many "entries" 1 (.message mapValueEntry)]⟩,
    ⟨mapValueEntry, .message
      [ .single "key" 1 (.message value),
        .single "value" 2 (.message value) ]⟩ ]

def outcomeTypes : List Descriptor :=
  [ ⟨exprValue, .message
      [ .member "kind" "value" 1 (.message value),
        .member "kind" "error" 2 (.message errorSet),
        .member "kind" "unknown" 3 (.message unknownSet) ]⟩,
    ⟨errorSet, .message [.many "errors" 1 (.message status)]⟩,
    ⟨status, .message
      [ .single "code" 1 .int32,
        .single "message" 2 .string,
        .many "details" 3 (.message any) ]⟩,
    ⟨unknownSet, .message [.many "exprs" 1 .int64]⟩ ]

end Textproto.Bundled
