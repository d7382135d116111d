import Textproto.Binding.Error
import Textproto.Message.Basic
import Textproto.Tree.Numeral

namespace Textproto

/-! Scalars as the values of typed fields. -/

namespace Tree.Scalar

/-- The value of an integer, with its sign. -/
def int? : Scalar → Option Int
  | integer negative digits radix =>
      let size : Int := valueOf radix.base digits
      some (if negative then -size else size)
  | _ => none

/-- The value of an integer that is written without a sign. -/
def nat? : Scalar → Option Nat
  | integer false digits radix => some (valueOf radix.base digits)
  | _ => none

def int32? (scalar : Scalar) : Option Int32 :=
  (scalar.int?.filter fun n => Int32.minValue.toInt ≤ n && n ≤ Int32.maxValue.toInt).map
    Int32.ofInt

def int64? (scalar : Scalar) : Option Int64 :=
  (scalar.int?.filter fun n => Int64.minValue.toInt ≤ n && n ≤ Int64.maxValue.toInt).map
    Int64.ofInt

def uint32? (scalar : Scalar) : Option UInt32 :=
  (scalar.nat?.filter fun n => n < UInt32.size).map UInt32.ofNat

def uint64? (scalar : Scalar) : Option UInt64 :=
  (scalar.nat?.filter fun n => n < UInt64.size).map UInt64.ofNat

def bool? : Scalar → Option Bool
  | identifier name =>
      if name ∈ ["true".toList, "True".toList, "t".toList] then some true
      else if name ∈ ["false".toList, "False".toList, "f".toList] then some false
      else none
  | scalar =>
      match scalar.nat? with
      | some 0 => some false
      | some 1 => some true
      | _ => none

/-- The number that a scalar stands for. Decimal integers of any size are rounded, others have
to fit sixty-four bits. -/
def double? : Scalar → Option Double
  | float x => some x
  | integer negative digits radix =>
      let value := valueOf radix.base digits
      if radix = .decimal || value < UInt64.size then some (Ieee.ofRatio negative value 1) else none
  | identifier name =>
      let word := name.map Char.toLower
      if word = "inf".toList || word = "infinity".toList then some (Ieee.infinity false)
      else if word = "nan".toList then some Ieee.nan
      else none
  | string _ => none

/-- A single stands for any number that does not become infinite in its format. -/
def single? (scalar : Scalar) : Option Single :=
  (scalar.double?.filter fun x => !x.isFinite || (x.convert : Single).isFinite).map Ieee.convert

end Tree.Scalar

namespace Binding

def scalarAs (registry : Registry) (field : Field) (scalar : Tree.Scalar) :
    Except Cause Value :=
  let mismatch := Cause.mismatch field.kind.typeName field.name scalar
  let expect (value : Option Value) : Except Cause Value :=
    match value with
    | some value => .ok value
    | none => .error mismatch
  match field.kind with
  | .bool => expect (scalar.bool?.map Value.bool)
  | .int32 => expect (scalar.int32?.map Value.int32)
  | .int64 => expect (scalar.int64?.map Value.int64)
  | .uint32 => expect (scalar.uint32?.map Value.uint32)
  | .uint64 => expect (scalar.uint64?.map Value.uint64)
  | .float => expect (scalar.single?.map Value.float)
  | .double => expect (scalar.double?.map Value.double)
  | .string =>
      match scalar with
      | .string bytes =>
          match Utf8.decode bytes with
          | .ok text => .ok (.string (String.ofList text))
          | .error _ => .error (.invalidText field.name)
      | _ => .error mismatch
  | .bytes =>
      match scalar with
      | .string bytes => .ok (.bytes bytes)
      | _ => .error mismatch
  | .enum name =>
      match registry.enumeration? name with
      | none => .error (.unknownEnumeration name)
      | some enumeration =>
          match scalar with
          | .identifier enumerator =>
              match enumeration.numberOf? (String.ofList enumerator) with
              | some number => .ok (.enum number)
              | none => .error (.unknownEnumerator (String.ofList enumerator) name)
          | _ => expect (scalar.int32?.map Value.enum)
  | .message _ => .error mismatch

end Binding

end Textproto
