import Textproto.Ieee.Basic
import Textproto.Tree.Cursor

namespace Textproto.Tree

/-! Fields as they are written, before their types are known. -/

inductive Radix where
  | octal
  | decimal
  | hexadecimal
  deriving Repr, DecidableEq

def Radix.base : Radix → Nat
  | octal => 8
  | decimal => 10
  | hexadecimal => 16

/-- A scalar as it is written. The digits of an integer are kept, since their value is bounded
only by the field that takes it. -/
inductive Scalar where
  | string (bytes : List UInt8)
  | identifier (name : List Char)
  | integer (negative : Bool) (digits : List Char) (radix : Radix)
  | float (x : Double)
  deriving DecidableEq

/-- A field is named by an identifier, or by the type URL of what it holds. -/
inductive Name where
  | plain (name : List Char)
  | expanded (url : List Char)
  deriving Repr, DecidableEq

mutual

inductive Field where
  | mk (name : Name) (position : Position) (value : Value)

inductive Value where
  | scalar (scalar : Scalar) (position : Position)
  | message (fields : List Field) (position : Position)
  | list (values : List Value) (position : Position)

end

namespace Field

def name : Field → Name
  | ⟨name, _, _⟩ => name

def position : Field → Position
  | ⟨_, position, _⟩ => position

def value : Field → Value
  | ⟨_, _, value⟩ => value

end Field

def Value.position : Value → Position
  | scalar _ position => position
  | message _ position => position
  | list _ position => position

end Textproto.Tree
