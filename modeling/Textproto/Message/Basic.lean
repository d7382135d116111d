import Textproto.Data.Entries
import Textproto.Ieee.Basic
import Textproto.Message.Key
import Textproto.Schema.Registry

namespace Textproto

/-! Messages whose form is known only through their descriptors. -/

mutual

inductive Value where
  | bool (b : Bool)
  | int32 (n : Int32)
  | int64 (n : Int64)
  | uint32 (n : UInt32)
  | uint64 (n : UInt64)
  | float (x : Single)
  | double (x : Double)
  | string (s : String)
  | bytes (b : List UInt8)
  | enum (n : Int32)
  | message (m : Message)

/-- What a field stores. -/
inductive Content where
  | single (value : Value)
  | list (values : List Value)
  | map (entries : List (Key × Value))

/-- Contents are kept by field number. The payload is what an `Any` carries under a type URL. -/
inductive Message where
  | mk (descriptor : Descriptor) (contents : List (Nat × Content))
      (payload : Option (String × Message))

end

namespace Value

/-- The zero value of a kind. A message that is not set is absent, not zero. -/
def zero? : Kind → Option Value
  | .bool => some (bool false)
  | .int32 => some (int32 0)
  | .int64 => some (int64 0)
  | .uint32 => some (uint32 0)
  | .uint64 => some (uint64 0)
  | .float => some (float .zero)
  | .double => some (double .zero)
  | .string => some (string "")
  | .bytes => some (bytes [])
  | .enum _ => some (enum 0)
  | .message _ => none

/-- Negative zero is not the zero value. -/
def isZero : Value → Bool
  | bool b => !b
  | int32 n => n = 0
  | int64 n => n = 0
  | uint32 n => n = 0
  | uint64 n => n = 0
  | float x => x = .zero
  | double x => x = .zero
  | string s => s = ""
  | bytes b => b = []
  | enum n => n = 0
  | message _ => false

def string? : Value → Option String
  | string s => some s
  | _ => none

def message? : Value → Option Message
  | message m => some m
  | _ => none

def key? : Value → Option Key
  | bool b => some (.bool b)
  | int32 n => some (.int n.toInt64)
  | int64 n => some (.int n)
  | uint32 n => some (.uint n.toUInt64)
  | uint64 n => some (.uint n)
  | string s => some (.string s)
  | _ => none

theorem isZero_of_zero? {kind : Kind} {value : Value} (h : zero? kind = some value) :
    value.isZero = true := by
  cases kind <;> simp only [zero?, Option.some.injEq, reduceCtorEq] at h <;> subst h <;> rfl

end Value

namespace Content

def single? : Content → Option Value
  | single value => some value
  | _ => none

def list? : Content → Option (List Value)
  | list values => some values
  | _ => none

end Content

namespace Message

def empty (descriptor : Descriptor) : Message :=
  ⟨descriptor, [], none⟩

def descriptor : Message → Descriptor
  | ⟨descriptor, _, _⟩ => descriptor

def contents : Message → List (Nat × Content)
  | ⟨_, contents, _⟩ => contents

def payload? : Message → Option (String × Message)
  | ⟨_, _, payload⟩ => payload

/-! Reading fields. A name stands for the first field that bears it. -/

def content? (m : Message) (number : Nat) : Option Content :=
  Entries.get? number m.contents

def named? (m : Message) (name : String) : Option Content :=
  (m.descriptor.fieldNamed? name).bind fun field => m.content? field.number

def single? (m : Message) (name : String) : Option Value :=
  (m.named? name).bind Content.single?

def list (m : Message) (name : String) : List Value :=
  ((m.named? name).bind Content.list?).getD []

def string (m : Message) (name : String) : String :=
  ((m.single? name).bind Value.string?).getD ""

/-- Whether stored content shows: lists and maps if they hold something, a single value if its
field tells being set apart from zero, or if it is not zero. -/
def shows (field : Field) : Content → Bool
  | .list values => !values.isEmpty
  | .map entries => !entries.isEmpty
  | .single value =>
      field.presence || field.oneof.isSome || field.kind.isMessage || !value.isZero

def has (m : Message) (field : Field) : Bool :=
  match m.content? field.number with
  | none => false
  | some content => shows field content

/-- The member of a oneof that is set. -/
def member? (m : Message) (oneof : String) : Option String :=
  (m.descriptor.fields.find? fun field =>
    field.oneof = some oneof && (m.content? field.number).isSome).map Field.name

/-! Writing fields. -/

def put (m : Message) (number : Nat) (content : Content) : Message :=
  ⟨m.descriptor, Entries.put number content m.contents, m.payload?⟩

def set (m : Message) (field : Field) (value : Value) : Message :=
  m.put field.number (.single value)

/-- Appends to the list of a field, begun anew if the field holds anything else. -/
def push (m : Message) (field : Field) (value : Value) : Message :=
  let before := ((m.content? field.number).bind Content.list?).getD []
  m.put field.number (.list (before ++ [value]))

/-- Writes an entry of a map, begun anew if the field holds anything else. -/
def insert (m : Message) (field : Field) (key : Key) (value : Value) : Message :=
  let before := match m.content? field.number with
    | some (.map entries) => entries
    | _ => []
  m.put field.number (.map (key.insert value before))

def withPayload (m : Message) (url : String) (payload : Message) : Message :=
  ⟨m.descriptor, m.contents, some (url, payload)⟩

@[simp] theorem descriptor_put (m : Message) (number : Nat) (content : Content) :
    (m.put number content).descriptor = m.descriptor := rfl

@[simp] theorem payload?_put (m : Message) (number : Nat) (content : Content) :
    (m.put number content).payload? = m.payload? := rfl

@[simp] theorem content?_put_self (m : Message) (number : Nat) (content : Content) :
    (m.put number content).content? number = some content :=
  Entries.get?_put_self number content m.contents

theorem content?_put_of_ne (m : Message) {number other : Nat} (hne : other ≠ number)
    (content : Content) : (m.put number content).content? other = m.content? other :=
  Entries.get?_put_of_ne hne content m.contents

@[simp] theorem content?_empty (descriptor : Descriptor) (number : Nat) :
    (empty descriptor).content? number = none := rfl

@[simp] theorem content?_withPayload (m : Message) (url : String) (payload : Message)
    (number : Nat) : (m.withPayload url payload).content? number = m.content? number := rfl

end Message

end Textproto
