import Textproto.Ieee.Decimal

namespace Textproto

/-- A JSON value. Whole numbers are kept apart from doubles; members keep their order. -/
inductive Json where
  | null
  | bool (b : Bool)
  | int (n : Int)
  | double (x : Double)
  | string (s : String)
  | array (items : List Json)
  | object (members : List (String × Json))

namespace Json

def hexDigit (n : Nat) : Char :=
  "0123456789abcdef".toList.getD (n % 16) '0'

def escape (c : Char) : List Char :=
  if c = '"' then ['\\', '"']
  else if c = '\\' then ['\\', '\\']
  else if c = '\x08' then ['\\', 'b']
  else if c = '\x0c' then ['\\', 'f']
  else if c = '\n' then ['\\', 'n']
  else if c = '\r' then ['\\', 'r']
  else if c = '\t' then ['\\', 't']
  else if c.toNat < 0x20 then
    ['\\', 'u', '0', '0', hexDigit (c.toNat / 16), hexDigit c.toNat]
  else [c]

def quote (s : String) : String :=
  "\"" ++ String.ofList (s.toList.flatMap escape) ++ "\""

/-- A finite double in the fewest digits, with a digit on both sides of the point, and with an
exponent below `10 ^ -5` and from `10 ^ 16` on. -/
def doubleText (x : Double) : String :=
  let decimal := x.shortest .even
  x.signed <|
    if -5 ≤ decimal.leading && decimal.leading < 16 then
      if 0 ≤ decimal.exponent then decimal.positional ++ ['.', '0'] else decimal.positional
    else decimal.scientific

/-- The text of a value that holds no other. -/
def atomText : Json → String
  | null => "null"
  | bool true => "true"
  | bool false => "false"
  | int n => toString n
  | double x => if x.isFinite then doubleText x else "null"
  | string s => quote s
  | array _ => ""
  | object _ => ""

/-! Without any space. -/

mutual

def compact : Json → String
  | array items => "[" ++ compactItems items ++ "]"
  | object members => "\x7b" ++ compactMembers members ++ "\x7d"
  | atom => atom.atomText

def compactItems : List Json → String
  | [] => ""
  | [item] => item.compact
  | item :: rest => item.compact ++ "," ++ compactItems rest

def compactMembers : List (String × Json) → String
  | [] => ""
  | [(key, value)] => quote key ++ ":" ++ value.compact
  | (key, value) :: rest => quote key ++ ":" ++ value.compact ++ "," ++ compactMembers rest

end

/-! One item or member a line, two blanks for every level. -/

def indent (level : Nat) : String :=
  String.ofList (List.replicate (2 * level) ' ')

mutual

def prettyAt (level : Nat) : Json → String
  | array [] => "[]"
  | array items => "[\n" ++ prettyItems (level + 1) items ++ "\n" ++ indent level ++ "]"
  | object [] => "\x7b\x7d"
  | object members =>
      "\x7b\n" ++ prettyMembers (level + 1) members ++ "\n" ++ indent level ++ "\x7d"
  | atom => atom.atomText

def prettyItems (level : Nat) : List Json → String
  | [] => ""
  | [item] => indent level ++ item.prettyAt level
  | item :: rest =>
      indent level ++ item.prettyAt level ++ ",\n" ++ prettyItems level rest

def prettyMembers (level : Nat) : List (String × Json) → String
  | [] => ""
  | [(key, value)] => indent level ++ quote key ++ ": " ++ value.prettyAt level
  | (key, value) :: rest =>
      indent level ++ quote key ++ ": " ++ value.prettyAt level ++ ",\n"
        ++ prettyMembers level rest

end

def pretty (json : Json) : String :=
  json.prettyAt 0

end Json

end Textproto
