namespace Textproto

/-- A key of a map. -/
inductive Key where
  | bool (b : Bool)
  | int (n : Int64)
  | uint (n : UInt64)
  | string (s : String)
  deriving Repr, DecidableEq

namespace Key

def text : Key → String
  | bool true => "true"
  | bool false => "false"
  | int n => toString n.toInt
  | uint n => toString n.toNat
  | string s => s

def rank : Key → Nat
  | bool _ => 0
  | int _ => 1
  | uint _ => 2
  | string _ => 3

/-- The order of keys: `false` before `true`, numbers by value, strings by their characters,
and different kinds by rank. -/
def before : Key → Key → Bool
  | bool a, bool b => !a && b
  | int a, int b => a.toInt < b.toInt
  | uint a, uint b => a.toNat < b.toNat
  | string a, string b => a.toList < b.toList
  | a, b => a.rank < b.rank

/-- Entries sorted by key, the last written value under each. -/
def insert {α : Type} (key : Key) (value : α) : List (Key × α) → List (Key × α)
  | [] => [(key, value)]
  | (k, a) :: rest =>
      if k = key then (key, value) :: rest
      else if key.before k then (key, value) :: (k, a) :: rest
      else (k, a) :: insert key value rest

theorem insert_ne_nil {α : Type} (key : Key) (value : α) (entries : List (Key × α)) :
    insert key value entries ≠ [] := by
  cases entries with
  | nil => simp [insert]
  | cons entry rest =>
      simp only [insert]
      split
      · simp
      · split <;> simp

end Key

end Textproto
