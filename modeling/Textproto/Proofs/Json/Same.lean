import Textproto.Data.Entries
import Textproto.Json.Basic

namespace Textproto.Json

/-- Equal JSON values. Doubles compare as numbers, and objects whatever the order of their
members. -/
inductive Same : Json → Json → Prop
  | null : Same null null
  | bool {b : Bool} : Same (bool b) (bool b)
  | int {n : Int} : Same (int n) (int n)
  | double {x y : Double} : x.equals y = true → Same (double x) (double y)
  | string {s : String} : Same (string s) (string s)
  | array {items others : List Json} :
      items.length = others.length →
      (∀ (i : Nat) (a b : Json), items[i]? = some a → others[i]? = some b → Same a b) →
      Same (array items) (array others)
  | object {members others : List (String × Json)} :
      (∀ key, (Entries.get? key members).isSome = (Entries.get? key others).isSome) →
      (∀ key a b, Entries.get? key members = some a → Entries.get? key others = some b →
        Same a b) →
      Same (object members) (object others)

theorem Same.int_inj {m n : Int} (h : Same (.int m) (.int n)) : m = n := by
  cases h
  rfl

theorem Same.bool_inj {b c : Bool} (h : Same (.bool b) (.bool c)) : b = c := by
  cases h
  rfl

theorem Same.string_inj {s t : String} (h : Same (.string s) (.string t)) : s = t := by
  cases h
  rfl

end Textproto.Json
