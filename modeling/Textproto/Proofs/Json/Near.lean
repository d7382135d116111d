import Mathlib.Data.List.Forall2
import Mathlib.Data.Option.Basic
import Textproto.Json.Basic
import Textproto.Proofs.Data.Entries

namespace Textproto.Json

/-! JSON that differs in the signs of zeros only. A zero without a sign is a whole number, and may
be left out of an object. -/

/-- Members in one order, some of which one side leaves out where the other has a negative zero. -/
inductive NearMembers (R : Json → Json → Prop) :
    List (String × Json) → List (String × Json) → Prop
  | nil : NearMembers R [] []
  | both {key : String} {json other : Json} {members others : List (String × Json)} :
      R json other → NearMembers R members others →
      NearMembers R ((key, json) :: members) ((key, other) :: others)
  | left {key : String} {members others : List (String × Json)} :
      NearMembers R members others →
      NearMembers R ((key, .double Ieee.zero.neg) :: members) others
  | right {key : String} {members others : List (String × Json)} :
      NearMembers R members others →
      NearMembers R members ((key, .double Ieee.zero.neg) :: others)

inductive Near : Json → Json → Prop
  | same {json : Json} : Near json json
  | negative : Near (.double Ieee.zero.neg) (.int 0)
  | positive : Near (.int 0) (.double Ieee.zero.neg)
  | array {items others : List Json} :
      List.Forall₂ Near items others → Near (.array items) (.array others)
  | object {members others : List (String × Json)} :
      NearMembers Near members others → Near (.object members) (.object others)

/-- What a field gives to an object, if anything. -/
inductive NearMember : Option Json → Option Json → Prop
  | both {given other : Option Json} : Option.Rel Near given other → NearMember given other
  | left : NearMember (some (.double Ieee.zero.neg)) none
  | right : NearMember none (some (.double Ieee.zero.neg))

namespace NearMembers

variable {R : Json → Json → Prop} {members others : List (String × Json)}

theorem append {more rest : List (String × Json)} (h : NearMembers R members others)
    (hmore : NearMembers R more rest) : NearMembers R (members ++ more) (others ++ rest) := by
  induction h with
  | nil => exact hmore
  | both hjson _ ih => exact .both hjson ih
  | left _ ih => exact .left ih
  | right _ ih => exact .right ih

theorem put {key : String} {json other : Json} (h : NearMembers R members others)
    (hnew : key ∉ members.map Prod.fst) (hnew' : key ∉ others.map Prod.fst) (hjson : R json other) :
    NearMembers R (Entries.put key json members) (Entries.put key other others) := by
  rw [Entries.put_of_not_mem hnew, Entries.put_of_not_mem hnew']
  exact h.append (.both hjson .nil)

theorem put_left {key : String} (h : NearMembers R members others)
    (hnew : key ∉ members.map Prod.fst) :
    NearMembers R (Entries.put key (.double Ieee.zero.neg) members) others := by
  rw [Entries.put_of_not_mem hnew, ← List.append_nil others]
  exact h.append (.left .nil)

theorem put_right {key : String} (h : NearMembers R members others)
    (hnew : key ∉ others.map Prod.fst) :
    NearMembers R members (Entries.put key (.double Ieee.zero.neg) others) := by
  rw [Entries.put_of_not_mem hnew, ← List.append_nil members]
  exact h.append (.right .nil)

/-- Members under the same keys. -/
theorem of_forall₂ (h : List.Forall₂ (fun member other => member.1 = other.1 ∧ R member.2 other.2)
    members others) : NearMembers R members others := by
  induction h with
  | nil => exact .nil
  | @cons member other _ _ hmember _ ih =>
      obtain ⟨key, json⟩ := member
      obtain ⟨own, other⟩ := other
      obtain ⟨rfl, hjson⟩ : key = own ∧ R json other := hmember
      exact .both hjson ih

end NearMembers

/-- A member that is put among others of the same keys is put in the same place. -/
theorem forall₂_put {R : Json → Json → Prop} {members others : List (String × Json)}
    (h : List.Forall₂ (fun member other => member.1 = other.1 ∧ R member.2 other.2) members others)
    (key : String) {json found : Json} (hjson : R json found) :
    List.Forall₂ (fun member other => member.1 = other.1 ∧ R member.2 other.2)
      (Entries.put key json members) (Entries.put key found others) := by
  induction h with
  | nil => exact .cons ⟨rfl, hjson⟩ .nil
  | @cons member other _ _ hmember hrest ih =>
      obtain ⟨own, _⟩ := member
      obtain ⟨_, _⟩ := other
      obtain ⟨rfl, hmember⟩ := hmember
      by_cases hkey : own = key
      · rw [Entries.put, if_pos hkey, Entries.put, if_pos hkey]
        exact .cons ⟨rfl, hjson⟩ hrest
      · rw [Entries.put, if_neg hkey, Entries.put, if_neg hkey]
        exact .cons ⟨rfl, hmember⟩ ih

end Textproto.Json
