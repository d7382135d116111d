import Mathlib.Data.List.Nodup
import Textproto.Proofs.Encoding.Whole
import Textproto.Proofs.Message.Key

namespace Textproto

/-! JSON values up to the order of their members and the form of their numbers. -/

namespace Json

/-- Members stand by the bytes of their keys. -/
def inOrder {α : Type} (first second : String × α) : Bool :=
  decide (Utf8.encode first.1.toList ≤ Utf8.encode second.1.toList)

/-! The members of every object in the order of their keys. -/

mutual

def sorted : Json → Json
  | array items => array (sortedItems items)
  | object members => object ((sortedMembers members).mergeSort inOrder)
  | atom => atom

def sortedItems : List Json → List Json
  | [] => []
  | item :: rest => item.sorted :: sortedItems rest

def sortedMembers : List (String × Json) → List (String × Json)
  | [] => []
  | (key, value) :: rest => (key, value.sorted) :: sortedMembers rest

end

/-! Every number as the double that it denotes. -/

mutual

def asDoubles : Json → Json
  | int n => double (.ofInt n)
  | array items => array (itemsAsDoubles items)
  | object members => object (membersAsDoubles members)
  | atom => atom

def itemsAsDoubles : List Json → List Json
  | [] => []
  | item :: rest => item.asDoubles :: itemsAsDoubles rest

def membersAsDoubles : List (String × Json) → List (String × Json)
  | [] => []
  | (key, value) :: rest => (key, value.asDoubles) :: membersAsDoubles rest

end

/-- Numbers are finite doubles, and the keys of each object are distinct. -/
inductive Proper : Json → Prop
  | null : Proper null
  | bool {b : Bool} : Proper (bool b)
  | double {x : Double} : x.isFinite = true → Proper (double x)
  | string {s : String} : Proper (string s)
  | array {items : List Json} : (∀ item ∈ items, Proper item) → Proper (array items)
  | object {members : List (String × Json)} : (members.map Prod.fst).Nodup →
      (∀ member ∈ members, Proper member.2) → Proper (object members)

variable {α β : Type}

theorem sortedItems_eq (items : List Json) : sortedItems items = items.map sorted := by
  induction items with
  | nil => rw [sortedItems, List.map_nil]
  | cons item rest ih => rw [sortedItems, ih, List.map_cons]

theorem sortedMembers_eq (members : List (String × Json)) :
    sortedMembers members = members.map (Prod.map id sorted) := by
  induction members with
  | nil => rw [sortedMembers, List.map_nil]
  | cons member rest ih => rw [sortedMembers, ih, List.map_cons, Prod.map, id_eq]

theorem itemsAsDoubles_eq (items : List Json) : itemsAsDoubles items = items.map asDoubles := by
  induction items with
  | nil => rw [itemsAsDoubles, List.map_nil]
  | cons item rest ih => rw [itemsAsDoubles, ih, List.map_cons]

theorem membersAsDoubles_eq (members : List (String × Json)) :
    membersAsDoubles members = members.map (Prod.map id asDoubles) := by
  induction members with
  | nil => rw [membersAsDoubles, List.map_nil]
  | cons member rest ih => rw [membersAsDoubles, ih, List.map_cons, Prod.map, id_eq]

/-- Sorting looks at nothing but keys. -/
theorem map_mergeSort (f : α → β) (members : List (String × α)) :
    (members.mergeSort inOrder).map (Prod.map id f) =
      (members.map (Prod.map id f)).mergeSort inOrder :=
  List.map_mergeSort fun _ _ _ _ => rfl

theorem pairwise_mergeSort (members : List (String × α)) :
    (members.mergeSort inOrder).Pairwise fun first second =>
      Utf8.encode first.1.toList ≤ Utf8.encode second.1.toList := by
  refine (List.pairwise_mergeSort ?_ ?_ members).imp of_decide_eq_true
  · intro a b c hab hbc
    exact decide_eq_true (List.le_trans (of_decide_eq_true hab) (of_decide_eq_true hbc))
  · intro a b
    rw [Bool.or_eq_true, decide_eq_true_eq, decide_eq_true_eq]
    exact List.le_total _ _

theorem nodup_mergeSort {members : List (String × α)} (h : (members.map Prod.fst).Nodup) :
    ((members.mergeSort inOrder).map Prod.fst).Nodup :=
  ((List.mergeSort_perm members inOrder).map Prod.fst).nodup_iff.mpr h

/-- Of two different texts the one with the lesser bytes is the lesser key. -/
theorem before_of_encode_le {key other : String} (hne : key ≠ other)
    (h : Utf8.encode key.toList ≤ Utf8.encode other.toList) :
    (Key.string key).before (.string other) = true := by
  by_contra hbefore
  have hother := Key.before_of_ne (fun heq => hne (Key.string.inj heq))
    (Bool.eq_false_of_not_eq_true hbefore)
  have hprecedes : (Key.string other).Precedes (.string key) := Key.precedes_of_before rfl hother
  cases hprecedes with
  | string hlt => exact h hlt

/-- Entries that are written one after another are kept as members are sorted. -/
theorem collect_map (f : α → β) {members : List (String × α)} (h : (members.map Prod.fst).Nodup) :
    Key.collect (members.map (Prod.map Key.string f)) =
      (members.mergeSort inOrder).map (Prod.map Key.string f) := by
  have hkeys : ((members.map (Prod.map Key.string f)).map Prod.fst).Nodup := by
    rw [List.map_map, Prod.map_fst', ← List.map_map]
    exact h.map fun _ _ => Key.string.inj
  have hsorted : Key.Sorted ((members.mergeSort inOrder).map (Prod.map Key.string f)) := by
    have hdistinct := List.pairwise_map.mp (nodup_mergeSort h)
    refine List.pairwise_map.mpr ((hdistinct.and (pairwise_mergeSort members)).imp ?_)
    rintro first second ⟨hne, hle⟩
    exact before_of_encode_le hne hle
  refine List.Perm.eq_of_pairwise ?_ (Key.sorted_collect _) hsorted ?_
  · intro first second _ _ hbefore hbehind
    have hself := Key.before_trans hbefore hbehind
    rw [Key.not_before_self] at hself
    cases hself
  · exact (Key.collect_perm hkeys).trans ((List.mergeSort_perm members inOrder).map _).symm

end Json

end Textproto
