namespace Textproto

/-!
Keyed entries in the order in which their keys first came. Writing under a key that is
there keeps its place.
-/

namespace Entries

variable {κ α : Type} [DecidableEq κ]

def get? (key : κ) : List (κ × α) → Option α
  | [] => none
  | (k, a) :: rest => if k = key then some a else get? key rest

def put (key : κ) (value : α) : List (κ × α) → List (κ × α)
  | [] => [(key, value)]
  | (k, a) :: rest => if k = key then (key, value) :: rest else (k, a) :: put key value rest

@[simp] theorem get?_nil (key : κ) : get? key ([] : List (κ × α)) = none := rfl

@[simp] theorem get?_put_self (key : κ) (value : α) (entries : List (κ × α)) :
    get? key (put key value entries) = some value := by
  induction entries with
  | nil => simp [put, get?]
  | cons entry rest ih =>
      obtain ⟨k, a⟩ := entry
      by_cases h : k = key <;> simp [put, get?, h, ih]

theorem get?_put_of_ne {key other : κ} (hne : other ≠ key) (value : α)
    (entries : List (κ × α)) : get? other (put key value entries) = get? other entries := by
  induction entries with
  | nil => simp [put, get?, Ne.symm hne]
  | cons entry rest ih =>
      obtain ⟨k, a⟩ := entry
      by_cases h : k = key
      · subst h
        simp [put, get?, Ne.symm hne]
      · simp [put, get?, h, ih]

/-- The keys stand as before, a new one last. -/
theorem map_fst_put (key : κ) (value : α) (entries : List (κ × α)) :
    (put key value entries).map Prod.fst =
      if key ∈ entries.map Prod.fst then entries.map Prod.fst
      else entries.map Prod.fst ++ [key] := by
  induction entries with
  | nil => simp [put]
  | cons entry rest ih =>
      obtain ⟨k, a⟩ := entry
      by_cases h : k = key
      · subst h
        simp [put]
      · by_cases hmem : key ∈ rest.map Prod.fst
        · rw [if_pos hmem] at ih
          simp only [put, if_neg h, List.map_cons, ih]
          rw [if_pos (List.mem_cons_of_mem k hmem)]
        · rw [if_neg hmem] at ih
          simp only [put, if_neg h, List.map_cons, ih]
          rw [if_neg (by simp [Ne.symm h] at hmem ⊢; exact hmem)]
          rfl

end Entries

end Textproto
