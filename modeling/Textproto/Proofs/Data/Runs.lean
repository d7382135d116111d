namespace Textproto

/-! Longest runs of characters of a class. -/

/-- No character of the class comes first. -/
def Stops (isWanted : Char → Bool) (text : List Char) : Prop :=
  ∀ x, text.head? = some x → isWanted x = false

namespace Stops

variable {isWanted : Char → Bool}

@[simp] theorem nil : Stops isWanted [] := by
  intro x h
  cases h

@[simp] theorem cons_iff {x : Char} {rest : List Char} :
    Stops isWanted (x :: rest) ↔ isWanted x = false := by
  simp [Stops]

theorem append_right {text rest : List Char} (h : Stops isWanted text)
    (hrest : Stops isWanted rest) : Stops isWanted (text ++ rest) := by
  cases text with
  | nil => exact hrest
  | cons x text => simpa using h

theorem of_append {text rest : List Char} (h : Stops isWanted (text ++ rest)) :
    Stops isWanted text := by
  cases text with
  | nil => exact nil
  | cons x text => simpa using h

theorem mono {isOther : Char → Bool} {text : List Char} (h : Stops isWanted text)
    (hle : ∀ x, isOther x = true → isWanted x = true) : Stops isOther text := by
  intro x hx
  have hwanted := h x hx
  cases hother : isOther x with
  | false => rfl
  | true => rw [hle x hother] at hwanted; cases hwanted

theorem drop_takeWhile (text : List Char) :
    Stops isWanted (text.drop (text.takeWhile isWanted).length) := by
  induction text with
  | nil => exact nil
  | cons x rest ih =>
      by_cases hx : isWanted x = true
      · simpa [hx] using ih
      · simp [hx]

theorem takeWhile_eq_nil {text : List Char} (h : Stops isWanted text) :
    text.takeWhile isWanted = [] := by
  cases text with
  | nil => rfl
  | cons x rest => simp [cons_iff.mp h]

/-- A run that is not carried on is the longest one. -/
theorem takeWhile_append {run rest : List Char} (h : Stops isWanted rest)
    (hrun : run.all isWanted = true) : (run ++ rest).takeWhile isWanted = run := by
  rw [List.takeWhile_append_of_pos (by simpa using hrun), h.takeWhile_eq_nil, List.append_nil]

/-- Two runs that end where others begin are told apart by their texts. -/
theorem append_inj {run other rest more : List Char} (h : Stops isWanted rest)
    (h' : Stops isWanted more) (hrun : run.all isWanted = true) (hother : other.all isWanted = true)
    (heq : run ++ rest = other ++ more) : run = other ∧ rest = more := by
  have hsame : run = other := by
    rw [← h.takeWhile_append hrun, heq, h'.takeWhile_append hother]
  subst hsame
  exact ⟨rfl, List.append_cancel_left heq⟩

end Stops

theorem takeWhile_append_drop (isWanted : Char → Bool) (text : List Char) :
    text.takeWhile isWanted ++ text.drop (text.takeWhile isWanted).length = text :=
  List.prefix_iff_eq_append.mp (List.takeWhile_prefix isWanted)

end Textproto
