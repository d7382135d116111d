import Mathlib
import Textproto.Schema.Field

namespace Textproto

/-! Names in snake case, and the camel case that fields go by. -/

def isSnakeChar (c : Char) : Bool :=
  c.isLower || c.isDigit || c = '_'

/-- Lower-case letters, digits and underscores, a letter first. -/
structure IsSnakeCase (name : List Char) : Prop where
  first : ∃ c rest, name = c :: rest ∧ c.isLower = true
  chars : name.all isSnakeChar = true

/-- A name without its underscores, where the letter right behind one is a capital. `behind` tells
that an underscore has just been dropped. -/
def dropUnderscores (behind : Bool) : List Char → List Char
  | [] => []
  | c :: rest =>
      if c = '_' then dropUnderscores true rest
      else (if behind then c.toUpper else c) :: dropUnderscores false rest

theorem not_isUpper_of_isSnakeChar {c : Char} (h : isSnakeChar c = true) : c.isUpper = false := by
  simp only [isSnakeChar, Bool.or_eq_true, decide_eq_true_eq] at h
  rcases h with (hlower | hdigit) | rfl
  · exact Bool.not_eq_true _ ▸ Char.not_isUpper_of_isLower hlower
  · simp only [Char.isDigit, Char.isUpper, UInt32.le_iff_toNat_le, ge_iff_le] at hdigit ⊢
    simp at hdigit ⊢
    omega
  · rfl

theorem toLower_of_isSnakeChar {c : Char} (h : isSnakeChar c = true) : c.toLower = c :=
  Char.toLower_eq_of_not_isUpper (by simp [not_isUpper_of_isSnakeChar h])

namespace Camel

variable {name word : List Char} {case : Case}

/-! What stands between the underscores of a name. -/

theorem splitOn_underscore (rest : List Char) :
    ('_' :: rest).splitOn '_' = [] :: rest.splitOn '_' := by
  rw [List.splitOn_cons_eq_if_modifyHead, if_pos (beq_self_eq_true _)]

theorem splitOn_other {c : Char} (hc : c ≠ '_') (rest : List Char) :
    (c :: rest).splitOn '_' = (rest.splitOn '_').modifyHead (c :: ·) := by
  rw [List.splitOn_cons_eq_if_modifyHead, if_neg (by simpa using hc)]

theorem map_toLower_of_mem_splitOn (hchars : name.all isSnakeChar = true) {piece : List Char}
    (h : piece ∈ name.splitOn '_') : piece.map Char.toLower = piece := by
  induction name generalizing piece with
  | nil =>
      obtain rfl := List.mem_singleton.mp h
      rfl
  | cons c rest ih =>
      rw [List.all_cons, Bool.and_eq_true] at hchars
      by_cases hc : c = '_'
      · subst hc
        rw [splitOn_underscore, List.mem_cons] at h
        rcases h with rfl | h
        · rfl
        · exact ih hchars.2 h
      · obtain ⟨first, more, hsplit⟩ := List.exists_cons_of_ne_nil (List.splitOn_ne_nil '_' rest)
        rw [splitOn_other hc, hsplit, List.modifyHead_cons, List.mem_cons] at h
        rcases h with rfl | h
        · rw [List.map_cons, toLower_of_isSnakeChar hchars.1,
            ih hchars.2 (hsplit ▸ List.mem_cons_self)]
        · exact ih hchars.2 (hsplit ▸ List.mem_cons_of_mem first h)

/-- The words of a name in snake case are what stands between its underscores. A word that has been
begun goes on with the rest of the name. -/
theorem wordsFrom_eq_splitOn (hchars : name.all isSnakeChar = true)
    (hword : word = [] ∨ ∃ c rest, name = c :: rest ∧ c ≠ '_') :
    wordsFrom word case name =
      ((name.splitOn '_').modifyHead (word.reverse ++ ·)).filter (· ≠ []) := by
  fun_induction wordsFrom word case name with
  | case1 word case =>
      obtain rfl | ⟨_, _, ⟨⟩, _⟩ := hword
      rfl
  | case2 word case =>
      obtain rfl | ⟨_, _, ⟨⟩, hplain⟩ := hword
      · rfl
      · exact absurd rfl hplain
  | case3 word case c hc => simp [splitOn_other hc]
  | case4 word case next rest ih =>
      rw [List.all_cons, Bool.and_eq_true] at hchars
      obtain rfl | ⟨_, _, ⟨⟩, hplain⟩ := hword
      · rw [ih hchars.2 (.inl rfl), splitOn_underscore]
        cases (next :: rest).splitOn '_' <;> simp
      · exact absurd rfl hplain
  | case5 word case c next rest hc hends ih =>
      rw [List.all_cons, List.all_cons, Bool.and_eq_true, Bool.and_eq_true] at hchars
      have hupper := not_isUpper_of_isSnakeChar hchars.2.1
      obtain rfl : next = '_' := by simpa [hupper] using hends
      rw [ih (by simp [hchars.2]) (.inl rfl), splitOn_other hc, splitOn_underscore]
      simp
  | case6 word case c next rest hc hends hupper ih =>
      rw [List.all_cons, Bool.and_eq_true] at hchars
      simp [not_isUpper_of_isSnakeChar hchars.1] at hupper
  | case7 word case c next rest hc hends hupper ih =>
      rw [List.all_cons, Bool.and_eq_true] at hchars
      have hplain : next ≠ '_' := by
        rintro rfl
        simp at hends
      rw [ih hchars.2 (.inr ⟨next, rest, rfl, hplain⟩), splitOn_other hc,
        List.modifyHead_modifyHead]
      congr 2
      funext piece
      simp

theorem dropUnderscores_eq (hchars : name.all isSnakeChar = true) {first : List Char}
    {more : List (List Char)} (hsplit : name.splitOn '_' = first :: more) (behind : Bool) :
    dropUnderscores behind name =
      (if behind then capitalize first else first) ++ more.flatMap capitalize := by
  induction name generalizing first more behind with
  | nil =>
      obtain ⟨rfl, rfl⟩ := List.cons.inj hsplit
      cases behind <;> rfl
  | cons c rest ih =>
      rw [List.all_cons, Bool.and_eq_true] at hchars
      obtain ⟨next, others, hrest⟩ := List.exists_cons_of_ne_nil (List.splitOn_ne_nil '_' rest)
      by_cases hc : c = '_'
      · subst hc
        rw [splitOn_underscore] at hsplit
        obtain ⟨rfl, rfl⟩ := List.cons.inj hsplit
        rw [dropUnderscores, if_pos rfl, ih hchars.2 hrest, if_pos rfl, hrest, List.flatMap_cons]
        cases behind <;> rfl
      · rw [splitOn_other hc, hrest, List.modifyHead_cons] at hsplit
        obtain ⟨rfl, rfl⟩ := List.cons.inj hsplit
        have hlower := map_toLower_of_mem_splitOn hchars.2 (hrest ▸ List.mem_cons_self)
        rw [dropUnderscores, if_neg hc, ih hchars.2 hrest]
        cases behind <;> simp [capitalize, hlower]

theorem flatMap_capitalize_filter (pieces : List (List Char)) :
    (pieces.filter (· ≠ [])).flatMap capitalize = pieces.flatMap capitalize := by
  induction pieces with
  | nil => rfl
  | cons piece rest ih =>
      by_cases hpiece : piece = []
      · rw [List.filter_cons_of_neg (by simpa using hpiece), ih, hpiece]
        rfl
      · rw [List.filter_cons_of_pos (by simpa using hpiece), List.flatMap_cons, ih,
          List.flatMap_cons]

end Camel

/-- A field in snake case goes by its name without the underscores, each letter right behind one
being a capital. -/
theorem Field.jsonName_of_isSnakeCase (field : Field) (h : IsSnakeCase field.name.toList) :
    field.jsonName = String.ofList (dropUnderscores false field.name.toList) := by
  obtain ⟨first, more, hsplit⟩ :=
    List.exists_cons_of_ne_nil (List.splitOn_ne_nil '_' field.name.toList)
  -- The name begins with a letter, so that its first word is one that is kept.
  have hfirst : first ≠ [] := by
    obtain ⟨c, rest, hname, hlower⟩ := h.first
    have hc : c ≠ '_' := by
      rintro rfl
      cases hlower
    obtain ⟨next, others, hrest⟩ := List.exists_cons_of_ne_nil (List.splitOn_ne_nil '_' rest)
    rw [hname, Camel.splitOn_other hc, hrest, List.modifyHead_cons] at hsplit
    rw [← (List.cons.inj hsplit).1]
    exact List.cons_ne_nil c next
  have hwords : Camel.words field.name.toList = first :: more.filter (· ≠ []) := by
    rw [Camel.words, Camel.wordsFrom_eq_splitOn h.chars (.inl rfl), hsplit]
    simp [hfirst]
  have hlower := Camel.map_toLower_of_mem_splitOn h.chars (hsplit ▸ List.mem_cons_self)
  rw [Field.jsonName, Camel.lowerCamel, hwords, Camel.ofWords, hlower,
    Camel.flatMap_capitalize_filter, Camel.dropUnderscores_eq h.chars hsplit, if_neg nofun]

/-- Digits behind underscores stay what they are, and underscores at the end vanish. -/
theorem Field.jsonName_of_isSnakeCase_digits :
    IsSnakeCase (Field.single "map_2x__key_1_" 1 .string).name.toList ∧
      (Field.single "map_2x__key_1_" 1 .string).jsonName = "map2xKey1" := by
  have hsnake : IsSnakeCase (Field.single "map_2x__key_1_" 1 .string).name.toList :=
    ⟨⟨'m', _, rfl, by decide⟩, by decide⟩
  exact ⟨hsnake, (Field.jsonName_of_isSnakeCase _ hsnake).trans (by decide)⟩

end Textproto
