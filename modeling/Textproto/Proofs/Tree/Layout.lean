import Textproto.Proofs.Data.Runs
import Textproto.Tree.Cursor

namespace Textproto

/-! Layout as a language of its own, and what is left where it has been skipped. -/

/-- Blanks, line ends and finished comments. -/
inductive Layout : List Char → Prop
  | nil : Layout []
  | blank {x : Char} {rest : List Char} :
      Cursor.isBlank x = true → Layout rest → Layout (x :: rest)
  | comment {line rest : List Char} :
      '\n' ∉ line → Layout rest → Layout ('#' :: (line ++ '\n' :: rest))

/-- Layout at the end of a text, where a last comment need not be finished. -/
inductive Layout.Final : List Char → Prop
  | layout {text : List Char} : Layout text → Final text
  | comment {before line : List Char} :
      Layout before → '\n' ∉ line → Final (before ++ '#' :: line)

/-- Whether a text begins with layout. -/
def Layout.begins (text : List Char) : Bool :=
  text.head?.any fun x => x = '#' || Cursor.isBlank x

namespace Layout

theorem append {first second : List Char} (h : Layout first) (h' : Layout second) :
    Layout (first ++ second) := by
  induction h with
  | nil => exact h'
  | blank hx _ ih => exact .blank hx ih
  | @comment line rest hline _ ih =>
      rw [List.cons_append, List.append_assoc, List.cons_append]
      exact .comment hline ih

theorem append_final {first second : List Char} (h : Layout first) (h' : Final second) :
    Final (first ++ second) := by
  cases h' with
  | layout h' => exact .layout (h.append h')
  | comment h' hline =>
      rw [← List.append_assoc]
      exact .comment (h.append h') hline

end Layout

namespace Cursor

/-- A comment runs up to the end of its line. -/
theorem skipFrom_line {line : List Char} (hline : '\n' ∉ line) (p : Position)
    (rest : List Char) :
    ∃ q, skipFrom true p (line ++ '\n' :: rest) = skipFrom false q rest := by
  induction line generalizing p with
  | nil => exact ⟨p.after '\n', by simp [skipFrom]⟩
  | cons x line ih =>
      have hx : x ≠ '\n' := fun heq => hline (by simp [heq])
      obtain ⟨q, hq⟩ := ih (fun hmem => hline (by simp [hmem])) (p.after x)
      exact ⟨q, by simpa [skipFrom, hx] using hq⟩

theorem skipFrom_line_end {line : List Char} (hline : '\n' ∉ line) (p : Position) :
    (skipFrom true p line).rest = [] := by
  induction line generalizing p with
  | nil => rfl
  | cons x line ih =>
      have hx : x ≠ '\n' := fun heq => hline (by simp [heq])
      simpa [skipFrom, hx] using ih (fun hmem => hline (by simp [hmem])) (p.after x)

theorem skipFrom_layout {text : List Char} (h : Layout text) (p : Position)
    (rest : List Char) :
    ∃ q, skipFrom false p (text ++ rest) = skipFrom false q rest := by
  induction h generalizing p with
  | nil => exact ⟨p, rfl⟩
  | @blank x text hx _ ih =>
      have hhash : x ≠ '#' := by
        rintro rfl
        revert hx
        decide
      obtain ⟨q, hq⟩ := ih (p.after x)
      exact ⟨q, by simpa [skipFrom, hhash, hx] using hq⟩
  | @comment line text hline _ ih =>
      obtain ⟨q, hq⟩ := skipFrom_line hline (p.after '#') (text ++ rest)
      obtain ⟨r, hr⟩ := ih q
      exact ⟨r, by simpa [skipFrom] using hq.trans hr⟩

theorem skipFrom_of_begins_eq_false {text : List Char} (h : Layout.begins text = false)
    (p : Position) : skipFrom false p text = ⟨p, text⟩ := by
  cases text with
  | nil => rfl
  | cons x rest =>
      simp only [Layout.begins, List.head?_cons, Option.any_some, Bool.or_eq_false_iff,
        decide_eq_false_iff_not] at h
      simp [skipFrom, h.1, h.2]

/-- What is left begins no further layout. -/
theorem begins_skipFrom (inComment : Bool) (p : Position) (text : List Char) :
    Layout.begins (skipFrom inComment p text).rest = false := by
  induction text generalizing inComment p with
  | nil => rfl
  | cons x rest ih =>
      simp only [skipFrom]
      split
      · exact ih _ _
      · split
        · exact ih _ _
        · split
          · exact ih _ _
          · simp_all [Layout.begins]

/-- What was skipped is layout, or it ends the text. Inside a comment the rest of its line
comes first. -/
theorem skipFrom_split (inComment : Bool) (p : Position) (text : List Char) :
    ∃ read, text = read ++ (skipFrom inComment p text).rest ∧
      (if inComment then
        ('\n' ∉ read ∧ (skipFrom inComment p text).rest = []) ∨
          ∃ line more, '\n' ∉ line ∧ read = line ++ '\n' :: more ∧
            (Layout more ∨ (Layout.Final more ∧ (skipFrom inComment p text).rest = []))
      else Layout read ∨ (Layout.Final read ∧ (skipFrom inComment p text).rest = [])) := by
  -- By the text: a comment that begins in it ends with its line or with the text.
  induction text generalizing inComment p with
  | nil => exact ⟨[], rfl, by cases inComment <;> simp [skipFrom, Layout.nil]⟩
  | cons x rest ih =>
      cases inComment with
      | true =>
          by_cases hx : x = '\n'
          · subst hx
            obtain ⟨read, hread, hlayout⟩ := ih false (p.after '\n')
            refine ⟨'\n' :: read, by simpa [skipFrom] using hread, ?_⟩
            rw [if_pos rfl]
            exact .inr ⟨[], read, by simp, rfl, by simpa [skipFrom] using hlayout⟩
          · obtain ⟨read, hread, hlayout⟩ := ih true (p.after x)
            refine ⟨x :: read, by simpa [skipFrom, hx] using hread, ?_⟩
            rw [if_pos rfl] at hlayout ⊢
            rcases hlayout with ⟨hread, hend⟩ | ⟨line, more, hline, rfl, hmore⟩
            · exact .inl ⟨by simp [hread, Ne.symm hx], by simpa [skipFrom, hx] using hend⟩
            · exact .inr ⟨x :: line, more, by simp [hline, Ne.symm hx], rfl,
                by simpa [skipFrom, hx] using hmore⟩
      | false =>
          by_cases hhash : x = '#'
          · subst hhash
            obtain ⟨read, hread, hlayout⟩ := ih true (p.after '#')
            refine ⟨'#' :: read, by simpa [skipFrom] using hread, ?_⟩
            rw [if_pos rfl] at hlayout
            simp only [Bool.false_eq_true, if_false, skipFrom, if_true]
            rcases hlayout with ⟨hread, hend⟩ | ⟨line, more, hline, rfl, hmore | ⟨hmore, hend⟩⟩
            · exact .inr ⟨.comment .nil hread, hend⟩
            · exact .inl (.comment hline hmore)
            · refine .inr ⟨?_, hend⟩
              have := (Layout.comment hline .nil).append_final hmore
              simpa using this
          · by_cases hblank : isBlank x = true
            · obtain ⟨read, hread, hlayout⟩ := ih false (p.after x)
              refine ⟨x :: read, by simpa [skipFrom, hhash, hblank] using hread, ?_⟩
              simp only [Bool.false_eq_true, if_false, skipFrom, hhash, hblank, if_true]
                at hlayout ⊢
              rcases hlayout with hlayout | ⟨hlayout, hend⟩
              · exact .inl (.blank hblank hlayout)
              · exact .inr ⟨(Layout.blank hblank .nil).append_final hlayout, hend⟩
            · exact ⟨[], by simp [skipFrom, hhash, hblank], by simp [Layout.nil]⟩

theorem skipLayout_split (c : Cursor) :
    ∃ read, c.rest = read ++ c.skipLayout.rest ∧
      (Layout read ∨ (Layout.Final read ∧ c.skipLayout.rest = [])) := by
  simpa [skipLayout] using skipFrom_split false c.position c.rest

theorem begins_skipLayout (c : Cursor) : Layout.begins c.skipLayout.rest = false :=
  begins_skipFrom false c.position c.rest

/-- Layout before a text that begins with none is skipped, and nothing else. -/
theorem skipLayout_rest {c : Cursor} {text rest : List Char} (hc : c.rest = text ++ rest)
    (h : Layout text) (hrest : Layout.begins rest = false) : c.skipLayout.rest = rest := by
  obtain ⟨q, hq⟩ := skipFrom_layout h c.position rest
  rw [skipLayout, hc, hq, skipFrom_of_begins_eq_false hrest]

theorem skipLayout_rest_final {c : Cursor} (h : Layout.Final c.rest) :
    c.skipLayout.rest = [] := by
  cases hc : c.rest with
  | nil => rw [skipLayout, hc]; rfl
  | cons x chars =>
      rw [hc] at h
      generalize x :: chars = text at h hc
      cases h with
      | layout h =>
          exact skipLayout_rest (by rw [hc, List.append_nil]) h rfl
      | @comment before line h hline =>
          obtain ⟨q, hq⟩ := skipFrom_layout h c.position ('#' :: line)
          rw [skipLayout, hc, hq]
          simpa [skipFrom] using skipFrom_line_end hline (q.after '#')

theorem advance_append (p : Position) (read rest : List Char) :
    (⟨p, read ++ rest⟩ : Cursor).advance read.length = ⟨read.foldl Position.after p, rest⟩ := by
  induction read generalizing p with
  | nil => rfl
  | cons x read ih => exact ih (p.after x)

/-- How far one cursor is behind another, is told by the text between them. -/
theorem Reaches.eq_advance {c d : Cursor} {read : List Char} (h : c.Reaches d)
    (hc : c.rest = read ++ d.rest) : d = c.advance read.length := by
  obtain ⟨other, hrest, hposition⟩ := h
  obtain rfl : other = read := List.append_cancel_right (hrest.symm.trans hc)
  obtain ⟨p, chars⟩ := c
  obtain ⟨q, rest⟩ := d
  simp only at hc hposition
  subst hc hposition
  exact (advance_append p other rest).symm

theorem advance_advance (n m : Nat) (c : Cursor) : (c.advance n).advance m = c.advance (n + m) := by
  fun_induction advance n c with
  | case1 c => rw [Nat.zero_add]
  | case2 n p => cases m <;> rfl
  | case3 n p x rest ih => rw [ih, Nat.succ_add, advance]

theorem skipLayout_eq_advance {c : Cursor} {text rest : List Char} (hc : c.rest = text ++ rest)
    (h : Layout text) (hrest : Layout.begins rest = false) :
    c.skipLayout = c.advance text.length := by
  refine c.reaches_skipLayout.eq_advance ?_
  rw [skipLayout_rest hc h hrest, hc]

/-- Layout that does not end the text is finished. -/
theorem exists_gap {c : Cursor} (h : c.skipLayout.rest ≠ []) :
    ∃ gap, Layout gap ∧ c.rest = gap ++ c.skipLayout.rest ∧
      c.skipLayout = c.advance gap.length := by
  obtain ⟨gap, hc, hgap | ⟨_, hend⟩⟩ := c.skipLayout_split
  · exact ⟨gap, hgap, hc, c.reaches_skipLayout.eq_advance hc⟩
  · exact absurd hend h

@[simp] theorem skipLayout_skipLayout (c : Cursor) : c.skipLayout.skipLayout = c.skipLayout :=
  skipFrom_of_begins_eq_false c.begins_skipLayout c.skipLayout.position

/-- What layout is followed by, is told by what is left behind all of it. -/
theorem stops_skipLayout_iff {isWanted : Char → Bool} {c : Cursor}
    (hwanted : ∀ x, isWanted x = true → Layout.begins [x] = false) :
    Stops isWanted c.skipLayout.rest ↔
      ∀ gap rest, Layout gap → c.rest = gap ++ rest → Stops isWanted rest := by
  constructor
  · intro h gap rest hgap hc
    cases rest with
    | nil => exact .nil
    | cons x more =>
        refine Stops.cons_iff.mpr (Bool.eq_false_iff.mpr fun hx => ?_)
        have hbegins : Layout.begins (x :: more) = false := hwanted x hx
        rw [skipLayout_rest hc hgap hbegins, Stops.cons_iff, hx] at h
        cases h
  · intro h
    obtain ⟨read, hc, hread | ⟨_, hend⟩⟩ := c.skipLayout_split
    · exact h read _ hread hc
    · rw [hend]
      exact .nil

end Cursor

end Textproto
