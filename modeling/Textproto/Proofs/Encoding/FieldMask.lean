import Mathlib
import Textproto.Proofs.Encoding.Lists

namespace Textproto

/-! The text of a field mask, and the paths that are told from it. -/

/-- A name in camel case as the path that it stands for: a capital becomes an underscore and its
lower case. -/
def snakePath (name : List Char) : List Char :=
  name.flatMap fun c => if c.isUpper then ['_', c.toLower] else [c]

/-- A name without underscores that stands for a path. -/
structure Names (name path : List Char) : Prop where
  plain : '_' ∉ name
  path_eq : snakePath name = path

/-- The paths that a text stands for: those of the names between its commas. The empty text stands
for none. -/
def pathsOfText (text : List Char) : List (List Char) :=
  if text = [] then [] else (text.splitOn ',').map snakePath

@[simp] theorem snakePath_nil : snakePath [] = [] := rfl

theorem snakePath_upper {c : Char} (hc : c.isUpper = true) (name : List Char) :
    snakePath (c :: name) = '_' :: c.toLower :: snakePath name := by
  simp [snakePath, hc]

theorem snakePath_other {c : Char} (hc : c.isUpper = false) (name : List Char) :
    snakePath (c :: name) = c :: snakePath name := by
  simp [snakePath, hc]

theorem snakePath_eq_nil_iff {name : List Char} : snakePath name = [] ↔ name = [] := by
  cases name with
  | nil => simp
  | cons c name =>
      cases hc : c.isUpper with
      | true => simp [snakePath_upper hc]
      | false => simp [snakePath_other hc]

namespace Encoding

theorem camelPath?_lower {c : Char} (hc : c.isLower = true) (path : List Char) :
    camelPath? ('_' :: c :: path) = (camelPath? path).map (c.toUpper :: ·) := by
  rw [camelPath?, if_pos hc]

theorem camelPath?_other {c : Char} (hmark : c ≠ '_') (hc : c.isUpper = false)
    (path : List Char) : camelPath? (c :: path) = (camelPath? path).map (c :: ·) := by
  rw [camelPath?]
  · simp [hmark, hc]
  · intro next rest heq _
    exact hmark heq

/-- A path that is converted comes back from its name. -/
theorem names_of_camelPath? {path name : List Char} (h : camelPath? path = some name) :
    Names name path := by
  induction path using camelPath?.induct generalizing name with
  | case1 =>
      cases h
      exact ⟨List.not_mem_nil, rfl⟩
  | case2 next rest hlower ih =>
      rw [camelPath?_lower hlower, Option.map_eq_some_iff] at h
      obtain ⟨found, hfound, rfl⟩ := h
      obtain ⟨hplain, rfl⟩ := ih hfound
      have hupper : next.toUpper.isUpper = true := by
        rw [Char.isUpper_toUpper_eq_isAlpha, Char.isAlpha, hlower, Bool.or_true]
      refine ⟨?_, ?_⟩
      · rw [List.mem_cons, not_or]
        refine ⟨?_, hplain⟩
        intro heq
        rw [← heq] at hupper
        cases hupper
      · rw [snakePath_upper hupper, Char.toLower_toUpper_eq_toLower,
          Char.toLower_eq_of_not_isUpper (Bool.not_eq_true _ ▸ not_upper_of_lower hlower)]
  | case3 next rest hlower =>
      rw [camelPath?, if_neg hlower] at h
      cases h
  | case4 c rest hshort hc =>
      rw [camelPath?, if_pos hc] at h
      · cases h
      · exact hshort
  | case5 c rest hshort hc ih =>
      rw [Bool.or_eq_true, decide_eq_true_eq, not_or, Bool.not_eq_true] at hc
      rw [camelPath?_other hc.1 hc.2, Option.map_eq_some_iff] at h
      obtain ⟨found, hfound, rfl⟩ := h
      obtain ⟨hplain, rfl⟩ := ih hfound
      refine ⟨?_, snakePath_other hc.2 found⟩
      rw [List.mem_cons, not_or]
      exact ⟨Ne.symm hc.1, hplain⟩

/-- The path of a name without underscores is converted to that name. -/
theorem camelPath?_snakePath {name : List Char} (h : '_' ∉ name) :
    camelPath? (snakePath name) = some name := by
  induction name with
  | nil => rfl
  | cons c name ih =>
      rw [List.mem_cons, not_or] at h
      have hname := ih h.2
      cases hc : c.isUpper with
      | true =>
          have hlower : c.toLower.isLower = true := by
            rw [Char.isLower_toLower_eq_isAlpha, Char.isAlpha, hc, Bool.true_or]
          rw [snakePath_upper hc, camelPath?_lower hlower, hname, Option.map_some,
            Char.toUpper_toLower_eq_toUpper,
            Char.toUpper_eq_of_not_isLower (Char.not_isLower_of_isUpper hc)]
      | false =>
          rw [snakePath_other hc, camelPath?_other (Ne.symm h.1) hc, hname, Option.map_some]

theorem camelPath?_eq_some_iff {path name : List Char} :
    camelPath? path = some name ↔ Names name path := by
  constructor
  · exact names_of_camelPath?
  · rintro ⟨hplain, rfl⟩
    exact camelPath?_snakePath hplain

theorem irreversible_iff {path : List Char} : Irreversible path ↔ ¬∃ name, Names name path := by
  rw [← camelPath?_eq_none_iff, Option.eq_none_iff_forall_ne_some, not_exists]
  exact forall_congr' fun name => not_congr camelPath?_eq_some_iff

end Encoding

theorem Names.unique {name other path : List Char} (h : Names name path) (h' : Names other path) :
    name = other := by
  have hname := Encoding.camelPath?_eq_some_iff.mpr h
  rw [Encoding.camelPath?_eq_some_iff.mpr h'] at hname
  exact (Option.some.inj hname).symm

/-! Names joined by commas. -/

/-- A name is cut at its commas as the path that it stands for is. -/
theorem map_snakePath_splitOn (name : List Char) :
    (name.splitOn ',').map snakePath = (snakePath name).splitOn ',' := by
  induction name with
  | nil => rfl
  | cons c name ih =>
      obtain ⟨first, rest, hsplit⟩ := List.exists_cons_of_ne_nil (List.splitOn_ne_nil ',' name)
      rw [hsplit, List.map_cons] at ih
      rw [List.splitOn_cons_eq_if_modifyHead]
      by_cases hcomma : c = ','
      · subst hcomma
        rw [snakePath_other rfl, List.splitOn_cons_eq_if_modifyHead, ← ih, hsplit]
        rfl
      · rw [if_neg (by simpa using hcomma), hsplit, List.modifyHead_cons, List.map_cons]
        cases hc : c.isUpper with
        | true =>
            have hlower : c.toLower ≠ ',' := by
              intro heq
              have halpha := Char.isAlpha_toLower_eq_isAlpha c
              rw [heq, Char.isAlpha, Char.isAlpha, hc] at halpha
              cases halpha
            rw [snakePath_upper hc, snakePath_upper hc, List.splitOn_cons_eq_if_modifyHead,
              if_neg (by decide), List.splitOn_cons_eq_if_modifyHead,
              if_neg (by simpa using hlower), ← ih]
            rfl
        | false =>
            rw [snakePath_other hc, snakePath_other hc, List.splitOn_cons_eq_if_modifyHead,
              if_neg (by simpa using hcomma), ← ih]
            rfl

theorem splitOn_intercalate_eq_flatMap {names : List (List Char)} (h : names ≠ []) :
    (List.intercalate [','] names).splitOn ',' = names.flatMap (·.splitOn ',') := by
  induction names with
  | nil => contradiction
  | cons name rest ih =>
      cases rest with
      | nil => rw [List.intercalate_singleton, List.flatMap_cons, List.flatMap_nil, List.append_nil]
      | cons next rest =>
          rw [List.flatMap_cons, List.intercalate_cons_cons, List.append_assoc,
            List.singleton_append, List.splitOn_append_cons_self, ih (List.cons_ne_nil next rest)]

theorem intercalate_eq_nil_iff {names : List (List Char)} :
    List.intercalate [','] names = [] ↔ names = [] ∨ names = [[]] := by
  match names with
  | [] => simp
  | [name] => simp
  | name :: next :: rest => simp [List.intercalate_cons_cons]

theorem comma_not_mem_of_mem_splitOn {name piece : List Char} (h : piece ∈ name.splitOn ',') :
    ',' ∉ piece := by
  induction name generalizing piece with
  | nil =>
      rw [List.splitOn_nil, List.mem_singleton] at h
      rw [h]
      exact List.not_mem_nil
  | cons c name ih =>
      obtain ⟨first, rest, hsplit⟩ := List.exists_cons_of_ne_nil (List.splitOn_ne_nil ',' name)
      have hfirst := ih (hsplit ▸ List.mem_cons_self)
      have hrest : ∀ other ∈ rest, ',' ∉ other := fun other hother =>
        ih (hsplit ▸ List.mem_cons_of_mem first hother)
      rw [List.splitOn_cons_eq_if_modifyHead, hsplit] at h
      by_cases hcomma : c = ','
      · rw [if_pos (by simpa using hcomma), List.mem_cons, List.mem_cons] at h
        rcases h with rfl | rfl | h
        · exact List.not_mem_nil
        · exact hfirst
        · exact hrest piece h
      · rw [if_neg (by simpa using hcomma), List.modifyHead_cons, List.mem_cons] at h
        rcases h with rfl | h
        · rw [List.mem_cons, not_or]
          exact ⟨Ne.symm hcomma, hfirst⟩
        · exact hrest piece h

/-- Paths are their own pieces where none of them has a comma. -/
theorem flatMap_splitOn_eq_iff {paths : List (List Char)} :
    paths.flatMap (·.splitOn ',') = paths ↔ ∀ path ∈ paths, ',' ∉ path := by
  constructor
  · intro h path hpath
    rw [← h, List.mem_flatMap] at hpath
    obtain ⟨other, _, hpiece⟩ := hpath
    exact comma_not_mem_of_mem_splitOn hpiece
  · intro h
    induction paths with
    | nil => rfl
    | cons path rest ih =>
        rw [List.forall_mem_cons] at h
        rw [List.flatMap_cons, List.splitOn_eq_singleton h.1, ih h.2, List.singleton_append]

/-- The paths that are told from joined names: the pieces of those that the names stand for. An
empty name by itself is told from nothing. -/
theorem pathsOfText_intercalate (names : List (List Char)) :
    pathsOfText (List.intercalate [','] names) =
      if names.map snakePath = [[]] then []
      else (names.map snakePath).flatMap (·.splitOn ',') := by
  have hempty : names.map snakePath = [[]] ↔ names = [[]] := by
    rw [List.map_eq_singleton_iff]
    simp [snakePath_eq_nil_iff]
  by_cases hnone : List.intercalate [','] names = []
  · rw [pathsOfText, if_pos hnone]
    rcases intercalate_eq_nil_iff.mp hnone with rfl | rfl
    · rfl
    · rfl
  · rw [intercalate_eq_nil_iff, not_or] at hnone
    rw [pathsOfText, if_neg (intercalate_eq_nil_iff.not.mpr (not_or.mpr hnone)),
      if_neg (hempty.not.mpr hnone.2), splitOn_intercalate_eq_flatMap hnone.1, List.map_flatMap,
      List.flatMap_map]
    simp only [map_snakePath_splitOn]

namespace Encoding

theorem camelPaths_strings_iff {paths names : List String} :
    camelPaths (paths.map .string) = .ok names ↔
      List.Forall₂ (fun path name => Names name.toList path.toList) paths names := by
  constructor
  · intro h
    have hstrings : ∀ value ∈ paths.map Value.string, ∃ path, value = .string path := by
      intro value hvalue
      obtain ⟨path, _, rfl⟩ := List.mem_map.mp hvalue
      exact ⟨path, rfl⟩
    refine (List.forall₂_map_left_iff.mp (pathsOf_camelPaths hstrings h)).imp ?_
    rintro path name ⟨_, ⟨⟩, hcamel⟩
    exact names_of_camelPath? hcamel
  · intro h
    induction h with
    | nil => rfl
    | @cons path name paths names hname _ ih =>
        rw [List.map_cons, camelPaths]
        simp only [Value.string?, Option.getD_some, camelPath?_eq_some_iff.mpr hname, ih]
        rw [Except.map, String.ofList_toList]

/-- The paths of a mask are written as the names that stand for them, with commas between. -/
theorem fieldMaskJson_eq_ok_iff {paths : List String} {json : Json} :
    fieldMaskJson (paths.map .string) = .ok json ↔
      ∃ names, List.Forall₂ (fun path name => Names name.toList path.toList) paths names ∧
        json = .string (",".intercalate names) := by
  rw [fieldMaskJson, Except.map_eq_ok_iff]
  exact exists_congr fun names => and_congr camelPaths_strings_iff eq_comm

theorem map_snakePath_of_names {paths names : List String}
    (h : List.Forall₂ (fun path name => Names name.toList path.toList) paths names) :
    (names.map String.toList).map snakePath = paths.map String.toList := by
  induction h with
  | nil => rfl
  | cons hname _ ih => rw [List.map_cons, List.map_cons, List.map_cons, hname.path_eq, ih]

theorem exists_names_iff {paths : List String} :
    (∃ names : List String,
        List.Forall₂ (fun path name => Names name.toList path.toList) paths names) ↔
      ∀ path ∈ paths, ∃ name, Names name path.toList := by
  induction paths with
  | nil => simp
  | cons path rest ih =>
      rw [List.forall_mem_cons, ← ih]
      constructor
      · rintro ⟨_, h⟩
        cases h with
        | cons hname hrest => exact ⟨⟨_, hname⟩, _, hrest⟩
      · rintro ⟨⟨name, hname⟩, names, hrest⟩
        exact ⟨String.ofList name :: names, .cons (by rwa [String.toList_ofList]) hrest⟩

theorem fieldMaskJson_single_eq_ok_iff {path : String} {json : Json} :
    fieldMaskJson [.string path] = .ok json ↔
      ∃ name : String, json = .string name ∧ Names name.toList path.toList := by
  rw [← List.map_singleton, fieldMaskJson_eq_ok_iff]
  constructor
  · rintro ⟨_, h, rfl⟩
    cases h with
    | cons hname hrest =>
        cases hrest
        exact ⟨_, by rw [String.intercalate_singleton], hname⟩
  · rintro ⟨name, rfl, hname⟩
    exact ⟨[name], .cons hname .nil, by rw [String.intercalate_singleton]⟩

theorem fieldMaskJson_single_eq_error_iff {path : String} {error : EncodeError} :
    fieldMaskJson [.string path] = .error error ↔
      (¬∃ name, Names name path.toList) ∧
        error = ⟨Bundled.fieldMask, .irreversiblePath path⟩ := by
  rw [← irreversible_iff, ← camelPath?_eq_none_iff, fieldMaskJson, camelPaths]
  simp only [Value.string?, Option.getD_some]
  cases hcamel : camelPath? path.toList with
  | none => simp [Except.map, eq_comm]
  | some name => simp [Except.map, camelPaths]

/-- A path by itself is converted to the one name without underscores that stands for it, and
refused where there is none. Such names and the paths that are converted correspond one to one. -/
theorem fieldMaskJson_path :
    (∀ (path : String) (json : Json), fieldMaskJson [.string path] = .ok json ↔
      ∃ name : String, json = .string name ∧ Names name.toList path.toList ∧
        ∀ other, Names other path.toList → other = name.toList) ∧
    (∀ (path : String) (error : EncodeError), fieldMaskJson [.string path] = .error error ↔
      (¬∃ name, Names name path.toList) ∧
        error = ⟨Bundled.fieldMask, .irreversiblePath path⟩) ∧
    Set.BijOn snakePath {name | '_' ∉ name}
      {path | ∃ json, fieldMaskJson [.string (String.ofList path)] = .ok json} := by
  refine ⟨?_, fun _ _ => fieldMaskJson_single_eq_error_iff, ?_, ?_, ?_⟩
  · intro path json
    rw [fieldMaskJson_single_eq_ok_iff]
    constructor
    · rintro ⟨name, rfl, hname⟩
      exact ⟨name, rfl, hname, fun other hother => hother.unique hname⟩
    · rintro ⟨name, rfl, hname, _⟩
      exact ⟨name, rfl, hname⟩
  · intro name hplain
    refine ⟨.string (String.ofList name), fieldMaskJson_single_eq_ok_iff.mpr ⟨_, rfl, ?_⟩⟩
    rw [String.toList_ofList, String.toList_ofList]
    exact ⟨hplain, rfl⟩
  · intro name hname other hother heq
    exact Names.unique ⟨hname, rfl⟩ ⟨hother, heq.symm⟩
  · rintro path ⟨json, hjson⟩
    obtain ⟨name, _, hname⟩ := fieldMaskJson_single_eq_ok_iff.mp hjson
    rw [String.toList_ofList] at hname
    exact ⟨name.toList, hname.plain, hname.path_eq⟩

/-- Paths are written if each of them has a name. The text tells the pieces between their commas,
and nothing for a mask of one empty path: so it tells the paths of all other masks without
commas. -/
theorem fieldMaskJson_paths (paths : List String) :
    ((∃ json, fieldMaskJson (paths.map .string) = .ok json) ↔
      ∀ path ∈ paths, ∃ name, Names name path.toList) ∧
    ∀ json, fieldMaskJson (paths.map .string) = .ok json → ∃ text : String, json = .string text ∧
      pathsOfText text.toList =
        (if paths = [""] then [] else paths.flatMap (·.toList.splitOn ',')) ∧
      (pathsOfText text.toList = paths.map String.toList ↔
        paths ≠ [""] ∧ ∀ path ∈ paths, ',' ∉ path.toList) := by
  refine ⟨?_, ?_⟩
  · simp only [fieldMaskJson_eq_ok_iff, ← exists_names_iff]
    constructor
    · rintro ⟨_, names, hnames, _⟩
      exact ⟨names, hnames⟩
    · rintro ⟨names, hnames⟩
      exact ⟨_, names, hnames, rfl⟩
  · intro json hjson
    obtain ⟨names, hnames, rfl⟩ := fieldMaskJson_eq_ok_iff.mp hjson
    have hpaths := map_snakePath_of_names hnames
    -- One empty path has an empty text, as no paths have.
    have hempty : paths.map String.toList = [[]] ↔ paths = [""] := by
      rw [List.map_eq_singleton_iff]
      simp
    have htext : pathsOfText (",".intercalate names).toList =
        if paths = [""] then [] else paths.flatMap (·.toList.splitOn ',') := by
      rw [String.toList_intercalate, show ",".toList = [','] from rfl, pathsOfText_intercalate,
        hpaths, List.flatMap_map]
      simp only [hempty]
    refine ⟨_, rfl, htext, ?_⟩
    rw [htext]
    split
    next hsingle => simp [hsingle]
    next hsingle =>
      rw [← List.flatMap_map, flatMap_splitOn_eq_iff]
      simp [hsingle]

/-- A comma of a path is not told from one between two. -/
theorem fieldMaskJson_paths_comma : ∃ text : String,
    fieldMaskJson [.string "a,b"] = .ok (.string text) ∧
      pathsOfText text.toList = [['a'], ['b']] := by
  have hjson : fieldMaskJson (["a,b"].map .string) = .ok (.string "a,b") := by
    rfl
  obtain ⟨_, htext, hpaths, _⟩ := (fieldMaskJson_paths ["a,b"]).2 _ hjson
  cases htext
  exact ⟨"a,b", hjson, hpaths.trans (by decide)⟩

end Encoding

end Textproto
