import Textproto.Conversion.FileSystem
import Textproto.Proofs.Data.Entries

namespace Textproto

/-! Where paths lead, and what writing a file leaves alone. -/

namespace Path

theorem cut_of_not_mem {mark : Char} {text : List Char} (h : mark ∉ text) :
    cut mark text = [text] := by
  induction text with
  | nil => rfl
  | cons c rest ih =>
      rw [List.mem_cons, not_or] at h
      rw [cut, if_neg (Ne.symm h.1), ih h.2]

theorem cut_ne_nil (mark : Char) (text : List Char) : cut mark text ≠ [] := by
  cases text with
  | nil => exact nofun
  | cons c rest =>
      rw [cut]
      split
      · exact nofun
      · cases cut mark rest <;> exact nofun

/-- What follows a mark is cut on its own. -/
theorem cut_append (mark : Char) (lead rest : List Char) :
    cut mark (lead ++ mark :: rest) = cut mark lead ++ cut mark rest := by
  induction lead with
  | nil => simp [cut]
  | cons c lead ih =>
      by_cases hc : c = mark
      · simp [cut, hc, ih]
      · simp only [List.cons_append, cut, if_neg hc, ih]
        cases hlead : cut mark lead with
        | nil => exact absurd hlead (cut_ne_nil mark lead)
        | cons first more => rfl

theorem steps_of_append {path file : String} (lead : List Char)
    (hpath : path.toList = lead ++ '/' :: file.toList) (hmark : '/' ∉ file.toList)
    (hne : file ≠ "") :
    steps path = ((cut '/' lead).map String.ofList).filter (· ≠ "") ++ [file] := by
  simp only [steps, hpath, cut_append, cut_of_not_mem hmark, List.map_append, List.map_cons,
    List.map_nil, String.ofList_toList, List.getLast?_append, List.getLast?_singleton,
    Option.some_or, List.dropLast_concat]

/-- A file in a directory is reached over steps that are those of the directory. -/
theorem steps_join (directory : String) :
    ∃ base, ∀ file : String, '/' ∉ file.toList → file ≠ "" →
      steps (join directory file) = base ++ [file] := by
  have hrelative {file : String} (hmark : '/' ∉ file.toList) : file.toList.head? ≠ some '/' :=
    fun hhead => hmark (List.mem_of_mem_head? hhead)
  by_cases hempty : directory = ""
  · refine ⟨[], fun file hmark hne => ?_⟩
    simp only [join, if_neg (hrelative hmark), if_pos hempty, steps, cut_of_not_mem hmark,
      List.map_cons, List.map_nil, String.ofList_toList, List.getLast?_singleton,
      List.dropLast_singleton, List.filter_nil]
  · by_cases hslash : directory.toList.getLast? = some '/'
    · obtain ⟨lead, hlead⟩ := List.getLast?_eq_some_iff.mp hslash
      refine ⟨_, fun file hmark hne => steps_of_append lead ?_ hmark hne⟩
      rw [join, if_neg (hrelative hmark), if_neg hempty, if_pos hslash, String.toList_append,
        hlead, List.append_assoc]
      rfl
    · refine ⟨_, fun file hmark hne => steps_of_append directory.toList ?_ hmark hne⟩
      rw [join, if_neg (hrelative hmark), if_neg hempty, if_neg hslash, String.toList_append,
        String.toList_append, List.append_assoc]
      rfl

/-- The mark that an absolute path begins with, or one relative to a `.`. -/
def rootOf : List String → List String
  | "." :: _ => ["."]
  | "" :: _ :: _ => ["/"]
  | _ => []

def segments (path : String) : List String :=
  (cut '/' path.toList).map String.ofList

theorem components_eq (path : String) :
    components path =
      rootOf (segments path) ++ (segments path).filter fun part => part ≠ "" && part ≠ "." := by
  unfold components segments rootOf
  simp only
  generalize (cut '/' path.toList).map String.ofList = parts
  split <;> simp

theorem segments_ne_nil (path : String) : segments path ≠ [] := by
  simpa [segments] using cut_ne_nil '/' path.toList

theorem eq_empty_of_segments {path : String} (h : segments path = [""]) : path = "" := by
  by_cases hmark : '/' ∈ path.toList
  · obtain ⟨lead, rest, hpath⟩ := List.append_of_mem hmark
    have hlength := congrArg List.length h
    rw [segments, hpath, cut_append, List.length_map, List.length_append] at hlength
    have hlead := List.length_pos_iff.mpr (cut_ne_nil '/' lead)
    have hrest := List.length_pos_iff.mpr (cut_ne_nil '/' rest)
    simp only [List.length_singleton] at hlength
    omega
  · rw [segments, cut_of_not_mem hmark, List.map_singleton, String.ofList_toList] at h
    exact (List.cons.inj h).1

theorem segments_of_not_mem {path : String} (h : '/' ∉ path.toList) : segments path = [path] := by
  simp [segments, cut_of_not_mem h]

theorem segments_append (lead : List Char) {path rest : String}
    (h : path.toList = lead ++ '/' :: rest.toList) :
    segments path = segments (String.ofList lead) ++ segments rest := by
  simp [segments, h, cut_append]

/-- The last part of a path does not tell where it begins. -/
theorem rootOf_concat {parts : List String} (hne : parts ≠ []) (last other : String) :
    rootOf (parts ++ [last]) = rootOf (parts ++ [other]) := by
  obtain ⟨first, more, rfl⟩ := List.exists_cons_of_ne_nil hne
  by_cases hdot : first = "."
  · subst hdot
    rfl
  · by_cases hempty : first = ""
    · subst hempty
      cases more <;> rfl
    · simp [rootOf, hdot, hempty]

theorem rootOf_snoc {parts : List String} (hne : parts ≠ []) (hroot : parts ≠ [""])
    (last : String) : rootOf (parts ++ [last]) = rootOf parts := by
  obtain ⟨first, more, rfl⟩ := List.exists_cons_of_ne_nil hne
  cases more with
  | cons second more =>
      by_cases hdot : first = "."
      · subst hdot
        rfl
      · by_cases hempty : first = ""
        · subst hempty
          rfl
        · simp [rootOf, hdot, hempty]
  | nil =>
      have hempty : first ≠ "" := fun heq => hroot (by rw [heq])
      by_cases hdot : first = "."
      · subst hdot
        rfl
      · simp [rootOf, hdot, hempty]

/-- A file in a directory has one component more than the directory. -/
theorem components_join {directory file : String} (hmark : '/' ∉ file.toList) (hne : file ≠ "")
    (hdot : file ≠ ".") : components (join directory file) = components directory ++ [file] := by
  have hrelative : file.toList.head? ≠ some '/' :=
    fun hhead => hmark (List.mem_of_mem_head? hhead)
  rw [components_eq, components_eq, join, if_neg hrelative]
  by_cases hempty : directory = ""
  · subst hempty
    rw [if_pos rfl, segments_of_not_mem hmark, segments_of_not_mem (by decide)]
    simp [rootOf, hne, hdot]
  · rw [if_neg hempty]
    by_cases hslash : directory.toList.getLast? = some '/'
    · obtain ⟨lead, hlead⟩ := List.getLast?_eq_some_iff.mp hslash
      rw [if_pos hslash, @segments_append lead directory "" (by rw [hlead]; rfl),
        @segments_append lead (directory ++ file) file (by rw [String.toList_append, hlead]; simp),
        segments_of_not_mem hmark, @segments_of_not_mem "" (by decide),
        rootOf_concat (segments_ne_nil _) file ""]
      simp [hne, hdot]
    · have hpath : (directory ++ "/" ++ file).toList = directory.toList ++ '/' :: file.toList := by
        simp
      rw [if_neg hslash, segments_append _ hpath, String.ofList_toList, segments_of_not_mem hmark,
        rootOf_snoc (segments_ne_nil _)]
      · simp [hne, hdot]
      · exact fun hroot => hempty (eq_empty_of_segments hroot)

end Path

namespace FileSystem

variable {files files' : FileSystem} {place other next : Place} {name path : String}
  {bytes : List UInt8}

/-! Writing a file changes no directory, and so no path leads anywhere else. -/

theorem ne_nil_of_not_directory (h : files.get? place ≠ some .directory) : place ≠ [] := by
  rintro rfl
  exact h rfl

theorem isDirectory_put (h : files.get? place ≠ some .directory) :
    (files.put place (.file bytes)).get? other = some .directory ↔
      files.get? other = some .directory := by
  by_cases heq : other = place
  · subst heq
    rw [get?_put_self (ne_nil_of_not_directory h)]
    simp [h]
  · rw [get?_put_of_ne heq]

/-- A step is taken from a directory, and depends on nothing else that is there. -/
theorem step_eq_ok_iff :
    files.step place name = .ok next ↔ files.get? place = some .directory ∧
      (name = "." ∧ next = place ∨
        name = ".." ∧ place ≠ [] ∧ next = place.dropLast ∨
        name ≠ "." ∧ name ≠ ".." ∧ name.utf8ByteSize ≤ nameLimit ∧ next = place ++ [name]) := by
  unfold step
  cases hentry : files.get? place with
  | none => simp
  | some entry =>
      cases entry with
      | file bytes => simp
      | directory =>
          by_cases hdot : name = "."
          · subst hdot
            simp [eq_comm]
          · by_cases hdots : name = ".."
            · subst hdots
              by_cases hroot : place = []
              · simp [hroot]
              · simp [hroot, eq_comm]
            · simp only [hdot, hdots, if_false, true_and, false_and, false_or, ne_eq,
                not_false_eq_true]
              split
              next hlong =>
                simp only [reduceCtorEq, false_iff, not_and]
                omega
              next hshort =>
                rw [Except.ok.injEq, eq_comm]
                exact (and_iff_right (by omega)).symm

theorem follow_cons {rest : List String} :
    files.follow place (name :: rest) = .ok other ↔
      ∃ next, files.step place name = .ok next ∧ files.follow next rest = .ok other := by
  rw [follow]
  cases files.step place name <;> simp

theorem follow_concat {names : List String} :
    files.follow place (names ++ [name]) = .ok other ↔
      ∃ parent, files.follow place names = .ok parent ∧ files.step parent name = .ok other := by
  induction names generalizing place with
  | nil =>
      rw [List.nil_append, follow_cons]
      simp [follow]
  | cons first names ih =>
      simp only [List.cons_append, follow_cons, ih]
      constructor
      · rintro ⟨next, hstep, parent, hfollow, hlast⟩
        exact ⟨parent, ⟨next, hstep, hfollow⟩, hlast⟩
      · rintro ⟨parent, ⟨next, hstep, hfollow⟩, hlast⟩
        exact ⟨next, hstep, parent, hfollow, hlast⟩

/-- Other files in the same directories. -/
def SameDirectories (files files' : FileSystem) : Prop :=
  ∀ place, files'.get? place = some .directory ↔ files.get? place = some .directory

theorem sameDirectories_put (h : files.get? place ≠ some .directory) :
    files.SameDirectories (files.put place (.file bytes)) :=
  fun _ => isDirectory_put h

theorem SameDirectories.follow (h : files.SameDirectories files') {start : Place}
    (names : List String) :
    files'.follow start names = .ok other ↔ files.follow start names = .ok other := by
  induction names generalizing start with
  | nil => rfl
  | cons name names ih =>
      rw [follow_cons, follow_cons]
      refine exists_congr fun next => ?_
      rw [step_eq_ok_iff, step_eq_ok_iff, h, ih]

theorem follow_append {names rest : List String} (h : files.follow place names = .ok next) :
    files.follow place (names ++ rest) = files.follow next rest := by
  induction names generalizing place with
  | nil =>
      cases h
      rfl
  | cons name names ih =>
      obtain ⟨after, hstep, hfollow⟩ := follow_cons.mp h
      rw [List.cons_append, FileSystem.follow, hstep]
      exact ih hfollow

theorem locate_eq_ok_iff :
    files.locate path = .ok place ↔
      '\x00' ∉ path.toList ∧ path ≠ "" ∧ path.utf8ByteSize ≤ pathLimit ∧
        path.toList.head? ≠ some '/' ∧ files.follow [] (Path.steps path) = .ok place := by
  unfold locate
  split
  next hnul => simp [hnul]
  next hnul =>
    split
    next hempty => simp [hempty]
    next hempty =>
      split
      next hlong =>
        simp only [reduceCtorEq, false_iff, not_and]
        omega
      next hshort =>
        split
        next habsolute => simp [habsolute]
        next hrelative =>
          have hlimit : path.utf8ByteSize ≤ pathLimit := by omega
          simp only [hnul, hempty, hlimit, hrelative, ne_eq, not_false_eq_true, true_and]

theorem SameDirectories.locate (h : files.SameDirectories files') :
    files'.locate path = .ok other ↔ files.locate path = .ok other := by
  rw [locate_eq_ok_iff, locate_eq_ok_iff, h.follow]

theorem locate_put (h : files.get? place ≠ some .directory) :
    (files.put place (.file bytes)).locate path = .ok other ↔ files.locate path = .ok other :=
  (sameDirectories_put h).locate

theorem read_eq_ok_iff :
    files.read path = .ok bytes ↔
      ∃ place, files.locate path = .ok place ∧ files.get? place = some (.file bytes) := by
  unfold read
  cases files.locate path with
  | error fault => simp
  | ok place =>
      simp only [Except.ok.injEq, exists_eq_left']
      cases files.get? place with
      | none => simp
      | some entry => cases entry <;> simp

theorem write_eq_ok_iff :
    files.write path bytes = .ok files' ↔
      ∃ place, files.locate path = .ok place ∧ files.get? place ≠ some .directory ∧
        files' = files.put place (.file bytes) := by
  unfold write
  cases files.locate path with
  | error fault => simp
  | ok place =>
      simp only [Except.ok.injEq, exists_eq_left']
      cases hentry : files.get? place with
      | none => simp [eq_comm]
      | some entry => cases entry <;> simp [eq_comm]

/-- The place of a file in a directory ends in the name of the file. -/
theorem locate_join {directory file : String} (hmark : '/' ∉ file.toList) (hne : file ≠ "")
    (hdot : file ≠ ".") (hdots : file ≠ "..")
    (h : files.locate (Path.join directory file) = .ok place) :
    ∃ parent, place = parent ++ [file] := by
  obtain ⟨base, hbase⟩ := Path.steps_join directory
  obtain ⟨_, _, _, _, hfollow⟩ := locate_eq_ok_iff.mp h
  rw [hbase file hmark hne, follow_concat] at hfollow
  obtain ⟨parent, _, hstep⟩ := hfollow
  rcases (step_eq_ok_iff.mp hstep).2 with ⟨rfl, _⟩ | ⟨rfl, _⟩ | ⟨_, _, _, hplace⟩
  · exact absurd rfl hdot
  · exact absurd rfl hdots
  · exact ⟨parent, hplace⟩

/-- Once one file of a directory has a place, that of any other depends on no more than the
directories, and so does the fault of one that has none. -/
theorem SameDirectories.locate_join (h : files.SameDirectories files') {directory file own : String}
    (hown : '/' ∉ own.toList) (hne : own ≠ "")
    (hfound : files.locate (Path.join directory own) = .ok place)
    (hmark : '/' ∉ file.toList) (hfile : file ≠ "") :
    files'.locate (Path.join directory file) = files.locate (Path.join directory file) := by
  obtain ⟨base, hbase⟩ := Path.steps_join directory
  obtain ⟨_, _, _, _, hfollow⟩ := locate_eq_ok_iff.mp hfound
  rw [hbase own hown hne, follow_concat] at hfollow
  obtain ⟨parent, hparent, hstep⟩ := hfollow
  have hdirectory := (step_eq_ok_iff.mp hstep).1
  have hdirectory' := (h parent).mpr hdirectory
  have hsame : files'.follow [] (Path.steps (Path.join directory file)) =
      files.follow [] (Path.steps (Path.join directory file)) := by
    rw [hbase file hmark hfile, follow_append hparent, follow_append ((h.follow base).mpr hparent)]
    simp only [FileSystem.follow, step, hdirectory, hdirectory']
  rw [FileSystem.locate, FileSystem.locate, hsame]

/-! Writing one file after the other. -/

end FileSystem

end Textproto
