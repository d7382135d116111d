import Textproto.Proofs.Conversion.Run

namespace Textproto

/-! What a run that comes to its end has converted, and what is left of it. -/

namespace Converter

variable {directory path output : String} {files next last : FileSystem}
  {paths outputs : List String}

theorem mark_not_mem_append {name extension : String} (h : '/' ∉ name.toList)
    (h' : '/' ∉ extension.toList) : '/' ∉ (name ++ extension).toList := by
  rw [String.toList_append, List.mem_append, not_or]
  exact ⟨h, h'⟩

/-- A name with an extension is neither empty nor a step of its own. -/
theorem ne_step_of_extension (name : String) {extension : String} (h : 2 < extension.toList.length) :
    name ++ extension ≠ "" ∧ name ++ extension ≠ "." ∧ name ++ extension ≠ ".." := by
  have hlength : 2 < (name ++ extension).toList.length := by
    rw [String.toList_append, List.length_append]
    omega
  refine ⟨?_, ?_, ?_⟩ <;>
    · intro heq
      rw [heq] at hlength
      revert hlength
      decide

theorem mark_not_mem_of_isFileName {name : String} (h : TestFile.isFileName name = true) :
    '/' ∉ name.toList := by
  simp only [TestFile.isFileName, Bool.and_eq_true, decide_eq_true_eq] at h
  exact h.1.2

theorem locate_extension {name extension : String} {place : Place} (hmark : '/' ∉ name.toList)
    (hmark' : '/' ∉ extension.toList) (hlength : 2 < extension.toList.length)
    (h : files.locate (Path.join directory (name ++ extension)) = .ok place) :
    ∃ parent, place = parent ++ [name ++ extension] := by
  obtain ⟨hne, hdot, hdots⟩ := ne_step_of_extension name hlength
  exact FileSystem.locate_join (mark_not_mem_append hmark hmark') hne hdot hdots h

/-- An input directory and a name lead to no output. -/
theorem input_ne_output {inputDir name other : String} {place : Place} (hname : '/' ∉ name.toList)
    (hother : '/' ∉ other.toList)
    (h : files.locate (Path.join inputDir (name ++ ".textproto")) = .ok place) :
    files.locate (Path.join directory (other ++ ".json")) ≠ .ok place := by
  intro h'
  obtain ⟨parent, rfl⟩ := locate_extension hname (by decide) (by decide) h
  obtain ⟨parent', heq⟩ := locate_extension hother (by decide) (by decide) h'
  have hlast := (List.append_inj' heq rfl).2
  have hsame := congrArg (fun s => s.toList.getLast?) (List.cons.inj hlast).1
  simp [String.toList_append] at hsame

theorem Converts.read {other : String} {bytes : List UInt8}
    (h : Converts directory files path output next)
    (hother : ∀ place, files.locate other = .ok place → files.locate output ≠ .ok place) :
    next.read other = .ok bytes ↔ files.read other = .ok bytes := by
  rw [FileSystem.read_eq_ok_iff, FileSystem.read_eq_ok_iff]
  cases h with
  | mk _ _ _ _ hlocate hplace =>
      simp only [FileSystem.locate_put hplace]
      refine exists_congr fun place => and_congr_right fun hfound => ?_
      rw [FileSystem.get?_put_of_ne]
      rintro rfl
      exact hother _ hfound hlocate

theorem ConvertsAll.locate {other : String} {place : Place}
    (h : ConvertsAll directory files paths outputs last) :
    last.locate other = .ok place ↔ files.locate other = .ok place := by
  induction h with
  | nil => rfl
  | cons hfirst _ ih => rw [ih, hfirst.locate]

theorem isLogicalName_of_ofConfig {config : Config} {converter : Converter}
    (h : ofConfig config = .ok converter) : ∀ name ∈ config.inputs, isLogicalName name = true := by
  unfold ofConfig at h
  split at h
  next => cases h
  next =>
    split at h
    next => cases h
    next hnone => simpa using List.find?_eq_none.mp hnone

end Converter

end Textproto
