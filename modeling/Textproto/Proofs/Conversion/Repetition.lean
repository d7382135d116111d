import Textproto.Proofs.Conversion.Outputs

namespace Textproto

/-! A run writes beside its inputs, and so another one does again what it did. -/

namespace Converter

variable {directory inputDir path output name : String} {files files' next last : FileSystem}
  {names paths outputs : List String}

theorem Converts.sameDirectories (h : Converts directory files path output next) :
    files.SameDirectories next := by
  cases h with
  | mk _ _ _ _ _ hplace => exact FileSystem.sameDirectories_put hplace

theorem ConvertsAll.sameDirectories (h : ConvertsAll directory files paths outputs last) :
    files.SameDirectories last := by
  induction h with
  | nil => exact fun _ => Iff.rfl
  | cons hfirst _ ih => exact fun place => (ih place).trans (hfirst.sameDirectories place)

/-! Inputs are read as before. -/

theorem plain_input (hname : '/' ∉ name.toList) :
    '/' ∉ (name ++ ".textproto").toList ∧ name ++ ".textproto" ≠ "" :=
  ⟨mark_not_mem_append hname (by decide), (ne_step_of_extension name (by decide)).1⟩

/-- Where one input was read from a directory, each of them is read the same after its conversion,
or not read for the same fault. -/
theorem Converts.read_input {first : String} (hfirst : '/' ∉ first.toList)
    (h : Converts directory files (Path.join inputDir (first ++ ".textproto")) output next)
    (hname : '/' ∉ name.toList) :
    next.read (Path.join inputDir (name ++ ".textproto")) =
      files.read (Path.join inputDir (name ++ ".textproto")) := by
  have hdirectories := h.sameDirectories
  cases h with
  | mk hholds _ hplain _ hlocate _ =>
      obtain ⟨bytes, hread, _⟩ := hholds
      obtain ⟨own, hfound, _⟩ := FileSystem.read_eq_ok_iff.mp hread
      obtain ⟨hmark, hne⟩ := plain_input hfirst
      obtain ⟨hmark', hne'⟩ := plain_input hname
      have hsame := hdirectories.locate_join hmark hne hfound hmark' hne'
      rw [FileSystem.read, FileSystem.read, hsame]
      cases hlocated : files.locate (Path.join inputDir (name ++ ".textproto")) with
      | error fault => rfl
      | ok place =>
          simp only
          rw [FileSystem.get?_put_of_ne]
          rintro rfl
          exact input_ne_output hname (mark_not_mem_of_isFileName hplain) hlocated hlocate

theorem ConvertsAll.read_input (hnames : ∀ name ∈ names, '/' ∉ name.toList)
    (h : ConvertsAll directory files
      (names.map fun name => Path.join inputDir (name ++ ".textproto")) outputs last)
    (hname : '/' ∉ name.toList) :
    last.read (Path.join inputDir (name ++ ".textproto")) =
      files.read (Path.join inputDir (name ++ ".textproto")) := by
  induction names generalizing files outputs with
  | nil =>
      cases h
      rfl
  | cons first names ih =>
      cases h with
      | cons hfirst hall =>
          rw [ih (fun other hother => hnames other (List.mem_cons_of_mem _ hother)) hall,
            hfirst.read_input (hnames first List.mem_cons_self) hname]

/-- A run converts all its inputs, or those before one that is refused. -/
inductive Ends (directory : String) (files : FileSystem) (inputs : List Input) :
    RunState → Except ConversionError (List String) → FileSystem → Prop
  | done {outputs : List String} {last : FileSystem} :
      ConvertsAll directory files (inputs.map Input.path) outputs last →
      Ends directory files inputs .done (.ok outputs) last
  | failed {before after : List Input} {input : Input} {outputs : List String} {last : FileSystem}
      {error : ConversionError} :
      inputs = before ++ input :: after →
      ConvertsAll directory files (before.map Input.path) outputs last →
      Refuses directory last input.path error →
      Ends directory files inputs (.failed before.length) (.error error) last

section

variable {state : RunState} {result : Except ConversionError (List String)} {world : World}

theorem Ends.run (converter : Converter)
    (h : Ends converter.outputDir world.files converter.inputs state result last)
    (hroom : world.diagnostics.room = none) :
    ∃ stream, stream.room = none ∧ (converter.run World.host).run world =
      (({ converter with state := state }, result), ⟨last, stream⟩) := by
  cases h with
  | done hall =>
      have hrun := runFrom_append hroom hall 0 [] []
      rw [List.append_nil, List.append_nil] at hrun
      refine ⟨world.diagnostics.told (converter.inputs.map Input.path), hroom, ?_⟩
      rw [run_run, hrun, runFrom]
      simp
      rfl
  | @failed before after input _ _ error hinputs hall herror =>
      have hrun := runFrom_append hroom hall 0 [] (input :: after)
      have htold : (world.diagnostics.told (before.map Input.path)).room = none := hroom
      rw [runFrom_refused htold herror, world.diagnostics.told_append, ← hinputs] at hrun
      refine ⟨world.diagnostics.told (before.map Input.path ++ [input.path]), hroom, ?_⟩
      rw [run_run, hrun]
      simp

theorem map_path (inputDir : String) (names : List String) :
    (names.map (Input.inDirectory inputDir)).map Input.path =
      names.map fun name => Path.join inputDir (name ++ ".textproto") := by
  rw [List.map_map]
  rfl

/-- The inputs before one that is refused are of the directory as well. -/
theorem Ends.cases_input (hnames : ∀ name ∈ names, '/' ∉ name.toList)
    (h : Ends directory files (names.map (.inDirectory inputDir)) state result last) :
    ∃ (own : List String) (outputs : List String), (∀ name ∈ own, '/' ∉ name.toList) ∧
      ConvertsAll directory files (own.map fun name => Path.join inputDir (name ++ ".textproto"))
        outputs last ∧
      ∀ start, ConvertsAll directory start
          (own.map fun name => Path.join inputDir (name ++ ".textproto")) outputs last →
        Ends directory start (names.map (.inDirectory inputDir)) state result last := by
  cases h with
  | @done outputs _ hall =>
      refine ⟨names, outputs, hnames, map_path inputDir names ▸ hall, fun start hstart => .done ?_⟩
      rwa [map_path]
  | @failed before after input outputs _ error hinputs hall herror =>
      obtain ⟨own, _, howned, rfl, _⟩ := List.map_eq_append_iff.mp hinputs
      refine ⟨own, outputs, fun name hname => hnames name (howned ▸ List.mem_append_left _ hname),
        map_path inputDir own ▸ hall, fun start hstart => ?_⟩
      rw [← map_path] at hstart
      exact .failed hinputs hstart herror

theorem Ends.read_input (hnames : ∀ name ∈ names, '/' ∉ name.toList)
    (h : Ends directory files (names.map (.inDirectory inputDir)) state result last)
    (hname : name ∈ names) :
    last.read (Path.join inputDir (name ++ ".textproto")) =
      files.read (Path.join inputDir (name ++ ".textproto")) := by
  obtain ⟨_, _, hown, hall, _⟩ := h.cases_input hnames
  exact hall.read_input hown (hnames name hname)

end

end Converter

end Textproto
