import Textproto.Conversion.Converter
import Textproto.Proofs.Conversion.Place
import Textproto.Proofs.Decoding

namespace Textproto

/-! What a run does: one input after the other is converted, up to the first that is refused. -/

/-- The document that the file under a path holds. -/
def FileSystem.Holds (files : FileSystem) (path : String) (document : Message) : Prop :=
  ∃ bytes, files.read path = .ok bytes ∧
    decode .bundled Bundled.testFileType bytes = .ok document

namespace Converter

/-- Where a document is written to. -/
def outputOf (directory : String) (document : Message) : String :=
  Path.join directory (document.string "name" ++ ".json")

/-- An input is converted to an output, which is all that changes among the files. -/
inductive Converts (directory : String) (files : FileSystem) (path : String) :
    String → FileSystem → Prop
  | mk {document : Message} {json : Json} {place : Place} :
      files.Holds path document →
      document.string "name" ≠ "" → TestFile.isFileName (document.string "name") = true →
      document.toJson .bundled = .ok json →
      files.locate (outputOf directory document) = .ok place →
      files.get? place ≠ some .directory →
      Converts directory files path (outputOf directory document)
        (files.put place (.file (Utf8.encode json.pretty.toList)))

/-- An input is refused: it is not read or decoded, its document has no name or no JSON form, or
there is no writing to the output. -/
inductive Refuses (directory : String) (files : FileSystem) (path : String) :
    ConversionError → Prop
  | unread {fault : Fault} :
      files.read path = .error fault → Refuses directory files path (.io path fault)
  | undecoded {bytes : List UInt8} {error : DecodeError} :
      files.read path = .ok bytes →
      decode .bundled Bundled.testFileType bytes = .error error →
      Refuses directory files path (.unreadable path error)
  | noName {document : Message} :
      files.Holds path document → document.string "name" = "" →
      Refuses directory files path (.unwritable path .noName)
  | notFileName {document : Message} :
      files.Holds path document → document.string "name" ≠ "" →
      TestFile.isFileName (document.string "name") = false →
      Refuses directory files path (.unwritable path (.notFileName (document.string "name")))
  | noJson {document : Message} {error : EncodeError} :
      files.Holds path document →
      document.string "name" ≠ "" → TestFile.isFileName (document.string "name") = true →
      document.toJson .bundled = .error error →
      Refuses directory files path (.unwritable path (.noJson error))
  | unwritten {document : Message} {json : Json} {fault : Fault} :
      files.Holds path document →
      document.string "name" ≠ "" → TestFile.isFileName (document.string "name") = true →
      document.toJson .bundled = .ok json →
      files.write (outputOf directory document) (Utf8.encode json.pretty.toList) = .error fault →
      Refuses directory files path (.io (outputOf directory document) fault)

/-- Inputs are converted one after the other, each among the files that the last one left. -/
inductive ConvertsAll (directory : String) :
    FileSystem → List String → List String → FileSystem → Prop
  | nil {files : FileSystem} : ConvertsAll directory files [] [] files
  | cons {files next last : FileSystem} {path output : String} {paths outputs : List String} :
      Converts directory files path output next →
      ConvertsAll directory next paths outputs last →
      ConvertsAll directory files (path :: paths) (output :: outputs) last

variable {directory path output : String} {files next : FileSystem} {error : ConversionError}

/-! One input. -/

theorem convert_eq (world : World) (directory path : String) :
    (convert World.host directory path).run world =
      match world.files.read path with
      | .error fault => (.error (.io path fault), world)
      | .ok bytes =>
          match TestFile.decode path bytes with
          | .error error => (.error error, world)
          | .ok file =>
              match file.fileName, file.json with
              | .error error, _ => (.error error, world)
              | _, .error error => (.error error, world)
              | .ok name, .ok json =>
                  match world.files.write (Path.join directory name)
                      (Utf8.encode json.pretty.toList) with
                  | .error fault => (.error (.io (Path.join directory name) fault), world)
                  | .ok files => (.ok (Path.join directory name), { world with files := files }) := by
  simp only [convert, readDocument, World.host, StateT.run, bind, StateT.bind, pure]
  cases world.files.read path with
  | error fault => rfl
  | ok bytes =>
      simp only
      cases TestFile.decode path bytes with
      | error error => rfl
      | ok file =>
          simp only [writeDocument, bind, pure, StateT.pure]
          cases file.fileName with
          | error error => rfl
          | ok name =>
              cases file.json with
              | error error => rfl
              | ok json =>
                  simp only [StateT.bind]
                  cases world.files.write (Path.join directory name)
                    (Utf8.encode json.pretty.toList) <;> rfl

theorem convert_of_converts (h : Converts directory files path output next)
    (stream : Diagnostics) :
    (convert World.host directory path).run ⟨files, stream⟩ = (.ok output, ⟨next, stream⟩) := by
  cases h with
  | @mk document json place hholds hname hplain hjson hlocate hplace =>
      obtain ⟨bytes, hread, hdecode⟩ := hholds
      have hwrite : files.write (outputOf directory document)
          (Utf8.encode json.pretty.toList) =
            .ok (files.put place (.file (Utf8.encode json.pretty.toList))) :=
        FileSystem.write_eq_ok_iff.mpr ⟨place, hlocate, hplace, rfl⟩
      rw [outputOf] at hwrite
      simp [convert_eq, hread, TestFile.decode, hdecode, TestFile.fileName, TestFile.name, hname,
        hplain, TestFile.json, hjson, hwrite, outputOf]

theorem convert_of_refuses (h : Refuses directory files path error) (stream : Diagnostics) :
    (convert World.host directory path).run ⟨files, stream⟩ = (.error error, ⟨files, stream⟩) := by
  cases h with
  | unread hread => simp [convert_eq, hread]
  | undecoded hread hdecode => simp [convert_eq, hread, TestFile.decode, hdecode]
  | noName hholds hname =>
      obtain ⟨bytes, hread, hdecode⟩ := hholds
      simp [convert_eq, hread, TestFile.decode, hdecode, TestFile.fileName, TestFile.name, hname]
  | notFileName hholds hname hplain =>
      obtain ⟨bytes, hread, hdecode⟩ := hholds
      simp [convert_eq, hread, TestFile.decode, hdecode, TestFile.fileName, TestFile.name, hname,
        hplain]
  | noJson hholds hname hplain hjson =>
      obtain ⟨bytes, hread, hdecode⟩ := hholds
      simp [convert_eq, hread, TestFile.decode, hdecode, TestFile.fileName, TestFile.name, hname,
        hplain, TestFile.json, hjson]
  | unwritten hholds hname hplain hjson hwrite =>
      obtain ⟨bytes, hread, hdecode⟩ := hholds
      rw [outputOf] at hwrite
      simp [convert_eq, hread, TestFile.decode, hdecode, TestFile.fileName, TestFile.name, hname,
        hplain, TestFile.json, hjson, hwrite, outputOf]

/-- An input is converted, or else it is refused. -/
theorem converts_or_refuses (directory : String) (files : FileSystem) (path : String) :
    (∃ output next, Converts directory files path output next) ∨
      ∃ error, Refuses directory files path error := by
  cases hread : files.read path with
  | error fault => exact .inr ⟨_, .unread hread⟩
  | ok bytes =>
      cases hdecode : decode .bundled Bundled.testFileType bytes with
      | error error => exact .inr ⟨_, .undecoded hread hdecode⟩
      | ok document =>
          have hholds : files.Holds path document := ⟨bytes, hread, hdecode⟩
          by_cases hname : document.string "name" = ""
          · exact .inr ⟨_, .noName hholds hname⟩
          · cases hplain : TestFile.isFileName (document.string "name") with
            | false => exact .inr ⟨_, .notFileName hholds hname hplain⟩
            | true =>
                cases hjson : document.toJson .bundled with
                | error error => exact .inr ⟨_, .noJson hholds hname hplain hjson⟩
                | ok json =>
                    cases hwrite : files.write (outputOf directory document)
                        (Utf8.encode json.pretty.toList) with
                    | error fault => exact .inr ⟨_, .unwritten hholds hname hplain hjson hwrite⟩
                    | ok next =>
                        obtain ⟨place, hlocate, hplace, rfl⟩ :=
                          FileSystem.write_eq_ok_iff.mp hwrite
                        exact .inl ⟨_, _, .mk hholds hname hplain hjson hlocate hplace⟩

end Converter

/-! A run. -/

/-- The stream once it was told that paths are being written. -/
def Diagnostics.told (stream : Diagnostics) (paths : List String) : Diagnostics :=
  stream.write (paths.flatMap fun path => Utf8.encode (("Writing " ++ path).toList ++ ['\n']))

theorem Diagnostics.told_append (stream : Diagnostics) (paths more : List String) :
    (stream.told paths).told more = stream.told (paths ++ more) := by
  simp [told, write]

namespace Converter

variable {directory path output : String} {files next last : FileSystem} {stream : Diagnostics}
  {paths outputs : List String} {error : ConversionError} {index : Nat} {written : List String}

theorem runFrom_step (files : FileSystem) (stream : Diagnostics) (input : Input)
    (rest : List Input) :
    (runFrom World.host directory index written (input :: rest)).run ⟨files, stream⟩ =
      match stream.writeLine ("Writing " ++ input.path) with
      | .error fault => ((.processing index, .error (.io input.path fault)), ⟨files, stream⟩)
      | .ok stream =>
          match (convert World.host directory input.path).run ⟨files, stream⟩ with
          | (.error error, world) => ((.failed index, .error error), world)
          | (.ok path, world) =>
              (runFrom World.host directory (index + 1) (path :: written) rest).run world := by
  have hreport : World.host.report ("Writing " ++ input.path) ⟨files, stream⟩ =
      match stream.writeLine ("Writing " ++ input.path) with
      | .error fault => (.error fault, ⟨files, stream⟩)
      | .ok stream => (.ok (), ⟨files, stream⟩) := by
    cases hline : stream.writeLine ("Writing " ++ input.path) with
    | error fault => simp only [World.host, hline]
    | ok stream => simp only [World.host, hline]
  rw [runFrom]
  simp only [StateT.run, bind, StateT.bind, hreport]
  cases stream.writeLine ("Writing " ++ input.path) with
  | error fault => rfl
  | ok stream =>
      simp only [StateT.bind]
      rcases convert World.host directory input.path ⟨files, stream⟩ with ⟨_ | _, _⟩ <;> rfl

theorem runFrom_cons (hroom : stream.room = none) (files : FileSystem) (input : Input)
    (rest : List Input) :
    (runFrom World.host directory index written (input :: rest)).run ⟨files, stream⟩ =
      match (convert World.host directory input.path).run ⟨files, stream.told [input.path]⟩ with
      | (.error error, world) => ((.failed index, .error error), world)
      | (.ok path, world) =>
          (runFrom World.host directory (index + 1) (path :: written) rest).run world := by
  have hline : stream.writeLine ("Writing " ++ input.path) = .ok (stream.told [input.path]) := by
    simp [Diagnostics.writeLine, hroom, Diagnostics.told]
  rw [runFrom_step, hline]

/-- The inputs that are converted leave their outputs behind and the run goes on. -/
theorem runFrom_append (hroom : stream.room = none) {inputs : List Input}
    (h : ConvertsAll directory files (inputs.map Input.path) outputs last) (index : Nat)
    (written : List String) (rest : List Input) :
    (runFrom World.host directory index written (inputs ++ rest)).run ⟨files, stream⟩ =
      (runFrom World.host directory (index + inputs.length) (outputs.reverse ++ written) rest).run
        ⟨last, stream.told (inputs.map Input.path)⟩ := by
  induction inputs generalizing files stream outputs index written with
  | nil =>
      cases h
      simp [Diagnostics.told, Diagnostics.write]
  | cons input inputs ih =>
      cases h with
      | @cons _ next _ _ output _ outputs hfirst hall =>
          rw [List.cons_append, runFrom_cons hroom, convert_of_converts hfirst]
          simp only
          have htold : (stream.told [input.path]).room = none := hroom
          rw [ih htold hall, stream.told_append]
          simp [Nat.add_comm, Nat.add_left_comm]

theorem runFrom_refused (hroom : stream.room = none) {input : Input}
    (h : Refuses directory files input.path error) (rest : List Input) :
    (runFrom World.host directory index written (input :: rest)).run ⟨files, stream⟩ =
      ((.failed index, .error error), ⟨files, stream.told [input.path]⟩) := by
  rw [runFrom_cons hroom, convert_of_refuses h]

/-- All inputs are converted, or those before the first one that is refused. -/
theorem convertsAll_or_refuses (directory : String) (files : FileSystem) (paths : List String) :
    (∃ outputs last, ConvertsAll directory files paths outputs last) ∨
      ∃ before path after outputs last error, paths = before ++ path :: after ∧
        ConvertsAll directory files before outputs last ∧ Refuses directory last path error := by
  induction paths generalizing files with
  | nil => exact .inl ⟨[], files, .nil⟩
  | cons path paths ih =>
      rcases converts_or_refuses directory files path with ⟨output, next, hfirst⟩ | ⟨error, herror⟩
      · rcases ih next with ⟨outputs, last, hall⟩ |
          ⟨before, refused, after, outputs, last, error, rfl, hall, herror⟩
        · exact .inl ⟨_, _, .cons hfirst hall⟩
        · exact .inr ⟨path :: before, refused, after, _, _, error, rfl, .cons hfirst hall, herror⟩
      · exact .inr ⟨[], path, paths, [], files, error, rfl, .nil, herror⟩

/-! What conversions leave alone. -/

theorem Converts.locate {other : String} {place : Place}
    (h : Converts directory files path output next) :
    next.locate other = .ok place ↔ files.locate other = .ok place := by
  cases h with
  | mk _ _ _ _ _ hplace => exact FileSystem.locate_put hplace

theorem ofConfig_eq_ok {config : Config} {converter : Converter}
    (h : ofConfig config = .ok converter) :
    converter = ⟨config.inputs.map (.inDirectory config.inputDir), config.outputDir, .ready⟩ := by
  unfold ofConfig at h
  split at h
  next => cases h
  next =>
    split at h
    next => cases h
    next => exact (Except.ok.inj h).symm

theorem run_run (converter : Converter) (world : World) :
    (converter.run World.host).run world =
      let ((state, result), world) :=
        (runFrom World.host converter.outputDir 0 [] converter.inputs).run world
      (({ converter with state := state }, result), world) := rfl

end Converter

end Textproto
