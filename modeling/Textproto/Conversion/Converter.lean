import Textproto.Conversion.Diagnostics
import Textproto.Conversion.FileSystem
import Textproto.Conversion.TestFile

namespace Textproto

/-!
Converters: every input is read, converted and written before the next one is looked at, and the
first that fails ends the run.
-/

structure Config where
  inputDir : String := "testdata"
  outputDir : String := "testdata"
  inputs : List String := ["basic", "comparisons", "fp_math", "integer_math", "string"]
  deriving Repr, DecidableEq

/-- Whether two configurations name the same directories, as paths, and the same inputs. -/
def Config.equals (config other : Config) : Bool :=
  Path.components config.inputDir = Path.components other.inputDir
    && Path.components config.outputDir = Path.components other.outputDir
    && config.inputs = other.inputs

theorem Config.equals_self (config : Config) : config.equals config = true := by
  simp [Config.equals]

/-- A logical name and the file in the input directory that it stands for. -/
structure Input where
  name : String
  path : String
  deriving Repr, DecidableEq

def Input.inDirectory (directory name : String) : Input where
  name := name
  path := Path.join directory (name ++ ".textproto")

/-- The inputs being handled are counted from zero. -/
inductive RunState where
  | ready
  | processing (index : Nat)
  | done
  | failed (index : Nat)
  deriving Repr, DecidableEq

/-- What a run needs of its surroundings. -/
structure Host (m : Type → Type) where
  read : String → m (Except Fault (List UInt8))
  write : String → List UInt8 → m (Except Fault Unit)
  report : String → m (Except Fault Unit)

structure Converter where
  inputs : List Input
  outputDir : String
  state : RunState
  deriving Repr, DecidableEq

namespace Converter

def isLogicalName (name : String) : Bool :=
  name ≠ "" && '/' ∉ name.toList && '\\' ∉ name.toList

def ofConfig (config : Config) : Except ConversionError Converter :=
  if config.inputs = [] then .error (.badRequest .noInputs)
  else
    match config.inputs.find? (!isLogicalName ·) with
    | some name => .error (.badRequest (.notLogicalName name))
    | none =>
        .ok ⟨config.inputs.map (.inDirectory config.inputDir), config.outputDir, .ready⟩

variable {m : Type → Type} [Monad m]

def readDocument (host : Host m) (path : String) : m (Except ConversionError TestFile) := do
  match ← host.read path with
  | .error fault => return .error (.io path fault)
  | .ok bytes => return TestFile.decode path bytes

/-- Writes a document into a directory and answers where. -/
def writeDocument (host : Host m) (directory : String) (file : TestFile) :
    m (Except ConversionError String) := do
  match file.fileName, file.json with
  | .error error, _ => return .error error
  | _, .error error => return .error error
  | .ok name, .ok json =>
      let path := Path.join directory name
      match ← host.write path (Utf8.encode json.pretty.toList) with
      | .error fault => return .error (.io path fault)
      | .ok () => return .ok path

def convert (host : Host m) (directory path : String) : m (Except ConversionError String) := do
  match ← readDocument host path with
  | .error error => return .error error
  | .ok file => writeDocument host directory file

/-- Converts one input after the other, up to the first that fails. -/
def runFrom (host : Host m) (directory : String) (index : Nat) (written : List String) :
    List Input → m (RunState × Except ConversionError (List String))
  | [] => return (.done, .ok written.reverse)
  | input :: rest => do
      match ← host.report ("Writing " ++ input.path) with
      | .error fault => return (.processing index, .error (.io input.path fault))
      | .ok () =>
          match ← convert host directory input.path with
          | .error error => return (.failed index, .error error)
          | .ok path => runFrom host directory (index + 1) (path :: written) rest

/-- The converter after a run, and the paths written, in the order of the inputs. -/
def run (host : Host m) (converter : Converter) :
    m (Converter × Except ConversionError (List String)) := do
  let (state, result) ← runFrom host converter.outputDir 0 [] converter.inputs
  return ({ converter with state := state }, result)

end Converter

/-- Surroundings that are a value themselves. -/
structure World where
  files : FileSystem := {}
  diagnostics : Diagnostics := {}
  deriving Repr, DecidableEq

def World.host : Host (StateM World) where
  read path := fun world => (world.files.read path, world)
  write path bytes := fun world =>
    match world.files.write path bytes with
    | .ok files => (.ok (), { world with files := files })
    | .error fault => (.error fault, world)
  report line := fun world =>
    match world.diagnostics.writeLine line with
    | .ok diagnostics => (.ok (), { world with diagnostics := diagnostics })
    | .error fault => (.error fault, world)

end Textproto
