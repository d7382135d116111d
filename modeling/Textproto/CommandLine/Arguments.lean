import Textproto.Conversion.Converter

namespace Textproto.CommandLine

/-!
Arguments as settings. An option takes its value from behind an equals sign, from the rest of
its cluster of letters, or from the next argument.
-/

/-- The options that take a value. -/
inductive Valued where
  | inputDir
  | outputDir
  | file
  deriving Repr, DecidableEq

/-- The options that take none. -/
inductive Flag where
  | verbose
  | help
  | version
  deriving Repr, DecidableEq

inductive Switch where
  | valued (option : Valued)
  | flag (flag : Flag)
  deriving Repr, DecidableEq

/-- Whose arguments are read. -/
inductive Level where
  | program
  | convert
  deriving Repr, DecidableEq

namespace Switch

/-- A version is told by the whole program only. -/
def belongs (level : Level) (switch : Switch) : Bool :=
  level = .program || switch ≠ .flag .version

def ofName? : String → Option Switch
  | "input-dir" => some (.valued .inputDir)
  | "output-dir" => some (.valued .outputDir)
  | "file" => some (.valued .file)
  | "verbose" => some (.flag .verbose)
  | "help" => some (.flag .help)
  | "version" => some (.flag .version)
  | _ => none

def ofLetter? : Char → Option Switch
  | 'i' => some (.valued .inputDir)
  | 'o' => some (.valued .outputDir)
  | 'f' => some (.valued .file)
  | 'v' => some (.flag .verbose)
  | 'h' => some (.flag .help)
  | 'V' => some (.flag .version)
  | _ => none

def named? (level : Level) (name : String) : Option Switch :=
  (ofName? name).filter (belongs level)

def lettered? (level : Level) (letter : Char) : Option Switch :=
  (ofLetter? letter).filter (belongs level)

end Switch

/-- Why arguments give no settings: they are wrong, or ask for a text instead. -/
inductive Stop where
  | unknownArgument
  | missingValue
  | repeatedOption
  | unexpectedValue
  | help
  | version
  deriving Repr, DecidableEq

structure Settings where
  inputDir : Option String := none
  outputDir : Option String := none
  files : List String := []
  verbosity : Nat := 0
  deriving Repr, DecidableEq

namespace Settings

/-- Files add up, directories are given once. -/
def give (settings : Settings) (option : Valued) (value : String) : Except Stop Settings :=
  match option with
  | .inputDir =>
      if settings.inputDir.isSome then .error .repeatedOption
      else .ok { settings with inputDir := some value }
  | .outputDir =>
      if settings.outputDir.isSome then .error .repeatedOption
      else .ok { settings with outputDir := some value }
  | .file => .ok { settings with files := settings.files ++ [value] }

/-- Outputs go where the inputs are, unless settings tell otherwise. -/
def config (settings : Settings) : Config :=
  let preset : Config := {}
  let inputDir := settings.inputDir.getD preset.inputDir
  { inputDir := inputDir
    outputDir := settings.outputDir.getD inputDir
    inputs := if settings.files = [] then preset.inputs else settings.files }

end Settings

inductive Argument where
  | plain (text : String)
  | long (name : String) (value : Option String)
  | short (letters : List Char)
  /-- Two dashes alone. Behind them nothing is an option. -/
  | terminator
  deriving Repr, DecidableEq

/-- The text behind the first equals sign, if there is one. -/
def afterEquals? (text : List Char) : Option String :=
  match text.dropWhile (· ≠ '=') with
  | [] => none
  | _ :: value => some (String.ofList value)

def Argument.ofString (text : String) : Argument :=
  match text.toList with
  | ['-', '-'] => terminator
  | '-' :: '-' :: rest => long (String.ofList (rest.takeWhile (· ≠ '='))) (afterEquals? rest)
  | '-' :: letter :: rest => short (letter :: rest)
  | _ => plain text

/-- Settings under way. An option that awaits its value, and one whose value came as an
argument of its own, count once the next option or the end is reached. -/
structure Reading where
  settings : Settings := {}
  pending : Option (Valued × Option String) := none
  deriving Repr, DecidableEq

namespace Reading

def settle (reading : Reading) : Except Stop Settings :=
  match reading.pending with
  | none => .ok reading.settings
  | some (_, none) => .error .missingValue
  | some (option, some value) => reading.settings.give option value

def takeValued (reading : Reading) (option : Valued) (attached : Option String) :
    Except Stop Reading := do
  let settings ← reading.settle
  match attached with
  | none => return ⟨settings, some (option, none)⟩
  | some value => return ⟨← settings.give option value, none⟩

def takeFlag (reading : Reading) (flag : Flag) : Except Stop Reading := do
  let settings ← reading.settle
  match flag with
  | .verbose => return ⟨{ settings with verbosity := settings.verbosity + 1 }, none⟩
  | .help => throw .help
  | .version => throw .version

/-- The value that letters behind an option spell. An equals sign may stand before it. -/
def attachedValue? : List Char → Option String
  | [] => none
  | '=' :: rest => some (String.ofList rest)
  | letters => some (String.ofList letters)

def takeLetters (level : Level) (reading : Reading) : List Char → Except Stop Reading
  | [] => .ok reading
  | letter :: rest =>
      match Switch.lettered? level letter with
      | none => .error .unknownArgument
      | some (.valued option) => reading.takeValued option (attachedValue? rest)
      | some (.flag flag) =>
          match reading.takeFlag flag with
          | .error stop => .error stop
          | .ok reading => takeLetters level reading rest

def takeNamed (level : Level) (reading : Reading) (name : String) (value : Option String) :
    Except Stop Reading :=
  match Switch.named? level name with
  | none => .error .unknownArgument
  | some (.valued option) => reading.takeValued option value
  | some (.flag flag) =>
      if value.isSome then .error .unexpectedValue else reading.takeFlag flag

/-- An argument that is no option is the value of the option that awaits one. -/
def takePlain (reading : Reading) (text : String) : Except Stop Reading :=
  match reading.pending with
  | some (option, none) => .ok { reading with pending := some (option, some text) }
  | _ => .error .unknownArgument

/-- The settings, with all further arguments. -/
def finish (level : Level) (reading : Reading) : List String → Except Stop Settings
  | [] => reading.settle
  | text :: rest =>
      match Argument.ofString text with
      | .terminator => if rest = [] then reading.settle else .error .unknownArgument
      | .plain text => do finish level (← reading.takePlain text) rest
      | .long name value => do finish level (← reading.takeNamed level name value) rest
      | .short letters => do finish level (← reading.takeLetters level letters) rest

end Reading

def settings (level : Level) (arguments : List String) : Except Stop Settings :=
  Reading.finish level {} arguments

/-- The commands of the program, besides `help`. -/
def commands : List String := ["convert"]

/-- The command `help` takes the name of a command, and none below that. -/
def helpOn : List String → Stop
  | [] => .help
  | [name] => if name = "help" || name ∈ commands then .help else .unknownArgument
  | _ => .unknownArgument

/-- What the arguments of the program ask for. A command comes first or not at all. -/
def request : List String → Except Stop Settings
  | "convert" :: arguments => settings .convert arguments
  | "help" :: arguments => .error (helpOn arguments)
  | arguments => settings .program arguments

end Textproto.CommandLine
