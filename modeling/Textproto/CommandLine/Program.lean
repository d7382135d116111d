import Textproto.CommandLine.Arguments

namespace Textproto.CommandLine

/-! What the program does with its arguments. -/

/-- What a run of the program leaves on standard output, and the code that it ends with. -/
structure Ending where
  output : List String
  code : UInt32
  deriving Repr, DecidableEq

def helpText : List String :=
  [ "Converts documents of conformance tests from text format into JSON.",
    "",
    "Usage: textproto [convert] [options]",
    "       textproto help [command]",
    "",
    "  -i, --input-dir DIR   where the inputs NAME.textproto are [testdata]",
    "  -o, --output-dir DIR  where the outputs are written [the input directory]",
    "  -f, --file NAME       an input to convert, any number of times",
    "  -v, --verbose         tells more, the more often it is given",
    "  -h, --help            shows this text",
    "  -V, --version         shows the version" ]

def versionText : String :=
  "textproto 1.0"

namespace Stop

def message : Stop → String
  | unknownArgument => "an argument is not expected"
  | missingValue => "an option lacks its value"
  | repeatedOption => "an option can not be given more than once"
  | unexpectedValue => "an option takes no value"
  | help => ""
  | version => ""

/-- Being asked for a text is no failure. -/
def ending : Stop → Ending
  | help => ⟨helpText, 0⟩
  | version => ⟨[versionText], 0⟩
  | _ => ⟨[], 2⟩

end Stop

/-- How many inputs were converted by the time a converter came to a state. -/
def converted (converter : Converter) : Nat :=
  match converter.state with
  | .ready => 0
  | .processing index => index
  | .done => converter.inputs.length
  | .failed index => index

/-- What is told of a configuration to those who ask twice. -/
def configLog (verbosity : Nat) (config : Config) : List String :=
  if 2 ≤ verbosity then
    [s!"Converting from `{config.inputDir}` to `{config.outputDir}`"]
  else []

/-- What is told of a run to those who ask. -/
def runLog (verbosity : Nat) (converter : Converter) : List String :=
  if 1 ≤ verbosity then
    (converter.inputs.take (converted converter)).map fun input => s!"Converted {input.name}"
  else []

variable {m : Type → Type} [Monad m]

/-- Converts as settings tell. With the paths written comes what is told on the way. -/
def convert (host : Host m) (settings : Settings) :
    m (List String × Except ConversionError (List String)) := do
  let config := settings.config
  let log := configLog settings.verbosity config
  match Converter.ofConfig config with
  | .error error => return (log, .error error)
  | .ok converter =>
      let (converter, result) ← converter.run host
      return (log ++ runLog settings.verbosity converter, result)

/-- The whole program, from its arguments. -/
def run (host : Host m) (arguments : List String) : m Ending := do
  match request arguments with
  | .error stop =>
      if stop.ending.code ≠ 0 then
        let _ ← host.report ("error: " ++ stop.message)
      return stop.ending
  | .ok settings =>
      match ← convert host settings with
      | (log, .ok _) => return ⟨log, 0⟩
      | (log, .error error) =>
          let _ ← host.report ("Error occurred " ++ error.message)
          return ⟨log, 255⟩

end Textproto.CommandLine
