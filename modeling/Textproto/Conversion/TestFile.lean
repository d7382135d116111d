import Textproto.Conversion.Fault
import Textproto.Decoding
import Textproto.Encoding.Message
import Textproto.Schema.Bundled

namespace Textproto

/-! Documents of conformance tests, and what keeps one from being read or written. -/

/-- Why a document can not be written. -/
inductive Unwritable where
  | noName
  | notFileName (name : String)
  | noJson (error : EncodeError)
  deriving DecidableEq

def Unwritable.message : Unwritable → String
  | noName => "the `name` field is empty, refusing to write `.json`"
  | notFileName name => s!"the `name` field `{name}` is not a plain file name"
  | noJson error => error.text

/-- Why a conversion can not even begin. -/
inductive BadRequest where
  | noInputs
  | notLogicalName (name : String)
  deriving Repr, DecidableEq

def BadRequest.message : BadRequest → String
  | noInputs => "no input files were given to convert"
  | notLogicalName name =>
      s!"`{name}` is not a logical file name, expected something like `basic`"

inductive ConversionError where
  | io (path : String) (fault : Fault)
  | unreadable (path : String) (error : DecodeError)
  | unwritable (path : String) (cause : Unwritable)
  | badRequest (cause : BadRequest)
  deriving DecidableEq

namespace ConversionError

def path? : ConversionError → Option String
  | io path _ => some path
  | unreadable path _ => some path
  | unwritable path _ => some path
  | badRequest _ => none

def message : ConversionError → String
  | io path fault => s!"I/O error when accessing `{path}`: {fault.text}"
  | unreadable path error => s!"Parser Error when parsing `{path}`: {error.text}"
  | unwritable path cause =>
      s!"Document decoded from `{path}` can not be written: {cause.message}"
  | badRequest cause => cause.message

end ConversionError

/-- A document of conformance tests and the path that it was read from. Only its name and its
sections mean anything here. -/
structure TestFile where
  source : String
  message : Message

namespace TestFile

def decode (source : String) (bytes : List UInt8) : Except ConversionError TestFile :=
  match Textproto.decode .bundled Bundled.testFileType bytes with
  | .ok message => .ok ⟨source, message⟩
  | .error error => .error (.unreadable source error)

def name (file : TestFile) : String :=
  file.message.string "name"

def description (file : TestFile) : String :=
  file.message.string "description"

def sections (file : TestFile) : List Message :=
  (file.message.list "section").filterMap Value.message?

def testCount (file : TestFile) : Nat :=
  (file.sections.flatMap fun part => part.list "test").length

/-- Whether a name is that of a file right inside whatever directory it is written to. -/
def isFileName (name : String) : Bool :=
  name ≠ "." && name ≠ ".." && '/' ∉ name.toList && '\\' ∉ name.toList

/-- The file that a document is written to, named after the document. -/
def fileName (file : TestFile) : Except ConversionError String :=
  if file.name = "" then .error (.unwritable file.source .noName)
  else if isFileName file.name then .ok (file.name ++ ".json")
  else .error (.unwritable file.source (.notFileName file.name))

def json (file : TestFile) : Except ConversionError Json :=
  match file.message.toJson .bundled with
  | .ok json => .ok json
  | .error error => .error (.unwritable file.source (.noJson error))

end TestFile

end Textproto
