namespace Textproto

/-- Why the surroundings refuse to read or to write. -/
inductive Fault where
  | notFound
  | notDirectory
  | isDirectory
  | nameTooLong
  | noSpace
  | nulInPath
  | other (text : String)
  deriving Repr, DecidableEq

def Fault.text : Fault → String
  | notFound => "No such file or directory (os error 2)"
  | notDirectory => "Not a directory (os error 20)"
  | isDirectory => "Is a directory (os error 21)"
  | nameTooLong => "File name too long (os error 36)"
  | noSpace => "No space left on device (os error 28)"
  | nulInPath => "file name contained an unexpected NUL byte"
  | other text => text

end Textproto
