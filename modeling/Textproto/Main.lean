import Textproto.CommandLine.Program

namespace Textproto

/-! The program, run on real files. -/

/-- System error numbers may come negated. -/
def errorNumber (code : UInt32) : UInt32 :=
  if code < 0x80000000 then code else 0 - code

def Fault.ofError (error : IO.Error) : Fault :=
  let byNumber (code : UInt32) : Fault :=
    match errorNumber code with
    | 2 => .notFound
    | 20 => .notDirectory
    | 21 => .isDirectory
    | 28 => .noSpace
    | 36 => .nameTooLong
    | _ => .other (toString error)
  match error with
  | .noFileOrDirectory _ code _ => byNumber code
  | .inappropriateType _ code _ => byNumber code
  | .invalidArgument _ code _ => byNumber code
  | .resourceExhausted _ code _ => byNumber code
  | error => .other (toString error)

/-- An action on a path, with what goes wrong as a fault. -/
def attemptAt {α : Type} (path : String) (action : IO α) : IO (Except Fault α) := do
  if '\x00' ∈ path.toList then return .error .nulInPath
  try
    return .ok (← action)
  catch error =>
    return .error (.ofError error)

def systemHost : Host IO where
  read path := attemptAt path do
    return (← IO.FS.readBinFile path).toList
  write path bytes := attemptAt path do
    IO.FS.writeBinFile path ⟨bytes.toArray⟩
  report line := attemptAt "" do
    (← IO.getStderr).putStrLn line

end Textproto

def main (arguments : List String) : IO UInt32 := do
  let ending ← Textproto.CommandLine.run Textproto.systemHost arguments
  for line in ending.output do
    IO.println line
  return ending.code
