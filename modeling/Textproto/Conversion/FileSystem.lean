import Textproto.Conversion.Fault
import Textproto.Data.Entries

namespace Textproto

/-! Paths, and files and directories as a value. -/

namespace Path

/-- A file in a directory. An absolute file stands for itself. -/
def join (directory file : String) : String :=
  if file.toList.head? = some '/' then file
  else if directory = "" then file
  else if directory.toList.getLast? = some '/' then directory ++ file
  else directory ++ "/" ++ file

/-- A text cut at a character. -/
def cut (mark : Char) : List Char → List (List Char)
  | [] => [[]]
  | c :: rest =>
      if c = mark then [] :: cut mark rest
      else
        match cut mark rest with
        | [] => [[c]]
        | first :: more => (c :: first) :: more

/-- The steps that a path takes. What ends in a slash has to be a directory. -/
def steps (path : String) : List String :=
  let segments := (cut '/' path.toList).map String.ofList
  let inner := segments.dropLast.filter (· ≠ "")
  match segments.getLast? with
  | some "" => inner ++ ["."]
  | some last => inner ++ [last]
  | none => inner

/-- What a path is compared by. Repeated slashes, one at the end and `.` do not count, but a `.`
that a relative path begins with does. -/
def components (path : String) : List String :=
  let segments := (cut '/' path.toList).map String.ofList
  let named := segments.filter fun segment => segment ≠ "" && segment ≠ "."
  match segments with
  | "." :: _ => "." :: named
  | "" :: _ :: _ => "/" :: named
  | _ => named

end Path

/-- The names that lead from the root to a file or a directory. -/
abbrev Place := List String

inductive Entry where
  | directory
  | file (bytes : List UInt8)
  deriving Repr, DecidableEq

/-- Directories and files below a working directory. Nothing above it can be seen. -/
structure FileSystem where
  entries : List (Place × Entry) := []
  deriving Repr, DecidableEq

namespace FileSystem

def get? (files : FileSystem) (place : Place) : Option Entry :=
  if place = [] then some .directory else Entries.get? place files.entries

def put (files : FileSystem) (place : Place) (entry : Entry) : FileSystem :=
  ⟨Entries.put place entry files.entries⟩

/-- The longest name that a directory takes, in bytes. -/
def nameLimit : Nat := 255

/-- The longest path, in bytes. -/
def pathLimit : Nat := 4095

/-- One step on from a directory. -/
def step (files : FileSystem) (place : Place) (name : String) : Except Fault Place :=
  match files.get? place with
  | none => .error .notFound
  | some (.file _) => .error .notDirectory
  | some .directory =>
      if name = "." then .ok place
      else if name = ".." then
        if place = [] then .error .notFound else .ok place.dropLast
      else if nameLimit < name.utf8ByteSize then .error .nameTooLong
      else .ok (place ++ [name])

def follow (files : FileSystem) (place : Place) : List String → Except Fault Place
  | [] => .ok place
  | name :: rest =>
      match files.step place name with
      | .error fault => .error fault
      | .ok next => files.follow next rest

/-- The place of a path. Every directory on the way has to be there. -/
def locate (files : FileSystem) (path : String) : Except Fault Place :=
  if '\x00' ∈ path.toList then .error .nulInPath
  else if path = "" then .error .notFound
  else if pathLimit < path.utf8ByteSize then .error .nameTooLong
  else if path.toList.head? = some '/' then .error .notFound
  else files.follow [] (Path.steps path)

def read (files : FileSystem) (path : String) : Except Fault (List UInt8) :=
  match files.locate path with
  | .error fault => .error fault
  | .ok place =>
      match files.get? place with
      | none => .error .notFound
      | some .directory => .error .isDirectory
      | some (.file bytes) => .ok bytes

/-- Creates a file, or replaces what it holds. -/
def write (files : FileSystem) (path : String) (bytes : List UInt8) :
    Except Fault FileSystem :=
  match files.locate path with
  | .error fault => .error fault
  | .ok place =>
      match files.get? place with
      | some .directory => .error .isDirectory
      | _ => .ok (files.put place (.file bytes))

/-- Follows a path and creates the directories that are not there. -/
def makeDirectoriesFrom (files : FileSystem) (place : Place) :
    List String → Except Fault FileSystem
  | [] => .ok files
  | name :: rest =>
      match files.step place name with
      | .error fault => .error fault
      | .ok next =>
          match files.get? next with
          | some .directory => files.makeDirectoriesFrom next rest
          | some (.file _) => .error .notDirectory
          | none => (files.put next .directory).makeDirectoriesFrom next rest

def makeDirectories (files : FileSystem) (path : String) : Except Fault FileSystem :=
  if '\x00' ∈ path.toList then .error .nulInPath
  else if path.toList.head? = some '/' then .error .notFound
  else files.makeDirectoriesFrom [] (Path.steps path)

/-- Removes a file, or a directory with all that is in it. -/
def remove (files : FileSystem) (path : String) : Except Fault FileSystem :=
  match files.locate path with
  | .error fault => .error fault
  | .ok place =>
      match files.get? place with
      | none => .error .notFound
      | some _ => .ok ⟨files.entries.filter fun entry => !place.isPrefixOf entry.1⟩

/-- The paths of all files and directories, these with a slash at their end, in the order of
their characters. -/
def paths (files : FileSystem) : List String :=
  let written := files.entries.map fun (place, entry) =>
    match entry with
    | .directory => "/".intercalate place ++ "/"
    | .file _ => "/".intercalate place
  written.mergeSort fun a b => !(b.toList < a.toList)

theorem get?_put_self {place : Place} (hne : place ≠ []) (files : FileSystem) (entry : Entry) :
    (files.put place entry).get? place = some entry := by
  simp [get?, put, hne]

theorem get?_put_of_ne {place other : Place} (hne : other ≠ place) (files : FileSystem)
    (entry : Entry) : (files.put place entry).get? other = files.get? other := by
  simp [get?, put, Entries.get?_put_of_ne hne]

end FileSystem

end Textproto
