import Polysynth.Text

namespace Polysynth

inductive FileError where
  | notFound
  /-- A path leads through something that is no folder. -/
  | notFolder
  /-- A folder stands where a file is asked for. -/
  | isFolder
  | nameTooLong
  | notText
  | other (reason : String)
  deriving DecidableEq

def FileError.message : FileError → String
  | notFound => "No such file or directory (os error 2)"
  | notFolder => "Not a directory (os error 20)"
  | isFolder => "Is a directory (os error 21)"
  | nameTooLong => "File name too long (os error 36)"
  | notText => "stream did not contain valid UTF-8"
  | other reason => reason

/-- Files by path, in any setting that can read and write them. -/
structure FileSystem (m : Type → Type) where
  read : String → m (Except FileError ByteArray)
  /-- Makes a file, or replaces one, and writes these chunks to it one after the other. -/
  write : String → List (Array UInt8) → m (Except FileError Unit)

def FileSystem.readText {m : Type → Type} [Monad m] (fs : FileSystem m) (path : String) :
    m (Except FileError String) := do
  match ← fs.read path with
  | .error e => return .error e
  | .ok bytes =>
    match String.fromUTF8? bytes with
    | none => return .error .notText
    | some text => return .ok text

namespace Path

/-- The names of a path, those that stay in place or go up included. -/
def names (path : String) : List String :=
  ((Text.pieces (fun c => c == '/') path.toList).filter (fun name => !name.isEmpty)).map
    String.ofList

def isAbsolute (path : String) : Bool := path.startsWith "/"

def isFolder (path : String) : Bool := path.endsWith "/"

def components (path : String) : List String := (names path).filter (fun c => c != ".")

/-- The last name of a path without its extension. A dot that comes first starts no extension. -/
def stem? (path : String) : Option String :=
  match (components path).getLast? with
  | none => none
  | some ".." => none
  | some name =>
    match name.toList.reverse.dropWhile (fun c => c != '.') with
    | [] => some name
    | [_] => some name
    | _ :: before => some (String.ofList before.reverse)

end Path

end Polysynth
