-- A store of files in folders, as a value. Paths are followed part by part, so a path fails
-- where it meets something that is missing or that is no folder.
import Stylometry.Bytes
import Stylometry.Files.Path

namespace Stylometry.Files

/-- Why a file operation fails. -/
inductive FileError where
  | notFound
  | alreadyExists
  | notADirectory
  | isADirectory
  deriving DecidableEq, Repr

namespace FileError

/-- The name of the kind of failure. -/
def name : FileError → String
  | .notFound => "NotFound"
  | .alreadyExists => "AlreadyExists"
  | .notADirectory => "NotADirectory"
  | .isADirectory => "IsADirectory"

/-- The failure in words. -/
def message : FileError → String
  | .notFound => "No such file or directory (os error 2)"
  | .alreadyExists => "File exists (os error 17)"
  | .notADirectory => "Not a directory (os error 20)"
  | .isADirectory => "Is a directory (os error 21)"

end FileError

/-- Why a text cannot be read. -/
inductive TextError where
  | file (e : FileError)
  /-- The bytes are no text in UTF-8. -/
  | notText
  deriving DecidableEq, Repr

/-- The failure in words. -/
def TextError.message : TextError → String
  | .file e => e.message
  | .notText => "stream did not contain valid UTF-8"

/-- Files with their content, and folders. -/
structure Store where
  files : List (Place × Bytes) := []
  folders : List Place := []

namespace Store

/-! ## What stands at a place -/

/-- The content of the file at a place. -/
def fileAt? (s : Store) (p : Place) : Option Bytes := s.files.lookup p

/-- Whether a folder stands at a place. -/
def folderAt (s : Store) (p : Place) : Bool := p.isGiven || s.folders.contains p

/-- Follows one part of a path. -/
def step (s : Store) (p : Place) (part : Text) : Except FileError Place :=
  if s.folderAt p then .ok (p.enter part)
  else if (s.fileAt? p).isSome then .error .notADirectory
  else .error .notFound

/-- The place that some parts lead to. -/
def follow (s : Store) (start : Place) (parts : List Text) : Except FileError Place :=
  parts.foldlM s.step start

/-- The place that a path leads to. Something need not stand there. -/
def resolve (s : Store) (p : Path) : Except FileError Place :=
  if p.isEmpty then .error .notFound else s.follow (Place.startOf p) p.parts

/-- Whether something stands where the path leads. -/
def present (s : Store) (p : Path) : Bool :=
  match s.resolve p with
  | .ok place => s.folderAt place || (s.fileAt? place).isSome
  | .error _ => false

/-- Whether a file stands where the path leads. -/
def isFile (s : Store) (p : Path) : Bool :=
  match s.resolve p with
  | .ok place => (s.fileAt? place).isSome
  | .error _ => false

/-! ## Reading -/

/-- The content of a file. -/
def read (s : Store) (p : Path) : Except FileError Bytes := do
  let place ← s.resolve p
  match s.fileAt? place with
  | some content => return content
  | none => throw (if s.folderAt place then .isADirectory else .notFound)

/-- The files inside a folder and the folders in it, by the names that lead to them. -/
def filesWithin (s : Store) (place : Place) : List (List Text) :=
  s.files.filterMap fun (p, _) => (place.within? p).filter (!·.isEmpty)

/-! ## Texts -/

/-- The content of a file as a text. -/
def readText (s : Store) (p : Path) : Except TextError Text := do
  let content ← (s.read p).mapError TextError.file
  match Bytes.toString? content with
  | some text => return text.toList
  | none => throw .notText

/-! ## Writing -/

/-- Sets the content of a place. -/
def putFile (s : Store) (place : Place) (content : Bytes) : Store :=
  { s with files := (place, content) :: s.files.filter (·.1 ≠ place) }

/-- Writes a file into a folder that exists. -/
def write (s : Store) (p : Path) (content : Bytes) : Except FileError Store := do
  if p.isEmpty then throw .notFound
  let parent ← s.follow (Place.startOf p) p.parts.dropLast
  let name := p.parts.getLastD []
  let place ← s.step parent name
  if s.folderAt place || name = [] then throw .isADirectory
  return s.putFile place content

/-- Takes a file away. -/
def remove (s : Store) (p : Path) : Except FileError Store := do
  let place ← s.resolve p
  if (s.fileAt? place).isNone then throw (if s.folderAt place then .isADirectory else .notFound)
  return { s with files := s.files.filter (·.1 ≠ place) }

/-- Makes the folders that some parts lead through, from the first to the last. -/
def makeFolders (s : Store) (place : Place) : List Text → Except FileError Store
  | [] => .ok s
  | part :: rest => do
    let next ← s.step place part
    if s.folderAt next then s.makeFolders next rest
    else if (s.fileAt? next).isSome then
      .error (if rest.all List.isEmpty then .alreadyExists else .notADirectory)
    else makeFolders { s with folders := next :: s.folders } next rest

/-- Makes a folder with all folders on the way to it. -/
def createFolders (s : Store) (p : Path) : Except FileError Store :=
  if p.isEmpty then .ok s else s.makeFolders (Place.startOf p) p.parts

/-- Writes a file after making the folders on the way to it. -/
def writeInside (s : Store) (p : Path) (content : Bytes) : Except FileError Store := do
  let s ← s.makeFolders (Place.startOf p) p.parts.dropLast
  s.write p content

end Store
end Stylometry.Files
