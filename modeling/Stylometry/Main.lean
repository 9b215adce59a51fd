-- The program. It takes the files that a command may read into a store, runs the command on
-- the store, and writes back what changed.
import Stylometry.Command.Run
import Stylometry.Grammar.Listing
import Stylometry.Proofs.Archives

namespace Stylometry.Main

open Files

/-- Takes up the folders that a path leads through. -/
def takeFolders (store : Store) (path : Text) : IO Store := do
  let here ← IO.currentDir
  (Place.along path).foldlM
    (fun store place => do
      if ← (here / String.ofList place.path).isDir then
        return { store with folders := place :: store.folders }
      else return store)
    store

/-- Takes up a file, or a folder with everything in it. -/
partial def takeAll (store : Store) (place : Place) : IO Store := do
  let target := (← IO.currentDir) / String.ofList place.path
  if ← target.isDir then
    let store := { store with folders := place :: store.folders }
    (← target.readDir).foldlM
      (fun store entry => takeAll store (place ++ [entry.fileName.toList])) store
  else if ← target.pathExists then
    return store.putFile place (← IO.FS.readBinFile target).toList
  else return store

/-- The listing of the parse tree of a path that is a file. -/
def listingOf (path : Text) : Text := path ++ ParseTree.listingSuffix

/-- Takes up all that a command may read. -/
def takeInputs (i : Command.Invocation) : IO Store := do
  let inputs := i.inputs ++ i.inputs.map listingOf
  let store ← (inputs ++ i.output?.toList).foldlM takeFolders {}
  inputs.foldlM (fun store path => takeAll store ((Place.along path).headD Place.base)) store

/-- Writes the files that changed, with the folders that they stand in. -/
def writeChanges (earlier later : Store) : IO Unit := do
  let here ← IO.currentDir
  for place in later.folders.reverse do
    if !earlier.folderAt place then IO.FS.createDirAll (here / String.ofList place.path)
  for (place, content) in later.files do
    if earlier.fileAt? place ≠ some content then
      IO.FS.writeBinFile (here / String.ofList place.path) ⟨content.toArray⟩

/-- What the commands rely on: trees from listings, and tools and archives of their own. -/
def outside (store : Store) : Outside where
  tools := Expansion.tools
  parser := ParseTree.beside store
  packer := .stored

/-- Runs the program on its arguments. -/
def run (arguments : List Text) : IO UInt32 := do
  let store ←
    match Command.parse arguments with
    | .ok i => takeInputs i
    | .error _ => pure {}
  let outcome := Command.run (outside store) store arguments
  writeChanges store outcome.store
  (← IO.getStdout).putStr (String.ofList outcome.printed)
  match outcome.complaints with
  | [] => pure ()
  | first :: causes =>
    IO.eprintln s!"Error: {first}"
    for cause in causes do
      IO.eprintln s!"  caused by: {cause}"
  return UInt32.ofNat outcome.status

end Stylometry.Main

def main (arguments : List String) : IO UInt32 :=
  Stylometry.Main.run (arguments.map String.toList)
