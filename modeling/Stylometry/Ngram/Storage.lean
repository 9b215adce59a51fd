-- Tables and vocabularies in files. A folder holds one table for each order, and the
-- vocabularies beside them.
import Stylometry.Files.Store
import Stylometry.Gzip.Archive
import Stylometry.Json.Reader
import Stylometry.Json.Writer
import Stylometry.Ngram.Binary
import Stylometry.Ngram.Vocabulary

namespace Stylometry.Ngram

/-! ## Failures -/

/-- What is wrong with a stored table or vocabulary. -/
inductive StorageFault where
  | cannotOpenTable (e : Files.FileError)
  | cannotReadVocabulary (e : Files.TextError)
  | corruptArchive
  /-- The content is no table or no vocabulary. -/
  | content
  | wrongOrder (expected found : Order)
  deriving DecidableEq, Repr

/-- Why a phase that works on stored tables stops. -/
inductive StorageError where
  | serialization (path : Files.Path) (why : StorageFault)
  | file (path : Files.Path) (e : Files.FileError)
  deriving DecidableEq, Repr

/-- The reason in words. -/
def StorageFault.message : StorageFault → String
  | .cannotOpenTable e => s!"cannot open global table: {e.message}"
  | .cannotReadVocabulary e => s!"cannot read vocabulary: {e.message}"
  | .corruptArchive => "corrupt gzip stream"
  | .content => "malformed content"
  | .wrongOrder expected found => s!"expected {expected.name} table, found {found.name}"

/-- The failure in words. -/
def StorageError.message : StorageError → String
  | .serialization path why => s!"Serialization failure for {String.ofList path}: {why.message}"
  | .file path e => s!"I/O error for {String.ofList path}: {e.message}"

/-- Work on a store that may fail. What was done before a failure stays done. -/
abbrev Storing := ExceptT StorageError (StateM Files.Store)

/-- Replaces the store by the outcome of a file operation. -/
def Storing.change (path : Files.Path) (operation : Files.Store → Except Files.FileError Files.Store) :
    Storing Unit := do
  match operation (← get) with
  | .ok store => set store
  | .error e => throw (.file path e)

/-! ## Tables -/

namespace CorpusTable

/-- The bytes of the file of a table. -/
def fileBytes (t : CorpusTable) (packer : Gzip.Packer) (compress : Bool) : Bytes :=
  if compress then packer.pack t.encode else t.encode

/-- The table in the bytes of a file, which may be an archive. What follows the table does
not matter. -/
def ofFileBytes (bs : Bytes) : Except StorageFault CorpusTable := do
  let content ←
    if Gzip.isArchive bs then
      match Gzip.unpack? bs with
      | some content => pure content
      | none => throw .corruptArchive
    else pure bs
  match decode? content with
  | some (t, _) => return t
  | none => throw .content

/-- Writes a table into a file. -/
def store (t : CorpusTable) (packer : Gzip.Packer) (path : Files.Path) (compress : Bool) :
    Storing Unit :=
  Storing.change path (·.write path (t.fileBytes packer compress))

/-- The table in a file. -/
def load (store : Files.Store) (path : Files.Path) : Except StorageError CorpusTable :=
  match store.read path with
  | .error .isADirectory => .error (.file path .isADirectory)
  | .error e => .error (.serialization path (.cannotOpenTable e))
  | .ok bs => (ofFileBytes bs).mapError (.serialization path)

end CorpusTable

/-! ## The tables of a corpus -/

namespace Corpus

/-- The name of the file of a table. -/
def fileName (o : Order) : String := s!"global_{o.name}.bin"

/-- The path of a table in a folder. -/
def tablePath (folder : Files.Path) (o : Order) : Files.Path :=
  Files.Path.inside folder (fileName o).toList

/-- Writes all tables into a folder, which is made if it is missing. -/
def store (c : Corpus) (packer : Gzip.Packer) (folder : Files.Path) (compress : Bool) :
    Storing Unit := do
  Storing.change folder (·.createFolders folder)
  for o in Order.all do
    let t := c.get o
    t.store packer (tablePath folder t.order) compress

/-- The table of one order in a folder. -/
def loadTable (store : Files.Store) (folder : Files.Path) (o : Order) :
    Except StorageError CorpusTable := do
  let path := tablePath folder o
  let t ← CorpusTable.load store path
  if t.order = o then return t
  else throw (.serialization path (.wrongOrder o t.order))

/-- All tables in a folder. Each one has to be of the order that its file is named for. -/
def load (store : Files.Store) (folder : Files.Path) : Except StorageError Corpus :=
  PerOrder.ofFnM (loadTable store folder)

end Corpus

/-! ## Vocabularies -/

namespace Vocabulary

/-- The name of the file of a vocabulary. -/
def fileName (o : Order) : String := s!"vocabulary_{o.name}.json"

/-- The path of a vocabulary in a folder. -/
def pathIn (folder : Files.Path) (o : Order) : Files.Path :=
  Files.Path.inside folder (fileName o).toList

/-- The vocabulary as data. -/
def datum (v : Vocabulary) : Datum :=
  .table [("order".toList, .string v.order.name.toList),
    ("keys".toList, .list (v.keys.map fun key => .string key.toList))]

/-- The vocabulary from data. -/
def ofDatum? (d : Datum) : Option Vocabulary := do
  let g ← d.given? ["order", "keys"]
  let order ← g.required? 0 fun d => d.name?.bind fun s => Order.ofName? (String.ofList s)
  let keys ← g.required? 1 (Datum.list? fun d => d.text?.map String.ofList)
  return ⟨order, keys⟩

/-- The text of the file of a vocabulary. -/
def fileText (v : Vocabulary) : Text := Json.pretty v.datum

/-- The vocabulary in the text of a file. -/
def ofFileText? (t : Text) : Option Vocabulary := (Json.read? t).bind ofDatum?

/-- Writes a vocabulary into a file. -/
def store (v : Vocabulary) (path : Files.Path) : Storing Unit :=
  Storing.change path (·.write path (Bytes.ofString (String.ofList v.fileText)))

/-- The vocabulary in a file. -/
def load (store : Files.Store) (path : Files.Path) : Except StorageError Vocabulary := do
  let text ← (store.readText path).mapError fun e => .serialization path (.cannotReadVocabulary e)
  match ofFileText? text with
  | some v => return v
  | none => throw (.serialization path .content)

end Vocabulary
end Stylometry.Ngram
