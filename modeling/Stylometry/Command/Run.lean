-- The commands, as functions on a store of files and on what is printed.
import Stylometry.Analysis
import Stylometry.Command.Help
import Stylometry.Ngram.Storage
import Stylometry.Report

namespace Stylometry.Command

/-! ## Sessions -/

/-- Why a command fails. -/
inductive Failure where
  | settings (e : Settings.FileFailure)
  | unknownFormat (name : Text)
  | missingPath (path : Files.Path)
  | cannotCreate (path : Files.Path) (e : Files.FileError)
  /-- A table or a vocabulary fails; the context says what it was needed for. -/
  | storage (context : Option String) (e : Ngram.StorageError)
  deriving DecidableEq, Repr

/-- The failure in words, and after it what caused it. -/
def Failure.chain : Failure → List String
  | .settings e => e.chain
  | .unknownFormat name => [ReportFormat.unknownName name]
  | .missingPath path => [s!"Path does not exist: {String.ofList path}"]
  | .cannotCreate path e => [s!"Failed to create output file {String.ofList path}", e.message]
  | .storage context e => context.toList ++ [e.message]

/-- Why a command stops. -/
inductive Stop where
  | failure (f : Failure)
  | fault (f : Fault)
  deriving DecidableEq, Repr

/-- What commands work on. -/
structure World where
  store : Files.Store
  printed : Text := []

/-- Work that may stop. What was done before stays done. -/
abbrev Session := ExceptT Stop (StateM World)

namespace Session

/-- Prints a text. -/
def print (t : Text) : Session Unit := modify fun w => { w with printed := w.printed ++ t }

/-- The store of files. -/
def files : Session Files.Store := return (← get).store

/-- Stops the command with a failure. -/
def fail (f : Failure) : Session α := throw (.failure f)

/-- A result that may be a fault. -/
def ofFault (r : Except Fault α) : Session α :=
  match r with
  | .ok a => pure a
  | .error f => throw (.fault f)

/-- Work on the store, with what it is needed for. -/
def ofStoring (context : Option String) (work : Ngram.Storing α) : Session α := do
  let world ← get
  let (result, store) := work.run.run world.store
  set { world with store }
  match result with
  | .ok a => return a
  | .error e => fail (.storage context e)

/-- A result that may be a failure of the storage. -/
def ofStorage (context : Option String) (r : Except Ngram.StorageError α) : Session α :=
  match r with
  | .ok a => pure a
  | .error e => fail (.storage context e)

end Session

open Session

/-! ## Commands -/

/-- The sources below a path, which has to exist. -/
def sources (path : Files.Path) : Session (List Files.Path) := do
  let store ← files
  if !store.present path then fail (.missingPath path)
  return store.sources path

/-- Writes a report into a file if there is a path, and prints it otherwise. -/
def writeReport (output : Option Files.Path) (report : Text) : Session Unit := do
  match output with
  | none => print report
  | some path =>
    let world ← get
    match world.store.write path (Bytes.ofString (String.ofList report)) with
    | .ok store => set { world with store }
    | .error e => fail (.cannotCreate path e)

/-- Reports the measures of sources. -/
def analyze (engine : Engine) (path : Files.Path) (output : Option Files.Path) (format : Text) :
    Session Unit := do
  match ReportFormat.ofName? format with
  | none => fail (.unknownFormat format)
  | some format =>
    let paths ← sources path
    let analyses ← ofFault (engine.analyzeFiles (← files) paths)
    writeReport output (format.report (analyses.map (·.record)))

/-- Counts the n-grams of sources and stores the tables, on top of the stored ones if they
are to stay. -/
def countNgrams (engine : Engine) (path tables : Files.Path) (append : Bool) : Session Unit := do
  let paths ← sources path
  let store ← files
  let earlier ←
    if append && store.present tables then
      ofStorage s!"Failed to load existing tables from {String.ofList tables}"
        (Ngram.Corpus.load store tables)
    else pure Ngram.Corpus.empty
  let counted ← ofFault (engine.countFiles store paths)
  let corpus ← ofFault (earlier.absorb counted)
  ofStoring s!"Failed to store tables to {String.ofList tables}"
    (corpus.store engine.packer tables engine.settings.compressTables)

/-- Reports the measures of sources with features for the stored tables, and stores the
vocabularies that the features are for. -/
def extract (engine : Engine) (path tables : Files.Path) (output : Option Files.Path) :
    Session Unit := do
  let paths ← sources path
  let corpus ← ofStorage s!"Failed to load global tables from {String.ofList tables}"
    (Ngram.Corpus.load (← files) tables)
  let vocabularies := corpus.vocabularies engine.settings.vocabularySize
  for v in vocabularies do
    ofStoring none (v.store (Ngram.Vocabulary.pathIn tables v.order))
  let analyses ← ofFault (engine.analyzeFiles (← files) paths)
  let (records, _) := Record.encodeAll (analyses.map (·.record))
    (analyses.map fun a => (a.record.id, a.tables)) vocabularies
  writeReport output (ReportFormat.json.report records)

/-- The vocabulary of one order: the stored one if there is one, and otherwise the one that
the stored tables give. -/
def vocabularyOf (settings : Settings) (tables : Files.Path) (o : Order) :
    Session Ngram.Vocabulary := do
  let store ← files
  let stored := Ngram.Vocabulary.pathIn tables o
  if store.present stored then ofStorage none (Ngram.Vocabulary.load store stored)
  else
    let corpus ← ofStorage s!"No vocabularies or global tables in {String.ofList tables}"
      (Ngram.Corpus.load store tables)
    return .select (corpus.get o) settings.vocabularySize

/-- Prints what the vocabularies of one order or of all orders mean. -/
def meaning (settings : Settings) (tables : Files.Path) (only : Option Order) :
    Session Unit := do
  let orders := match only with
    | some o => [o]
    | none => Order.all
  for o in orders do
    let v ← vocabularyOf settings tables o
    print (o.name.toList ++ '\t' :: v.meaning ++ ['\n'])

/-- Runs a task. -/
def runTask (engine : Engine) : Task → Session Unit
  | .analyze path output format => analyze engine path output format
  | .countNgrams path tables append => countNgrams engine path tables append
  | .extract path tables output => extract engine path tables output
  | .meaning tables order => meaning engine.settings tables order

/-- Runs a command with its settings. -/
def runInvocation (outside : Outside) (i : Invocation) : Session Unit := do
  match Settings.loadOrStandard (← files) i.config with
  | .error e => fail (.settings e)
  | .ok settings =>
    let settings := { settings with workers := i.workers.getD settings.workers }
    runTask { outside with settings } i.task

/-! ## The program -/

/-- What a run of the program leaves behind. -/
structure Outcome where
  status : Nat
  printed : Text
  /-- What went wrong, and after it what caused it. -/
  complaints : List String
  store : Files.Store

/-- Runs the program on a store of files. -/
def run (outside : Outside) (store : Files.Store) (arguments : List Text) : Outcome :=
  match parse arguments with
  | .error .usage => ⟨2, [], ["invalid arguments"], store⟩
  | .error why => ⟨0, why.text.toList, [], store⟩
  | .ok i =>
    match (runInvocation outside i).run.run { store } with
    | (.ok (), world) => ⟨0, world.printed, [], world.store⟩
    | (.error (.failure f), world) => ⟨1, world.printed, f.chain, world.store⟩
    | (.error (.fault _), world) => ⟨101, world.printed, [], world.store⟩

end Stylometry.Command
