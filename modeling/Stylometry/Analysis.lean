-- The analysis of sources. What goes wrong with one source makes its record incomplete and
-- touches no other source.
import Stylometry.Expansion
import Stylometry.Files.Sources
import Stylometry.Grammar.Convert
import Stylometry.Gzip.Archive
import Stylometry.Ngram.Vocabulary
import Stylometry.Record

namespace Stylometry

/-- Why one source cannot be measured. -/
inductive SourceFailure where
  | syntaxError (e : Grammar.SyntaxError)
  | degenerate (why : Degeneracy)
  | expansion (why : Expansion.Failure)
  deriving DecidableEq, Repr

/-- The failure in words. -/
def SourceFailure.message : SourceFailure → String
  | .syntaxError e =>
    s!"Parse failure at {e.position.render}: syntax error near '{String.ofList e.near}'"
  | .degenerate why => s!"Degenerate input: {why.message}"
  | .expansion why => s!"Preprocessing failed: {why.message}"

/-- Why the analysis of one source stops. -/
inductive AnalysisError where
  /-- The source cannot be measured. -/
  | failure (why : SourceFailure)
  /-- The whole run stops. -/
  | fault (f : Fault)
  deriving DecidableEq, Repr

/-- The programs that an analysis relies on, and which are not part of it. -/
structure Outside where
  /-- The tools that sources are expanded with. -/
  tools : Expansion.Tools
  /-- The parse tree of a source that is measured, given with the id of the source. -/
  parser : Text → Text → ParseTree
  /-- What compressed tables are packed with. -/
  packer : Gzip.Packer

/-- What sources are analyzed with. -/
structure Engine extends Outside where
  settings : Settings := {}
  classes : TokenClasses := .standard

/-- What the analysis of one source gives. -/
structure Analysis where
  record : Record
  tables : PerOrder Ngram.Table

namespace Engine

/-! ## One source -/

/-- Whether a source needs expansion. -/
def requiresExpansion (e : Engine) (source : Text) : Bool :=
  Expansion.isRequired e.settings.expansion source

/-- The source that is measured: expanded if it needs that. -/
def prepare (e : Engine) (source : Text) : Text :=
  if e.requiresExpansion source then Expansion.prepare e.tools e.settings.expansion source
  else source

/-- The tally of a source with all that its measures need to know besides. -/
def tally (e : Engine) (id source : Text) : Except SourceFailure (Tally × MeasureInputs Float) := do
  let lexical ← (Lexical.ofTokens (tokenize source) e.classes).mapError .degenerate
  let tree ← (Grammar.parse source (e.parser id source)).mapError .syntaxError
  return (Tally.ofTree tree, ⟨.ofText source, lexical, e.settings.readability⟩)

/-- The record of a source, without expansion. -/
def measure (e : Engine) (id source : Text) : Except AnalysisError Record := do
  let (tally, inputs) ← (e.tally id source).mapError .failure
  (tally.record id inputs).mapError .fault

/-- The record of a prepared source. A source that cannot be measured has an incomplete
one. -/
def record (e : Engine) (id prepared : Text) (required : Bool) : Except Fault Record :=
  match e.measure id prepared with
  | .ok r => .ok { r with requiresExpansion := required }
  | .error (.failure _) => .ok (.incomplete id required)
  | .error (.fault f) => .error f

/-- The record and the tables of a source. -/
def analyze (e : Engine) (id source : Text) : Except Fault Analysis := do
  let prepared := e.prepare source
  let record ← e.record id prepared (e.requiresExpansion source)
  return ⟨record, Ngram.countAll ((tokenize prepared).map (·.kind))⟩

/-! ## Files -/

/-- The record and the tables of a file. A file that cannot be read has an incomplete record
and empty tables. -/
def analyzeFile (e : Engine) (store : Files.Store) (path : Files.Path) : Except Fault Analysis :=
  match store.readSource path with
  | .ok source => e.analyze path source
  | .error _ => .ok ⟨.incomplete path false, .ofFn fun _ => .empty⟩

/-- The records and the tables of some files, in their order. -/
def analyzeFiles (e : Engine) (store : Files.Store) (paths : List Files.Path) :
    Except Fault (List Analysis) :=
  paths.mapM (e.analyzeFile store)

/-- The tables of a corpus of files. -/
def countFiles (e : Engine) (store : Files.Store) (paths : List Files.Path) :
    Except Fault Ngram.Corpus := do
  let analyses ← e.analyzeFiles store paths
  Ngram.Corpus.ofFiles (analyses.map (·.tables))

end Engine

/-! ## Features of records -/

/-- The record with the features of a file for some vocabularies. Of two vocabularies of one
order the last one counts. -/
def Record.encode (r : Record) (tables : PerOrder Ngram.Table)
    (vocabularies : List Ngram.Vocabulary) : Record :=
  vocabularies.foldl
    (fun r v => r.withFeatures v.order ((tables.get v.order).features v).render) r

/-- The tables of the file of a record that can have features. -/
def Record.tablesIn? (r : Record) (tables : List (Text × PerOrder Ngram.Table)) :
    Option (PerOrder Ngram.Table) :=
  if r.completed then tables.lookup r.id else none

/-- The records with features, and how many of them got some: those that are completed and
whose file has tables. -/
def Record.encodeAll (records : List Record) (tables : List (Text × PerOrder Ngram.Table))
    (vocabularies : List Ngram.Vocabulary) : List Record × Nat :=
  (records.map fun r =>
      match r.tablesIn? tables with
      | some file => r.encode file vocabularies
      | none => r,
    records.countP fun r => (r.tablesIn? tables).isSome)

end Stylometry
