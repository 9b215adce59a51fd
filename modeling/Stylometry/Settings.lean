-- The settings of a run, and how they are kept in a file.
import Stylometry.Files.Store
import Stylometry.Measure.Readability
import Stylometry.Text.CharClass
import Stylometry.Toml.Document
import Stylometry.Toml.Writer

namespace Stylometry

/-- Settings of the expansion of macros. -/
structure ExpansionSettings where
  enabled : Bool := true
  /-- A source that holds this text needs expansion. -/
  trigger : Text := "#define".toList
  /-- The program that expands, with its arguments. -/
  command : Text := "g++ -E -x c++ -".toList
  deriving DecidableEq, Repr

/-- The settings of a run. -/
structure Settings where
  /-- The number of keys in a vocabulary. -/
  vocabularySize : Nat := 100
  /-- The number of workers. Zero leaves the choice to the machine. -/
  workers : Nat := 0
  compressTables : Bool := true
  expansion : ExpansionSettings := {}
  readability : Readability Float := .standard

namespace Settings

/-! ## Validity -/

/-- Why settings are of no use. -/
inductive Invalid where
  | noVocabulary
  | emptyCommand
  deriving DecidableEq, Repr

/-- The reason in words. -/
def Invalid.message : Invalid → String
  | .noVocabulary => "vocabulary_size must be at least 1"
  | .emptyCommand => "preprocess.command is empty"

/-- The first reason why the settings are of no use. -/
def invalid? (s : Settings) : Option Invalid :=
  if s.vocabularySize = 0 then some .noVocabulary
  else if s.expansion.enabled && (Text.words s.expansion.command).isEmpty then some .emptyCommand
  else none

/-- Whether two settings have equal values. A value that is no number equals none. -/
def same (s t : Settings) : Bool :=
  s.vocabularySize = t.vocabularySize && s.workers = t.workers &&
    s.compressTables = t.compressTables && s.expansion = t.expansion &&
    s.readability.intercept == t.readability.intercept &&
    s.readability.volume == t.readability.volume && s.readability.lines == t.readability.lines &&
    s.readability.entropy == t.readability.entropy

/-! ## Reading -/

/-- The settings of the expansion from data. -/
def expansionOf? (d : Datum) : Option ExpansionSettings := do
  let g ← d.given? ["enabled", "trigger", "command"]
  let standard : ExpansionSettings := {}
  return {
    enabled := ← g.defaulted? 0 standard.enabled Datum.bool?
    trigger := ← g.defaulted? 1 standard.trigger Datum.text?
    command := ← g.defaulted? 2 standard.command Datum.text? }

/-- The weights of the readability from data. -/
def readabilityOf? (d : Datum) : Option (Readability Float) := do
  let g ← d.given? ["intercept", "volume", "lines", "entropy"]
  let standard := Readability.standard
  return {
    intercept := ← g.defaulted? 0 standard.intercept Datum.float?
    volume := ← g.defaulted? 1 standard.volume Datum.float?
    lines := ← g.defaulted? 2 standard.lines Datum.float?
    entropy := ← g.defaulted? 3 standard.entropy Datum.float? }

/-- The settings from data. What is not given has its standard value. -/
def ofDatum? (d : Datum) : Option Settings := do
  let g ← d.given? ["vocabulary_size", "workers", "compress_tables", "preprocess", "readability"]
  let standard : Settings := {}
  return {
    vocabularySize := ← g.defaulted? 0 standard.vocabularySize Datum.count?
    workers := ← g.defaulted? 1 standard.workers Datum.count?
    compressTables := ← g.defaulted? 2 standard.compressTables Datum.bool?
    expansion := ← g.defaulted? 3 standard.expansion expansionOf?
    readability := ← g.defaulted? 4 standard.readability readabilityOf? }

/-- The settings that a text spells. -/
def parse? (t : Text) : Option Settings := (Toml.read? t).bind ofDatum?

/-! ## Writing -/

/-- A setting on a line. -/
def line (name : String) (value : Text) : Text := name.toList ++ " = ".toList ++ value ++ ['\n']

/-- The settings as a text. There is none when a number is too large for the format. -/
def render? (s : Settings) : Option Text := do
  let vocabularySize ← Toml.countText? s.vocabularySize
  let workers ← Toml.countText? s.workers
  return line "vocabulary_size" vocabularySize ++ line "workers" workers ++
    line "compress_tables" (Toml.boolText s.compressTables) ++
    "\n[preprocess]\n".toList ++ line "enabled" (Toml.boolText s.expansion.enabled) ++
    line "trigger" (Toml.quoted s.expansion.trigger) ++
    line "command" (Toml.quoted s.expansion.command) ++
    "\n[readability]\n".toList ++ line "intercept" (Toml.floatText s.readability.intercept) ++
    line "volume" (Toml.floatText s.readability.volume) ++
    line "lines" (Toml.floatText s.readability.lines) ++
    line "entropy" (Toml.floatText s.readability.entropy)

/-! ## Files -/

/-- Why settings cannot be loaded or saved. -/
inductive FileFailure where
  | unreadable (path : Files.Path) (e : Files.TextError)
  | unparsable (path : Files.Path)
  | invalid (why : Invalid)
  /-- A number is too large for the format. -/
  | tooLarge
  | unwritable (path : Files.Path) (e : Files.FileError)
  deriving DecidableEq, Repr

/-- The failure in words, and after it what caused it. -/
def FileFailure.chain : FileFailure → List String
  | .unreadable path e => [s!"Failed to read analyzer config from {String.ofList path}", e.message]
  | .unparsable path => [s!"Failed to parse TOML config from {String.ofList path}"]
  | .invalid why => [why.message]
  | .tooLarge => ["Failed to serialize analyzer config to TOML"]
  | .unwritable path e => [s!"Failed to write analyzer config to {String.ofList path}", e.message]

/-- The settings in a file. -/
def load (store : Files.Store) (path : Files.Path) : Except FileFailure Settings := do
  let text ← (store.readText path).mapError (.unreadable path)
  match parse? text with
  | none => throw (.unparsable path)
  | some settings =>
    match settings.invalid? with
    | some why => throw (.invalid why)
    | none => return settings

/-- The settings in a file if there is a path, and the standard ones otherwise. -/
def loadOrStandard (store : Files.Store) (path : Option Files.Path) :
    Except FileFailure Settings :=
  match path with
  | some path => load store path
  | none => .ok {}

/-- Writes the settings into a file. -/
def save (s : Settings) (store : Files.Store) (path : Files.Path) :
    Except FileFailure Files.Store :=
  match s.render? with
  | none => .error .tooLarge
  | some text =>
    (store.write path (Bytes.ofString (String.ofList text))).mapError (.unwritable path)

end Settings
end Stylometry
