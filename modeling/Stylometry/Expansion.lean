-- The expansion of macros before a source is measured. A tool expands the source and marks
-- which lines come from which file; only the lines of the source itself are kept.
import Stylometry.Settings
import Stylometry.Text.Encoding
import Stylometry.Text.Lines

namespace Stylometry.Expansion

/-! ## Line markers -/

/-- The name under which a tool knows the source that it reads from its input. -/
def sourceName : Text := "<stdin>".toList

/-- The text up to a quote, where a backslash takes the character after it along. -/
def upToQuote? : Text → Option Text
  | [] => none
  | '"' :: _ => some []
  | '\\' :: c :: t => (upToQuote? t).map ('\\' :: c :: ·)
  | c :: t => if c = '\\' then none else (upToQuote? t).map (c :: ·)

/-- The text after one blank or more. -/
def afterBlanks? (t : Text) : Option Text :=
  match t with
  | [] => none
  | c :: t => if Text.isBlank c then some (t.dropWhile Text.isBlank) else none

/-- The file name on a line marker: `#`, the word `line` or nothing, a number and the name in
quotes. What follows the name does not matter. -/
def markedName? (line : Text) : Option Text :=
  match line with
  | '#' :: t => do
    let t := t.dropWhile Text.isBlank
    let t ← match Text.stripStart? "line".toList t with
      | some t => afterBlanks? t
      | none => some t
    if (t.takeWhile Text.isDecimal).isEmpty then none
    match ← afterBlanks? (t.dropWhile Text.isDecimal) with
    | '"' :: t => upToQuote? t
    | _ => none
  | _ => none

/-- The lines that belong to the source. Before the first marker all do. -/
def sourceLines (inSource : Bool) : List Text → List Text
  | [] => []
  | line :: lines =>
    match markedName? line with
    | some name => sourceLines (name = sourceName) lines
    | none => if inSource then line :: sourceLines inSource lines else sourceLines inSource lines

/-- The expanded text of the source alone, each line with a line feed. -/
def keepSource (expanded : Text) : Text :=
  (sourceLines true (Text.lines expanded)).flatMap (· ++ ['\n'])

/-! ## Tools -/

/-- What a tool leaves behind. -/
structure Outcome where
  status : Nat
  output : Bytes
  errors : Bytes

/-- A tool works on its arguments and its input. -/
abbrev Tool := List Text → Bytes → Outcome

/-- The tools that can be run, by name. -/
abbrev Tools := Text → Option Tool

/-- The bytes of a text in UTF-8. -/
def bytes (t : Text) : Bytes := Bytes.ofString (String.ofList t)

/-- Copies its input. It sees no files: every argument but a dash names a missing one. A
second dash finds the input used up. -/
def copy : Tool := fun arguments input =>
  let arguments := if arguments.isEmpty then [['-']] else arguments
  let missing := arguments.filter (· ≠ ['-'])
  { status := if missing.isEmpty then 0 else 1
    output := if arguments.contains ['-'] then input else []
    errors := missing.flatMap fun name =>
      bytes ("cat: ".toList ++ name ++ ": No such file or directory\n".toList) }

/-- The characters of a set, where a dash between two of them stands for a range. -/
def charSet : Text → List UInt8
  | a :: '-' :: b :: t =>
    (List.range (b.toNat + 1 - a.toNat)).map (fun i => UInt8.ofNat (a.toNat + i)) ++ charSet t
  | c :: t => bytes [c] ++ charSet t
  | [] => []

/-- Replaces each byte of the first set by the byte at its place in the second set, whose
last byte stands for all further places. -/
def exchange : Tool
  | [first, second], input =>
    let target := charSet second
    let pairs := (charSet first).zipIdx.map fun (b, i) =>
      (b, target.getD i (target.getLastD b))
    { status := 0, output := input.map fun b => (pairs.lookup b).getD b, errors := [] }
  | _, _ => { status := 1, output := [], errors := bytes "tr: missing operand\n".toList }

/-- Keeps the lines that hold a word. -/
def search : Tool
  | [word], input =>
    let kept := (Text.lines (Encoding.utf8 input)).filter (Text.holds word ·)
    { status := if kept.isEmpty then 1 else 0
      output := bytes (kept.flatMap (· ++ ['\n']))
      errors := [] }
  | _, _ => { status := 2, output := [], errors := bytes "Usage: grep PATTERN\n".toList }

/-- The tools that come with the program. -/
def tools : Tools := fun name =>
  if name = "cat".toList then some copy
  else if name = "tr".toList then some exchange
  else if name = "grep".toList then some search
  else none

/-! ## Expansion -/

/-- Why a source is not expanded. -/
inductive Failure where
  | emptyCommand
  | noSuchTool (name : Text)
  /-- The tool gives up. The line is the first one that it complains with. -/
  | failed (name : Text) (status : Nat) (complaint : Text)
  deriving DecidableEq, Repr

/-- The failure in words. -/
def Failure.message : Failure → String
  | .emptyCommand => "empty preprocessor command"
  | .noSuchTool name =>
    s!"cannot run '{String.ofList name}': {Files.FileError.notFound.message}"
  | .failed name status complaint =>
    s!"'{String.ofList name}' exited with exit status: {status}: {String.ofList complaint}"

/-- The source after the tool of the settings has worked on it. -/
def expand (tools : Tools) (settings : ExpansionSettings) (source : Text) :
    Except Failure Text :=
  match Text.words settings.command with
  | [] => .error .emptyCommand
  | name :: arguments =>
    match tools name with
    | none => .error (.noSuchTool name)
    | some tool =>
      let outcome := tool arguments (bytes source)
      if outcome.status = 0 then .ok (keepSource (Encoding.utf8 outcome.output))
      else
        let complaint := (Text.lines (Encoding.utf8 outcome.errors)).headD []
        .error (.failed name outcome.status complaint)

/-- Whether a source needs expansion. -/
def isRequired (settings : ExpansionSettings) (source : Text) : Bool :=
  Text.holds settings.trigger source

/-- The source that is measured. It is the source itself when expansion is switched off or
fails. -/
def prepare (tools : Tools) (settings : ExpansionSettings) (source : Text) : Text :=
  if settings.enabled then
    match expand tools settings source with
    | .ok expanded => expanded
    | .error _ => source
  else source

end Stylometry.Expansion
