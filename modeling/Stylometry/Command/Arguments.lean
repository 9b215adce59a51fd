-- The command line: its options, its commands, and what a list of arguments asks for.
import Stylometry.Decimal.Whole
import Stylometry.Ngram.Order

namespace Stylometry.Command

/-! ## What can be asked for -/

/-- What a command works on. -/
inductive Task where
  | analyze (path : Text) (output : Option Text) (format : Text)
  | countNgrams (path tables : Text) (append : Bool)
  | extract (path tables : Text) (output : Option Text)
  | meaning (tables : Text) (order : Option Order)
  deriving DecidableEq, Repr

/-- A command with the settings that it runs with. -/
structure Invocation where
  config : Option Text
  workers : Option Nat
  task : Task
  deriving DecidableEq, Repr

/-- The paths that a command reads from. -/
def Invocation.inputs (i : Invocation) : List Text :=
  i.config.toList ++
    match i.task with
    | .analyze path .. => [path]
    | .countNgrams path tables _ | .extract path tables _ => [path, tables]
    | .meaning tables _ => [tables]

/-- The path that a command writes a report to. -/
def Invocation.output? (i : Invocation) : Option Text :=
  match i.task with
  | .analyze _ output _ | .extract _ _ output => output
  | _ => none

/-- The commands. -/
inductive Verb where
  | analyze
  | countNgrams
  | extract
  | meaning
  deriving DecidableEq, Repr

namespace Verb

def all : List Verb := [.analyze, .countNgrams, .extract, .meaning]

/-- The name of a command. -/
def name : Verb → String
  | .analyze => "analyze"
  | .countNgrams => "count-ngrams"
  | .extract => "extract"
  | .meaning => "meaning"

/-- The command with the given name. -/
def ofName? (t : Text) : Option Verb := all.find? (·.name.toList = t)

end Verb

/-- Why there is nothing to run. -/
inductive NoTask where
  /-- Help for the program, for a command, or for the command that gives help. -/
  | help (verb : Option Verb)
  | helpOnHelp
  | version
  /-- The arguments make no sense. -/
  | usage
  deriving DecidableEq, Repr

/-! ## Options -/

/-- What an option does. -/
inductive OptionSort where
  | flag
  | path
  | count
  | text
  | order
  | help
  | version
  deriving DecidableEq, Repr

/-- An option. -/
structure OptionSpec where
  short : Option Char
  long : String
  sort : OptionSort
  deriving DecidableEq, Repr

namespace OptionSpec

/-- Whether the option has a value. -/
def hasValue (o : OptionSpec) : Bool := o.sort ∈ [OptionSort.path, .count, .text, .order]

end OptionSpec

/-- The number that a text spells, if it fits into 64 bits. A plus sign may stand in
front. -/
def countOf? (t : Text) : Option Nat :=
  let unsigned := match t with
    | '+' :: t => t
    | t => t
  (Decimal.value? unsigned).filter (· < 2 ^ 64)

/-- Whether a value is one that the option takes. -/
def OptionSort.accepts (s : OptionSort) (value : Text) : Bool :=
  match s with
  | .path => !value.isEmpty
  | .count => (countOf? value).isSome
  | .order => (Order.ofName? (String.ofList value)).isSome
  | _ => true

/-- The options that every command takes. -/
def sharedOptions : List OptionSpec :=
  [⟨some 'v', "verbose", .flag⟩, ⟨some 'c', "config", .path⟩, ⟨some 'w', "workers", .count⟩,
   ⟨some 'h', "help", .help⟩]

/-- The options before the command. -/
def topOptions : List OptionSpec := sharedOptions ++ [⟨some 'V', "version", .version⟩]

/-- The options of a command. -/
def Verb.options : Verb → List OptionSpec
  | .analyze => [⟨some 'o', "output", .path⟩, ⟨some 'f', "format", .text⟩] ++ sharedOptions
  | .countNgrams => [⟨some 't', "tables", .path⟩, ⟨none, "append", .flag⟩] ++ sharedOptions
  | .extract => [⟨some 't', "tables", .path⟩, ⟨some 'o', "output", .path⟩] ++ sharedOptions
  | .meaning => [⟨some 't', "tables", .path⟩, ⟨none, "order", .order⟩] ++ sharedOptions

/-- Whether a command works on a path. -/
def Verb.takesPath : Verb → Bool
  | .meaning => false
  | _ => true

/-! ## Reading one argument -/

/-- What one argument holds: flags, and after them an option whose value may be part of the
argument. -/
structure Reading where
  flags : List OptionSpec
  valued : Option (OptionSpec × Option Text)

/-- Whether an argument looks like an option. A dash alone does not. -/
def isOption (t : Text) : Bool := t.head? = some '-' && t ≠ ['-']

/-- Reads an option by its long name, with a value after an equals sign. -/
def readLong? (specs : List OptionSpec) (t : Text) : Option Reading := do
  let name := t.takeWhile (· ≠ '=')
  let spec ← specs.find? (·.long.toList = name)
  match t.drop name.length with
  | [] => return if spec.hasValue then ⟨[], some (spec, none)⟩ else ⟨[spec], none⟩
  | _ :: value => if spec.hasValue then return ⟨[], some (spec, some value)⟩ else none

/-- Reads options by their letters. The value of an option takes the rest of the argument,
without an equals sign in front. -/
def readShort? (specs : List OptionSpec) : Text → Option Reading
  | [] => some ⟨[], none⟩
  | c :: t => do
    let spec ← specs.find? (·.short = some c)
    if spec.hasValue then
      match t with
      | [] => return ⟨[], some (spec, none)⟩
      | '=' :: value => return ⟨[], some (spec, some value)⟩
      | value => return ⟨[], some (spec, some value)⟩
    else
      -- What follows help or version is not looked at.
      if spec.sort = .help ∨ spec.sort = .version then return ⟨[spec], none⟩
      let rest ← readShort? specs t
      return { rest with flags := spec :: rest.flags }

/-- Reads an argument that looks like an option. -/
def readOption? (specs : List OptionSpec) : Text → Option Reading
  | '-' :: '-' :: t => readLong? specs t
  | '-' :: t => readShort? specs t
  | _ => none

/-! ## Reading all arguments -/

/-- The options and the other arguments that were read. -/
structure Given where
  values : List (String × Text) := []
  others : List Text := []
  deriving DecidableEq, Repr

namespace Given

/-- The value of an option. -/
def value? (g : Given) (name : String) : Option Text := g.values.lookup name

/-- Whether a flag was given. -/
def hasFlag (g : Given) (name : String) : Bool := (g.value? name).isSome

/-- Adds an option, which must not be given twice and whose value has to be one that it
takes. -/
def add (g : Given) (spec : OptionSpec) (value : Text) : Except NoTask Given :=
  if g.hasFlag spec.long || !spec.sort.accepts value then .error .usage
  else .ok { g with values := g.values ++ [(spec.long, value)] }

/-- Adds flags. Help and version end the reading. -/
def addFlags (verb : Option Verb) (g : Given) (flags : List OptionSpec) : Except NoTask Given :=
  flags.foldlM
    (fun g spec =>
      match spec.sort with
      | .help => .error (.help verb)
      | .version => .error .version
      | _ => g.add spec [])
    g

end Given

/-- Reads arguments up to the first one that is no option, and gives that one and the rest
with the options. After two dashes nothing is an option. -/
def readOptions (verb : Option Verb) (specs : List OptionSpec) (g : Given) :
    List Text → Except NoTask (Given × Bool × List Text)
  | [] => .ok (g, false, [])
  | a :: rest =>
    if a = "--".toList then .ok (g, true, rest)
    else if isOption a then
      match readOption? specs a with
      | none => .error .usage
      | some reading => do
        let g ← g.addFlags verb reading.flags
        match reading.valued with
        | none => readOptions verb specs g rest
        | some (spec, some value) => readOptions verb specs (← g.add spec value) rest
        | some (spec, none) =>
          match rest with
          | [] => throw .usage
          | value :: rest =>
            if isOption value then throw .usage
            readOptions verb specs (← g.add spec value) rest
    else .ok (g, false, a :: rest)

/-- Adds an argument that is no option, if the command works on a path and has none yet. -/
def addOther (verb : Verb) (g : Given) (a : Text) : Except NoTask Given :=
  if verb.takesPath && g.others.isEmpty && !a.isEmpty then
    .ok { g with others := [a] }
  else .error .usage

/-- Reads the arguments of a command. A round takes the options up to an argument that is
none, and that argument. -/
def readAll (verb : Verb) : Nat → Given → List Text → Except NoTask Given
  | 0, _, _ => .error .usage
  | rounds + 1, g, arguments => do
    match ← readOptions (some verb) verb.options g arguments with
    | (g, true, rest) => rest.foldlM (addOther verb) g
    | (g, false, []) => return g
    | (g, false, a :: rest) => readAll verb rounds (← addOther verb g a) rest

/-- The task of a command with its options. -/
def taskOf? (verb : Verb) (g : Given) : Option Task :=
  match verb with
  | .analyze => do
    return .analyze (← g.others.head?) (g.value? "output") ((g.value? "format").getD "json".toList)
  | .countNgrams => do
    return .countNgrams (← g.others.head?) (← g.value? "tables") (g.hasFlag "append")
  | .extract => do return .extract (← g.others.head?) (← g.value? "tables") (g.value? "output")
  | .meaning => do
    return .meaning (← g.value? "tables")
      ((g.value? "order").bind fun s => Order.ofName? (String.ofList s))

/-- What is asked for with the name of a command after `help`. -/
def helpFor : List Text → NoTask
  | [] => .help none
  | [name] =>
    match Verb.ofName? name with
    | some verb => .help (some verb)
    | none => if name = "help".toList then .helpOnHelp else .usage
  | _ => .usage

/-- What the arguments ask for. An option that stands before the command and after it has the
value that it has after it. -/
def parse (arguments : List Text) : Except NoTask Invocation := do
  match ← readOptions none topOptions {} arguments with
  | (top, false, name :: rest) =>
    match Verb.ofName? name with
    | none => throw (if name = "help".toList then helpFor rest else .usage)
    | some verb =>
      let g ← readAll verb (rest.length + 1) {} rest
      match taskOf? verb g with
      | none => throw .usage
      | some task =>
        let shared (name : String) := (g.value? name).or (top.value? name)
        return ⟨shared "config", (shared "workers").bind countOf?, task⟩
  | _ => throw .usage

end Stylometry.Command
