-- The texts that explain the command line.
import Stylometry.Command.Arguments

namespace Stylometry.Command

/-- The name of the program with its version. -/
def versionText : String := "cpp-metrics 0.1.0\n"

/-- The options that all commands share, as they are explained between the others. -/
def verboseLine : String := "  -v, --verbose            Enable verbose logging\n"

def configLine : String := "  -c, --config <CONFIG>    Path to a TOML configuration file\n"

def workersLine : String :=
  "  -w, --workers <WORKERS>  Number of parallel workers (overrides the configuration)\n"

def helpLine : String := "  -h, --help               Print help\n"

def tablesLine : String :=
  "  -t, --tables <TABLES>    Directory holding the global tables\n"

def outputLine : String :=
  "  -o, --output <OUTPUT>    Output file (stdout if not specified)\n"

def pathLines : String := "Arguments:\n  <PATH>  Source file or directory\n\n"

/-- What a command does. -/
def Verb.about : Verb → String
  | .analyze => "Compute metrics for a file or every C/C++ source under a directory"
  | .countNgrams => "Count n-grams over a corpus and store the global tables"
  | .extract => "Compute metrics with n-gram features against stored global tables"
  | .meaning => "Print the token meaning of each vocabulary"

/-- The help for the program. -/
def programHelp : String :=
  "Style and complexity metrics and token n-gram features for C++ sources\n\n" ++
  "Usage: cpp-metrics [OPTIONS] <COMMAND>\n\nCommands:\n" ++
  "  analyze       " ++ Verb.analyze.about ++ "\n  count-ngrams  " ++ Verb.countNgrams.about ++
  "\n  extract       " ++ Verb.extract.about ++ "\n  meaning       " ++ Verb.meaning.about ++
  "\n  help          Print this message or the help of the given subcommand(s)\n\nOptions:\n" ++
  verboseLine ++ configLine ++ workersLine ++ helpLine ++
  "  -V, --version            Print version\n"

/-- The help for a command. -/
def Verb.help (verb : Verb) : String :=
  let usage (parts : String) :=
    verb.about ++ "\n\nUsage: cpp-metrics " ++ verb.name ++ " [OPTIONS]" ++ parts ++ "\n\n"
  match verb with
  | .analyze =>
    usage " <PATH>" ++ pathLines ++ "Options:\n" ++ outputLine ++ verboseLine ++ configLine ++
      "  -f, --format <FORMAT>    Output format (json, text) [default: json]\n" ++
      workersLine ++ helpLine
  | .countNgrams =>
    usage " --tables <TABLES> <PATH>" ++ pathLines ++ "Options:\n" ++ tablesLine ++ verboseLine ++
      "      --append             Add to existing tables instead of replacing them\n" ++
      configLine ++ workersLine ++ helpLine
  | .extract =>
    usage " --tables <TABLES> <PATH>" ++ pathLines ++ "Options:\n" ++ tablesLine ++ verboseLine ++
      configLine ++ outputLine ++ workersLine ++ helpLine
  | .meaning =>
    usage " --tables <TABLES>" ++ "Options:\n" ++ tablesLine ++ verboseLine ++ configLine ++
      "      --order <ORDER>      Only this order (bigram, trigram, fourgram, fivegram)\n" ++
      workersLine ++ helpLine

/-- The help for the command that gives help. -/
def helpCommandHelp : String :=
  "Print this message or the help of the given subcommand(s)\n\n" ++
  "Usage: cpp-metrics help [COMMAND]...\n\nArguments:\n" ++
  "  [COMMAND]...  Print help for the subcommand(s)\n"

/-- What is shown when there is nothing to run. -/
def NoTask.text : NoTask → String
  | .help none => programHelp
  | .help (some verb) => verb.help
  | .helpOnHelp => helpCommandHelp
  | .version => versionText
  | .usage => ""

end Stylometry.Command
