import Untangle.CommandLine.Options
import Untangle.Job

/-!
# Running a command line

What the program says and does for the words it is called with.
-/

namespace Untangle

namespace CommandLine

/-- What is left when the program ends. -/
structure Outcome where
  exitCode : UInt32
  /-- What it says. -/
  output : List String := []
  /-- What it says about errors. -/
  errors : List String := []
deriving DecidableEq, Repr, Inhabited

/-- How the program is called. -/
def usage : List String :=
  ["unskid [OPTIONS] <input> [SUBCOMMAND]",
    "",
    "The input is a .jar or .zip archive of classes, or a single .class file.",
    "",
    "  -o, --output-dir <dir>     directory for the result",
    "  -j, --threads <n>          number of worker threads",
    "      --max-iterations <n>   most rounds of a repeated stage (default 1000)",
    "  -g                         write flow graphs",
    "      --graphs-dir <dir>     directory for flow graphs (default .)",
    "      --strings <file>       write decrypted strings to this table",
    "      --dry                  write nothing",
    "  -v, -m, --more-verbose, -q how much is logged",
    "  -h, --help                 this text",
    "  -V, --version              the version",
    "",
    "  strings-only               write the table of strings only"]

/-- The job that a command line asks for. -/
def Options.job (o : Options) : Job.Options where
  input := o.input
  output := if o.stringsOnly then none else some (PathName.output o.input o.outputDir)
  strings := if o.stringsOnly then some (o.strings.getD "strings.csv") else o.strings
  graphsDir := if o.graphs then some o.graphsDir else none
  dry := o.dry

/-- How the classes are worked on. -/
def Options.deobfuscator (o : Options) : Deobfuscator where
  engine := .standard o.maxIterations
  graphs := o.graphs

/-- What is said when all is done. -/
def report (s : JobSummary) : String :=
  "Deobfuscated " ++ toString s.deobfuscated ++ " of " ++ toString s.units ++ " classes (" ++
    toString s.strings ++ " decrypted strings)"

variable {m : Type → Type} [Monad m] [FileSystem m]

/-- Makes the directories that results go to. -/
def prepare (o : Options) : ExceptT Error m Unit := do
  if o.dry then return ()
  if o.graphs then ExceptT.mk (FileSystem.createDirs o.graphsDir)
  match o.outputDir with
  | some dir => ExceptT.mk (FileSystem.createDirs dir)
  | none => return ()

/-- Does what the options ask for. -/
def execute (o : Options) : ExceptT Error m JobSummary := do
  prepare o
  Job.run o.deobfuscator o.job

/-- Runs a command line. -/
def run (words : List String) : m Outcome := do
  match parse words with
  | .error .help => return { exitCode := 0, output := usage }
  | .error .version => return { exitCode := 0, output := ["unskid 0.1.0"] }
  | .error (.invalid reason) => return { exitCode := 1, errors := ["error: " ++ reason] }
  | .ok o =>
    match ← (execute o).run with
    | .ok summary => return { exitCode := 0, output := [report summary] }
    | .error e => return { exitCode := 1, errors := ["error: " ++ e.message] }

end CommandLine

end Untangle
