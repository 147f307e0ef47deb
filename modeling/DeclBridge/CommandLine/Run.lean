import DeclBridge.CommandLine.Options
import DeclBridge.Session

/-!
The program: from arguments and files to an exit code, the texts that it prints and the files that
it leaves.
-/

namespace DeclBridge

/-- What a run of the program leaves behind. -/
structure Outcome where
  exitCode : Nat
  stdout : ByteArray
  stderr : String
  disk : Disk

namespace CommandLine

/-- What is printed when no path is given. -/
def usage : String := "usage: go2rs [<path>...]\n"

def version : String := "go2rs 0.1.0\n"

def help : String :=
  "Translate Go type declarations into Rust serde types\n\n" ++
  "Usage: go2rs [OPTIONS] [PATHS]...\n\n" ++
  "Arguments:\n" ++
  "  [PATHS]...  Go source files, or directories of them\n\n" ++
  "Options:\n" ++
  "      --ruleset <RULESET>  Built-in ruleset to translate with [default: current] " ++
  "[possible values: current, legacy]\n" ++
  "  -c, --config <CONFIG>    JSON ruleset file (overrides --ruleset)\n" ++
  "  -o, --output <OUTPUT>    Write to this file instead of stdout\n" ++
  "      --prelude            Emit the `use` lines the generated types need\n" ++
  "  -h, --help               Print help\n" ++
  "  -V, --version            Print version\n"

/-- What is printed when the arguments ask for nothing that there is. -/
def misuse : String :=
  "error: invalid arguments\n\nUsage: go2rs [OPTIONS] [PATHS]...\n\n" ++
  "For more information, try '--help'.\n"

/-- The line that makes the names of maps known. -/
def preludeText : String := "use std::collections::HashMap;\n\n"

/-- The report of a failure: what could not be done, and why. Every line of the reason is set
in. -/
def failureText (what : String) (cause : String) : String :=
  let lines := (Text.split '\n' cause.toList).map String.ofList
  "Error: " ++ what ++ "\n\nCaused by:\n" ++ unlines (lines.map ("    " ++ ·))

/-- An outcome without output. -/
def failed (disk : Disk) (what : String) (cause : String) : Outcome :=
  ⟨1, .empty, failureText what cause, disk⟩

/-- The ruleset that options ask for: that of a file before that of a preset. -/
def ruleset (o : Options) (d : Disk) : Except Error Ruleset :=
  match o.config with
  | some path => d.readRuleset path
  | none => return .ofPreset (o.preset.getD .current)

/-- A run on an output that is open: the prelude, if it is asked for, and the items of all files. -/
def render (o : Options) (r : Ruleset) (d : Disk) (output : Output) : Outcome :=
  let s : Session := ⟨d, output, []⟩
  -- This cannot fail: the output is a file or memory without a limit.
  let (_, s) := if o.prelude then s.write preludeText else (.ok (), s)
  let (result, s) := s.takePaths r o.paths
  let log := Diagnostic.log s.diagnostics
  let disk := s.output.flush s.disk
  match result with
  | .ok _ => ⟨0, s.output.taken, log, disk⟩
  | .error e => ⟨1, s.output.taken, log ++ "Error: " ++ e.message ++ "\n", disk⟩

/-- A run for options. The ruleset is read first, then the output is opened, and only then are
files read. -/
def runOptions (o : Options) (d : Disk) : Outcome :=
  if o.paths = [] then ⟨0, usage.toUTF8, "", d⟩
  else
    match ruleset o d with
    | .error e => failed d ("could not load ruleset " ++ o.config.getD "") e.message
    | .ok r =>
        match o.output with
        | none => render o r d (.empty none)
        | some path =>
            match d.create path with
            | .error fault => failed d ("could not create " ++ path) fault.message
            | .ok (d, location) => render o r d (.file location .empty)

def run (args : List String) (d : Disk) : Outcome :=
  match Options.parse args with
  | .run o => runOptions o d
  | .help => ⟨0, help.toUTF8, "", d⟩
  | .version => ⟨0, version.toUTF8, "", d⟩
  | .invalid => ⟨2, .empty, misuse, d⟩

end CommandLine

end DeclBridge
