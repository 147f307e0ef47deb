import DeclBridge.Output
import DeclBridge.Render.Nodes
import DeclBridge.Ruleset.OfJson

/-!
Sessions: source texts, files and folders that are rendered one after the other on one output. A
source text that cannot be read does not end a session; an output that fails does.
-/

namespace DeclBridge

namespace Diagnostic

/-- The text of a log of diagnostics, each on a line. -/
def log (diagnostics : List Diagnostic) : String :=
  unlines (diagnostics.map message)

end Diagnostic

/-- The ruleset in the file that a path leads to. -/
def Disk.readRuleset (d : Disk) (path : String) : Except Error Ruleset :=
  match d.readText path with
  | .ok text => (Ruleset.ofText text).mapError (.ruleset (some path))
  | .error fault => .error (.disk path fault)

/-- The nodes of the file that a path leads to. -/
def Disk.readNodes (d : Disk) (path : String) : Except Error (List Node) :=
  match d.readText path with
  | .ok source => Node.ofSource source
  | .error fault => .error (.disk path fault)

/-- The files, the output and the diagnostics so far. -/
structure Session where
  disk : Disk
  output : Output
  diagnostics : List Diagnostic

/-- How many files were rendered and how many were not, and the number of items written. -/
structure Summary where
  files : Nat
  skipped : Nat
  declarations : Nat
deriving DecidableEq, Repr

namespace Session

/-- The path that stands for the output in errors. -/
def outputPath : String := "<output>"

def write (s : Session) (text : String) : Except Error Unit × Session :=
  let (result, output, disk) := s.output.write s.disk text.toUTF8
  (result.mapError (.disk outputPath), { s with output, disk })

/-- Writes items, each with an empty line behind it, until one cannot be written. -/
def writeItems (s : Session) : List String → Except Error Unit × Session
  | [] => (.ok (), s)
  | text :: texts =>
      match s.write text with
      | (.error e, s) => (.error e, s)
      | (.ok (), s) =>
          match s.write "\n" with
          | (.error e, s) => (.error e, s)
          | (.ok (), s) => s.writeItems texts

def report (s : Session) (d : Diagnostic) : Session :=
  { s with diagnostics := s.diagnostics ++ [d] }

/-- Renders nodes and writes their items; gives the number of items. All diagnostics are reported
before anything is written. -/
def takeNodes (r : Ruleset) (s : Session) (nodes : List Node) : Except Error Nat × Session :=
  let (texts, diagnostics) := r.items nodes
  let (result, s) := { s with diagnostics := s.diagnostics ++ diagnostics }.writeItems texts
  (result.map fun _ => texts.length, s)

def takeSource (r : Ruleset) (s : Session) (source : String) : Except Error Nat × Session :=
  match Node.ofSource source with
  | .ok nodes => s.takeNodes r nodes
  | .error e => (.error e, s)

/-- Renders a file; gives the number of items, or nothing if the file cannot be read. -/
def takeFile (r : Ruleset) (s : Session) (path : String) :
    Except Error (Option Nat) × Session :=
  match s.disk.readNodes path with
  | .ok nodes =>
      let (result, s) := s.takeNodes r nodes
      (result.map some, s)
  | .error e => (.ok none, s.report ⟨.file, path, e⟩)

/-- Renders files one after the other. -/
def takeFiles (r : Ruleset) (sum : Summary) (s : Session) :
    List String → Except Error Summary × Session
  | [] => (.ok sum, s)
  | path :: paths =>
      match s.takeFile r path with
      | (.error e, s) => (.error e, s)
      | (.ok none, s) => s.takeFiles r { sum with skipped := sum.skipped + 1 } paths
      | (.ok (some count), s) =>
          s.takeFiles r
            { sum with files := sum.files + 1, declarations := sum.declarations + count } paths

/-- Renders the files that paths stand for, one path after the other. -/
def takePathsFrom (r : Ruleset) (sum : Summary) (s : Session) :
    List String → Except Error Summary × Session
  | [] => (.ok sum, s)
  | path :: paths =>
      match s.takeFiles r sum (s.disk.expand path) with
      | (.error e, s) => (.error e, s)
      | (.ok sum, s) => s.takePathsFrom r sum paths

def takePaths (r : Ruleset) (s : Session) (paths : List String) :
    Except Error Summary × Session :=
  s.takePathsFrom r ⟨0, 0, 0⟩ paths

end Session

end DeclBridge
