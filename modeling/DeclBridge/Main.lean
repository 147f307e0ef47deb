import DeclBridge.CommandLine.Run

/-!
The program on real files. What the arguments name is read into a disk, the run is computed, and
what it printed and changed is written.
-/

namespace DeclBridge.Main

/-- The file at a location of the file system. -/
def entry (l : Location) : IO.FS.DirEntry :=
  ⟨⟨"/"⟩, String.intercalate "/" l⟩

/-- Adds the content of a file to a disk, if it can be read. -/
def loadFile (d : Disk) (l : Location) : IO Disk := do
  try return d.put l (.file (← IO.FS.readBinFile (entry l).path))
  catch _ => return d

/-- Adds the Go files directly in a folder to a disk. -/
def loadFolder (d : Disk) (l : Location) : IO Disk := do
  let mut d := d
  for e in ← (entry l).path.readDir do
    if Disk.isSourceName e.fileName && !(← e.path.isDir) then
      d ← loadFile d (l ++ [e.fileName])
  return d

/-- Adds to a disk what stands at the parts of a path from a location, and in the folder at its
end. -/
def load (d : Disk) (l : Location) : List String → IO Disk
  | [] => loadFolder d l
  | part :: rest => do
      if part = "" ∨ part = "." then load d l rest
      else if part = ".." then load d l.dropLast rest
      else
        let next := l ++ [part]
        if ← (entry next).path.isDir then load (d.put next .folder) next rest
        else loadFile d next

/-- The disk that options need. -/
def diskFor (o : Options) : IO Disk := do
  let home := (Disk.parts (← IO.FS.realPath ".").toString).filter (· ≠ "")
  let mut d := Disk.putFolders ⟨[], home⟩ home
  for path in o.paths ++ o.config.toList ++ o.output.toList do
    d ← load d (d.origin path) (Disk.parts path)
  return d

/-- Writes the files that a run has changed. -/
def save (before after : Disk) : IO Unit :=
  for (l, e) in after.entries do
    if before.get? l ≠ some e then
      if let .file content := e then IO.FS.writeBinFile (entry l).path content

end DeclBridge.Main

open DeclBridge

def main (args : List String) : IO UInt32 := do
  let disk ← match Options.parse args with
    | .run o => Main.diskFor o
    | _ => pure ⟨[], []⟩
  let outcome := CommandLine.run args disk
  Main.save disk outcome.disk
  (← IO.getStdout).write outcome.stdout
  (← IO.getStderr).putStr outcome.stderr
  return outcome.exitCode.toUInt32
