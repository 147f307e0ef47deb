import DeclBridge.Error
import DeclBridge.Text.Split

/-!
Files in folders, and the paths that lead to them. A path is walked part by part, and the first part
that cannot be taken is the fault.
-/

namespace DeclBridge

/-- A file with its content, or a folder. -/
inductive Entry where
  | file (content : ByteArray)
  | folder

instance : DecidableEq Entry
  | .file content, .file other =>
      match ByteArray.decEq content other with
      | isTrue h => isTrue (congrArg Entry.file h)
      | isFalse h => isFalse fun heq => h (Entry.file.inj heq)
  | .folder, .folder => isTrue rfl
  | .file _, .folder => isFalse fun h => Entry.noConfusion h
  | .folder, .file _ => isFalse fun h => Entry.noConfusion h

/-- The names on the way from the root to an entry. -/
abbrev Location := List String

/-- The entries of a file system, the root apart, and the folder where relative paths begin. -/
structure Disk where
  entries : List (Location × Entry)
  workingFolder : Location

namespace Disk

/-- The entry at a location. -/
def get? (d : Disk) (l : Location) : Option Entry :=
  if l = [] then some .folder else d.entries.lookup l

/-- The disk with an entry at a location, in place of what was there. -/
def put (d : Disk) (l : Location) (e : Entry) : Disk :=
  { d with entries := (l, e) :: d.entries.filter (·.1 ≠ l) }

/-- The disk with folders on the way to a location where there is nothing yet. -/
def putFolders (d : Disk) (l : Location) : Disk :=
  let folders := (List.range (l.length + 1)).map l.take
  folders.foldl (fun d folder => if (d.get? folder).isNone then d.put folder .folder else d) d

/-- The parts of a path between slashes. -/
def parts (path : String) : List String :=
  (Text.split '/' path.toList).map String.ofList

/-- The number of bytes that a name may have. -/
def maxNameSize : Nat := 255

/-- The number of bytes that a path has to stay below. -/
def maxPathSize : Nat := 4096

/-- The location that the parts of a path lead to from a location. Each part is taken in a folder;
an empty part and a dot stay there, and two dots lead to the folder around it. -/
def walk (d : Disk) (l : Location) : List String → Except DiskFault Location
  | [] => return l
  | part :: rest =>
      if d.get? l ≠ some .folder then throw .notFolder
      else if part = "" ∨ part = "." then d.walk l rest
      else if part = ".." then d.walk l.dropLast rest
      else if maxNameSize < part.utf8ByteSize then throw .nameTooLong
      else if (d.get? (l ++ [part])).isNone then throw .missing
      else d.walk (l ++ [part]) rest

/-- Checks what a path must be before it is walked. -/
def checkPath (path : String) : Except DiskFault Unit :=
  if path.toList.contains '\x00' then throw .nulInName
  else if path = "" then throw .missing
  else if maxPathSize ≤ path.utf8ByteSize then throw .nameTooLong
  else return

/-- The location where a path begins. -/
def origin (d : Disk) (path : String) : Location :=
  if path.toList.head? = some '/' then [] else d.workingFolder

def resolve (d : Disk) (path : String) : Except DiskFault Location := do
  checkPath path
  d.walk (d.origin path) (parts path)

def isFolder (d : Disk) (path : String) : Bool :=
  match d.resolve path with
  | .ok l => d.get? l == some .folder
  | .error _ => false

def isFile (d : Disk) (path : String) : Bool :=
  match d.resolve path with
  | .ok l => (d.get? l).any (· ≠ .folder)
  | .error _ => false

def readText (d : Disk) (path : String) : Except DiskFault String := do
  match d.get? (← d.resolve path) with
  | some (.file content) =>
      match String.fromUTF8? content with
      | some text => return text
      | none => throw .notText
  | some .folder => throw .isFolder
  | none => throw .missing

/-- The disk with an empty file where a path leads to, and the location of the file. All folders on
the way have to be there. -/
def create (d : Disk) (path : String) : Except DiskFault (Disk × Location) := do
  checkPath path
  let way := (parts path).reverse
  let named := way.dropWhile (· = "")
  let name := named.headD ""
  let folder ← d.walk (d.origin path) named.tail.reverse
  if d.get? folder ≠ some .folder then throw .notFolder
  -- A slash at the end asks for a folder.
  if way ≠ named ∨ name = "." ∨ name = ".." then throw .isFolder
  if maxNameSize < name.utf8ByteSize then throw .nameTooLong
  let l := folder ++ [name]
  if d.get? l = some .folder then throw .isFolder
  return (d.put l (.file .empty), l)

/-- The disk with more bytes at the end of a file. -/
def append (d : Disk) (l : Location) (bytes : ByteArray) : Disk :=
  match d.get? l with
  | some (.file content) => d.put l (.file (content ++ bytes))
  | _ => d

/-- Whether a name ends in the suffix of Go files, and does not consist of it. -/
def isSourceName (name : String) : Bool :=
  ['.', 'g', 'o'].isSuffixOf name.toList && 3 < name.length

/-- The path of a name in the folder at a path. -/
def join (path name : String) : String :=
  if path.toList.getLast? = some '/' then path ++ name else path ++ "/" ++ name

/-- The name of an entry that is a Go file directly in a folder. -/
def sourceName? (folder : Location) : Location × Entry → Option String
  | (l, .file _) => l.getLast?.filter fun name => l.dropLast = folder ∧ isSourceName name
  | (_, .folder) => none

/-- The names of Go files directly in a folder, sorted. -/
def sourceNames (d : Disk) (folder : Location) : List String :=
  (d.entries.filterMap (sourceName? folder)).mergeSort (· ≤ ·)

/-- The files that a path stands for: the Go files directly in a folder, or itself. A file whose path
in the folder is not one that leads to it is passed over. -/
def expand (d : Disk) (path : String) : List String :=
  match d.resolve path with
  | .ok l =>
      if d.get? l = some .folder then ((d.sourceNames l).map (join path)).filter d.isFile else [path]
  | .error _ => [path]

end Disk

end DeclBridge
