import DeclBridge.Disk.Basic

/-!
Where items are written to: memory that may be limited, or a file that is written block by block.
-/

namespace DeclBridge

/-- Bytes up to a limit, if there is one. -/
def limited (limit : Option Nat) (bytes : ByteArray) : ByteArray :=
  match limit with
  | some limit => bytes.extract 0 limit
  | none => bytes

/-- An output. A file is behind by the bytes that are held back for the next block. -/
inductive Output where
  | memory (limit : Option Nat) (taken : ByteArray)
  | file (location : Location) (held : ByteArray)

namespace Output

/-- An output in memory that has taken nothing yet. -/
def empty (limit : Option Nat) : Output :=
  memory limit .empty

/-- The bytes that an output in memory has taken. -/
def taken : Output → ByteArray
  | memory _ taken => taken
  | file _ _ => .empty

/-- The size of the blocks in which a file is written. -/
def blockSize : Nat := 8192

/-- Writes bytes to an output. Memory takes what it can, and fails if that is not all. Bytes for a
file wait until the next ones would not fit into a block with them; bytes that fill a block do not
wait. -/
def write (o : Output) (d : Disk) (bytes : ByteArray) : Except DiskFault Unit × Output × Disk :=
  match o with
  | memory limit taken =>
      let all := taken ++ bytes
      let kept := limited limit all
      (if kept.size = all.size then .ok () else .error .full, memory limit kept, d)
  | file location held =>
      let (held, d) :=
        if blockSize < held.size + bytes.size then (.empty, d.append location held) else (held, d)
      if blockSize ≤ bytes.size then (.ok (), file location held, d.append location bytes)
      else (.ok (), file location (held ++ bytes), d)

/-- Writes what is held back. -/
def flush (o : Output) (d : Disk) : Disk :=
  match o with
  | memory _ _ => d
  | file location held => d.append location held

end Output

end DeclBridge
