import Teal.Command.Run

/-!
The program: the file system of the machine, and the command line.
-/

namespace Teal.Disk

def fault (e : IO.Error) : FileSystem.Fault :=
  match e with
  | .noFileOrDirectory _ _ _ => .noEntry
  | .inappropriateType _ code _ =>
    -- Some calls give the negated code.
    if code == 20 || code + 20 == 0 then .notDirectory else .isDirectory
  | .invalidArgument _ code _ =>
    if code == 36 || code + 36 == 0 then .nameTooLong else .other (toString e)
  | e => .other (toString e)

/-- Whether a path can be given to the machine, to which the character zero ends it. -/
def usable (path : Path) : Bool := !path.text.toList.contains '\x00'

def holds (path : Path) (p : IO.FS.FileType → Bool) : IO Bool := do
  if !usable path then
    return false
  try
    let place ← IO.FS.realPath path.text
    return p (← place.metadata).type
  catch _ => return false

def read (path : Path) : IO (Except FileSystem.Fault String) := do
  if !usable path then
    return .error .zeroInPath
  try
    let bytes ← IO.FS.readBinFile path.text
    match Text.ofUtf8? bytes.toList with
    | some cs => return .ok (String.ofList cs)
    | none => return .error .notText
  catch e => return .error (fault e)

def write (path : Path) (text : String) : IO (Except FileSystem.Fault Unit) := do
  if !usable path then
    return .error .zeroInPath
  try
    IO.FS.writeFile path.text text
    return .ok ()
  catch e => return .error (fault e)

def canonical (path : Path) : IO (Option Path) := do
  if !usable path then
    return none
  try
    let place ← IO.FS.realPath path.text
    if ← place.pathExists then
      return some (.ofText place.toString)
    return none
  catch _ => return none

/-- The file system of the machine. It is taken to hold at most 4294967296 files. -/
def system : FileSystem IO where
  isFile path := holds path (· matches .file)
  isDir path := holds path (· matches .dir)
  present path := holds path fun _ => true
  read := read
  canonical := canonical
  write := write
  capacity := return 4294967296

end Teal.Disk

def main (args : List String) : IO UInt32 := do
  let outcome ← Teal.Command.runArgs Teal.Disk.system args
  (← IO.getStdout).putStr outcome.out
  (← IO.getStderr).putStr outcome.err
  return outcome.status.toUInt32
