import Teal.FileSystem
import Teal.Text.Utf8

/-!
A file system that is a value: directories and files by their places below the root.
-/

namespace Teal

inductive FileTree.Node where
  | dir
  | file (bytes : List UInt8)
deriving DecidableEq, Inhabited

/-- Directories and files, and the directory that unrooted paths start from. The root is a directory
that need not be listed. -/
structure FileTree where
  start : List String
  nodes : List (List String × FileTree.Node)
deriving DecidableEq, Inhabited

namespace FileTree

def node? (t : FileTree) (place : List String) : Option Node :=
  if place.isEmpty then some .dir else t.nodes.lookup place

def put (t : FileTree) (place : List String) (n : Node) : FileTree :=
  { t with nodes := (place, n) :: t.nodes.filter (·.1 != place) }

def makeDir (t : FileTree) (place : List String) : FileTree :=
  (List.range place.length).foldl (fun t n =>
    let above := place.take (n + 1)
    if (t.node? above).isSome then t else t.put above .dir) t

/-- Put a file at a place, in directories that are made if need be. -/
def putFile (t : FileTree) (place : List String) (bytes : List UInt8) : FileTree :=
  (t.makeDir place.dropLast).put place (.file bytes)

def walk (t : FileTree) : (place : List String) → List String → Except FileSystem.Fault (List String)
  | place, [] => .ok place
  | place, s :: rest =>
    match t.node? place with
    | some .dir =>
      if s == "" || s == "." then t.walk place rest
      else if s == ".." then t.walk place.dropLast rest
      else if FileSystem.maxName < s.utf8ByteSize then .error .nameTooLong
      else if (t.node? (place ++ [s])).isSome then t.walk (place ++ [s]) rest
      else .error .noEntry
    | some (.file _) => .error .notDirectory
    | none => .error .noEntry

/-- The place that a path starts from, if its text can be a path at all. -/
def origin (t : FileTree) (p : Path) : Except FileSystem.Fault (List String) :=
  if p.text.toList.contains '\x00' then .error .zeroInPath
  else if p.text == "" then .error .noEntry
  else if FileSystem.maxPath < p.text.utf8ByteSize then .error .nameTooLong
  else .ok (if p.rooted then [] else t.start)

def resolve (t : FileTree) (p : Path) : Except FileSystem.Fault (List String) := do
  t.walk (← t.origin p) p.segments

def find (t : FileTree) (p : Path) : Except FileSystem.Fault Node := do
  match t.node? (← t.resolve p) with
  | some n => return n
  | none => throw .noEntry

def read (t : FileTree) (p : Path) : Except FileSystem.Fault String := do
  match ← t.find p with
  | .dir => throw .isDirectory
  | .file bytes =>
    match Text.ofUtf8? bytes with
    | some cs => return String.ofList cs
    | none => throw .notText

/-- Write a file that is there, or make one in a directory that is there. A path that ends in a slash
or in dots asks for a directory, whatever it leads to. -/
def write (t : FileTree) (p : Path) (text : String) : Except FileSystem.Fault FileTree := do
  let origin ← t.origin p
  match p.segments.reverse.dropWhile (· == "") with
  | [] => throw .isDirectory
  | name :: above =>
    let dir ← t.walk origin above.reverse
    match t.node? dir with
    | none => throw .noEntry
    | some (.file _) => throw .notDirectory
    | some .dir =>
      if p.segments.getLast? = some "" || name == "." || name == ".." then
        throw .isDirectory
      if FileSystem.maxName < name.utf8ByteSize then
        throw .nameTooLong
      if t.node? (dir ++ [name]) = some .dir then
        throw .isDirectory
      return t.put (dir ++ [name]) (.file (Text.utf8 text.toList))

def system : FileSystem (StateM FileTree) where
  isFile p := return (match (← get).find p with | .ok (.file _) => true | _ => false)
  isDir p := return (match (← get).find p with | .ok .dir => true | _ => false)
  present p := return (match (← get).find p with | .ok _ => true | .error _ => false)
  read p := return (← get).read p
  canonical p := return ((← get).resolve p).toOption.map fun place => ⟨true, place⟩
  write p text := do
    match (← get).write p text with
    | .ok t =>
      set t
      return .ok ()
    | .error f => return .error f
  capacity := return (← get).nodes.length

end FileTree

end Teal
