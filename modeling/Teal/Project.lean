import Teal.FileSystem
import Teal.Text.Hex

/-!
Project files: sections with keys and values, one a line, of which a few are read.
-/

namespace Teal

structure Project where
  name : String
  entry : Option Path
  version : Option Nat
  modulePaths : List Path
  root : Path
deriving DecidableEq, Inhabited

namespace Project

def fileName : String := "tealang.toml"

inductive Fault where
  | unreadable (path : String) (fault : FileSystem.Fault)
  | missingName
  | invalidVersion (value : String)
deriving DecidableEq, Inhabited

def Fault.message : Fault → String
  | .unreadable path fault => s!"cannot read '{path}': {fault.message}"
  | .missingName => s!"missing 'name' in {fileName}"
  | .invalidVersion value =>
    s!"invalid target version '{value}' in {fileName}: expected a number from 2 to 5"

/-- A number from decimal digits, which may follow a plus sign. -/
def natOfText? (text : List Char) : Option Nat :=
  let digits := if text.head? = some '+' then text.tail else text
  if digits.isEmpty then none
  else (digits.mapM (Text.digitValue? 10)).map (·.foldl (fun n d => 10 * n + d) 0)

def version? (text : List Char) : Option Nat :=
  (natOfText? text).filter fun v => 2 ≤ v && v ≤ 5

def bracketed? (text : List Char) : Option (List Char) :=
  match text with
  | '[' :: rest => if rest.getLast? = some ']' then some rest.dropLast else none
  | _ => none

/-- A list of quoted texts in brackets. Empty ones are left out; anything else is an empty list. -/
def textList (value : List Char) : List String :=
  match bracketed? (Text.trim value) with
  | none => []
  | some inner =>
    let parts := (Text.splitOn ',' inner).map fun part => Text.unquote (Text.trim part)
    (parts.filter (!·.isEmpty)).map String.ofList

inductive Line where
  /-- An empty line, a comment, or one that says nothing. -/
  | blank
  | heading (name : List Char)
  | setting (key value : List Char)
deriving DecidableEq, Inhabited

def Line.ofText (text : List Char) : Line :=
  let line := Text.trim text
  match line with
  | [] => .blank
  | '#' :: _ => .blank
  | line =>
    match bracketed? line with
    | some name => .heading (Text.trim name)
    | none =>
      if line.contains '=' then
        let key := line.takeWhile (· != '=')
        let value := (line.dropWhile (· != '=')).tail
        .setting (Text.unquote (Text.trim key)) (Text.trim value)
      else
        .blank

/-- A project file as far as it is read: the section and the values found. -/
structure Draft where
  current : List Char
  project : Project

def Draft.set (d : Draft) (key value : List Char) : Except Fault Draft :=
  let p := d.project
  let text := String.ofList (Text.unquote value)
  match String.ofList d.current, String.ofList key with
  | "project", "name" => .ok { d with project := { p with name := text } }
  | "project", "entry" =>
    .ok { d with project := { p with entry := some (p.root.join (.ofText text)) } }
  | "project", "version" =>
    match version? (Text.unquote value) with
    | some v => .ok { d with project := { p with version := some v } }
    | none => .error (.invalidVersion text)
  | "modules", "paths" =>
    let paths := (textList value).map fun t => p.root.join (.ofText t)
    .ok { d with project := { p with modulePaths := paths } }
  | _, _ => .ok d

def Draft.line (d : Draft) (text : List Char) : Except Fault Draft :=
  match Line.ofText text with
  | .blank => .ok d
  | .heading name => .ok { d with current := name }
  | .setting key value => d.set key value

def ofText (text : String) (root : Path) : Except Fault Project := do
  let start : Draft := ⟨[], ⟨"", none, none, [], root⟩⟩
  let d ← (Text.lines text.toList).foldlM Draft.line start
  if d.project.name == "" then
    throw .missingName
  return d.project

variable {m : Type → Type} [Monad m]

def load (fs : FileSystem m) (path : Path) : m (Except Fault Project) := do
  match ← fs.read path with
  | .error fault => return .error (.unreadable path.text fault)
  | .ok text => return ofText text (path.parent?.getD (.ofText "."))

def firstPresent (fs : FileSystem m) : List Path → m (Option Path)
  | [] => return none
  | p :: rest => do
    if ← fs.present p then
      return some p
    firstPresent fs rest

/-- Find the project file of a directory: there, or in a directory above. -/
def find (fs : FileSystem m) (dir : Path) : m (Option Path) :=
  firstPresent fs (dir.ancestors.map (·.join (.ofText fileName)))

end Project

end Teal
