import Teal.Text.Blank

/-!
Paths of files. A path is a list of segments, rooted or not, that keeps what was written: empty
segments and dots mean nothing, but are there. The last segment that means something names the file.
-/

namespace Teal

structure Path where
  rooted : Bool
  segments : List String
deriving DecidableEq, Inhabited

namespace Path

def ofText (text : String) : Path :=
  match (Text.splitOn '/' text.toList).map String.ofList with
  | "" :: first :: rest => ⟨true, first :: rest⟩
  | segments => ⟨false, segments⟩

def text (p : Path) : String :=
  (if p.rooted then "/" else "") ++ String.intercalate "/" p.segments

/-- Segments without those at the end that mean nothing: empty ones, and dots that do not start the
path. -/
def trimEnd (starts : Bool) : List String → List String
  | [] => []
  | s :: rest =>
    match trimEnd false rest with
    | [] => if s == "" || (s == "." && !starts) then [] else [s]
    | rest => s :: rest

/-- The segments up to the last one that means something. -/
def trimmed (p : Path) : List String := trimEnd (!p.rooted) p.segments

def parent? (p : Path) : Option Path :=
  match p.trimmed with
  | [] => none
  | s :: rest => some ⟨p.rooted, trimEnd (!p.rooted) (s :: rest).dropLast⟩

/-- A path and those above it, as long as they get shorter. -/
def ancestors (p : Path) : List Path :=
  p ::
    match p.parent? with
    | none => []
    | some q => if q.segments.length < p.segments.length then q.ancestors else []
termination_by p.segments.length

def join (base p : Path) : Path :=
  if p.rooted then p
  else
    let start := if base.segments.getLast? = some "" then base.segments.dropLast else base.segments
    ⟨base.rooted, start ++ p.segments⟩

def fileName? (p : Path) : Option String :=
  match p.trimmed.getLast? with
  | some name => if name == "." || name == ".." then none else some name
  | none => none

/-- A name before and after its last dot. A dot that starts the name does not count. -/
def splitName (name : String) : String × Option String :=
  match (Text.splitOn '.' name.toList).reverse with
  | last :: first :: before =>
    let stem := String.intercalate "." ((first :: before).reverse.map String.ofList)
    if stem == "" then (name, none) else (stem, some (String.ofList last))
  | _ => (name, none)

def extension? (p : Path) : Option String := p.fileName?.bind fun name => (splitName name).2

/-- What may follow the last dot of a name: a text without separator. -/
structure Extension where
  text : String
  noSeparator : '/' ∉ text.toList

def Extension.ofText? (text : String) : Option Extension :=
  if h : '/' ∉ text.toList then some ⟨text, h⟩ else none

/-- The path with another extension, or without one if that is empty. What names no file stays. -/
def withExtension (ext : Extension) (p : Path) : Path :=
  match p.fileName? with
  | none => p
  | some name =>
    let stem := (splitName name).1
    ⟨p.rooted, p.trimmed.dropLast ++ [if ext.text == "" then stem else stem ++ "." ++ ext.text]⟩

/-- The path with its extension cut off behind the dot. -/
def cutExtension (p : Path) : Path :=
  match p.fileName?.map splitName with
  | some (stem, some _) => ⟨p.rooted, p.trimmed.dropLast ++ [stem ++ "."]⟩
  | _ => p

/-- The path with its extension cut off and another put in its place. A name of which `..` is left
names no file then, and stays so. -/
def replaceExtension (ext : Extension) (p : Path) : Path := p.cutExtension.withExtension ext

end Path

end Teal
