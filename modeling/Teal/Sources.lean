import Teal.Span

/-!
The source files of one compilation, numbered in the order they were loaded. A file's number has
sixteen bits, so the numbering starts over after 65536 files.
-/

namespace Teal

/-- A source file: the name it is reported under and its text. -/
structure SourceFile where
  name : String
  text : String
deriving DecidableEq, Inhabited

/-- All files of one compilation, in load order. -/
structure Sources where
  files : Array SourceFile
deriving DecidableEq, Inhabited

namespace Sources

def empty : Sources := ⟨#[]⟩

/-- Append a file. The result also tells the number it is known by. -/
def add (sources : Sources) (file : SourceFile) : FileId × Sources :=
  (UInt16.ofNat sources.files.size, ⟨sources.files.push file⟩)

def get? (sources : Sources) (id : FileId) : Option SourceFile :=
  sources.files[id.toNat]?

end Sources

end Teal
