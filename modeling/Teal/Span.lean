/-!
Places in source text. A span names a file of the compilation and a range of byte offsets into its
UTF-8 text; an identifier is a name together with the place it was written at.
-/

namespace Teal

abbrev FileId := UInt16

/-- A range of byte offsets in one source file, each kept in 32 bits. -/
structure Span where
  file : FileId
  lo : UInt32
  hi : UInt32
deriving DecidableEq, Inhabited

namespace Span

def start (s : Span) : Nat := s.lo.toNat

def stop (s : Span) : Nat := s.hi.toNat

/-- The range between two byte counts. From 2³² on counts begin again at zero. -/
def between (file : FileId) (start stop : Nat) : Span := ⟨file, start.toUInt32, stop.toUInt32⟩

def fileStart (file : FileId) : Span := ⟨file, 0, 0⟩

/-- The place of what no source text declares. -/
def nowhere : Span := fileStart 0

/-- The smallest range that covers both. The file is that of the first. -/
def merge (a b : Span) : Span := ⟨a.file, min a.lo b.lo, max a.hi b.hi⟩

/-- Number of bytes covered; a reversed range covers none. -/
def length (s : Span) : Nat := s.stop - s.start

def isEmpty (s : Span) : Bool := s.length == 0

end Span

structure Ident where
  text : String
  span : Span
deriving DecidableEq, Inhabited

end Teal
