import Teal.Path

/-!
What the compiler needs of a file system, in any monad.
-/

namespace Teal

namespace FileSystem

inductive Fault where
  | noEntry
  | notDirectory
  | isDirectory
  | nameTooLong
  /-- The path holds the character zero, which ends a path. -/
  | zeroInPath
  | notText
  | other (text : String)
deriving DecidableEq, Inhabited

def Fault.message : Fault → String
  | .noEntry => "No such file or directory (os error 2)"
  | .notDirectory => "Not a directory (os error 20)"
  | .isDirectory => "Is a directory (os error 21)"
  | .nameTooLong => "File name too long (os error 36)"
  | .zeroInPath => "file name contained an unexpected NUL byte"
  | .notText => "stream did not contain valid UTF-8"
  | .other text => text

/-- The most bytes in the name of a file or directory. -/
def maxName : Nat := 255

/-- The most bytes in a path. -/
def maxPath : Nat := 4095

end FileSystem

structure FileSystem (m : Type → Type) where
  isFile : Path → m Bool
  isDir : Path → m Bool
  present : Path → m Bool
  read : Path → m (Except FileSystem.Fault String)
  /-- The rooted path without dots that leads to the same place. -/
  canonical : Path → m (Option Path)
  write : Path → String → m (Except FileSystem.Fault Unit)
  /-- A bound on the number of files. -/
  capacity : m Nat

end Teal
