/-!
Types of the values on the machine's stack.
-/

namespace Teal

inductive Ty where
  /-- Read from state, so not known before the program runs. -/
  | unknown
  | integer
  | bytes
  /-- The expression has already been found faulty. -/
  | invalid
deriving DecidableEq, Inhabited

namespace Ty

def name : Ty → String
  | .unknown => "unknown"
  | .integer => "integer"
  | .bytes => "byte[]"
  | .invalid => "invalid"

def isResolved : Ty → Bool
  | .integer | .bytes => true
  | .unknown | .invalid => false

end Ty

end Teal
