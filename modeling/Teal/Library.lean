import Teal.Path
import Teal.Tree

/-!
Modules that come with the compiler, and the paths of those that do not.
-/

namespace Teal

namespace Library

def namePrefix : String := "stdlib."

/-- Numbers of transaction types and of what completes an application call. -/
def constants : String := String.intercalate "\n"
  [ "// Transaction enumerations.",
    "",
    "const NoOp = 0;",
    "const OptIn = 1;",
    "const CloseOut = 2;",
    "const ClearState = 3;",
    "const UpdateApplication = 4;",
    "const DeleteApplication = 5;",
    "",
    "const TxTypePayment = 1;",
    "const TxTypeKeyRegistration = 2;",
    "const TxTypeAssetConfig = 3;",
    "const TxTypeAssetTransfer = 4;",
    "const TxTypeAssetFreeze = 5;",
    "const TxTypeApplicationCall = 6;",
    "" ]

def math : String := String.intercalate "\n"
  [ "// Integer helpers, expanded at each call site.",
    "",
    "inline function min(a, b) \x7b",
    "    if a < b \x7b",
    "        return a;",
    "    \x7d",
    "    return b;",
    "\x7d",
    "",
    "inline function max(a, b) \x7b",
    "    if a > b \x7b",
    "        return a;",
    "    \x7d",
    "    return b;",
    "\x7d",
    "" ]

def modules : List (String × String) :=
  [(namePrefix ++ "const", constants), (namePrefix ++ "math", math)]

/-- Whether a name is one of the library, known or not. -/
def owns (name : String) : Bool := namePrefix.toList.isPrefixOf name.toList

def find? (name : String) : Option String := modules.lookup name

end Library

namespace Tree.Import

def name : Import → String
  | .dotted parts => String.intercalate "." parts
  | .path text => text

/-- What is written as a path. A dotted name becomes directories. -/
def written : Import → Path
  | .dotted parts => .ofText (String.intercalate "/" parts)
  | .path text => .ofText text

/-- The extension is added to dotted names and to paths that have none. -/
def takesExtension : Import → Bool
  | .dotted _ => true
  | .path text => (Path.ofText text).extension?.isNone

/-- The path of a module that is not in the library, unless it cannot have the extension. -/
def toPath? (defaultExtension : String) (i : Import) : Option Path :=
  if i.takesExtension then
    (Path.Extension.ofText? (String.ofList (defaultExtension.toList.dropWhile (· == '.')))).map
      i.written.withExtension
  else some i.written

end Tree.Import

end Teal
