import Teal.Program.Fault
import Teal.Program.Text

/-!
What can be wrong with the types of a program. Expressions are quoted as they would be written.
-/

namespace Teal.Program.Typing

inductive Fault where
  /-- An operator was given operands it does not accept. -/
  | operand (op : String) (ty : Ty) (text : String)
  /-- The operands of an operator differ in type. -/
  | mismatch (lhs rhs : Ty) (text : String)
  /-- The branches of a choice differ in type. -/
  | branches (yes no : Ty) (text : String)
  | argument (position : Nat) (callee : String) (expected : Ty) (found : Ty)
  | builtinArgument (position : Nat) (callee : String) (expected : Builtin.ArgShape) (found : Ty)
  | notScalar (text : String) (found : Nat)
  | index (ty : Ty) (text : String)
  | condition (ty : Ty) (text : String)
  /-- A variable would be of unknown type. -/
  | unknownBinding (name text : String)
  | assigned (ty : Ty) (name : String) (declared : Ty) (text : String)
  | fieldValue (field : String) (expected found : Ty) (text : String)
  | returnCount (text : String) (found : Nat)
  | entryReturn (ty : Ty) (text : String)
  | functionReturn (name : String) (expected found : Ty) (text : String)
  /-- Control may reach the end of a function. -/
  | missingReturn (name : String)
  | unknownReturn (name : String)
deriving DecidableEq, Inhabited

namespace Fault

def paramName : Ty → String
  | .bytes => "byte[]"
  | _ => "int"

def message : Fault → String
  | .operand op ty text =>
    s!"operator '{op}' does not accept {ty.name} operands in expr '{text}'"
  | .mismatch l r text => s!"types mismatch: {l.name} and {r.name} in expr '{text}'"
  | .branches yes no text =>
    s!"types mismatch: if branches are {yes.name} and {no.name} in expr '{text}'"
  | .argument position callee expected ty =>
    s!"argument {position} of '{callee}' must be {paramName expected}, found {ty.name}"
  | .builtinArgument position callee expected ty =>
    s!"argument {position} of '{callee}' must be {expected.expectation}, found {ty.name}"
  | .notScalar text found => s!"expr '{text}' produces {found} values where one is expected"
  | .index ty text => s!"index must be integer, found {ty.name} in expr '{text}'"
  | .condition ty text => s!"condition must be integer, found {ty.name} in expr '{text}'"
  | .unknownBinding name text => s!"cannot infer the type of '{name}' from expr '{text}'"
  | .assigned ty name declared text =>
    s!"cannot assign {ty.name} to '{name}' of type {declared.name} in expr '{text}'"
  | .fieldValue field expected ty text =>
    s!"field '{field}' takes {expected.name}, found {ty.name} in expr '{text}'"
  | .returnCount text found => s!"return needs a single value, expr '{text}' produces {found}"
  | .entryReturn ty text =>
    s!"entry point '{entryName}' must return integer, found {ty.name} in expr '{text}'"
  | .functionReturn name expected ty text =>
    s!"function '{name}' returns {expected.name}, found {ty.name} in expr '{text}'"
  | .missingReturn name => s!"function '{name}' does not return on every path"
  | .unknownReturn name => s!"cannot infer the return type of function '{name}'"

def convertHelp : String := "convert the value with toint(...) or tobyte(...)"

def help? : Fault → Option String
  | .operand _ .unknown _ | .unknownBinding _ _ => some convertHelp
  | .builtinArgument _ _ .any _ => none
  | .builtinArgument _ _ _ .unknown => some convertHelp
  | .assigned .unknown _ declared _ => some s!"convert the value with {castName declared}(...)"
  | .missingReturn _ => some "end the body with `return` or `error`"
  | .unknownReturn _ => some "convert the returned value with toint(...) or tobyte(...)"
  | _ => none

def toDiagnostic (f : Fault) (span : Span) : Diagnostic :=
  { Diagnostic.semantic f.message span with help := f.help? }

end Fault

end Teal.Program.Typing
