import Teal.Diagnostic
import Teal.Program

/-!
What can be wrong with the names, counts and versions of a program.
-/

namespace Teal.Program

def entryName : String := "logic"

inductive Feature where
  | subroutine (name : String)
  | builtin (name : String)
  | field (name : String)
  | innerTransactions
  | innerFields
  | dynamicArgument
  | dynamicGroup
  | dynamicArray
deriving DecidableEq, Inhabited

def Feature.text : Feature → String
  | .subroutine name => s!"subroutine '{name}'"
  | .builtin name => s!"builtin '{name}'"
  | .field name => s!"field '{name}'"
  | .innerTransactions => "inner transactions"
  | .innerFields => "inner transaction fields"
  | .dynamicArgument => "dynamic argument index"
  | .dynamicGroup => "dynamic group index"
  | .dynamicArray => "dynamic array index"

inductive Fault where
  | missingEntry
  | entryInModule (name : String)
  | entryInline
  | entryParams (found : Nat)
  | entryTyped (param : String)
  | entryTwice
  | builtinRedefined (name : String)
  | reservedName (name : String)
  | tooOld (feature : Feature) (needed target : Nat)
  | scope (fault : Scopes.Fault)
  | undefined (name : String)
  /-- A declaration of three names, or of more than four. -/
  | declaredNames (found : Nat)
  | valueCount (values names : Nat)
  | constantNames (found : Nat)
  | constantValue (name : String)
  /-- An assignment to three targets, or to more than four. -/
  | assignedNames (found : Nat)
  | notAssignable (kind : Symbol.Kind) (name : String)
  | fieldAmongTargets (base field : String)
  | fieldTarget (base : String)
  | notSettable (field : String)
  | breakOutside
  | noMethods (name : String)
  | unknownMethod (method base : String)
  | methodArguments (base method : String) (found : Nat)
  | methodValue (base method : String)
  | functionValue (name : String)
  | runtimeValue (name : String) (runtime : Runtime)
  | notFunction (name : String) (kind : Symbol.Kind)
  | entryCalled (name : String)
  | functionArguments (name : String) (expected found : Nat)
  | castArguments (name : String) (found : Nat)
  | internalOpcode (name : String)
  | builtinArguments (name : String) (expected found : Nat)
  | fieldNameArgument (position : Nat) (builtin : String)
  | builtin (fault : Builtin.Fault)
  | fieldNeeded (name : String)
  | notIndexable (name : String)
  | indexNeeded (name : String)
  | noFields (name : String)
  | unknownField (field owner : String)
  | arrayIndexNeeded (field : String)
  | notArray (field : String)
  | innerDynamicIndex (field : String)
deriving DecidableEq, Inhabited

namespace Fault

/-- The ending of a noun that is counted. -/
def plural (n : Nat) : String := if n == 1 then "" else "s"

def message : Fault → String
  | .missingEntry => s!"missing entry point: function {entryName}(txn, gtxn, args)"
  | .entryInModule name =>
    s!"entry point '{entryName}' must be defined in the main file, not in module '{name}'"
  | .entryInline => s!"entry point '{entryName}' cannot be inline"
  | .entryParams found =>
    s!"entry point '{entryName}' must take exactly 3 parameters, found {found}"
  | .entryTyped param => s!"entry point parameter '{param}' cannot have a type annotation"
  | .entryTwice => s!"entry point '{entryName}' is defined more than once"
  | .builtinRedefined name => s!"'{name}' is a builtin and cannot be redefined"
  | .reservedName name => s!"function name '{name}' is reserved"
  | .tooOld feature needed target =>
    s!"{feature.text} requires version {needed} (target is {target})"
  | .scope fault => fault.message
  | .undefined name => s!"identifier '{name}' not defined"
  | .declaredNames found => s!"a declaration binds 1, 2 or 4 names, found {found}"
  | .valueCount values names =>
    let verb := if names == 1 then "is" else "are"
    s!"expression produces {values} value{plural values} but {names} name{plural names} {verb} given"
  | .constantNames found => s!"a constant binds exactly one name, found {found}"
  | .constantValue name =>
    s!"constant '{name}' must be initialized with a literal or another constant"
  | .assignedNames found => s!"an assignment sets 1, 2 or 4 names, found {found}"
  | .notAssignable kind name => s!"cannot assign to {kind.description} '{name}'"
  | .fieldAmongTargets base field =>
    s!"'{base}.{field}' cannot be set as part of a multi-value assignment"
  | .fieldTarget base => s!"cannot assign to field of '{base}'"
  | .notSettable field => s!"field '{field}' cannot be set on an inner transaction"
  | .breakOutside => "break outside of a loop"
  | .noMethods name => s!"'{name}' has no methods"
  | .unknownMethod method base => s!"unknown method '{method}' on '{base}'"
  | .methodArguments base method found => s!"'{base}.{method}' takes no arguments, found {found}"
  | .methodValue base method =>
    s!"'{base}.{method}()' does not produce a value and must be used as a statement"
  | .functionValue name => s!"function '{name}' used as a value"
  | .runtimeValue name _ => s!"'{name}' cannot be used as a value"
  | .notFunction name kind => s!"'{name}' is a {kind.description}, not a function"
  | .entryCalled name => s!"entry point '{name}' cannot be called"
  | .functionArguments name expected found =>
    s!"function '{name}' expects {expected} argument{plural expected}, found {found}"
  | .castArguments name found => s!"'{name}' expects 1 argument, found {found}"
  | .internalOpcode name => s!"'{name}' is an internal opcode and cannot be called directly"
  | .builtinArguments name expected found =>
    s!"builtin '{name}' expects {expected} argument{plural expected}, found {found}"
  | .fieldNameArgument position name => s!"argument {position} of '{name}' must be a field name"
  | .builtin fault => fault.message
  | .fieldNeeded name => s!"'{name}[..]' needs a field"
  | .notIndexable name => s!"'{name}' cannot be indexed"
  | .indexNeeded name => s!"'{name}' needs a transaction index"
  | .noFields name => s!"'{name}' has no fields"
  | .unknownField field owner => s!"unknown field '{field}' for '{owner}'"
  | .arrayIndexNeeded field => s!"field '{field}' is an array and needs an index"
  | .notArray field => s!"field '{field}' is not an array"
  | .innerDynamicIndex field => s!"'itxn.{field}' needs a constant index"

def help? : Fault → Option String
  | .missingEntry =>
    some s!"define `function {entryName}(txn, gtxn, args) \x7b ... \x7d` in the main file"
  | .entryParams _ => some s!"declare it as `function {entryName}(txn, gtxn, args)`"
  | .tooOld _ needed _ => some s!"compile with --target-version {needed}"
  | .scope .outOfSlots => some "reuse variables or split the program"
  | .constantValue _ => some "use `let` for computed values"
  | .fieldTarget _ => some "only inner transaction fields can be set: itxn.Field = value"
  | .unknownMethod _ _ => some "inner transactions support begin() and submit()"
  | .functionValue name => some s!"call it: {name}(...)"
  | .runtimeValue name .args => some s!"index it: {name}[0]"
  | .runtimeValue name .gtxn => some s!"access a field: {name}[0].Sender"
  | .runtimeValue name _ => some s!"access a field: {name}.Sender"
  | .fieldNeeded name => some s!"access a field: {name}[0].Sender"
  | .indexNeeded name => some s!"index the group: {name}[0].Sender"
  | .arrayIndexNeeded field => some s!"write {field}[0]"
  | _ => none

/-- Where a name was declared before, unless the machine declares it. -/
def notes : Fault → List String
  | .scope fault =>
    match fault.previous? with
    | some previous =>
      if previous = .nowhere then []
      else [s!"previous declaration at byte {previous.start}..{previous.stop}"]
    | none => []
  | _ => []

def toDiagnostic (f : Fault) (span : Span) : Diagnostic :=
  { Diagnostic.semantic f.message span with notes := f.notes, help := f.help? }

end Fault

end Teal.Program
