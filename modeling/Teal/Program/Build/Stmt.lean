import Teal.Program.Build.Expr

/-!
Declarations and statements. Each declaration opens a scope that is seen by what follows it. A block
opens a scope that is left at its end.
-/

namespace Teal.Program.Build

/-- Bind names to types, from left to right. After a name that cannot be declared the others are
declared without a type. -/
def bindNames (scope : ScopeId) : List Ident → List Ty → Bool → Build Bool
  | [], _, ok => return ok
  | name :: names, tys, ok => do
    let ty := if ok then tys.head?.getD .invalid else .invalid
    let declared ← declareVariable scope name ty
    bindNames scope names tys.tail (ok && declared)

/-- Whether so many values can be bound or assigned at once. -/
def isValueCount (n : Nat) : Bool := n == 1 || n == 2 || n == 4

/-- Report that as many values as names are needed. -/
def requireCount (values names : Nat) (span : Span) : Build Bool := do
  if values = names then
    return true
  report span (.valueCount values names)
  return false

def bindVariables (span : Span) (scope : ScopeId) (names : List Ident) (valueSpan : Span)
    (value : Option Expr) : Build (Option Stmt) := do
  let countOk := isValueCount names.length
  if !countOk then
    report span (.declaredNames names.length)
  match value with
  | none =>
    let _ ← bindNames scope names [] false
    return none
  | some e =>
    let tys ← resultTypes e
    let ok ← if countOk then requireCount tys.length names.length valueSpan else pure false
    if ← bindNames scope names tys ok then
      return some (.varDecl span scope names e)
    return none

def constantValue? (b : Builder) : Expr → Option (Ty × Pool.Ref)
  | .literal _ value ref => some (value.ty, ref)
  | .ident _ name scope =>
    match b.scopes.lookup scope name with
    | some ⟨_, ty, .constant ref, _⟩ => some (ty, ref)
    | _ => none
  | _ => none

/-- Declare a constant. One whose value is no constant is declared all the same, without a type. -/
def bindConstant (span : Span) (scope : ScopeId) (names : List Ident) (valueSpan : Span)
    (value : Option Expr) : Build (Option Stmt) := do
  let [name] := names | fail span (.constantNames names.length)
  match value with
  | none =>
    let _ ← declare scope name .invalid (.constant (.int 0))
    return none
  | some e =>
    visit e.typeScope?.toList
    match constantValue? (← get) e with
    | none =>
      report valueSpan (.constantValue name.text)
      let _ ← declare scope name .invalid (.constant (.int 0))
      return none
    | some (ty, ref) =>
      if !(← declare scope name ty (.constant ref)) then
        return none
      if ty = .invalid then
        return none
      return some (.constDecl span name e)

/-- Build a declaration. The scope after it comes with the statement. -/
def declaration (scope : ScopeId) (span : Span) (decl : Tree.Decl) :
    Build (Option Stmt × ScopeId) := do
  let value ← expr scope decl.value
  let inner ← openScope .decl scope
  let stmt ←
    if decl.isConst then bindConstant span inner decl.names decl.value.span value
    else bindVariables span inner decl.names decl.value.span value
  return (stmt, inner)

def assignable (scope : ScopeId) (span : Span) (name : String) : Build (Option Ident) := do
  match ← kindOf? scope name with
  | none => fail span (.undefined name)
  | some (.variable _) => return some ⟨name, span⟩
  | some kind => fail span (.notAssignable kind name)

def assignedName (scope : ScopeId) : Tree.Target → Build (Option Ident)
  | .var span name => assignable scope span name
  | .field span base field => fail span (.fieldAmongTargets base field.text)

def assignNames (scope : ScopeId) (span : Span) (first : Tree.Target) (others : List Tree.Target)
    (value : Tree.Expr) : Build (Option Stmt) := do
  let targets := first :: others
  let countOk := isValueCount targets.length
  if !countOk then
    report (first.span.merge (others.getLastD first).span) (.assignedNames targets.length)
  let names ← targets.mapM (assignedName scope)
  let some value ← expr scope value | return none
  let produced := (← resultTypes value).length
  match names.mapM id with
  | none => return none
  | some names =>
    if !countOk then
      return none
    if ← requireCount produced targets.length value.span then
      return some (.assign span scope names value)
    return none

/-- The field of a name that can be set on an inner transaction. -/
def settableField (name : Ident) : Build (Option Field) := do
  match Field.Table.txn.find? name.text with
  | none => fail name.span (.unknownField name.text Runtime.itxn.text)
  | some field =>
    if !field.settable then
      fail name.span (.notSettable field.name)
    else if ← requireVersion field.minVersion (.field field.name) name.span then
      return some field
    else
      return none

def assignField (scope : ScopeId) (span targetSpan : Span) (base : String) (name : Ident)
    (value : Tree.Expr) : Build (Option Stmt) := do
  let runtime ← runtimeOf? scope base
  let value ← expr scope value
  if runtime ≠ some .itxn then
    return ← fail targetSpan (.fieldTarget base)
  let some field ← settableField name | return none
  if !(← requireVersion 5 .innerTransactions targetSpan) then
    return none
  return value.map (.setField span field)

def assignment (scope : ScopeId) (span : Span) (first : Tree.Target) (others : List Tree.Target)
    (value : Tree.Expr) : Build (Option Stmt) :=
  match first, others with
  | .field targetSpan base name, [] => assignField scope span targetSpan base name value
  | first, others => assignNames scope span first others value

/-- A method call on its own: the beginning or the end of an inner transaction. -/
def methodCall (scope : ScopeId) (span callSpan : Span) (base method : Ident) (found : Nat) :
    Build (Option Stmt) := do
  let some submits ← innerMethod scope base method | return none
  if found ≠ 0 then
    return ← fail callSpan (.methodArguments base.text method.text found)
  if !(← requireVersion 5 .innerTransactions callSpan) then
    return none
  return some (if submits then .innerSubmit span else .innerBegin span)

def exprStmt (scope : ScopeId) (span : Span) : Tree.Expr → Build (Option Stmt)
  | .method callSpan base method args => methodCall scope span callSpan base method args.length
  | e => return (← expr scope e).map (.expr span)

mutual

/-- Build a statement inside so many loops of its function. The scope after it comes with it. -/
def stmt (loops : Nat) (scope : ScopeId) : Tree.Stmt → Build (Option Stmt × ScopeId)
  | .decl span decl => declaration scope span decl
  | .assign span first others value => return (← assignment scope span first others value, scope)
  | .ret span value => return ((← expr scope value).map (.ret span), scope)
  | .error span => return (some (.error span), scope)
  | .breakLoop span => do
    if 0 < loops then
      return (some (.breakLoop span), scope)
    return (← fail span .breakOutside, scope)
  | .ifThen span test _ yes => do
    let label ← freshLabel
    let test ← expr scope test
    let yes ← block loops (← openScope .block scope) yes
    return (test.map (.ifThen span label · yes), scope)
  | .ifElse span test _ yes _ no => do
    let label ← freshLabel
    let test ← expr scope test
    let yes ← block loops (← openScope .block scope) yes
    let no ← block loops (← openScope .block scope) no
    return (test.map (.ifElse span label · yes no), scope)
  | .loop span test _ body => do
    let label ← freshLabel
    let test ← expr scope test
    let body ← block (loops + 1) (← openScope .block scope) body
    return (test.map (.loop span label · body), scope)
  | .expr span e => return (← exprStmt scope span e, scope)

def block (loops : Nat) (scope : ScopeId) : List Tree.Stmt → Build (List Stmt)
  | [] => return []
  | s :: rest => do
    let (built, after) ← stmt loops scope s
    let rest ← block loops after rest
    return built.toList ++ rest

end

end Teal.Program.Build
