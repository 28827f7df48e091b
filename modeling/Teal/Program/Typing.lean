import Teal.Program.Typing.Fault

/-!
Types of a program. All of it is checked, also after a fault. What was reported is of the type
`invalid`, about which nothing more is said.
-/

namespace Teal.Program

structure Checked (α : Type) where
  value : α
  faults : List Diagnostic

namespace Checked

instance : Monad Checked where
  pure a := ⟨a, []⟩
  bind c f := let d := f c.value; ⟨d.value, c.faults ++ d.faults⟩

@[simp] theorem value_pure {α : Type} (a : α) : (pure a : Checked α).value = a := rfl

@[simp] theorem faults_pure {α : Type} (a : α) : (pure a : Checked α).faults = [] := rfl

@[simp] theorem value_bind {α β : Type} (c : Checked α) (f : α → Checked β) :
    (c >>= f).value = (f c.value).value := rfl

@[simp] theorem faults_bind {α β : Type} (c : Checked α) (f : α → Checked β) :
    (c >>= f).faults = c.faults ++ (f c.value).faults := rfl

end Checked

namespace Typing

def report (span : Span) (f : Fault) : Checked Unit := ⟨(), [f.toDiagnostic span]⟩

def fail (span : Span) (f : Fault) : Checked (List Ty) := ⟨[.invalid], [f.toDiagnostic span]⟩

/-- The only type among those that an expression leaves. -/
def scalar (e : Expr) (types : Checked (List Ty)) : Checked Ty := do
  match ← types with
  | [ty] => return ty
  | tys =>
    if tys.contains .invalid then
      return .invalid
    report e.span (.notScalar e.text tys.length)
    return .invalid

/-- Whether a type is valid, but not the one that is needed. -/
def conflicts (found needed : Ty) : Bool := found != .invalid && found != needed

/-- What holds of the operands of an operator once they are of one type. -/
def allows : OperandRule → Ty → Bool
  | .integer, ty => ty == .integer
  | .same, ty => ty.isResolved

def unary (e : Expr) (op : UnOp) (operand : Ty) : Checked (List Ty) :=
  if conflicts operand .integer then fail e.span (.operand op.text operand e.text)
  else return [op.resultTy]

def binary (e : Expr) (op : BinOp) (lhs rhs : Ty) : Checked (List Ty) :=
  if lhs = .invalid || rhs = .invalid then return [.invalid]
  else if lhs ≠ rhs then fail e.span (.mismatch lhs rhs e.text)
  else if allows op.operandRule lhs then return [op.resultTy]
  else fail e.span (.operand op.text lhs e.text)

def branches (e : Expr) (yes no : Ty) : Checked (List Ty) :=
  if yes = .invalid || no = .invalid then return [.invalid]
  else if yes ≠ no then fail e.span (.branches yes no e.text)
  else return [yes]

def condition (e : Expr) (types : Checked (List Ty)) : Checked Unit := do
  let ty ← scalar e types
  if conflicts ty .integer then report e.span (.condition ty e.text)

def indexValue (e : Expr) (types : Checked (List Ty)) : Checked Unit := do
  let ty ← scalar e types
  if conflicts ty .integer then report e.span (.index ty e.text)

def builtinArgument (callee : String) (position : Nat) (shape : Builtin.ArgShape) (e : Expr)
    (types : Checked (List Ty)) : Checked Bool := do
  let ty ← scalar e types
  if ty = .invalid then
    return false
  if shape.accepts ty then
    return true
  report e.span (.builtinArgument position callee shape ty)
  return false

mutual

def expr (p : Program) : Expr → Checked (List Ty)
  | .literal _ value _ => return [value.ty]
  | .ident _ name scope => return [p.scopes.tyOf scope name]
  | .unary span op e => do
    let ty ← scalar e (expr p e)
    unary (.unary span op e) op ty
  | .binary span op l r => do
    let lhs ← scalar l (expr p l)
    let rhs ← scalar r (expr p r)
    binary (.binary span op l r) op lhs rhs
  | .group _ e => expr p e
  | .call _ f name _ args => do
    match p.functions[f]? with
    | none => return [.invalid]
    | some callee =>
      arguments p name 1 args (callee.params.map (·.2))
      return [callee.returnTy]
  | .builtin _ b args => do
    let ok ← builtinArguments p b.name args b.params
    return if ok then b.results else b.results.map fun _ => .invalid
  | .cond span label test yes no => do
    condition test (expr p test)
    let yesTy ← scalar yes (expr p yes)
    let noTy ← scalar no (expr p no)
    branches (.cond span label test yes no) yesTy noTy
  | .field _ source f => do
    fieldSource p source
    return [f.ty]
  | .fieldAt _ source f i => do
    fieldSource p source
    index p i
    return [f.ty]
  | .arg _ i => do
    index p i
    return [.bytes]
  | .cast _ ty e => do
    let inner ← scalar e (expr p e)
    return [if inner = .invalid then .invalid else ty]

def index (p : Program) : Index → Checked Unit
  | .const _ => return
  | .dynamic e => indexValue e (expr p e)

def fieldSource (p : Program) : FieldSource → Checked Unit
  | .gtxn i => index p i
  | .txn | .global | .itxn => return

/-- Check arguments against the types of parameters, from a position on. -/
def arguments (p : Program) (callee : String) (position : Nat) :
    List Expr → List Ty → Checked Unit
  | e :: rest, needed :: tys => do
    let ty ← scalar e (expr p e)
    if conflicts ty needed then report e.span (.argument position callee needed ty)
    arguments p callee (position + 1) rest tys
  | _, _ => return

/-- Check the arguments of a builtin; whether all of them are accepted. -/
def builtinArguments (p : Program) (callee : String) :
    List Expr → List (Nat × Builtin.ArgShape) → Checked Bool
  | e :: rest, (position, shape) :: params => do
    let ok ← builtinArgument callee position shape e (expr p e)
    let others ← builtinArguments p callee rest params
    return ok && others
  | _, _ => return true

end

/-- Check that no variable of a declaration is of unknown type. -/
def declared (value : Expr) : List (Ident × Ty) → Checked Unit
  | [] => return
  | (name, ty) :: rest => do
    if ty = .unknown then report value.span (.unknownBinding name.text value.text)
    declared value rest

/-- Check that variables keep their types. -/
def assigned (p : Program) (scope : ScopeId) (value : Expr) : List (Ident × Ty) → Checked Unit
  | [] => return
  | (target, ty) :: rest => do
    let needed := p.scopes.tyOf scope target.text
    if needed ≠ .invalid && conflicts ty needed then
      report value.span (.assigned ty target.text needed value.text)
    assigned p scope value rest

/-- Check a returned value against the function it stands in. -/
def returned (p : Program) (current : Option Function) (value : Expr) : Checked Unit := do
  match ← expr p value with
  | [ty] =>
    match current with
    | none => return
    | some f =>
      if f.returnTy ≠ .invalid && conflicts ty f.returnTy then
        if f.isEntry then
          report value.span (.entryReturn ty value.text)
        else if f.returnTy ≠ .unknown then
          report value.span (.functionReturn f.name.text f.returnTy ty value.text)
  | tys => report value.span (.returnCount value.text tys.length)

mutual

def stmt (p : Program) (current : Option Function) : Stmt → Checked Unit
  | .varDecl _ _ names value => do declared value (names.zip (← expr p value))
  | .constDecl _ _ value => do
    let _ ← expr p value
  | .assign _ scope targets value => do assigned p scope value (targets.zip (← expr p value))
  | .setField _ field value => do
    let ty ← scalar value (expr p value)
    if conflicts ty field.ty then
      report value.span (.fieldValue field.name field.ty ty value.text)
  | .ret _ value => returned p current value
  | .ifThen _ _ test yes => do
    condition test (expr p test)
    block p current yes
  | .ifElse _ _ test yes no => do
    condition test (expr p test)
    block p current yes
    block p current no
  | .loop _ _ test body => do
    condition test (expr p test)
    block p current body
  | .expr _ value => do
    let _ ← expr p value
  | .innerBegin _ | .innerSubmit _ | .error _ | .breakLoop _ => return

def block (p : Program) (current : Option Function) : List Stmt → Checked Unit
  | [] => return
  | s :: rest => do
    stmt p current s
    block p current rest

end

def function (p : Program) (f : Function) : Checked Unit := do
  block p (some f) f.body
  if !blockTerminates f.body then report f.name.span (.missingReturn f.name.text)
  if !f.isEntry && f.returnTy = .unknown && blockHasReturn f.body then
    report f.name.span (.unknownReturn f.name.text)

end Typing

end Teal.Program

namespace Teal

def Program.typeFaults (p : Program) : List Diagnostic :=
  (Program.Typing.block p none p.globals).faults ++
    p.functions.flatMap fun f => (Program.Typing.function p f).faults

end Teal
