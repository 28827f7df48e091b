import Teal.Assembly
import Teal.Program

/-!
The assembly of a program: the pool, the global declarations, the subroutines one after another, each
jumped over, and then the entry point.

Emission fails only on programs that are not well formed. Calls of inline functions are replaced by
bodies; a body may only hold calls of functions before it, so the expansion ends.
-/

namespace Teal.Assembly

open Program (Expr Index FieldSource Stmt Function)

inductive Fault where
  | notVariable (name : String) (scope : ScopeId)
  | notValue (name : String) (scope : ScopeId)
  | noFunction (index : Nat)
  | breakOutside
  | innerDynamicIndex (field : String)
deriving DecidableEq, Inhabited

/-- How a body is left by returning a value. -/
inductive Exit where
  | finish
  | returnCall
  /-- Go to the end of the body that stands in place of a call. -/
  | jump (target : Label)
deriving DecidableEq, Inhabited

def Exit.line : Exit → Line
  | .finish => .finish
  | .returnCall => .returnCall
  | .jump target => .branch target

structure Context where
  /-- The calls that were replaced by bodies around it. -/
  path : List Nat
  exit : Exit
  /-- The ends of the loops of its body, the innermost first. -/
  loopEnds : List Label
deriving DecidableEq, Inhabited

namespace Context

def outer (exit : Exit) : Context := ⟨[], exit, []⟩

def loopEnd (c : Context) : Option Label := c.loopEnds.head?

def label (c : Context) (mark : Mark) : Label := .inBody mark c.path

def inLoop (c : Context) (label : Nat) : Context :=
  { c with loopEnds := c.label (.loopEnd label) :: c.loopEnds }

def inlined (c : Context) (name : String) (site : Nat) : Context :=
  let path := c.path ++ [site]
  ⟨path, .jump (.inBody (.inlineEnd name) path), []⟩

end Context

abbrev Emitted := Except Fault (List Line)

def slot (p : Program) (scope : ScopeId) (name : String) : Except Fault Nat :=
  match p.scopes.kindOf? scope name with
  | some (.variable slot) => .ok slot
  | _ => .error (.notVariable name scope)

def loadName (p : Program) (scope : ScopeId) (name : String) : Emitted :=
  match p.scopes.kindOf? scope name with
  | some (.variable slot) => .ok [.load slot]
  | some (.constant ref) => .ok [.literal ref]
  | _ => .error (.notValue name scope)

/-- Store the values on the stack, the topmost in the last name. -/
def storeNames (p : Program) (scope : ScopeId) (names : List Ident) : Emitted :=
  names.reverse.mapM fun name => return .store (← slot p scope name.text)

def choiceLines (c : Context) (label : Nat) (test yes no : List Line) : List Line :=
  test ++ [.branchZero (c.label (.condFalse label))] ++ yes ++
    [.branch (c.label (.condEnd label)), .label (c.label (.condFalse label))] ++ no ++
    [.label (c.label (.condEnd label))]

def ifLines (c : Context) (label : Nat) (test yes : List Line) : List Line :=
  test ++ [.branchZero (c.label (.ifEnd label))] ++ yes ++ [.label (c.label (.ifEnd label))]

def ifElseLines (c : Context) (label : Nat) (test yes no : List Line) : List Line :=
  test ++ [.branchZero (c.label (.ifFalse label))] ++ yes ++
    [.branch (c.label (.ifEnd label)), .label (c.label (.ifFalse label))] ++ no ++
    [.label (c.label (.ifEnd label))]

def loopLines (c : Context) (label : Nat) (test body : List Line) : List Line :=
  [.label (c.label (.loopStart label))] ++ test ++ [.branchZero (c.label (.loopEnd label))] ++ body ++
    [.branch (c.label (.loopStart label)), .label (c.label (.loopEnd label))]

/-- The lines of a call, when `expand` yields the body of a function in a context. -/
def callLines (p : Program) (expand : Nat → Context → Emitted) (c : Context) (f : Nat) (name : String)
    (site : Nat) (args : List Line) : Emitted := do
  let some callee := p.functions[f]? | throw (.noFunction f)
  let stores ← storeNames p callee.scope (callee.params.map (·.1))
  if callee.inline then
    let inner := c.inlined name site
    let body ← expand f inner
    return args ++ stores ++ body ++ [.label (inner.label (.inlineEnd name))]
  else
    return args ++ stores ++ [.call (.subroutine name)]

def fieldOp : FieldSource → FieldOp
  | .txn => .txn
  | .gtxn (.const i) => .gtxn i
  | .gtxn (.dynamic _) => .gtxns
  | .global => .global
  | .itxn => .itxn

def fieldAtOp (field : Field) : FieldSource → Index → Except Fault FieldOp
  | .txn, .const j => .ok (.txna j)
  | .txn, .dynamic _ => .ok .txnas
  | .gtxn (.const i), .const j => .ok (.gtxna i j)
  | .gtxn (.const i), .dynamic _ => .ok (.gtxnas i)
  | .gtxn (.dynamic _), .const j => .ok (.gtxnsa j)
  | .gtxn (.dynamic _), .dynamic _ => .ok .gtxnsas
  | .global, _ => .ok .global
  | .itxn, .const j => .ok (.itxna j)
  | .itxn, .dynamic _ => .error (.innerDynamicIndex field.name)

mutual

def exprLines (p : Program) (expand : Nat → Context → Emitted) (c : Context) : Expr → Emitted
  | .literal _ _ ref => return [.literal ref]
  | .ident _ name scope => loadName p scope name
  | .unary _ op e => return (← exprLines p expand c e) ++ [.unary op]
  | .binary _ op l r => return (← exprLines p expand c l) ++ (← exprLines p expand c r) ++ [.binary op]
  | .group _ e => exprLines p expand c e
  | .call _ f name site args => do
    callLines p expand c f name site (← exprsLines p expand c args)
  | .builtin _ b args => return (← exprsLines p expand c args) ++ [.builtin b.op b.immediates]
  | .cond _ label test yes no =>
    return choiceLines c label (← exprLines p expand c test) (← exprLines p expand c yes)
      (← exprLines p expand c no)
  | .field _ source f => return (← sourceLines p expand c source) ++ [.field (fieldOp source) f]
  | .fieldAt _ source f i => do
    let op ← fieldAtOp f source i
    return (← sourceLines p expand c source) ++ (← indexLines p expand c i) ++ [.field op f]
  | .arg _ (.const n) => return [.arg n]
  | .arg _ (.dynamic e) => return (← exprLines p expand c e) ++ [.args]
  | .cast _ _ e => exprLines p expand c e

/-- The lines that push an index, if it is not part of the instruction. -/
def indexLines (p : Program) (expand : Nat → Context → Emitted) (c : Context) : Index → Emitted
  | .const _ => return []
  | .dynamic e => exprLines p expand c e

/-- The lines that push what is needed to find the source of a field. -/
def sourceLines (p : Program) (expand : Nat → Context → Emitted) (c : Context) :
    FieldSource → Emitted
  | .gtxn i => indexLines p expand c i
  | .txn | .global | .itxn => return []

def exprsLines (p : Program) (expand : Nat → Context → Emitted) (c : Context) : List Expr → Emitted
  | [] => return []
  | e :: rest => return (← exprLines p expand c e) ++ (← exprsLines p expand c rest)

end

mutual

def stmtLines (p : Program) (expand : Nat → Context → Emitted) (c : Context) : Stmt → Emitted
  | .varDecl _ scope names value =>
    return (← exprLines p expand c value) ++ (← storeNames p scope names)
  | .constDecl _ _ _ => return []
  | .assign _ scope targets value =>
    return (← exprLines p expand c value) ++ (← storeNames p scope targets)
  | .setField _ field value => return (← exprLines p expand c value) ++ [.innerField field]
  | .innerBegin _ => return [.innerBegin]
  | .innerSubmit _ => return [.innerSubmit]
  | .ret _ value => return (← exprLines p expand c value) ++ [c.exit.line]
  | .error _ => return [.err]
  | .ifThen _ label test yes =>
    return ifLines c label (← exprLines p expand c test) (← blockLines p expand c yes)
  | .ifElse _ label test yes no =>
    return ifElseLines c label (← exprLines p expand c test) (← blockLines p expand c yes)
      (← blockLines p expand c no)
  | .loop _ label test body =>
    return loopLines c label (← exprLines p expand c test)
      (← blockLines p expand (c.inLoop label) body)
  | .breakLoop _ =>
    match c.loopEnd with
    | some target => return [.branch target]
    | none => throw .breakOutside
  | .expr _ value => do
    let produced := (value.resultTypes p.scopes p.functions).length
    return (← exprLines p expand c value) ++ List.replicate produced .pop

def blockLines (p : Program) (expand : Nat → Context → Emitted) (c : Context) : List Stmt → Emitted
  | [] => return []
  | s :: rest => return (← stmtLines p expand c s) ++ (← blockLines p expand c rest)

end

/-- The bodies of the functions below a bound, in a context. Such a body is expanded with the bodies of
the functions before it. -/
def bodyBelow (p : Program) : (bound : Nat) → Nat → Context → Emitted
  | 0, f, _ => .error (.noFunction f)
  | bound + 1, f, c =>
    if f = bound then
      match p.functions[bound]? with
      | some function => blockLines p (bodyBelow p bound) c function.body
      | none => .error (.noFunction f)
    else
      bodyBelow p bound f c

/-- The lines of statements that may call any function. -/
def topLines (p : Program) (exit : Exit) (stmts : List Stmt) : Emitted :=
  blockLines p (bodyBelow p p.functions.length) (.outer exit) stmts

/-- The lines of a function that is called, behind a jump over them. -/
def subroutineLines (p : Program) (f : Function) : Emitted := do
  let body ← topLines p .returnCall f.body
  return [.branch (.subroutineEnd f.name.text), .label (.subroutine f.name.text)] ++ body ++
    [.label (.subroutineEnd f.name.text)]

def subroutinesLines (p : Program) : List Function → Emitted
  | [] => return []
  | f :: rest => do
    if f.inline || f.isEntry then
      subroutinesLines p rest
    else
      return (← subroutineLines p f) ++ (← subroutinesLines p rest)

end Teal.Assembly

namespace Teal

open Assembly in
def Program.emit (p : Program) : Except Assembly.Fault (List Assembly.Line) := do
  let globals ← topLines p .finish p.globals
  let subroutines ← subroutinesLines p p.functions
  let some entry := p.functions[p.entry]? | throw (.noFunction p.entry)
  let body ← topLines p .finish entry.body
  return [.version p.version] ++ poolLines p.pool ++ globals ++ subroutines ++ body ++
    [.label .programEnd]

end Teal
