import Teal.Assembly.Emit
import Teal.Proofs.Semantics.Machine

/-! The meaning of a built program. Every declared variable has a storage cell of its own, which is told
by the scope that declares it and its name. Operands are evaluated from left to right, those of logical
operators all of them; the arguments of a call are evaluated before any of them is bound to a parameter;
whether a function is inlined makes no difference. Operations compute what they compute on the machine.

Fuel bounds how deeply calls are nested and how often each loop is gone through. -/

namespace Teal.Scopes

/-- The nearest scope that declares a name. -/
def home? (s : Scopes) (id : ScopeId) (name : String) : Option ScopeId :=
  match s.arena[id]? with
  | none => none
  | some scope =>
    if (scope.find? name).isSome then some id
    else
      match scope.parent with
      | none => none
      | some parent => if parent < id then s.home? parent name else none
termination_by id

end Teal.Scopes

namespace Teal.Semantics

open Assembly (Line fieldOp fieldAtOp)
open Program (Expr Index FieldSource Stmt Function poolValue?)

/-- A declared variable: the scope that declares it, and its name. -/
abbrev Cell := ScopeId × String

structure Memory (Env : Type) where
  cells : Cell → Value
  env : Env

inductive Stop where
  | failed
  | outOfFuel
deriving DecidableEq

inductive Completion where
  | next
  | broke
  | returned (value : Value)
deriving DecidableEq

variable {Env : Type}

def cell? (p : Program) (scope : ScopeId) (name : String) : Option Cell :=
  match p.scopes.kindOf? scope name with
  | some (.variable _) => (p.scopes.home? scope name).map (·, name)
  | _ => none

def readName (p : Program) (scope : ScopeId) (name : String) (m : Memory Env) :
    Except Stop (List Value) :=
  match cell? p scope name with
  | some cell => .ok [m.cells cell]
  | none =>
    match p.scopes.kindOf? scope name with
    | some (.constant ref) =>
      match poolValue? p.pool ref with
      | some v => .ok [v]
      | none => .error .failed
    | _ => .error .failed

/-- Bind names to values. Of equal names the first keeps its value. -/
def bindNames (p : Program) (scope : ScopeId) :
    List Ident → List Value → Memory Env → Except Stop (Memory Env)
  | [], [], m => .ok m
  | name :: names, v :: vs, m => do
    let m ← bindNames p scope names vs m
    match cell? p scope name.text with
    | some cell => .ok { m with cells := update m.cells cell v }
    | none => .error .failed
  | _, _, _ => .error .failed

def applyOp (I : Interp Env) (line : Line) (args : List Value) (m : Memory Env) :
    Except Stop (List Value × Memory Env) :=
  match I.apply line args m.env with
  | some (vs, env) => .ok (vs.val, { m with env := env })
  | none => .error .failed

/-- Whether a condition holds. Only numbers can be tested. -/
def truth : List Value → Except Stop Bool
  | [.int n] => .ok (n != 0)
  | _ => .error .failed

abbrev Calls (Env : Type) := Nat → List Value → Memory Env → Except Stop (Value × Memory Env)

mutual

def evalExpr (p : Program) (I : Interp Env) (call : Calls Env) :
    Expr → Memory Env → Except Stop (List Value × Memory Env)
  | .literal _ value _, m => .ok ([value], m)
  | .ident _ name scope, m => do return (← readName p scope name m, m)
  | .unary _ op e, m => do
    let (vs, m) ← evalExpr p I call e m
    applyOp I (.unary op) vs m
  | .binary _ op l r, m => do
    let (vs, m) ← evalExpr p I call l m
    let (ws, m) ← evalExpr p I call r m
    applyOp I (.binary op) (vs ++ ws) m
  | .group _ e, m => evalExpr p I call e m
  | .call _ f _ _ args, m => do
    let (vs, m) ← evalExprs p I call args m
    let (v, m) ← call f vs m
    return ([v], m)
  | .builtin _ b args, m => do
    let (vs, m) ← evalExprs p I call args m
    applyOp I (.builtin b.op b.immediates) vs m
  | .cond _ _ test yes no, m => do
    let (vs, m) ← evalExpr p I call test m
    if ← truth vs then evalExpr p I call yes m else evalExpr p I call no m
  | .field _ source f, m => do
    let (vs, m) ← evalSource p I call source m
    applyOp I (.field (fieldOp source) f) vs m
  | .fieldAt _ source f i, m =>
    match fieldAtOp f source i with
    | .ok op => do
      let (vs, m) ← evalSource p I call source m
      let (ws, m) ← evalIndex p I call i m
      applyOp I (.field op f) (vs ++ ws) m
    | .error _ => .error .failed
  | .arg _ (.const n), m => applyOp I (.arg n) [] m
  | .arg _ (.dynamic e), m => do
    let (vs, m) ← evalExpr p I call e m
    applyOp I .args vs m
  | .cast _ _ e, m => evalExpr p I call e m

def evalIndex (p : Program) (I : Interp Env) (call : Calls Env) :
    Index → Memory Env → Except Stop (List Value × Memory Env)
  | .const _, m => .ok ([], m)
  | .dynamic e, m => evalExpr p I call e m

def evalSource (p : Program) (I : Interp Env) (call : Calls Env) :
    FieldSource → Memory Env → Except Stop (List Value × Memory Env)
  | .gtxn i, m => evalIndex p I call i m
  | .txn, m | .global, m | .itxn, m => .ok ([], m)

def evalExprs (p : Program) (I : Interp Env) (call : Calls Env) :
    List Expr → Memory Env → Except Stop (List Value × Memory Env)
  | [], m => .ok ([], m)
  | e :: rest, m => do
    let (vs, m) ← evalExpr p I call e m
    let (ws, m) ← evalExprs p I call rest m
    return (vs ++ ws, m)

end

def evalTest (p : Program) (I : Interp Env) (call : Calls Env) (e : Expr) (m : Memory Env) :
    Except Stop (Bool × Memory Env) := do
  let (vs, m) ← evalExpr p I call e m
  return (← truth vs, m)

/-- Do a body as long as a test holds, so many times at most. -/
def iterate (test : Memory Env → Except Stop (Bool × Memory Env))
    (body : Memory Env → Except Stop (Completion × Memory Env)) :
    Nat → Memory Env → Except Stop (Completion × Memory Env)
  | 0, _ => .error .outOfFuel
  | n + 1, m => do
    let (holds, m) ← test m
    if holds then
      match ← body m with
      | (.next, m) => iterate test body n m
      | (.broke, m) => return (.next, m)
      | (.returned v, m) => return (.returned v, m)
    else
      return (.next, m)

mutual

def evalStmt (p : Program) (I : Interp Env) (call : Calls Env) (fuel : Nat) :
    Stmt → Memory Env → Except Stop (Completion × Memory Env)
  | .varDecl _ scope names value, m | .assign _ scope names value, m => do
    let (vs, m) ← evalExpr p I call value m
    return (.next, ← bindNames p scope names vs m)
  | .constDecl _ _ _, m => .ok (.next, m)
  | .setField _ field value, m => do
    let (vs, m) ← evalExpr p I call value m
    let (_, m) ← applyOp I (.innerField field) vs m
    return (.next, m)
  | .innerBegin _, m => do
    let (_, m) ← applyOp I .innerBegin [] m
    return (.next, m)
  | .innerSubmit _, m => do
    let (_, m) ← applyOp I .innerSubmit [] m
    return (.next, m)
  | .ret _ value, m => do
    match ← evalExpr p I call value m with
    | ([v], m) => return (.returned v, m)
    | _ => throw .failed
  | .error _, _ => .error .failed
  | .ifThen _ _ test yes, m => do
    let (holds, m) ← evalTest p I call test m
    if holds then evalBlock p I call fuel yes m else return (.next, m)
  | .ifElse _ _ test yes no, m => do
    let (holds, m) ← evalTest p I call test m
    if holds then evalBlock p I call fuel yes m else evalBlock p I call fuel no m
  | .loop _ _ test body, m =>
    iterate (evalTest p I call test) (fun m => evalBlock p I call fuel body m) fuel m
  | .breakLoop _, m => .ok (.broke, m)
  | .expr _ value, m => do
    let (_, m) ← evalExpr p I call value m
    return (.next, m)

def evalBlock (p : Program) (I : Interp Env) (call : Calls Env) (fuel : Nat) :
    List Stmt → Memory Env → Except Stop (Completion × Memory Env)
  | [], m => .ok (.next, m)
  | s :: rest, m => do
    match ← evalStmt p I call fuel s m with
    | (.next, m) => evalBlock p I call fuel rest m
    | left => return left

end

def evalCall (p : Program) (I : Interp Env) : (fuel : Nat) → Calls Env
  | 0, _, _, _ => .error .outOfFuel
  | fuel + 1, f, vs, m => do
    let some callee := p.functions[f]? | throw .failed
    let m ← bindNames p callee.scope (callee.params.map (·.1)) vs m
    match ← evalBlock p I (evalCall p I fuel) fuel callee.body m with
    | (.returned v, m) => return (v, m)
    | _ => throw .failed

/-- The value that the entry point returns, behind the global declarations. -/
def evalProgram (p : Program) (I : Interp Env) (fuel : Nat) (env : Env) :
    Except Stop (Value × Memory Env) := do
  let some entry := p.functions[p.entry]? | throw .failed
  match ← evalBlock p I (evalCall p I fuel) fuel (p.globals ++ entry.body) ⟨fun _ => .int 0, env⟩ with
  | (.returned v, m) => return (v, m)
  | _ => throw .failed

def outcome? (p : Program) (I : Interp Env) (fuel : Nat) (env : Env) : Option (Outcome Env) :=
  match evalProgram p I fuel env with
  | .ok (v, m) => some (.returned v m.env)
  | .error .failed => some .failed
  | .error .outOfFuel => none

end Teal.Semantics
