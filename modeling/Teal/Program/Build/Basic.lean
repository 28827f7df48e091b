import Teal.Program.Fault

/-!
The state in which a program is built, and steps on it. What cannot be resolved is reported and left
out, and building goes on.

Building takes for granted that the scopes and functions it refers to exist. Where one does not, that
is a breach, which is kept apart from what is reported: it would be a fault of the builder.
-/

namespace Teal.Program

/-- What building takes for granted and does not find. -/
inductive Breach where
  | noScope (scope : ScopeId)
  | noFunction (index : Nat)
  /-- A name of the machine is refused by the scopes of an empty program. -/
  | refused (name : String)
deriving DecidableEq, Inhabited

structure Builder where
  version : Nat
  literals : Pool.Tables
  scopes : Scopes
  functions : List Function
  globals : List Stmt
  /-- The scope that the next top-level item sees. -/
  tip : ScopeId
  /-- Number of labels given out: one for each condition, choice, loop and call of the trees, so that 32 bits
  hold it as long as these are fewer than `2 ^ 32`. -/
  labels : Nat
  diagnostics : List Diagnostic
  entry : Option Nat
  breaches : List Breach

def Builder.pool (b : Builder) : Pool := b.literals.pool

abbrev Build := StateM Builder

namespace Build

def report (span : Span) (f : Fault) : Build Unit :=
  modify fun b => { b with diagnostics := b.diagnostics ++ [f.toDiagnostic span] }

def fail {α : Type} (span : Span) (f : Fault) : Build (Option α) := do
  report span f
  return none

def breach (x : Breach) : Build Unit :=
  modify fun b => { b with breaches := b.breaches ++ [x] }

/-- Look into scopes, which have to exist. -/
def visit (scopes : List ScopeId) : Build Unit :=
  modify fun b => { b with
    breaches := b.breaches ++ (scopes.filter (b.scopes.arena.size ≤ ·)).map .noScope }

def freshLabel : Build Nat :=
  modifyGet fun b => (b.labels, { b with labels := b.labels + 1 })

def internInt (n : UInt64) : Build Pool.Ref :=
  modifyGet fun b => let (ref, literals) := b.literals.internInt n; (ref, { b with literals := literals })

def internBytes (bs : List UInt8) : Build Pool.Ref :=
  modifyGet fun b => let (ref, literals) := b.literals.internBytes bs; (ref, { b with literals := literals })

def openScope (kind : Scope.Kind) (parent : ScopeId) : Build ScopeId := do
  visit [parent]
  modifyGet fun b =>
    let (id, scopes) := b.scopes.openScope kind parent
    (id, { b with scopes := scopes })

def kindOf? (scope : ScopeId) (name : String) : Build (Option Symbol.Kind) := do
  visit [scope]
  return (← get).scopes.kindOf? scope name

def runtimeOf? (scope : ScopeId) (name : String) : Build (Option Runtime) := do
  visit [scope]
  return (← get).scopes.runtimeOf? scope name

def declareVariable (scope : ScopeId) (name : Ident) (ty : Ty) : Build Bool := do
  visit [scope]
  match (← get).scopes.declareVariable scope name ty with
  | .ok (_, scopes) =>
    modify fun b => { b with scopes := scopes }
    return true
  | .error f =>
    report name.span (.scope f)
    return false

def declare (scope : ScopeId) (name : Ident) (ty : Ty) (kind : Symbol.Kind) : Build Bool := do
  visit [scope]
  match (← get).scopes.declare scope name ty kind with
  | .ok scopes =>
    modify fun b => { b with scopes := scopes }
    return true
  | .error f =>
    report name.span (.scope f)
    return false

/-- Whether the version is new enough for a feature; if not, that is reported. -/
def requireVersion (needed : Nat) (feature : Feature) (span : Span) : Build Bool := do
  let version := (← get).version
  if needed ≤ version then
    return true
  report span (.tooOld feature needed version)
  return false

def resultTypes (e : Expr) : Build (List Ty) := do
  visit e.typeScope?.toList
  let b ← get
  return e.resultTypes b.scopes b.functions

end Build

end Teal.Program
