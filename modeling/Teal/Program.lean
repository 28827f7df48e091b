import Teal.Builtin
import Teal.Operator
import Teal.Scope

/-!
Programs whose names are resolved. Literals are in the pool, variables have slots, conditions, loops
and calls have numbers for their labels, and calls of functions are told from calls of builtins.
-/

namespace Teal.Program

inductive Literal where
  | int (n : UInt64)
  | bytes (bs : List UInt8)
deriving DecidableEq, Inhabited

def Literal.ty : Literal → Ty
  | .int _ => .integer
  | .bytes _ => .bytes

mutual

inductive Expr where
  | literal (span : Span) (value : Literal) (ref : Pool.Ref)
  /-- A variable or constant, as it is seen from a scope. -/
  | ident (span : Span) (name : String) (scope : ScopeId)
  | unary (span : Span) (op : UnOp) (operand : Expr)
  | binary (span : Span) (op : BinOp) (lhs rhs : Expr)
  | group (span : Span) (inner : Expr)
  /-- A call of a function of the program; `site` numbers the call. -/
  | call (span : Span) (function : Nat) (name : String) (site : Nat) (args : List Expr)
  | builtin (span : Span) (call : Builtin.Call) (args : List Expr)
  | cond (span : Span) (label : Nat) (test yes no : Expr)
  | field (span : Span) (source : FieldSource) (field : Field)
  | fieldAt (span : Span) (source : FieldSource) (field : Field) (index : Index)
  | arg (span : Span) (index : Index)
  /-- A value that is taken for one of another type. -/
  | cast (span : Span) (ty : Ty) (inner : Expr)

/-- An index that is part of the instruction, or one that is computed. -/
inductive Index where
  | const (n : UInt8)
  | dynamic (value : Expr)

inductive FieldSource where
  | txn
  | gtxn (index : Index)
  | global
  /-- The inner transaction that was submitted last. -/
  | itxn

end

def Expr.span : Expr → Span
  | .literal span _ _ | .ident span _ _ | .unary span _ _ | .binary span _ _ _ | .group span _
  | .call span _ _ _ _ | .builtin span _ _ | .cond span _ _ _ _ | .field span _ _
  | .fieldAt span _ _ _ | .arg span _ | .cast span _ _ => span

def Index.isDynamic : Index → Bool
  | .const _ => false
  | .dynamic _ => true

def FieldSource.isInner : FieldSource → Bool
  | .itxn => true
  | _ => false

inductive Stmt where
  /-- New variables, bound in a scope. -/
  | varDecl (span : Span) (scope : ScopeId) (names : List Ident) (value : Expr)
  /-- A new constant, which is only a name of a place in the pool. -/
  | constDecl (span : Span) (name : Ident) (value : Expr)
  | assign (span : Span) (scope : ScopeId) (targets : List Ident) (value : Expr)
  /-- Set a field of the inner transaction that is being made. -/
  | setField (span : Span) (field : Field) (value : Expr)
  | innerBegin (span : Span)
  | innerSubmit (span : Span)
  | ret (span : Span) (value : Expr)
  | error (span : Span)
  | ifThen (span : Span) (label : Nat) (test : Expr) (yes : List Stmt)
  | ifElse (span : Span) (label : Nat) (test : Expr) (yes no : List Stmt)
  | loop (span : Span) (label : Nat) (test : Expr) (body : List Stmt)
  | breakLoop (span : Span)
  | expr (span : Span) (value : Expr)

def Stmt.span : Stmt → Span
  | .varDecl span _ _ _ | .constDecl span _ _ | .assign span _ _ _ | .setField span _ _
  | .innerBegin span | .innerSubmit span | .ret span _ | .error span | .ifThen span _ _ _
  | .ifElse span _ _ _ _ | .loop span _ _ _ | .breakLoop span | .expr span _ => span

mutual

/-- Whether control cannot go on behind the statement. -/
def Stmt.terminates : Stmt → Bool
  | .ret _ _ | .error _ => true
  | .ifElse _ _ _ yes no => blockTerminates yes && blockTerminates no
  | _ => false

def blockTerminates : List Stmt → Bool
  | [] => false
  | [s] => s.terminates
  | _ :: s :: rest => blockTerminates (s :: rest)

end

mutual

def Stmt.hasReturn : Stmt → Bool
  | .ret _ _ => true
  | .ifThen _ _ _ yes => blockHasReturn yes
  | .ifElse _ _ _ yes no => blockHasReturn yes || blockHasReturn no
  | .loop _ _ _ body => blockHasReturn body
  | _ => false

def blockHasReturn : List Stmt → Bool
  | [] => false
  | s :: rest => s.hasReturn || blockHasReturn rest

end

structure Function where
  name : Ident
  /-- Whether calls are replaced by the body. -/
  inline : Bool
  isEntry : Bool
  params : List (Ident × Ty)
  scope : ScopeId
  body : List Stmt
  returnTy : Ty
  span : Span

/-- Types of the values that an expression leaves, as declarations tell them. -/
def Expr.resultTypes (scopes : Scopes) (functions : List Function) : Expr → List Ty
  | .literal _ value _ => [value.ty]
  | .ident _ name scope => [scopes.tyOf scope name]
  | .unary _ op _ => [op.resultTy]
  | .binary _ op _ _ => [op.resultTy]
  | .group _ inner => inner.resultTypes scopes functions
  | .call _ f _ _ _ => [(functions[f]?.map (·.returnTy)).getD .invalid]
  | .builtin _ b _ => b.results
  | .cond _ _ _ yes _ => yes.resultTypes scopes functions
  | .field _ _ f | .fieldAt _ _ f _ => [f.ty]
  | .arg _ _ => [.bytes]
  | .cast _ ty _ => [ty]

/-- The scope in which the type of an expression is looked up, if it is looked up at all. -/
def Expr.typeScope? : Expr → Option ScopeId
  | .ident _ _ scope => some scope
  | .group _ inner => inner.typeScope?
  | .cond _ _ _ yes _ => yes.typeScope?
  | _ => none

def Expr.scalarType (scopes : Scopes) (functions : List Function) (e : Expr) : Ty :=
  match e.resultTypes scopes functions with
  | [ty] => ty
  | _ => .invalid

mutual

def Stmt.firstReturn? (scopes : Scopes) (functions : List Function) : Stmt → Option Ty
  | .ret _ value =>
    let ty := value.scalarType scopes functions
    if ty.isResolved then some ty else none
  | .ifThen _ _ _ yes => blockFirstReturn? scopes functions yes
  | .ifElse _ _ _ yes no =>
    (blockFirstReturn? scopes functions yes).or (blockFirstReturn? scopes functions no)
  | .loop _ _ _ body => blockFirstReturn? scopes functions body
  | _ => none

def blockFirstReturn? (scopes : Scopes) (functions : List Function) : List Stmt → Option Ty
  | [] => none
  | s :: rest => (s.firstReturn? scopes functions).or (blockFirstReturn? scopes functions rest)

end

mutual

def Stmt.returnScopes : Stmt → List ScopeId
  | .ret _ value => value.typeScope?.toList
  | .ifThen _ _ _ yes => blockReturnScopes yes
  | .ifElse _ _ _ yes no => blockReturnScopes yes ++ blockReturnScopes no
  | .loop _ _ _ body => blockReturnScopes body
  | _ => []

/-- The scopes in which the types of the values returned in a block are looked up. -/
def blockReturnScopes : List Stmt → List ScopeId
  | [] => []
  | s :: rest => s.returnScopes ++ blockReturnScopes rest

end

end Teal.Program

namespace Teal

structure Program where
  version : Nat
  pool : Pool
  scopes : Scopes
  globals : List Program.Stmt
  functions : List Program.Function
  entry : Nat

end Teal
