import Teal.Operator
import Teal.Span

/-!
What a source says, before any name is looked up. Every node carries the place it was read from.
-/

namespace Teal.Tree

mutual

inductive Expr where
  | int (span : Span) (value : UInt64)
  | bytes (span : Span) (value : List UInt8)
  | var (span : Span) (name : String)
  | unary (span : Span) (op : UnOp) (operand : Expr)
  | binary (span : Span) (op : BinOp) (lhs rhs : Expr)
  | group (span : Span) (inner : Expr)
  | call (span : Span) (name : Ident) (args : List Expr)
  /-- The choice `if test { yes } else { no }` between two values. -/
  | cond (span : Span) (test yes no : Expr)
  /-- The element `base[index]` on its own. -/
  | element (span : Span) (base : Ident) (index : Expr)
  | field (span : Span) (owner : Owner) (field : Ident)
  /-- An element `owner.field[index]` of a field. -/
  | fieldAt (span : Span) (owner : Owner) (field : Ident) (index : Expr)
  | method (span : Span) (base method : Ident) (args : List Expr)

/-- What stands before the dot of a field. -/
inductive Owner where
  | name (name : Ident)
  | element (span : Span) (base : Ident) (index : Expr)

end

def Expr.span : Expr → Span
  | .int span _ | .bytes span _ | .var span _ | .unary span _ _ | .binary span _ _ _
  | .group span _ | .call span _ _ | .cond span _ _ _ | .element span _ _ | .field span _ _
  | .fieldAt span _ _ _ | .method span _ _ _ => span

inductive Target where
  | var (span : Span) (name : String)
  | field (span : Span) (base : String) (field : Ident)
deriving DecidableEq

def Target.span : Target → Span
  | .var span _ | .field span _ _ => span

structure Decl where
  isConst : Bool
  names : List Ident
  value : Expr

inductive Stmt where
  | decl (span : Span) (decl : Decl)
  | assign (span : Span) (first : Target) (others : List Target) (value : Expr)
  | ret (span : Span) (value : Expr)
  | error (span : Span)
  | breakLoop (span : Span)
  | ifThen (span : Span) (test : Expr) (yesSpan : Span) (yes : List Stmt)
  | ifElse (span : Span) (test : Expr) (yesSpan : Span) (yes : List Stmt)
      (noSpan : Span) (no : List Stmt)
  | loop (span : Span) (test : Expr) (bodySpan : Span) (body : List Stmt)
  | expr (span : Span) (value : Expr)

def Stmt.span : Stmt → Span
  | .decl span _ | .assign span _ _ _ | .ret span _ | .error span | .breakLoop span
  | .ifThen span _ _ _ | .ifElse span _ _ _ _ _ | .loop span _ _ _ | .expr span _ => span

structure Block where
  span : Span
  stmts : List Stmt

inductive ParamType where
  | int
  | byte
deriving DecidableEq, Inhabited

structure Param where
  name : Ident
  type : Option (ParamType × Span)

structure Function where
  inline : Bool
  name : Ident
  params : List Param
  body : Block

inductive Item where
  | decl (span : Span) (decl : Decl)
  | function (span : Span) (function : Function)

def Item.span : Item → Span
  | .decl span _ | .function span _ => span

inductive Import where
  /-- A dotted name, as its parts. -/
  | dotted (parts : List String)
  | path (path : String)
deriving DecidableEq, Inhabited

structure Module where
  imports : List (Import × Span)
  items : List Item

/-- A file as part of a program. -/
structure SourceModule where
  name : String
  file : FileId
  tree : Module
  /-- Whether it is the file to compile, and not one that is imported. -/
  isMain : Bool

end Teal.Tree
