import Teal.Pool
import Teal.Span
import Teal.Ty

/-!
Scopes form a tree that is kept in an array, each scope with the index of its parent. A block opens a
scope, and so does every declaration, for the statements after it: a value never sees the name it is
given to.

Names may be declared again in a block further in, unless they stand for something that cannot be
assigned. Every variable has a storage slot of its own; slots are never used twice.
-/

namespace Teal

abbrev ScopeId := Nat

/-- Names that stand for what the machine provides. -/
inductive Runtime where
  | txn
  | gtxn
  | args
  | global
  | itxn
deriving DecidableEq, Inhabited

def Runtime.text : Runtime → String
  | .txn => "txn"
  | .gtxn => "gtxn"
  | .args => "args"
  | .global => "global"
  | .itxn => "itxn"

namespace Symbol

inductive Kind where
  | variable (slot : Nat)
  | constant (value : Pool.Ref)
  | function (index : Nat)
  | runtime (runtime : Runtime)
deriving DecidableEq, Inhabited

def Kind.description : Kind → String
  | .variable _ => "variable"
  | .constant _ => "constant"
  | .function _ => "function"
  | .runtime _ => "runtime pseudo-variable"

def Kind.isVariable : Kind → Bool
  | .variable _ => true
  | _ => false

end Symbol

structure Symbol where
  name : String
  ty : Ty
  kind : Symbol.Kind
  span : Span
deriving DecidableEq, Inhabited

inductive Scope.Kind where
  /-- A block: names declared outside may be declared again. -/
  | block
  | decl
deriving DecidableEq, Inhabited

structure Scope where
  parent : Option ScopeId
  kind : Scope.Kind
  symbols : List Symbol
  /-- Number of slots in use when the scope was opened. -/
  baseSlot : Nat
deriving DecidableEq, Inhabited

def Scope.find? (scope : Scope) (name : String) : Option Symbol :=
  scope.symbols.find? (·.name == name)

structure Scopes where
  arena : Array Scope
  used : Nat
deriving DecidableEq, Inhabited

namespace Scopes

inductive Fault where
  /-- It is declared in the same block. -/
  | alreadyDeclared (name : String) (previous : Span)
  /-- It stands for something that cannot be assigned. -/
  | immutable (name : String) (kind : Symbol.Kind) (previous : Span)
  | outOfSlots
deriving DecidableEq, Inhabited

def Fault.message : Fault → String
  | .alreadyDeclared name _ => s!"'{name}' is already declared in this scope"
  | .immutable name kind _ => s!"'{name}' is a {kind.description} and cannot be redeclared"
  | .outOfSlots => "too many variables: all 256 storage slots are in use"

def Fault.previous? : Fault → Option Span
  | .alreadyDeclared _ previous | .immutable _ _ previous => some previous
  | .outOfSlots => none

def maxSlots : Nat := 256

def initial : Scopes := ⟨#[⟨none, .block, [], 0⟩], 0⟩

def root : ScopeId := 0

def openScope (kind : Scope.Kind) (parent : ScopeId) (s : Scopes) : ScopeId × Scopes :=
  (s.arena.size, { s with arena := s.arena.push ⟨some parent, kind, [], s.used⟩ })

def path (s : Scopes) (id : ScopeId) : List Scope :=
  match s.arena[id]? with
  | none => []
  | some scope =>
    scope ::
      match scope.parent with
      | none => []
      | some parent => if parent < id then s.path parent else []
termination_by id

/-- The part of a path that belongs to its first block. -/
def ownBlock : List Scope → List Scope
  | [] => []
  | scope :: rest =>
    match scope.kind with
    | .block => [scope]
    | .decl => scope :: ownBlock rest

def lookup (s : Scopes) (id : ScopeId) (name : String) : Option Symbol :=
  (s.path id).findSome? (·.find? name)

def kindOf? (s : Scopes) (id : ScopeId) (name : String) : Option Symbol.Kind :=
  (s.lookup id name).map (·.kind)

def runtimeOf? (s : Scopes) (id : ScopeId) (name : String) : Option Runtime :=
  match s.kindOf? id name with
  | some (.runtime r) => some r
  | _ => none

/-- The type of a name; one that is not declared has none. -/
def tyOf (s : Scopes) (id : ScopeId) (name : String) : Ty :=
  ((s.lookup id name).map (·.ty)).getD .invalid

def baseSlot (s : Scopes) (id : ScopeId) : Nat := (s.arena[id]?.map (·.baseSlot)).getD 0

def permits (s : Scopes) (id : ScopeId) (name : String) : Except Fault Unit :=
  match (ownBlock (s.path id)).findSome? (·.find? name) with
  | some previous => .error (.alreadyDeclared name previous.span)
  | none =>
    match s.lookup id name with
    | none => .ok ()
    | some previous =>
      if previous.kind.isVariable then .ok ()
      else .error (.immutable name previous.kind previous.span)

def insert (s : Scopes) (id : ScopeId) (symbol : Symbol) : Scopes :=
  { s with arena := s.arena.modify id fun sc => { sc with symbols := sc.symbols ++ [symbol] } }

/-- Declare a name that needs no slot. -/
def declare (id : ScopeId) (name : Ident) (ty : Ty) (kind : Symbol.Kind) (s : Scopes) :
    Except Fault Scopes := do
  s.permits id name.text
  return s.insert id ⟨name.text, ty, kind, name.span⟩

/-- Declare a variable, which gets the next slot. -/
def declareVariable (id : ScopeId) (name : Ident) (ty : Ty) (s : Scopes) :
    Except Fault (Nat × Scopes) := do
  s.permits id name.text
  if s.used < maxSlots then
    return (s.used, { s.insert id ⟨name.text, ty, .variable s.used, name.span⟩ with
      used := s.used + 1 })
  else
    throw .outOfSlots

end Scopes

end Teal
