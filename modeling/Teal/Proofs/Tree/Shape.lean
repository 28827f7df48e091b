import Teal.Tree

/-! Trees without places. Two trees are of the same shape if they are equal once all their places are
forgotten. -/

namespace Teal

/-- The name without its place. -/
def Ident.erase (i : Ident) : Ident := ⟨i.text, .nowhere⟩

namespace Tree

mutual

def Expr.erase : Expr → Expr
  | .int _ n => .int .nowhere n
  | .bytes _ bs => .bytes .nowhere bs
  | .var _ name => .var .nowhere name
  | .unary _ op e => .unary .nowhere op e.erase
  | .binary _ op l r => .binary .nowhere op l.erase r.erase
  | .group _ e => .group .nowhere e.erase
  | .call _ name args => .call .nowhere name.erase (eraseExprs args)
  | .cond _ test yes no => .cond .nowhere test.erase yes.erase no.erase
  | .element _ base i => .element .nowhere base.erase i.erase
  | .field _ owner name => .field .nowhere owner.erase name.erase
  | .fieldAt _ owner name i => .fieldAt .nowhere owner.erase name.erase i.erase
  | .method _ base method args => .method .nowhere base.erase method.erase (eraseExprs args)

def Owner.erase : Owner → Owner
  | .name name => .name name.erase
  | .element _ base i => .element .nowhere base.erase i.erase

def eraseExprs : List Expr → List Expr
  | [] => []
  | e :: rest => e.erase :: eraseExprs rest

end

theorem eraseExprs_eq_map (es : List Expr) : eraseExprs es = es.map Expr.erase := by
  induction es with
  | nil => rfl
  | cons e rest ih => rw [eraseExprs, ih, List.map_cons]

/-- The operator of an expression that is an operation on two operands, without parentheses. -/
def Expr.operator? : Expr → Option BinOp
  | .binary _ op _ _ => some op
  | _ => none

def Target.erase : Target → Target
  | .var _ name => .var .nowhere name
  | .field _ base name => .field .nowhere base name.erase

/-- What an expression is as the left side of an assignment. -/
def Expr.target? : Expr → Option Target
  | .var span name => some (.var span name)
  | .field span (.name base) name => some (.field span base.text name)
  | _ => none

def Decl.erase (d : Decl) : Decl := ⟨d.isConst, d.names.map Ident.erase, d.value.erase⟩

mutual

def Stmt.erase : Stmt → Stmt
  | .decl _ d => .decl .nowhere d.erase
  | .assign _ first others value => .assign .nowhere first.erase (others.map Target.erase) value.erase
  | .ret _ value => .ret .nowhere value.erase
  | .error _ => .error .nowhere
  | .breakLoop _ => .breakLoop .nowhere
  | .ifThen _ test _ yes => .ifThen .nowhere test.erase .nowhere (eraseStmts yes)
  | .ifElse _ test _ yes _ no =>
    .ifElse .nowhere test.erase .nowhere (eraseStmts yes) .nowhere (eraseStmts no)
  | .loop _ test _ body => .loop .nowhere test.erase .nowhere (eraseStmts body)
  | .expr _ value => .expr .nowhere value.erase

def eraseStmts : List Stmt → List Stmt
  | [] => []
  | s :: rest => s.erase :: eraseStmts rest

end

theorem eraseStmts_eq_map (stmts : List Stmt) : eraseStmts stmts = stmts.map Stmt.erase := by
  induction stmts with
  | nil => rfl
  | cons s rest ih => rw [eraseStmts, ih, List.map_cons]

theorem Stmt.span_erase (s : Stmt) : s.erase.span = .nowhere := by
  cases s <;> rfl

def Block.erase (b : Block) : Block := ⟨.nowhere, b.stmts.map Stmt.erase⟩

def Param.erase (p : Param) : Param := ⟨p.name.erase, p.type.map fun ty => (ty.1, .nowhere)⟩

def Function.erase (f : Function) : Function :=
  ⟨f.inline, f.name.erase, f.params.map Param.erase, f.body.erase⟩

def Item.erase : Item → Item
  | .decl _ d => .decl .nowhere d.erase
  | .function _ f => .function .nowhere f.erase

def Module.erase (m : Module) : Module :=
  ⟨m.imports.map fun i => (i.1, .nowhere), m.items.map Item.erase⟩

end Tree

end Teal
