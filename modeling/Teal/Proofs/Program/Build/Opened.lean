import Teal.Proofs.Program.Build.Traversal

/-! How many scopes building opens. The number depends on the source alone, whatever is reported: a
declaration opens one, a block opens one and those of its statements, and an expression opens none. So
the index that a scope will have is known from the source before it. -/

namespace Teal.Program.Build

/-- Running a step adds so many scopes to the tree, whatever state it starts from. -/
def Adds (k : Nat) {α : Type} (m : Build α) : Prop :=
  ∀ b, (m.run b).2.scopes.arena.size = b.scopes.arena.size + k

theorem adds_points : Points Tree.anywhere fun k _ _ _ m _ b _ =>
    (m.run b).2.scopes.arena.size = b.scopes.arena.size + k where
  of_pure _ _ _ _ := rfl
  of_bind hm hf := hf.trans (by rw [hm, Nat.add_assoc])
  of_look _ hf := hf
  of_change hg _ := hg.size
  of_report _ _ _ _ _ _ _ _ := rfl
  of_stray _ _ _ := rfl
  of_globals _ _ _ _ _ _ := rfl
  of_function _ _ _ := rfl

/-- How many scopes are opened does not depend on places, so a tree may stand beside itself without them. -/
theorem adds_of_linked {α β : Type} {k : Nat} {spans : List Span} {V : α → β → Prop} {m : Build α} {m' : Build β}
    (h : Linked (fun k _ _ _ m _ b _ => (m.run b).2.scopes.arena.size = b.scopes.arena.size + k) k spans V m m') :
    Adds k m :=
  fun b => (h b b (.refl b)).point

theorem expr_adds (scope : ScopeId) (e : Tree.Expr) : Adds 0 (expr scope e) :=
  adds_of_linked (expr_linked adds_points scope e.moved_erase)

theorem checkFunction_adds (f : Tree.Function) (moduleName : String) (isMain : Bool) :
    Adds 0 (checkFunction f moduleName isMain) :=
  adds_of_linked (checkFunction_linked adds_points f.moved_erase fun _ => ⟨rfl, fun _ => rfl⟩)

theorem declaration_adds {scope : ScopeId} (span : Span) (decl : Tree.Decl) :
    Adds 1 (declaration scope span decl) :=
  adds_of_linked (declaration_linked adds_points scope (b := span) trivial decl.moved_erase)

theorem stmt_adds (loops : Nat) (scope : ScopeId) (s : Tree.Stmt) :
    Adds s.opened (stmt loops scope s) :=
  adds_of_linked (stmt_linked adds_points loops scope s.moved_erase)

theorem block_adds (loops : Nat) (scope : ScopeId) (stmts : List Tree.Stmt) :
    Adds (Tree.blockOpened stmts) (block loops scope stmts) :=
  adds_of_linked (block_linked adds_points loops scope (Tree.moved_eraseStmts stmts))

end Teal.Program.Build
