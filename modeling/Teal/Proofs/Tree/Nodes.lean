import Teal.Diagnostic
import Teal.Proofs.Tree.Spelling

/-! Expressions in a tree, in the order in which they end: what an expression is made of comes before it,
and of two neighbours the left one comes first. An assignment's targets are no expressions. -/

namespace Teal.Tree

open List

def Owner.parts : Owner → List Expr
  | .name _ => []
  | .element _ _ i => [i]

def Expr.parts : Expr → List Expr
  | .int _ _ | .bytes _ _ | .var _ _ => []
  | .unary _ _ e | .group _ e | .element _ _ e => [e]
  | .binary _ _ l r => [l, r]
  | .call _ _ args | .method _ _ _ args => args
  | .cond _ test yes no => [test, yes, no]
  | .field _ owner _ => owner.parts
  | .fieldAt _ owner _ i => owner.parts ++ [i]

theorem Owner.sizeOf_parts {owner : Owner} {d : Expr} (h : d ∈ owner.parts) : sizeOf d < sizeOf owner := by
  cases owner with
  | name name => cases h
  | element span base i =>
    obtain rfl := mem_singleton.mp h
    simp only [Owner.element.sizeOf_spec]
    omega

theorem Expr.sizeOf_parts {e d : Expr} (h : d ∈ e.parts) : sizeOf d < sizeOf e := by
  cases e with
  | int | bytes | var => cases h
  | call span name args | method span base method args =>
    have hless : sizeOf d < sizeOf args := sizeOf_lt_of_mem h
    grind
  | field span owner name => grind [Owner.sizeOf_parts h]
  | fieldAt span owner name i =>
    rcases mem_append.mp h with h | h
    · grind [Owner.sizeOf_parts h]
    · obtain rfl := mem_singleton.mp h
      grind
  | _ => grind [Expr.parts]

/-- An expression behind all those in it. -/
def Expr.nodes (e : Expr) : List Expr := (e.parts.attach.flatMap fun d => d.1.nodes) ++ [e]
termination_by sizeOf e
decreasing_by exact Expr.sizeOf_parts d.2

theorem Expr.nodes_eq (e : Expr) : e.nodes = e.parts.flatMap Expr.nodes ++ [e] := by
  rw [Expr.nodes, flatMap_subtype]
  · rw [unattach_attach]
  · exact fun _ _ => rfl

/-- What an expression hands down to those it is made of holds of all expressions in it. -/
theorem Expr.forall_nodes {P : Expr → Prop} (hP : ∀ e, P e → ∀ d ∈ e.parts, P d) {e : Expr} (he : P e)
    {c : Expr} (hc : c ∈ e.nodes) : P c := by
  rw [e.nodes_eq, mem_append, mem_flatMap, mem_singleton] at hc
  obtain ⟨d, hd, hc⟩ | rfl := hc
  · exact Expr.forall_nodes hP (hP e he d hd) hc
  · exact he
termination_by sizeOf e
decreasing_by exact Expr.sizeOf_parts hd

mutual

/-- The expressions that a statement holds and that stand in no other. -/
def Stmt.exprs : Stmt → List Expr
  | .decl _ d => [d.value]
  | .assign _ _ _ value | .ret _ value | .expr _ value => [value]
  | .error _ | .breakLoop _ => []
  | .ifThen _ test _ yes => test :: stmtsExprs yes
  | .ifElse _ test _ yes _ no => test :: (stmtsExprs yes ++ stmtsExprs no)
  | .loop _ test _ body => test :: stmtsExprs body

def stmtsExprs : List Stmt → List Expr
  | [] => []
  | s :: rest => s.exprs ++ stmtsExprs rest

end

def Item.exprs : Item → List Expr
  | .decl _ d => [d.value]
  | .function _ f => stmtsExprs f.body.stmts

def Module.nodes (m : Module) : List Expr := (m.items.flatMap Item.exprs).flatMap Expr.nodes

theorem stmtsExprs_eq (stmts : List Stmt) : stmtsExprs stmts = stmts.flatMap Stmt.exprs := by
  induction stmts with
  | nil => rfl
  | cons s stmts ih => rw [stmtsExprs, ih, flatMap_cons]

/-! ### Chained comparisons -/

/-- The two operators, if an expression compares the result of a comparison that has no parentheses. -/
def Expr.chain? : Expr → Option (BinOp × BinOp)
  | .binary _ op (.binary _ inner _ _) _ =>
    if op.isComparison && inner.isComparison then some (op, inner) else none
  | _ => none

/-- The remark on an expression, if it is such a chain. -/
def Expr.chainNote? (e : Expr) : Option Diagnostic :=
  e.chain?.map fun (op, inner) =>
    .ambiguity ("chained comparison: '" ++ op.text ++ "' applies to the result of '" ++ inner.text ++ "'") e.span

/-- The remarks on an expression and all those in it. -/
def Expr.notes (e : Expr) : List Diagnostic := e.nodes.filterMap Expr.chainNote?

theorem Expr.notes_eq (e : Expr) : e.notes = e.parts.flatMap Expr.notes ++ e.chainNote?.toList := by
  unfold Expr.notes
  rw [e.nodes_eq, filterMap_append, filterMap_flatMap, filterMap_cons]
  cases e.chainNote? <;> rfl

theorem notes_of_parts {e : Expr} (h : e.parts = []) : e.notes = [] := by
  rw [e.notes_eq, h]
  cases e with
  | binary => cases h
  | _ => rfl

theorem notes_of_target? {e : Expr} {t : Target} (h : e.target? = some t) : e.notes = [] := by
  refine notes_of_parts ?_
  unfold Expr.target? at h
  split at h
  · rfl
  · rfl
  · cases h

end Teal.Tree
