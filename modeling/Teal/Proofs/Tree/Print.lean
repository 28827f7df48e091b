import Teal.Proofs.Tree.Shape
import Teal.Text.Utf8
import Teal.Token

/-! Trees as lexemes. Parentheses stand only where the tree has a group, so a tree can be written down if
its operands bind as tightly as they must without any. How deep a tree nests is counted in the levels that
reading it back takes: one for each block, for each place where a whole expression may stand, and for each
unary operator. -/

namespace Teal.Tree

open List

def listing (parts : List (List Lexeme)) : List Lexeme := [Lexeme.mark .comma].intercalate parts

def braced (ls : List Lexeme) : List Lexeme := .mark .lbrace :: (ls ++ [.mark .rbrace])

def identLexemes (name : Ident) : List Lexeme := [.ident name.text]

/-! ### Expressions -/

mutual

def Expr.lexemes : Expr → List Lexeme
  | .int _ n => [.integer n]
  | .bytes _ bs => [.bytes bs]
  | .var _ name => [.ident name]
  | .unary _ op e => .unary op :: e.lexemes
  | .binary _ op l r => l.lexemes ++ .binary op :: r.lexemes
  | .group _ e => .mark .lparen :: (e.lexemes ++ [.mark .rparen])
  | .call _ name args =>
    .ident name.text :: .mark .lparen :: (listing (exprsLexemes args) ++ [.mark .rparen])
  | .cond _ test yes no =>
    .keyword .ifKw :: (test.lexemes ++ (braced yes.lexemes ++ .keyword .elseKw :: braced no.lexemes))
  | .element _ base i => .ident base.text :: .mark .lbracket :: (i.lexemes ++ [.mark .rbracket])
  | .field _ owner name => owner.lexemes ++ [.mark .dot, .ident name.text]
  | .fieldAt _ owner name i =>
    owner.lexemes ++ .mark .dot :: .ident name.text :: .mark .lbracket :: (i.lexemes ++ [.mark .rbracket])
  | .method _ base method args =>
    .ident base.text :: .mark .dot :: .ident method.text :: .mark .lparen ::
      (listing (exprsLexemes args) ++ [.mark .rparen])

def Owner.lexemes : Owner → List Lexeme
  | .name name => [.ident name.text]
  | .element _ base i => .ident base.text :: .mark .lbracket :: (i.lexemes ++ [.mark .rbracket])

def exprsLexemes : List Expr → List (List Lexeme)
  | [] => []
  | e :: rest => e.lexemes :: exprsLexemes rest

end

mutual

/-- An operand on the left may be an operation whose operator holds its right side more tightly than
the operator behind it holds its left; one on the right must hold its left side as tightly as the
operator before it holds its right. An operand of a unary operator is no operation on two operands. -/
def Expr.wellFormed : Expr → Bool
  | .int _ _ | .bytes _ _ | .var _ _ => true
  | .unary _ _ e => e.wellFormed && e.operator?.isNone
  | .binary _ op l r =>
    l.wellFormed && r.wellFormed
      && l.operator?.all (fun inner => op.bindingPower.1 < inner.bindingPower.2)
      && r.operator?.all (fun inner => op.bindingPower.2 ≤ inner.bindingPower.1)
  | .group _ e => e.wellFormed
  | .call _ _ args => exprsWellFormed args
  | .cond _ test yes no => test.wellFormed && yes.wellFormed && no.wellFormed
  | .element _ _ i => i.wellFormed
  | .field _ owner _ => owner.wellFormed
  | .fieldAt _ owner _ i => owner.wellFormed && i.wellFormed
  | .method _ _ _ args => exprsWellFormed args

def Owner.wellFormed : Owner → Bool
  | .name _ => true
  | .element _ _ i => i.wellFormed

def exprsWellFormed : List Expr → Bool
  | [] => true
  | e :: rest => e.wellFormed && exprsWellFormed rest

end

mutual

/-- Levels inside an expression, without the one of the place where it stands. -/
def Expr.depth : Expr → Nat
  | .int _ _ | .bytes _ _ | .var _ _ => 0
  | .unary _ _ e => e.depth + 1
  | .binary _ _ l r => max l.depth r.depth
  | .group _ e => e.depth + 1
  | .call _ _ args => exprsDepth args
  | .cond _ test yes no => max (test.depth + 1) (max (yes.depth + 1) (no.depth + 1))
  | .element _ _ i => i.depth + 1
  | .field _ owner _ => owner.depth
  | .fieldAt _ owner _ i => max owner.depth (i.depth + 1)
  | .method _ _ _ args => exprsDepth args

def Owner.depth : Owner → Nat
  | .name _ => 0
  | .element _ _ i => i.depth + 1

def exprsDepth : List Expr → Nat
  | [] => 0
  | e :: rest => max (e.depth + 1) (exprsDepth rest)

end

theorem exprsWellFormed_iff {es : List Expr} : exprsWellFormed es = true ↔ ∀ e ∈ es, e.wellFormed = true := by
  induction es with
  | nil => simp [exprsWellFormed]
  | cons e rest ih => rw [exprsWellFormed, Bool.and_eq_true, ih, forall_mem_cons]

theorem exprsDepth_le_iff {es : List Expr} {n : Nat} : exprsDepth es ≤ n ↔ ∀ e ∈ es, e.depth < n := by
  induction es with
  | nil => simp [exprsDepth]
  | cons e rest ih => rw [exprsDepth, Nat.max_le, ih, forall_mem_cons, Nat.succ_le_iff]

/-! ### Statements -/

def Target.lexemes : Target → List Lexeme
  | .var _ name => [.ident name]
  | .field _ base name => [.ident base, .mark .dot, .ident name.text]

namespace Decl

/-- A declaration up to its semicolon. -/
def lexemes (d : Decl) : List Lexeme :=
  .keyword (if d.isConst then .constKw else .letKw) ::
    (listing (d.names.map identLexemes) ++ .mark .assign :: d.value.lexemes)

def wellFormed (d : Decl) : Bool := !d.names.isEmpty && d.value.wellFormed

end Decl

mutual

def Stmt.lexemes : Stmt → List Lexeme
  | .decl _ d => d.lexemes ++ [.mark .semicolon]
  | .assign _ first others value =>
    listing ((first :: others).map Target.lexemes) ++ .mark .assign :: (value.lexemes ++ [.mark .semicolon])
  | .ret _ value => .keyword .returnKw :: (value.lexemes ++ [.mark .semicolon])
  | .error _ => [.keyword .errorKw, .mark .semicolon]
  | .breakLoop _ => [.keyword .breakKw, .mark .semicolon]
  | .ifThen _ test _ yes => .keyword .ifKw :: (test.lexemes ++ braced (stmtsLexemes yes))
  | .ifElse _ test _ yes _ no =>
    .keyword .ifKw :: (test.lexemes ++
      (braced (stmtsLexemes yes) ++ .keyword .elseKw :: braced (stmtsLexemes no)))
  | .loop _ test _ body => .keyword .forKw :: (test.lexemes ++ braced (stmtsLexemes body))
  | .expr _ value => value.lexemes ++ [.mark .semicolon]

def stmtsLexemes : List Stmt → List Lexeme
  | [] => []
  | s :: rest => s.lexemes ++ stmtsLexemes rest

end

mutual

/-- An expression on its own must not start like a conditional statement. -/
def Stmt.wellFormed : Stmt → Bool
  | .decl _ d => d.wellFormed
  | .assign _ _ _ value => value.wellFormed
  | .ret _ value => value.wellFormed
  | .error _ | .breakLoop _ => true
  | .ifThen _ test _ yes => test.wellFormed && stmtsWellFormed yes
  | .ifElse _ test _ yes _ no => test.wellFormed && stmtsWellFormed yes && stmtsWellFormed no
  | .loop _ test _ body => test.wellFormed && stmtsWellFormed body
  | .expr _ value => value.wellFormed && value.lexemes.head? != some (.keyword .ifKw)

def stmtsWellFormed : List Stmt → Bool
  | [] => true
  | s :: rest => s.wellFormed && stmtsWellFormed rest

end

mutual

def Stmt.depth : Stmt → Nat
  | .decl _ d => d.value.depth + 1
  | .assign _ _ _ value => value.depth + 1
  | .ret _ value => value.depth + 1
  | .error _ | .breakLoop _ => 0
  | .ifThen _ test _ yes => max (test.depth + 1) (stmtsDepth yes + 1)
  | .ifElse _ test _ yes _ no => max (test.depth + 1) (max (stmtsDepth yes + 1) (stmtsDepth no + 1))
  | .loop _ test _ body => max (test.depth + 1) (stmtsDepth body + 1)
  | .expr _ value => value.depth + 1

def stmtsDepth : List Stmt → Nat
  | [] => 0
  | s :: rest => max s.depth (stmtsDepth rest)

end

theorem stmtsLexemes_eq_flatMap (stmts : List Stmt) : stmtsLexemes stmts = stmts.flatMap Stmt.lexemes := by
  induction stmts with
  | nil => rfl
  | cons s rest ih => rw [stmtsLexemes, ih, flatMap_cons]

theorem stmtsWellFormed_iff {stmts : List Stmt} :
    stmtsWellFormed stmts = true ↔ ∀ s ∈ stmts, s.wellFormed = true := by
  induction stmts with
  | nil => simp [stmtsWellFormed]
  | cons s rest ih => rw [stmtsWellFormed, Bool.and_eq_true, ih, forall_mem_cons]

theorem stmt_depth_le_of_mem {stmts : List Stmt} {n : Nat} (h : stmtsDepth stmts ≤ n) :
    ∀ s ∈ stmts, s.depth ≤ n := by
  induction stmts with
  | nil => nofun
  | cons s rest ih =>
    rw [stmtsDepth, Nat.max_le] at h
    exact forall_mem_cons.mpr ⟨h.1, ih h.2⟩

/-! ### Files -/

def ParamType.name : ParamType → String
  | .int => "int"
  | .byte => "byte"

def Param.lexemes (p : Param) : List Lexeme :=
  .ident p.name.text ::
    match p.type with
    | some (ty, _) => [.mark .colon, .ident ty.name]
    | none => []

def Function.lexemes (f : Function) : List Lexeme :=
  (if f.inline then [.keyword .inlineKw] else []) ++
    .keyword .functionKw :: .ident f.name.text :: .mark .lparen ::
      (listing (f.params.map Param.lexemes) ++ .mark .rparen :: braced (stmtsLexemes f.body.stmts))

namespace Item

def lexemes : Item → List Lexeme
  | .decl _ d => d.lexemes ++ [.mark .semicolon]
  | .function _ f => f.lexemes

def wellFormed : Item → Bool
  | .decl _ d => d.wellFormed
  | .function _ f => stmtsWellFormed f.body.stmts

def depth : Item → Nat
  | .decl _ d => d.value.depth + 1
  | .function _ f => stmtsDepth f.body.stmts + 1

end Item

/-- A word as a part of a dotted name, which may be a keyword. -/
def partLexeme (part : String) : Lexeme :=
  match Keyword.ofText? part with
  | some k => .keyword k
  | none => .ident part

namespace Import

/-- An import as lexemes, with a given way to write the later parts of a dotted name. -/
def lexemesBy (part : String → Lexeme) : Import → List Lexeme
  | .dotted [] => []
  | .dotted (first :: parts) => .ident first :: parts.flatMap fun p => [.mark .dot, part p]
  | .path text => [.bytes (Text.utf8 text.toList)]

def wellFormed : Import → Bool
  | .dotted parts => !parts.isEmpty
  | .path _ => true

end Import

namespace Module

/-- A file as lexemes: imports, each with a semicolon, and then items. -/
def lexemesBy (part : String → Lexeme) (m : Module) : List Lexeme :=
  (m.imports.flatMap fun i => .keyword .importKw :: (i.1.lexemesBy part ++ [.mark .semicolon])) ++
    m.items.flatMap Item.lexemes

/-- A file as the lexemes of its text, in which a part of a dotted name may be a keyword. -/
def lexemes (m : Module) : List Lexeme := m.lexemesBy partLexeme

def wellFormed (m : Module) : Bool := m.imports.all (·.1.wellFormed) && m.items.all Item.wellFormed

def nestsWithin (m : Module) (levels : Nat) : Bool := m.items.all (·.depth ≤ levels)

end Module

end Teal.Tree
