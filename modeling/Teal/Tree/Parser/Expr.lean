import Teal.Tree
import Teal.Tree.Parser.Basic

/-!
Expressions. Binary operators are read tier by tier, each tier as a chain of operands of the next one,
so that a chain leans to the left and a tighter tier ends up further down in the tree.
-/

namespace Teal.Parser

open Teal.Tree (Expr Owner)

/-- Remark on a comparison whose left side is itself a comparison. -/
def remarkOnChain (op : BinOp) (lhs : Expr) (span : Span) : Parser Unit :=
  match lhs with
  | .binary _ inner _ _ =>
    if op.isComparison && inner.isComparison then
      record (.ambiguity
        ("chained comparison: '" ++ op.text ++ "' applies to the result of '" ++ inner.text ++ "'") span)
    else
      pure ()
  | _ => pure ()

def chainStep (tier : Tier) (operand : Parser Expr) (lhs : Expr) : Parser (Turn Expr) := do
  match ← peek with
  | some (.binary op) =>
    if op.tier = tier then
      advance
      let rhs ← operand
      let span := lhs.span.merge rhs.span
      remarkOnChain op lhs span
      return .again (.binary span op lhs rhs)
    else
      return .last lhs
  | _ => return .last lhs

/-- Operands joined by the operators of one tier. -/
def chain (tier : Tier) (operand : Parser Expr) : Parser Expr := do
  let first ← operand
  iterate first (chainStep tier operand)

/-- An expression one level further in, made of operands of that level. -/
def exprOver (room : Nat) (operand : Parser Expr) : Parser Expr :=
  nested room
    (do
      let span ← here
      skipAll
      return .int span 0)
    (Tier.all.foldr chain operand)

def choice (expr : Parser Expr) : Parser Expr := do
  let start ← here
  expect (.keyword .ifKw)
  let test ← expr
  expect (.mark .lbrace)
  let yes ← expr
  expect (.mark .rbrace)
  if !(← eat (.keyword .elseKw)) then complain (.expectedElse (← peek))
  expect (.mark .lbrace)
  let no ← expr
  expect (.mark .rbrace)
  return .cond (start.merge (← behind)) test yes no

/-- The field of an owner that starts at `start`; the dot is behind. -/
def fieldOf (expr : Parser Expr) (start : Span) (owner : Owner) : Parser Expr := do
  let field ← expectIdent
  if ← eat (.mark .lbracket) then
    let index ← expr
    expect (.mark .rbracket)
    return .fieldAt (start.merge (← behind)) owner field index
  else
    return .field (start.merge (← behind)) owner field

/-- Whether a dot, a name and an opening parenthesis come next. -/
def startsMethod : Parser Bool :=
  look fun s =>
    match s.rest with
    | ⟨.mark .dot, _⟩ :: ⟨.ident _, _⟩ :: ⟨.mark .lparen, _⟩ :: _ => true
    | _ => false

/-- A name and what follows it: arguments, an index, a field or a method. -/
def named (expr : Parser Expr) (name : Ident) : Parser Expr := do
  if ← eat (.mark .lparen) then
    let args ← listed expr
    expect (.mark .rparen)
    return .call (name.span.merge (← behind)) name args
  else if ← eat (.mark .lbracket) then
    let index ← expr
    expect (.mark .rbracket)
    let span := name.span.merge (← behind)
    if ← eat (.mark .dot) then
      fieldOf expr name.span (.element span name index)
    else
      return .element span name index
  else if ← startsMethod then
    advance
    let method ← expectIdent
    expect (.mark .lparen)
    let args ← listed expr
    expect (.mark .rparen)
    return .method (name.span.merge (← behind)) name method args
  else if ← eat (.mark .dot) then
    fieldOf expr name.span (.name name)
  else
    return .var name.span name.text

/-- An operand without unary operator. -/
def primary (expr : Parser Expr) : Parser Expr := do
  let start ← here
  match ← peek with
  | some (.integer n) =>
    advance
    return .int start n
  | some (.bytes bs) =>
    advance
    return .bytes start bs
  | some (.mark .lparen) =>
    advance
    let inner ← expr
    expect (.mark .rparen)
    return .group (start.merge (← behind)) inner
  | some (.keyword .ifKw) => choice expr
  | some (.ident name) =>
    advance
    named expr ⟨name, start⟩
  | other =>
    complain (.expectedExpr other)
    return .int start 0

/-- An operand, when `deeper` reads operands one level further in. -/
def operandOver (room : Nat) (deeper : Parser Expr) : Parser Expr := do
  let start ← here
  match ← peek with
  | some (.unary op) =>
    advance
    nested room (pure (.int start 0)) do
      let operand ← deeper
      return .unary (start.merge operand.span) op operand
  | _ => primary (exprOver room deeper)

/-- An operand with room for so many levels. Without room nothing is ever read further in. -/
def operand : Nat → Parser Expr
  | 0 => operandOver 0 (pure (.int .nowhere 0))
  | room + 1 => operandOver (room + 1) (delay fun _ => operand room)

/-- An expression with room for so many levels. -/
def expr (room : Nat) : Parser Expr := exprOver room (operand (room - 1))

end Teal.Parser
