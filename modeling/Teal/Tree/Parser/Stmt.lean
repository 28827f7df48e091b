import Teal.Tree.Parser.Expr

/-!
Statements and blocks. A block is a level of nesting; an `else if` is not, although it is kept as a
block of one statement.
-/

namespace Teal.Parser

open Teal.Tree (Expr Target Decl Stmt Block)

def namesStep (names : List Ident) : Parser (Turn (List Ident)) := do
  if ← eat (.mark .comma) then
    return .again (names ++ [← expectIdent])
  return .last names

/-- A declaration up to its semicolon; `let` or `const` is next. -/
def declaration (isConst : Bool) (room : Nat) : Parser Decl := do
  advance
  let first ← expectIdent
  let names ← iterate [first] namesStep
  expect (.mark .assign)
  return ⟨isConst, names, ← expr room⟩

def target (e : Expr) : Parser (Option Target) :=
  match e with
  | .var span name => pure (some (.var span name))
  | .field span (.name base) field => pure (some (.field span base.text field))
  | e => do
    complainAt e.span .badTarget
    return none

def targetsStep (room : Nat) : Option (List Target) → Parser (Turn (Option (List Target)))
  | none => return .last none
  | some targets => do
    if ← eat (.mark .comma) then
      match ← target (← expr room) with
      | none => return .last none
      | some next => return .again (some (targets ++ [next]))
    return .last (some targets)

/-- An assignment to one or more targets, or an expression on its own. -/
def assignment (room : Nat) : Parser (Option Stmt) := do
  let start ← here
  let head ← expr room
  if !((← sees (.mark .comma)) || (← sees (.mark .assign))) then
    expect (.mark .semicolon)
    return some (.expr (start.merge (← behind)) head)
  let some first ← target head | return none
  let others ← iterate (some []) (targetsStep room)
  let some others := others | return none
  expect (.mark .assign)
  let value ← expr room
  expect (.mark .semicolon)
  return some (.assign (start.merge (← behind)) first others value)

structure Clause where
  start : Span
  test : Expr
  yes : Block

/-- The statement of a clause that ends at `finish`. -/
def Clause.toStmt (c : Clause) (finish : Span) : Option Block → Stmt
  | none => .ifThen (c.start.merge finish) c.test c.yes.span c.yes.stmts
  | some no => .ifElse (c.start.merge finish) c.test c.yes.span c.yes.stmts no.span no.stmts

/-- Clauses joined by `else`: each one is all there is to the block of the one before. -/
def joinClauses (finish : Span) (no : Option Block) (c : Clause) : List Clause → Stmt
  | [] => c.toStmt finish no
  | d :: ds =>
    let inner := joinClauses finish no d ds
    c.toStmt finish (some ⟨inner.span, [inner]⟩)

def clause (room : Nat) (block : Parser Block) : Parser Clause := do
  let start ← here
  expect (.keyword .ifKw)
  let test ← expr room
  return ⟨start, test, ← block⟩

def clausesStep (room : Nat) (block : Parser Block) (found : List Clause × Option Block) :
    Parser (Turn (List Clause × Option Block)) := do
  if ← eat (.keyword .elseKw) then
    if ← sees (.keyword .ifKw) then
      return .again (found.1 ++ [← clause room block], none)
    return .last (found.1, some (← block))
  return .last (found.1, none)

def conditional (room : Nat) (block : Parser Block) : Parser Stmt := do
  let first ← clause room block
  let (others, no) ← iterate ([], none) (clausesStep room block)
  return joinClauses (← behind) no first others

def statement (room : Nat) (block : Parser Block) : Parser (Option Stmt) := do
  let start ← here
  match ← peek with
  | some (.keyword .letKw) =>
    let decl ← declaration false room
    expect (.mark .semicolon)
    return some (.decl (start.merge (← behind)) decl)
  | some (.keyword .constKw) =>
    let decl ← declaration true room
    expect (.mark .semicolon)
    return some (.decl (start.merge (← behind)) decl)
  | some (.keyword .returnKw) =>
    advance
    let value ← expr room
    expect (.mark .semicolon)
    return some (.ret (start.merge (← behind)) value)
  | some (.keyword .errorKw) =>
    advance
    expect (.mark .semicolon)
    return some (.error (start.merge (← behind)))
  | some (.keyword .breakKw) =>
    advance
    expect (.mark .semicolon)
    return some (.breakLoop (start.merge (← behind)))
  | some (.keyword .ifKw) => return some (← conditional room block)
  | some (.keyword .forKw) =>
    advance
    let test ← expr room
    let body ← block
    return some (.loop (start.merge (← behind)) test body.span body.stmts)
  | _ => assignment room

def stmtsStep (stmt : Parser (Option Stmt)) (stmts : List Stmt) : Parser (Turn (List Stmt)) := do
  if (← atEnd) || (← sees (.mark .rbrace)) then
    return .last stmts
  match ← recovering stmt (pure ()) with
  | some s => return .again (stmts ++ [s])
  | none => return .again stmts

/-- A block, when `stmt` reads statements one level further in. -/
def blockOver (room : Nat) (stmt : Parser (Option Stmt)) : Parser Block :=
  nested room
    (do
      let span ← here
      skipAll
      return ⟨span, []⟩)
    (do
      let start ← here
      expect (.mark .lbrace)
      let stmts ← iterate [] (stmtsStep stmt)
      let finish ← here
      expect (.mark .rbrace)
      return ⟨start.merge finish, stmts⟩)

/-- A block with room for so many levels. Without room nothing is ever read further in. -/
def block : Nat → Parser Block
  | 0 => blockOver 0 (pure none)
  | room + 1 => blockOver (room + 1) (delay fun _ => statement room (block room))

end Teal.Parser
