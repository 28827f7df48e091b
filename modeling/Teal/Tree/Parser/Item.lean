import Teal.Token.Scan
import Teal.Tree.Parser.Stmt

/-!
Imports, top-level items and whole files.
-/

namespace Teal.Parser

open Teal.Tree (Import Item ParamType Param Function Module)

/-- The text of a lexeme that may be a part of a dotted name: a name or a keyword. -/
def namePart? : Option Lexeme → Option String
  | some (.ident name) => some name
  | some (.keyword k) => some k.text
  | _ => none

def partsStep (parts : List String) : Parser (Turn (List String)) := do
  if ← eat (.mark .dot) then
    let next ← peek
    match namePart? next with
    | some part =>
      advance
      return .again (parts ++ [part])
    | none => complain (.expectedNamePart next)
  return .last parts

/-- A dotted name as its parts. Only the first part must not be a keyword. -/
def dottedName : Parser (List String) := do
  let first ← expectIdent
  iterate [first.text] partsStep

def importTarget : Parser Import := do
  match ← peek with
  | some (.bytes bs) =>
    advance
    return .path (String.ofList (Text.ofUtf8Lossy bs))
  | _ => return .dotted (← dottedName)

def importsStep (found : List (Import × Span)) : Parser (Turn (List (Import × Span))) := do
  let start ← here
  if ← eat (.keyword .importKw) then
    let name ← importTarget
    let _ ← eat (.mark .semicolon)
    return .again (found ++ [(name, start.merge (← behind))])
  return .last found

/-- The imports at the top of a file. Their semicolon may be left out. -/
def imports : Parser (List (Import × Span)) := iterate [] importsStep

/-- A type annotation; an unknown one counts as an integer. -/
def paramType : Parser (ParamType × Span) := do
  let name ← expectIdent
  if name.text == "int" then
    return (.int, name.span)
  else if name.text == "byte" then
    return (.byte, name.span)
  else
    complainAt name.span (.unknownType name.text)
    return (.int, name.span)

def param : Parser Param := do
  let name ← expectIdent
  if ← eat (.mark .colon) then
    return ⟨name, some (← paramType)⟩
  return ⟨name, none⟩

def function (room : Nat) : Parser Function := do
  let inline ← eat (.keyword .inlineKw)
  expect (.keyword .functionKw)
  let name ← expectIdent
  expect (.mark .lparen)
  let params ← listed param
  expect (.mark .rparen)
  return ⟨inline, name, params, ← block room⟩

def item (room : Nat) : Parser (Option Item) := do
  let start ← here
  match ← peek with
  | some (.keyword .letKw) =>
    let decl ← declaration false room
    expect (.mark .semicolon)
    return some (.decl (start.merge (← behind)) decl)
  | some (.keyword .constKw) =>
    let decl ← declaration true room
    expect (.mark .semicolon)
    return some (.decl (start.merge (← behind)) decl)
  | some (.keyword .functionKw) | some (.keyword .inlineKw) =>
    let f ← function room
    return some (.function (start.merge (← behind)) f)
  | some (.keyword .importKw) =>
    complain .lateImport
    advance
    return none
  | other =>
    complain (.expectedItem other)
    advance
    return none

def itemsStep (room : Nat) (found : List Item) : Parser (Turn (List Item)) := do
  if ← atEnd then
    return .last found
  let skipBrace : Parser Unit := do
    let _ ← eat (.mark .rbrace)
  match ← recovering (item room) skipBrace with
  | some i => return .again (found ++ [i])
  | none => return .again found

def items (room : Nat) : Parser (List Item) := iterate [] (itemsStep room)

def file : Parser Module := do
  let imports ← imports
  return ⟨imports, ← items maxNesting⟩

def State.start (tokens : List Token) (finish : Span) : State :=
  ⟨tokens, finish, none, 0, false, []⟩

end Teal.Parser

namespace Teal.Tree

/-- A file that was read, and the remarks on it. -/
structure Parsed where
  module : Module
  notes : List Diagnostic

/-- Parse tokens. The diagnostics of a failure include remarks. -/
def Parsed.ofTokens (tokens : List Token) (finish : Span) : Except (List Diagnostic) Parsed :=
  let (module, s) := Parser.file.run (.start tokens finish)
  if s.diagnostics.any (·.isFatal) then .error s.diagnostics else .ok ⟨module, s.diagnostics⟩

/-- Scan and parse a text. Errors of the scanner stop before parsing. -/
def Parsed.ofText (file : FileId) (text : String) : Except (List Diagnostic) Parsed :=
  let scanned := scan file text
  if scanned.diagnostics.any (·.isFatal) then
    .error scanned.diagnostics
  else
    Parsed.ofTokens scanned.tokens scanned.finish

end Teal.Tree
