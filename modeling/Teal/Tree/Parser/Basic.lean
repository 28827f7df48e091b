import Teal.Diagnostic
import Teal.Token

/-!
Parsers over a list of tokens.

A parser never fails: it reports what it misses and goes on with what it has. Its state is the list of
tokens that are left, so that "no token comes back and no diagnostic is lost" can be part of what a
parser is (`State.Advances`), and loops end because every turn takes a token.

Nesting is bounded. The number of levels still allowed, the *room*, is an argument of the parsers that
nest; a level that is refused for want of room is never given back, and after the first refusal the
parser is mute about syntax.
-/

namespace Teal.Parser

structure State where
  rest : List Token
  finish : Span
  last : Option Token
  /-- Levels that were refused. -/
  lost : Nat
  /-- Whether syntax errors are kept back, because nesting went too deep. -/
  mute : Bool
  diagnostics : List Diagnostic

namespace State

/-- What one state may become: tokens are taken from the front, diagnostics added at the end. -/
structure Advances (s t : State) : Prop where
  taken : ∃ ts, s.rest = ts ++ t.rest ∧ t.last = ts.getLast?.or s.last
  finish : t.finish = s.finish
  diagnostics : s.diagnostics <+: t.diagnostics
  lost : s.lost ≤ t.lost
  mute : s.mute → t.mute

theorem Advances.refl (s : State) : s.Advances s :=
  ⟨⟨[], rfl, rfl⟩, rfl, List.prefix_refl _, Nat.le_refl _, id⟩

theorem Advances.trans {s t u : State} (h : s.Advances t) (k : t.Advances u) : s.Advances u := by
  obtain ⟨ts, hts, hlast⟩ := h.taken
  obtain ⟨us, hus, hlast'⟩ := k.taken
  refine ⟨⟨ts ++ us, ?_, ?_⟩, k.finish.trans h.finish, h.diagnostics.trans k.diagnostics,
    Nat.le_trans h.lost k.lost, fun m => k.mute (h.mute m)⟩
  · rw [hts, hus, List.append_assoc]
  · rw [hlast', hlast, List.getLast?_append, Option.or_assoc]

theorem Advances.rest {s t : State} (h : s.Advances t) : t.rest <:+ s.rest :=
  let ⟨ts, hts, _⟩ := h.taken
  ⟨ts, hts.symm⟩

theorem Advances.length_le {s t : State} (h : s.Advances t) : t.rest.length ≤ s.rest.length :=
  h.rest.length_le

def here (s : State) : Span :=
  match s.rest with
  | [] => s.finish
  | t :: _ => t.span

/-- The place of the token read last, or of the next one at the start. -/
def behind (s : State) : Span :=
  match s.last with
  | none => s.here
  | some t => t.span

def next (s : State) : Option Lexeme := s.rest.head?.map (·.lexeme)

def errors (s : State) : Nat := s.diagnostics.countP (·.isFatal)

end State

inductive Fault where
  /-- A lexeme is missing, and another one stands there. -/
  | expected (lexeme : Lexeme) (found : Option Lexeme)
  | expectedName (found : Option Lexeme)
  | expectedNamePart (found : Option Lexeme)
  | expectedExpr (found : Option Lexeme)
  /-- A choice between values lacks the second one. -/
  | expectedElse (found : Option Lexeme)
  | expectedItem (found : Option Lexeme)
  | lateImport
  | badTarget
  | unknownType (name : String)
  | tooDeep
deriving DecidableEq, Inhabited

namespace Fault

/-- How a lexeme, or the lack of one, is called in messages. -/
def found : Option Lexeme → String
  | some l => l.description
  | none => "end of file"

def message : Fault → String
  | .expected l other => "expected " ++ l.description ++ ", found " ++ found other
  | .expectedName other => "expected identifier, found " ++ found other
  | .expectedNamePart other => "expected module name part, found " ++ found other
  | .expectedExpr other => "expected expression, found " ++ found other
  | .expectedElse other => "expected 'else', found " ++ found other
  | .expectedItem other => "expected item (let, const or function), found " ++ found other
  | .lateImport => "imports must come before any declaration"
  | .badTarget => "invalid assignment target"
  | .unknownType name => "unknown parameter type '" ++ name ++ "', expected 'int' or 'byte'"
  | .tooDeep => "nesting depth exceeded (maximum 256 levels)"

def help? : Fault → Option String
  | .expectedExpr _ => some "expressions are literals, names, calls, field accesses or operators"
  | .expectedElse _ => some "an if-expression must have both branches"
  | .expectedItem _ => some "top-level items are variable, constant and function declarations"
  | .lateImport => some "move this import to the top of the file"
  | .tooDeep => some "simplify your program by extracting deeply nested code into functions"
  | _ => none

def toDiagnostic (f : Fault) (span : Span) : Diagnostic :=
  { Diagnostic.syntactic f.message span with help := f.help? }

end Fault

end Teal.Parser

namespace Teal

open Teal.Parser (State)

/-- A parser: what it reads from a state and the state it leaves. -/
structure Parser (α : Type) where
  run : State → α × State
  advances : ∀ s : State, s.Advances (run s).2

namespace Parser

def done {α : Type} (a : α) : Parser α := ⟨fun s => (a, s), State.Advances.refl⟩

def andThen {α β : Type} (p : Parser α) (f : α → Parser β) : Parser β where
  run s := let r := p.run s; (f r.1).run r.2
  advances s := (p.advances s).trans ((f (p.run s).1).advances _)

instance : Monad Parser where
  pure := done
  bind := andThen

@[simp] theorem run_pure {α : Type} (a : α) (s : State) : (pure a : Parser α).run s = (a, s) := rfl

@[simp] theorem run_bind {α β : Type} (p : Parser α) (f : α → Parser β) (s : State) :
    (p >>= f).run s = (f (p.run s).1).run (p.run s).2 := rfl

def look {α : Type} (f : State → α) : Parser α := ⟨fun s => (f s, s), State.Advances.refl⟩

/-- Build a parser only when it is run. -/
def delay {α : Type} (p : Unit → Parser α) : Parser α :=
  ⟨fun s => (p ()).run s, fun s => (p ()).advances s⟩

def advance : Parser Unit where
  run s :=
    match s.rest with
    | [] => ((), s)
    | t :: rest => ((), { s with rest := rest, last := some t })
  advances s := by
    cases h : s.rest with
    | nil => simpa [h] using State.Advances.refl s
    | cons t rest =>
      exact ⟨⟨[t], h, rfl⟩, rfl, List.prefix_refl _, Nat.le_refl _, id⟩

def skipAll : Parser Unit where
  run s := ((), { s with rest := [], last := s.rest.getLast?.or s.last })
  advances s := ⟨⟨s.rest, (List.append_nil _).symm, rfl⟩, rfl, List.prefix_refl _, Nat.le_refl _, id⟩

def record (d : Diagnostic) : Parser Unit where
  run s := ((), { s with diagnostics := s.diagnostics ++ [d] })
  advances _ := ⟨⟨[], rfl, rfl⟩, rfl, List.prefix_append _ _, Nat.le_refl _, id⟩

/-- Refuse a level: it is lost, and the parser is mute from now on. -/
def loseLevel : Parser Unit where
  run s := ((), { s with lost := s.lost + 1, mute := true })
  advances _ := ⟨⟨[], rfl, rfl⟩, rfl, List.prefix_refl _, Nat.le_succ _, fun _ => rfl⟩

/-- What a turn of a loop yields, and whether another turn follows. -/
inductive Turn (α : Type) where
  | again (a : α)
  | last (a : α)

/-- Repeat a step from a state. A turn that takes no token is the last one. -/
def iterateFrom {α : Type} (step : α → Parser (Turn α)) (a : α) (s : State) : α × State :=
  match (step a).run s with
  | (.last b, t) => (b, t)
  | (.again b, t) =>
    if t.rest.length < s.rest.length then iterateFrom step b t else (b, t)
termination_by s.rest.length

theorem iterateFrom_advances {α : Type} (step : α → Parser (Turn α)) (a : α) (s : State) :
    s.Advances (iterateFrom step a s).2 := by
  fun_induction iterateFrom step a s with
  | case1 a s b t h => simpa [h] using (step a).advances s
  | case2 a s b t h _ ih =>
    have first := (step a).advances s
    rw [h] at first
    exact first.trans ih
  | case3 a s b t h _ => simpa [h] using (step a).advances s

def iterate {α : Type} (a : α) (step : α → Parser (Turn α)) : Parser α :=
  ⟨iterateFrom step a, iterateFrom_advances step a⟩

/-! ### Tokens -/

def peek : Parser (Option Lexeme) := look (·.next)

def here : Parser Span := look (·.here)

def behind : Parser Span := look (·.behind)

def sees (l : Lexeme) : Parser Bool := look fun s => s.next == some l

def atEnd : Parser Bool := look (·.rest.isEmpty)

def eat (l : Lexeme) : Parser Bool := do
  let found ← sees l
  if found then advance
  return found

/-- Record a fault at a place, unless mute. -/
def complainAt (span : Span) (f : Fault) : Parser Unit := do
  if !(← look (·.mute)) then record (f.toDiagnostic span)

/-- Record a fault at the next token, unless mute. -/
def complain (f : Fault) : Parser Unit := do complainAt (← here) f

/-- Take a given lexeme, or complain that another one stands there. -/
def expect (l : Lexeme) : Parser Unit := do
  if !(← eat l) then complain (.expected l (← peek))

def listedStep {α : Type} (item : Parser α) (items : List α) : Parser (Turn (List α)) := do
  if (← atEnd) || (← sees (.mark .rparen)) then
    return .last items
  let items := items ++ [← item]
  if ← eat (.mark .comma) then
    return .again items
  return .last items

/-- Items up to a closing parenthesis, each but the last followed by a comma. -/
def listed {α : Type} (item : Parser α) : Parser (List α) := iterate [] (listedStep item)

/-- The name that stands for a missing one. -/
def missingName : String := "_error_"

def expectIdent : Parser Ident := do
  let span ← here
  match ← peek with
  | some (.ident name) =>
    advance
    return ⟨name, span⟩
  | other =>
    complain (.expectedName other)
    return ⟨missingName, span⟩

/-! ### Nesting -/

/-- Levels of blocks, expressions and unary operators that may stand inside one another. -/
def maxNesting : Nat := 256

/-- Go one level deeper if there is room for it beside the lost levels. -/
def nested {α : Type} (room : Nat) (refused inside : Parser α) : Parser α := do
  if (← look (·.lost)) < room then
    inside
  else
    complain .tooDeep
    loseLevel
    refused

/-! ### Recovery -/

def skipStep (_ : Unit) : Parser (Turn Unit) := do
  match ← peek with
  | none | some (.mark .rbrace) => return .last ()
  | some (.mark .semicolon) =>
    advance
    return .last ()
  | some _ =>
    advance
    return .again ()

/-- Skip past the next semicolon, or up to a closing brace; stay behind either of them. -/
def synchronize : Parser Unit := do
  let settled ← look fun s =>
    match s.last with
    | some t => t.lexeme == .mark .semicolon || t.lexeme == .mark .rbrace
    | none => false
  if !settled then iterate () skipStep

/-- Run a step and recover from the errors it met; if nothing at all was taken, take one token. -/
def recovering {α : Type} (step : Parser α) (afterwards : Parser Unit) : Parser α := do
  let errors ← look (·.errors)
  let left ← look (·.rest.length)
  let a ← step
  if errors < (← look (·.errors)) then
    synchronize
    afterwards
  if (← look (·.rest.length)) == left then advance
  return a

end Parser

end Teal
