import Teal.Program.Build.Stmt

/-!
Functions, top-level items and whole programs. An item sees those before it, over all modules in their
order; a function does not see itself.
-/

namespace Teal.Program

namespace Build

/-- The name that no function may have, because the end of the program is labelled with it. -/
def reservedName : String := "main"

/-- What the parameters of the entry point stand for, in their order. -/
def entryRuntime : Nat → Runtime
  | 0 => .txn
  | 1 => .gtxn
  | _ => .args

/-- The type of a parameter; without annotation it is an integer. -/
def paramTy (p : Tree.Param) : Ty :=
  match p.type with
  | some (.byte, _) => .bytes
  | _ => .integer

/-- Declare the parameter at a position. Those of the entry point stand for parts of the machine. -/
def declareParam (isEntry : Bool) (scope : ScopeId) (i : Nat) (p : Tree.Param) : Build Bool :=
  if isEntry then declare scope p.name .unknown (.runtime (entryRuntime i))
  else declareVariable scope p.name (paramTy p)

def parameters (isEntry : Bool) (scope : ScopeId) : Nat → List Tree.Param → Build (List (Ident × Ty))
  | _, [] => return []
  | i, p :: rest => do
    let _ ← declareParam isEntry scope i p
    return (p.name, if isEntry then .unknown else paramTy p) :: (← parameters isEntry scope (i + 1) rest)

def checkEntry (f : Tree.Function) (moduleName : String) (isMain : Bool) : Build Unit := do
  if !isMain then report f.name.span (.entryInModule moduleName)
  if f.inline then report f.name.span .entryInline
  if f.params.length ≠ 3 then report f.name.span (.entryParams f.params.length)
  match f.params.find? (·.type.isSome) with
  | some p => report p.name.span (.entryTyped p.name.text)
  | none => pure ()
  if (← get).entry.isSome then report f.name.span .entryTwice

def checkFunction (f : Tree.Function) (moduleName : String) (isMain : Bool) : Build Unit := do
  let name := f.name.text
  if (Builtin.find? name).isSome || (castTy? name).isSome then
    report f.name.span (.builtinRedefined name)
  if name == reservedName then
    report f.name.span (.reservedName name)
  if name == entryName then
    checkEntry f moduleName isMain
  else if !f.inline then
    let _ ← requireVersion 4 (.subroutine name) f.name.span

/-- Add a function to the program, then declare it for what follows. -/
def addFunction (built : Function) (isMain : Bool) : Build Unit := do
  let b ← get
  let id := b.functions.length
  set { b with functions := b.functions ++ [built] }
  let after ← openScope .decl b.tip
  let _ ← declare after built.name built.returnTy (.function id)
  modify fun b => { b with
    tip := after
    entry := if built.isEntry && isMain then b.entry.or (some id) else b.entry }

def function (span : Span) (f : Tree.Function) (moduleName : String) (isMain : Bool) :
    Build Unit := do
  let isEntry := f.name.text == entryName
  checkFunction f moduleName isMain
  let scope ← openScope .block (← get).tip
  let params ← parameters isEntry scope 0 f.params
  let body ← block 0 scope f.body.stmts
  visit (blockReturnScopes body)
  let b ← get
  let returnTy :=
    if isEntry then .integer else (blockFirstReturn? b.scopes b.functions body).getD .unknown
  addFunction
    { name := f.name, inline := f.inline, isEntry := isEntry, params := params, scope := scope
      body := body, returnTy := returnTy, span := span } isMain

def item (moduleName : String) (isMain : Bool) : Tree.Item → Build Unit
  | .decl span decl => do
    let (stmt, after) ← declaration (← get).tip span decl
    modify fun b => { b with tip := after, globals := b.globals ++ stmt.toList }
  | .function span f => function span f moduleName isMain

def modules (ms : List Tree.SourceModule) : Build Unit :=
  ms.forM fun m => m.tree.items.forM (item m.name m.isMain)

def machineName (r : Runtime) : Build Unit := do
  match (← get).scopes.declare Scopes.root ⟨r.text, .nowhere⟩ .unknown (.runtime r) with
  | .ok scopes => modify fun b => { b with scopes := scopes }
  | .error _ => breach (.refused r.text)

/-- Build a program: first the names of the machine and a block for the items, then the items. -/
def program (ms : List Tree.SourceModule) : Build Unit := do
  machineName .global
  machineName .itxn
  let tip ← openScope .block Scopes.root
  modify fun b => { b with tip := tip }
  modules ms

end Build

def Builder.initial (version : Nat) : Builder :=
  { version := version, literals := .initial, scopes := .initial, functions := [], globals := []
    tip := Scopes.root, labels := 0, diagnostics := [], entry := none, breaches := [] }

/-- Build a program from modules, of which one is the main file. Without an entry point there is none. -/
def ofModules (ms : List Tree.SourceModule) (version : Nat) : Option Program × List Diagnostic :=
  let (_, b) := (Build.program ms).run (.initial version)
  match b.entry with
  | some entry =>
    (some ⟨b.version, b.pool, b.scopes, b.globals, b.functions, entry⟩, b.diagnostics)
  | none =>
    let file := ((ms.find? (·.isMain)).map (·.file)).getD 0
    (none, b.diagnostics ++ [Fault.missingEntry.toDiagnostic (.fileStart file)])

end Teal.Program
