import Teal.Assembly.Emit
import Teal.Loader
import Teal.Program.Build.Item
import Teal.Program.Typing
import Teal.Project

/-!
From a source to assembly: load, build, check the types, emit. Each step is taken only if nothing was
found wrong before it.
-/

namespace Teal

structure Options where
  version : Nat
  /-- The extension of imports that have none. -/
  extension : String
  searchPaths : List Path
deriving DecidableEq, Inhabited

namespace Options

def minVersion : Nat := 2

def maxVersion : Nat := 5

def default : Options := ⟨5, ".tl", []⟩

def withProject (o : Options) (p : Project) : Options :=
  { o with version := p.version.getD o.version, searchPaths := o.searchPaths ++ p.modulePaths }

end Options

structure Compilation where
  assembly : Option (List Assembly.Line)
  /-- All that was found, in the order in which it was found. -/
  diagnostics : List Diagnostic
  sources : Sources

namespace Compilation

def hasErrors (c : Compilation) : Bool := c.diagnostics.any (·.isFatal)

def errors (c : Compilation) : List Diagnostic := c.diagnostics.filter (·.isFatal)

def warnings (c : Compilation) : List Diagnostic := c.diagnostics.filter (!·.isFatal)

def result (c : Compilation) : Except (List Diagnostic) String :=
  match c.assembly with
  | some lines => if c.hasErrors then .error c.errors else .ok (assemblyText lines)
  | none => .error c.errors

end Compilation

def versionFaults (version : Nat) : List Diagnostic :=
  if Options.minVersion ≤ version && version ≤ Options.maxVersion then []
  else
    [(Diagnostic.semantic
      s!"target version {version} is not supported (expected {Options.minVersion} to {Options.maxVersion})"
      (.fileStart 0)).withHelp s!"compile with --target-version {Options.maxVersion}"]

/-- Compile what was loaded. Assembly is emitted if it is wanted and nothing was found wrong. -/
def Loaded.compile (l : Loaded) (version : Nat) (emit : Bool) : Compilation :=
  let loading := l.diagnostics ++ versionFaults version
  if loading.any (·.isFatal) then ⟨none, loading, l.sources⟩
  else
    match Program.ofModules l.modules version with
    | (none, ds) => ⟨none, loading ++ ds, l.sources⟩
    | (some program, ds) =>
      let building := loading ++ ds
      if building.any (·.isFatal) then ⟨none, building, l.sources⟩
      else
        let checking := building ++ program.typeFaults
        if checking.any (·.isFatal) || !emit then ⟨none, checking, l.sources⟩
        else ⟨program.emit.toOption, checking, l.sources⟩

variable {m : Type → Type} [Monad m]

/-- Compile a text, which is the content of a file of a given name. Nothing comes of it if nothing is
loaded. -/
def compile (provider : Provider m) (options : Options) (emit : Bool) (text fileName : String) :
    m (Option Compilation) := do
  let loaded ← load provider options.extension fileName text
  return loaded.map (·.compile options.version emit)

def compileText (fs : FileSystem m) (options : Options) (emit : Bool) (text fileName : String) :
    m (Option Compilation) :=
  compile (.files fs options.searchPaths) options emit text fileName

def compileFile (fs : FileSystem m) (options : Options) (emit : Bool) (path : Path) :
    m (Except FileSystem.Fault (Option Compilation)) := do
  match ← fs.read path with
  | .error fault => return .error fault
  | .ok text => return .ok (← compileText fs options emit text path.text)

end Teal
