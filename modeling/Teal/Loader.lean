import Std.Data.TreeSet.Lemmas
import Teal.Library
import Teal.Provider
import Teal.Sources
import Teal.Tree.Parser.Item

/-!
Loading a main file and all that it imports. A module is loaded once, after the modules it imports.
Where a module that is still being loaded is imported, there is a cycle.
-/

namespace Teal

/-- What was loaded: modules after those they import, all files, and what was found wrong. -/
structure Loaded where
  modules : List Tree.SourceModule
  sources : Sources
  diagnostics : List Diagnostic

namespace Loader

/-- Keys in the order in which they were entered, with an index of them that is searched. -/
structure Ledger where
  keys : Array String
  index : Std.TreeSet String
  agrees : ∀ key, index.contains key = keys.toList.contains key

namespace Ledger

def empty : Ledger := ⟨#[], ∅, fun _ => rfl⟩

def enter (l : Ledger) (key : String) : Ledger where
  keys := l.keys.push key
  index := l.index.insert key
  agrees other := by
    have hsame : (compare key other == .eq) = (other == key) := by
      rw [Bool.eq_iff_iff, beq_iff_eq, beq_iff_eq, Std.LawfulEqCmp.compare_eq_iff_eq, eq_comm]
    rw [Std.TreeSet.contains_insert, l.agrees, hsame, Array.toList_push, List.contains_append, List.contains_cons,
      List.contains_nil, Bool.or_false, Bool.or_comm]

def contains (l : Ledger) (key : String) : Bool := l.index.contains key

end Ledger

structure State where
  collected : Array Tree.SourceModule
  sources : Sources
  diagnostics : List Diagnostic
  /-- Keys of the modules that are done with. -/
  closed : Ledger

namespace State

def start : State := ⟨#[], .empty, [], .empty⟩

def modules (s : State) : List Tree.SourceModule := s.collected.toList

def finished (s : State) : List String := s.closed.keys.toList

def toLoaded (s : State) : Loaded := ⟨s.modules, s.sources, s.diagnostics⟩

end State

abbrev Load (m : Type → Type) := StateT State m

variable {m : Type → Type} [Monad m]

def addDiagnostics (ds : List Diagnostic) : Load m Unit :=
  modify fun s => { s with diagnostics := s.diagnostics ++ ds }

def addSource (source : Provided) : Load m FileId :=
  modifyGet fun s =>
    let (file, sources) := s.sources.add ⟨source.name, source.text⟩
    (file, { s with sources := sources })

def addModule (module : Tree.SourceModule) : Load m Unit :=
  modify fun s => { s with collected := s.collected.push module }

def finish (key : String) : Load m Unit :=
  modify fun s => { s with closed := s.closed.enter key }

def locate (provider : Provider m) (extension : String) (importer : String) (i : Tree.Import) :
    m (Except Provider.Fault Provided) :=
  if Library.owns i.name then
    return match Library.find? i.name with
      | some text => .ok ⟨i.name, i.name, text⟩
      | none => .error (.unknownLibrary i.name)
  else
    match i.toPath? extension with
    | some path => provider.load path importer
    | none => return .error (.separator extension)

/-- Load a module with the modules it imports. `importers` are the keys of the modules that wait for
it, from the main file on; there is room for as many more as there are other keys. -/
def loadModule (provider : Provider m) (extension : String) :
    (room : Nat) → (importers : List String) → Provided → (isMain : Bool) → Load m Unit
  | 0, _, _, _ => return
  | room + 1, importers, source, isMain => do
    let file ← addSource source
    let waiting := importers ++ [source.key]
    match Tree.Parsed.ofText file source.text with
    | .error ds => addDiagnostics ds
    | .ok parsed =>
      addDiagnostics parsed.notes
      parsed.module.imports.forM fun (i, span) => do
        match ← locate (m := m) provider extension source.key i with
        | .error fault => addDiagnostics [fault.toDiagnostic span]
        | .ok found =>
          if waiting.contains found.key then
            let chain := waiting.dropWhile (· != found.key) ++ [found.key]
            addDiagnostics [(Provider.Fault.cycle chain).toDiagnostic span]
          else if !(← get).closed.contains found.key then
            loadModule provider extension room waiting found false
      addModule ⟨source.name, file, parsed.module, isMain⟩
    finish source.key

/-- A main file of a given name and text with all that it leads to. -/
def collect (provider : Provider m) (extension name text : String) : m Loaded := do
  let key ← provider.mainKey name
  let room := (← provider.capacity) + Library.modules.length + 1
  let (_, s) ← (loadModule provider extension room [] ⟨key, name, text⟩ true).run .start
  return s.toLoaded

end Loader

/-- Whether an import outside of the library takes an extension that no path can have. -/
def Loaded.refuses (l : Loaded) (extension : String) : Bool :=
  l.modules.any fun m => m.tree.imports.any fun i =>
    !Library.owns i.1.name && (i.1.toPath? extension).isNone

/-- Load a main file of a given name and text. Such an extension stops it, and nothing is loaded. -/
def load {m : Type → Type} [Monad m] (provider : Provider m) (extension name text : String) :
    m (Option Loaded) := do
  let l ← Loader.collect provider extension name text
  return if l.refuses extension then none else some l

end Teal
