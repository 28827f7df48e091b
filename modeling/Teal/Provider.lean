import Std.Data.TreeMap.Lemmas
import Teal.Diagnostic
import Teal.FileSystem

/-!
Where modules come from: from memory, under their paths as they are imported, or from files, first
beside the importing file and then in directories that are searched in order.
-/

namespace Teal

/-- The text of a module, its name, and the key that tells modules apart. -/
structure Provided where
  key : String
  name : String
  text : String
deriving DecidableEq, Inhabited

namespace Provider

inductive Fault where
  | notFound (path : String) (searched : List String)
  | unknownLibrary (name : String)
  | cycle (chain : List String)
  | unreadable (path : String) (fault : FileSystem.Fault)
  | separator (extension : String)
deriving DecidableEq, Inhabited

namespace Fault

def message : Fault → String
  | .notFound path _ => s!"module '{path}' not found"
  | .unknownLibrary name => s!"unknown standard library module '{name}'"
  | .cycle chain => "import cycle: " ++ String.intercalate " -> " chain
  | .unreadable path fault => s!"cannot read '{path}': {fault.message}"
  | .separator extension => s!"extension cannot contain path separators: '{extension}'"

def notes : Fault → List String
  | .notFound _ (place :: places) => ["searched: " ++ String.intercalate ", " (place :: places)]
  | _ => []

def help? : Fault → Option String
  | .cycle _ => some "move the shared definitions into a module that imports neither"
  | _ => none

def toDiagnostic (f : Fault) (span : Span) : Diagnostic :=
  { Diagnostic.semantic f.message span with notes := f.notes, help := f.help? }

end Fault

end Provider

structure Provider (m : Type → Type) where
  mainKey : String → m String
  /-- The module at a path, imported by the module of a given key. -/
  load : Path → String → m (Except Provider.Fault Provided)
  capacity : m Nat

namespace Provider

/-- Texts by key. Of several texts with one key the first counts. -/
def table (files : List (String × String)) : Std.TreeMap String String :=
  files.foldr (fun file table => table.insert file.1 file.2) ∅

theorem getElem?_table (files : List (String × String)) (key : String) :
    (table files)[key]? = files.lookup key := by
  induction files with
  | nil => rfl
  | cons file files ih =>
    rw [table, List.foldr_cons, Std.TreeMap.getElem?_insert, List.lookup_cons, ← table, ih]
    cases h : key == file.1 with
    | true => simp [eq_of_beq h]
    | false =>
      have hne : ¬compare file.1 key = .eq := fun heq =>
        ne_of_beq_false h (Std.LawfulEqCmp.eq_of_compare heq).symm
      rw [if_neg hne]

def memory (files : List (String × String)) : Provider Id :=
  let texts := table files
  { mainKey := fun name => name
    load := fun path _ =>
      let key := String.ofList (path.text.toList.map fun c => if c == '\\' then '/' else c)
      match texts[key]? with
      | some text => .ok ⟨key, key, text⟩
      | none => .error (.notFound key [])
    capacity := files.length }

def firstFile {m : Type → Type} [Monad m] (fs : FileSystem m) : List Path → m (Option Path)
  | [] => return none
  | p :: rest => do
    if ← fs.isFile p then
      return some p
    firstFile fs rest

def files {m : Type → Type} [Monad m] (fs : FileSystem m) (searchPaths : List Path) : Provider m where
  mainKey name := do
    return ((← fs.canonical (.ofText name)).map (·.text)).getD name
  load path importer := do
    let beside := ((Path.ofText importer).parent?.getD (.ofText "")).join path
    let candidates := beside :: searchPaths.map (·.join path)
    match ← firstFile fs candidates with
    | none => return .error (.notFound path.text (candidates.map (·.text)))
    | some found =>
      match ← fs.read found with
      | .error fault => return .error (.unreadable found.text fault)
      | .ok text =>
        let key := (← fs.canonical found).getD found
        return .ok ⟨key.text, found.text, text⟩
  capacity := fs.capacity

end Provider

end Teal
