import Teal.Proofs.Compile.Spans
import Teal.Proofs.Loader.Layout
import Teal.Proofs.Program.Inclusion

/-! Layout does not matter. What was loaded from texts with the same lexemes is built, checked and emitted in
the same way: places take no part in any decision, and what is found is found in the same file. -/

namespace Teal

open List

theorem isFatal_eq_of_unplaced (d d' : Diagnostic) (h : d.unplaced = d'.unplaced) :
    d.isFatal = d'.isFatal := by
  have hfatal : d.unplaced.isFatal = d'.unplaced.isFatal := by rw [h]
  exact hfatal

/-! ### Modules that are the same but for places -/

namespace Program

variable {ms ms' : List Tree.SourceModule} (h : Forall₂ Tree.SourceModule.Moved ms ms')

include h

theorem mainFile_eq_of_moved : mainFile ms = mainFile ms' := by
  induction h with
  | nil => rfl
  | @cons m m' _ _ hm _ ih =>
    cases hmain : m.isMain with
    | true => simp [mainFile, hmain, hm.isMain ▸ hmain, hm.file]
    | false => simpa [mainFile, hmain, hm.isMain ▸ hmain] using ih

theorem placed_moved_of_moved :
    Forall₂ (Build.Placed.Moved SameFile) (Build.placed ms) (Build.placed ms') := by
  induction h with
  | nil => exact .nil
  | @cons m m' _ _ hm _ ih =>
    refine rel_append ?_ ih
    rw [forall₂_map_left_iff, forall₂_map_right_iff]
    refine hm.items.imp fun i i' hi => ⟨hi, ?_⟩
    rw [hm.name, hm.isMain]
    exact fun _ _ _ _ => ⟨rfl, fun _ => rfl⟩

/-- Modules that are the same but for places are built and checked in the same way. -/
theorem ofModules_unplaced (version : Nat) :
    (ofModules ms version).2.map Diagnostic.unplaced =
        (ofModules ms' version).2.map Diagnostic.unplaced ∧
      Option.Rel (fun p p' => p.typeFaults.map Diagnostic.unplaced =
        p'.typeFaults.map Diagnostic.unplaced ∧ p.emit = p'.emit)
        (ofModules ms version).1 (ofModules ms' version).1 := by
  obtain ⟨hprogram, hds⟩ := ofModules_moved (placed_moved_of_moved h)
    (mainFile_eq_of_moved h : SameFile (.fileStart (mainFile ms)) (.fileStart (mainFile ms'))) version
  refine ⟨map_eq_of_forall₂ hds fun _ _ hd => hd.unplaced_eq, ?_⟩
  generalize (ofModules ms version).1 = built at hprogram ⊢
  generalize (ofModules ms' version).1 = built' at hprogram ⊢
  cases hprogram with
  | none => exact .none
  | some hp =>
    exact .some ⟨map_eq_of_forall₂ (typeFaults_moved hp) fun _ _ hd => hd.unplaced_eq,
      emit_eq_of_moved hp⟩

end Program

/-! ### Compilations -/

/-- What a compilation yields, but for places. -/
structure Compilation.View where
  assembly : Option (List Assembly.Line)
  /-- The text of the assembly, unless the compilation fails. -/
  text : Option String
  findings : List Diagnostic
  files : Array String

def Compilation.view (c : Compilation) : Compilation.View :=
  ⟨c.assembly, c.result.toOption, c.diagnostics.map Diagnostic.unplaced, c.sources.files.map (·.name)⟩

theorem Compilation.result_toOption (c : Compilation) :
    c.result.toOption = if c.hasErrors then none else c.assembly.map assemblyText := by
  unfold result
  cases c.assembly with
  | none => cases c.hasErrors <;> rfl
  | some lines => cases c.hasErrors <;> rfl

theorem Loaded.Alike.refuses_eq {l l' : Loaded} (h : l.Alike l') (extension : String) :
    l.refuses extension = l'.refuses extension := by
  have hmodules := map_eq_of_forall₂ h.modules fun _ _ hm => hm.imports
  have hrefuses (l : Loaded) : l.refuses extension = (l.modules.map (·.tree.imports.map Prod.fst)).any (·.any
      fun i => !Library.owns i.name && (i.toPath? extension).isNone) := by
    simp [Loaded.refuses, any_map, Function.comp_def]
  rw [hrefuses, hrefuses, hmodules]

theorem Loaded.Alike.view_compile_eq {l l' : Loaded} (h : l.Alike l') (version : Nat) (emit : Bool) :
    (l.compile version emit).view = (l'.compile version emit).view := by
  obtain ⟨hbuilding, hprogram⟩ := Program.ofModules_unplaced h.modules version
  obtain ⟨hassembly, hfindings⟩ := Loaded.compile_eq_of_view isFatal_eq_of_unplaced emit h.diagnostics
    hbuilding hprogram
  have herrors : (l.compile version emit).hasErrors = (l'.compile version emit).hasErrors :=
    any_isFatal_eq_of_view isFatal_eq_of_unplaced hfindings
  rw [Compilation.view, Compilation.view, Compilation.result_toOption, Compilation.result_toOption,
    hassembly, hfindings, herrors, Loaded.sources_compile, Loaded.sources_compile, h.names]

/-- **Layout does not matter.** Two texts that are scanned without a fault to the same lexemes are compiled
alike, whatever modules come from: with the same effects, and with no results or ones that have the same
assembly or both fail, whose files have the same names, and whose findings agree one by one in kind, severity, message,
help and file, and in all notes that quote no place. -/
theorem view_compile_eq_of_lexemes {m : Type → Type} [Monad m] [LawfulMonad m] (provider : Provider m)
    (options : Options) (emit : Bool) (name text text' : String)
    (htext : (scan 0 text).diagnostics = []) (htext' : (scan 0 text').diagnostics = [])
    (hlexemes : (scan 0 text).tokens.map Token.lexeme = (scan 0 text').tokens.map Token.lexeme) :
    Option.map Compilation.view <$> compile provider options emit text name =
      Option.map Compilation.view <$> compile provider options emit text' name := by
  have hlayout := Tree.Parsed.sameLayout_of_lexemes htext htext' hlexemes
  have hcompile (text : String) : Option.map Compilation.view <$> compile provider options emit text name =
      (fun l => if l.refuses options.extension then none else some (l.compile options.version emit).view) <$>
        Loader.collect provider options.extension name text := by
    simp only [compile, load, bind_pure_comp, Functor.map_map]
    refine congrArg (· <$> _) (funext fun l => ?_)
    split <;> rfl
  rw [hcompile, hcompile]
  refine (Loader.collect_coupled provider options.extension name hlayout).map_eq fun l l' h => ?_
  rw [h.refuses_eq, h.view_compile_eq]

namespace Sample

/-- A main file that imports a module and declares a name twice. -/
def dense : String :=
  "import a;function logic(txn,gtxn,args)\x7blet x=16;let x=\"a\";return x;\x7d"

/-- The same with blanks and comments, and with other spellings of the literals. -/
def airy : String :=
  "// main\nimport a; /* b */\nfunction logic(txn, gtxn, args) \x7b\n" ++
    "  let x = 0x10;\n  let x = \"\\x61\";\n  return x;\n\x7d\n"

def provider : Provider Id := .memory [("a.tl", "let y = 1;")]

end Sample

/-- The second declaration is reported in both with a note on the first, which stands elsewhere. -/
theorem view_compile_eq_of_lexemes_sample :
    ((scan 0 Sample.dense).diagnostics = [] ∧ (scan 0 Sample.airy).diagnostics = [] ∧
      (scan 0 Sample.dense).tokens.map Token.lexeme = (scan 0 Sample.airy).tokens.map Token.lexeme) ∧
    (compile Sample.provider .default true Sample.dense "main.tl").run.map Compilation.view =
      (compile Sample.provider .default true Sample.airy "main.tl").run.map Compilation.view := by
  have hscan : (scan 0 Sample.dense).diagnostics = [] ∧ (scan 0 Sample.airy).diagnostics = [] ∧
      (scan 0 Sample.dense).tokens.map Token.lexeme = (scan 0 Sample.airy).tokens.map Token.lexeme := by
    decide +kernel
  exact ⟨hscan, view_compile_eq_of_lexemes Sample.provider .default true "main.tl" _ _ hscan.1 hscan.2.1
    hscan.2.2⟩

end Teal
