import Teal.Compile
import Teal.Proofs.Assembly.Code

/-! A compilation ends with assembly or with a fatal diagnostic, and never with both or with neither. There
is none only where an import takes an extension that no path can have.
What stands between the two are the places at which a step of the compilation relies on the steps before
it: emission has none of its faults where building and checking report nothing fatal, and building finds
every scope and function that it refers to, also in sources that it rejects. -/

namespace Teal

open List

variable {ms : List Tree.SourceModule} {version : Nat} {ds : List Diagnostic}

theorem sound_of_ofModules {p : Program} (h : Program.ofModules ms version = (some p, ds))
    (hds : ∀ d ∈ ds, d.isFatal = false) (htypes : ∀ d ∈ p.typeFaults, d.isFatal = false) : p.Sound :=
  (Program.wellBuilt_of_ofModules h hds).sound htypes

/-- Without an entry point something fatal is reported. -/
theorem exists_fatal_of_ofModules_none (h : Program.ofModules ms version = (none, ds)) :
    ∃ d ∈ ds, d.isFatal = true := by
  unfold Program.ofModules at h
  generalize (Program.Build.program ms).run (.initial version) = r at h
  obtain ⟨_, b⟩ := r
  dsimp only at h
  split at h
  · cases h
  · cases h
    exact ⟨_, mem_append_right _ mem_cons_self, rfl⟩

theorem not_any_isFatal_iff (ds : List Diagnostic) :
    ¬ds.any (·.isFatal) = true ↔ ∀ d ∈ ds, d.isFatal = false := by
  rw [Bool.not_eq_true, any_eq_false]
  simp

theorem none_isSome_iff_of_fatal {α : Type} (h : ds.any (·.isFatal) = true) :
    (none : Option α).isSome = true ↔ ∀ d ∈ ds, d.isFatal = false := by
  rw [← not_any_isFatal_iff]
  exact ⟨fun hnone => Bool.noConfusion hnone, fun hnot => absurd h hnot⟩

/-- What was loaded is compiled to assembly just if nothing fatal is found. -/
theorem Loaded.assembly_isSome_iff (l : Loaded) (version : Nat) :
    (l.compile version true).assembly.isSome = true ↔
      ∀ d ∈ (l.compile version true).diagnostics, d.isFatal = false := by
  unfold Loaded.compile
  dsimp only
  split
  · next hloading => exact none_isSome_iff_of_fatal hloading
  next hloading =>
  split
  · next ds hprogram =>
    obtain ⟨d, hd, hfatal⟩ := exists_fatal_of_ofModules_none hprogram
    exact none_isSome_iff_of_fatal
      (any_eq_true.mpr ⟨d, mem_append_right _ hd, hfatal⟩)
  next p ds hprogram =>
  split
  · next hbuilding => exact none_isSome_iff_of_fatal hbuilding
  next hbuilding =>
  split
  · next hchecking =>
    rw [Bool.not_true, Bool.or_false] at hchecking
    exact none_isSome_iff_of_fatal hchecking
  · next hchecking =>
    rw [Bool.not_true, Bool.or_false, not_any_isFatal_iff] at hchecking
    have hds : ∀ d ∈ ds, d.isFatal = false := fun d hd =>
      hchecking d (mem_append_left _ (mem_append_right _ hd))
    have htypes : ∀ d ∈ p.typeFaults, d.isFatal = false := fun d hd =>
      hchecking d (mem_append_right _ hd)
    obtain ⟨lines, hlines, _⟩ := Assembly.emit_code (sound_of_ofModules hprogram hds htypes)
    rw [hlines]
    exact ⟨fun _ => hchecking, fun _ => rfl⟩

/-! ### Extensions that stop the compiler -/

theorem Path.Extension.isNone_ofText? (text : String) : (ofText? text).isNone = true ↔ '/' ∈ text.toList := by
  unfold ofText?
  split
  · next h => exact iff_of_false Bool.false_ne_true h
  · next h => exact iff_of_true rfl (not_not.mp h)

theorem Tree.Import.toPath?_isNone_iff (extension : String) (i : Tree.Import) :
    (i.toPath? extension).isNone = true ↔ i.takesExtension = true ∧ '/' ∈ extension.toList := by
  have hdots : '/' ∈ extension.toList.dropWhile (· == '.') ↔ '/' ∈ extension.toList := by
    refine ⟨fun h => (dropWhile_sublist _).subset h, fun h => ?_⟩
    rw [← takeWhile_append_dropWhile (p := (· == '.')) (l := extension.toList), mem_append] at h
    exact h.resolve_left fun hdot => absurd (all_eq_true.mp all_takeWhile _ hdot) (by decide)
  rw [toPath?]
  split
  · next htakes =>
    rw [Option.isNone_map, Path.Extension.isNone_ofText?, String.toList_ofList, hdots]
    exact (and_iff_right htakes).symm
  · next htakes => simp [htakes]

/-- An import takes the extension if it is not of the library and has none itself. -/
def Loaded.Extends (l : Loaded) : Prop :=
  ∃ m ∈ l.modules, ∃ i ∈ m.tree.imports, Library.owns i.1.name = false ∧ i.1.takesExtension = true

theorem Loaded.refuses_iff (l : Loaded) (extension : String) :
    l.refuses extension = true ↔ '/' ∈ extension.toList ∧ l.Extends := by
  simp only [Loaded.refuses, any_eq_true, Bool.and_eq_true, Tree.Import.toPath?_isNone_iff, Bool.not_eq_true']
  constructor
  · rintro ⟨m, hm, i, hi, howns, htakes, hslash⟩
    exact ⟨hslash, m, hm, i, hi, howns, htakes⟩
  · rintro ⟨hslash, m, hm, i, hi, howns, htakes⟩
    exact ⟨m, hm, i, hi, howns, htakes, hslash⟩

/-- There is a compilation unless an import takes an extension with a separator. It has assembly just if none
of its diagnostics is fatal; building breaks off nowhere, whatever the modules are; and what is built and
checked without a fatal report is emitted. -/
theorem compile_total (files : List (String × String)) (options : Options) (text fileName : String) :
    ((compile (.memory files) options true text fileName).run = none ↔ '/' ∈ options.extension.toList ∧
      (Loader.collect (.memory files) options.extension fileName text).run.Extends) ∧
    (∀ c ∈ (compile (.memory files) options true text fileName).run,
      c.assembly.isSome = true ↔ ∀ d ∈ c.diagnostics, d.isFatal = false) ∧
    (∀ (ms : List Tree.SourceModule) (version : Nat),
      ((Program.Build.program ms).run (.initial version)).2.breaches = []) ∧
    ∀ (ms : List Tree.SourceModule) (version : Nat) (p : Program) (ds : List Diagnostic),
      Program.ofModules ms version = (some p, ds) → (∀ d ∈ ds, d.isFatal = false) →
      (∀ d ∈ p.typeFaults, d.isFatal = false) → ∃ lines, p.emit = .ok lines := by
  refine ⟨?_, fun c hc => ?_, Program.breaches_eq_nil, ?_⟩
  · rw [← Loaded.refuses_iff]
    change Option.map _ (if _ then none else some _) = none ↔ _
    split
    · next h => exact iff_of_true rfl h
    · next h => exact iff_of_false nofun h
  · obtain ⟨l, -, rfl⟩ := Option.map_eq_some_iff.mp hc
    exact Loaded.assembly_isSome_iff l options.version
  · intro ms version p ds hprogram hds htypes
    obtain ⟨lines, hlines, _⟩ := Assembly.emit_code (sound_of_ofModules hprogram hds htypes)
    exact ⟨lines, hlines⟩

/-- The sample is built and checked without a report, and it is emitted. -/
theorem compile_total_sample :
    Program.ofModules Sample.modules 5 = (some Sample.program, []) ∧
      Sample.program.typeFaults = [] ∧ ∃ lines, Sample.program.emit = .ok lines :=
  ⟨Sample.ofModules_modules, Sample.typeFaults_program,
    (compile_total [] .default "" "").2.2.2 Sample.modules 5 Sample.program [] Sample.ofModules_modules (by simp)
      (by simp [Sample.typeFaults_program])⟩

/-- A dotted import takes an extension with a separator. -/
theorem compile_total_separator :
    (compile (.memory []) ⟨5, "a/b", []⟩ true "import x;" "main.tl").run = none := by
  have hnone : (compile (.memory []) ⟨5, "a/b", []⟩ true "import x;" "main.tl").run.isNone = true := by
    decide +kernel
  exact Option.isNone_iff_eq_none.mp hnone

end Teal
