import Teal.Proofs.Assembly.Versions
import Teal.Proofs.Program.Build.Newer

/-! Compiling for a newer version. What is built, checked and emitted for a version without a fatal
report is built, checked and emitted for every newer one that is supported, and the two assemblies
differ in the line that names the version. -/

namespace Teal

open List

namespace Program.Typing

variable (p : Program) (version : Nat)

/-- The recursion over an expression reads the scopes and the functions of a program only. -/
theorem expr_retarget : expr (p.retarget version) = expr p := by
  delta expr
  rfl

theorem assigned_retarget : assigned (p.retarget version) = assigned p := by
  delta assigned
  rfl

mutual

theorem stmt_retarget (current : Option Function) (s : Stmt) :
    stmt (p.retarget version) current s = stmt p current s := by
  cases s with
  | varDecl span scope names value => simp only [stmt, expr_retarget]
  | constDecl span name value => simp only [stmt, expr_retarget]
  | assign span scope targets value => simp only [stmt, expr_retarget, assigned_retarget]
  | setField span field value => simp only [stmt, expr_retarget]
  | ret span value => simp only [stmt, returned, expr_retarget]
  | ifThen span label test yes => simp only [stmt, expr_retarget, block_retarget current yes]
  | ifElse span label test yes no =>
    simp only [stmt, expr_retarget, block_retarget current yes, block_retarget current no]
  | loop span label test body => simp only [stmt, expr_retarget, block_retarget current body]
  | expr span value => simp only [stmt, expr_retarget]
  | innerBegin _ | innerSubmit _ | error _ | breakLoop _ => rfl
termination_by structural s

theorem block_retarget (current : Option Function) (stmts : List Stmt) :
    block (p.retarget version) current stmts = block p current stmts := by
  cases stmts with
  | nil => rfl
  | cons s rest => simp only [block, stmt_retarget current s, block_retarget current rest]
termination_by structural stmts

end

end Program.Typing

/-- The version makes no difference to types. -/
theorem Program.typeFaults_retarget (p : Program) (version : Nat) :
    (p.retarget version).typeFaults = p.typeFaults := by
  simp only [typeFaults, Typing.function, Typing.block_retarget, retarget_globals, retarget_functions]

namespace Assembly

open Program (Expr Index FieldSource Stmt Function)

variable (p : Program) (version : Nat) (expand : Nat → Context → Emitted)

theorem exprLines_retarget : exprLines (p.retarget version) expand = exprLines p expand := by
  delta exprLines
  rfl

mutual

theorem stmtLines_retarget (c : Context) (s : Stmt) :
    stmtLines (p.retarget version) expand c s = stmtLines p expand c s := by
  cases s with
  | varDecl span scope names value => simp only [stmtLines, exprLines_retarget]; rfl
  | assign span scope targets value => simp only [stmtLines, exprLines_retarget]; rfl
  | setField span field value => simp only [stmtLines, exprLines_retarget]
  | ret span value => simp only [stmtLines, exprLines_retarget]
  | ifThen span label test yes => simp only [stmtLines, exprLines_retarget, blockLines_retarget c yes]
  | ifElse span label test yes no =>
    simp only [stmtLines, exprLines_retarget, blockLines_retarget c yes, blockLines_retarget c no]
  | loop span label test body => simp only [stmtLines, exprLines_retarget, blockLines_retarget _ body]
  | expr span value => simp only [stmtLines, exprLines_retarget]; rfl
  | constDecl _ _ _ | innerBegin _ | innerSubmit _ | error _ | breakLoop _ => rfl
termination_by structural s

theorem blockLines_retarget (c : Context) (stmts : List Stmt) :
    blockLines (p.retarget version) expand c stmts = blockLines p expand c stmts := by
  cases stmts with
  | nil => rfl
  | cons s rest => simp only [blockLines, stmtLines_retarget c s, blockLines_retarget c rest]
termination_by structural stmts

end

theorem bodyBelow_retarget (bound : Nat) : bodyBelow (p.retarget version) bound = bodyBelow p bound := by
  induction bound with
  | zero => rfl
  | succ bound ih =>
    funext f c
    simp only [bodyBelow, ih, blockLines_retarget]
    rfl

theorem topLines_retarget (exit : Exit) (stmts : List Stmt) :
    topLines (p.retarget version) exit stmts = topLines p exit stmts := by
  simp only [topLines, bodyBelow_retarget, blockLines_retarget]
  rfl

theorem subroutinesLines_retarget (fs : List Function) :
    subroutinesLines (p.retarget version) fs = subroutinesLines p fs := by
  induction fs with
  | nil => rfl
  | cons f fs ih => simp only [subroutinesLines, subroutineLines, topLines_retarget, ih]

end Assembly

open Assembly in
theorem Program.emit_retarget {p : Program} {lines : List Line} (h : p.emit = .ok lines)
    (version : Nat) : ∃ body, lines = .version p.version :: body ∧
      (p.retarget version).emit = .ok (.version version :: body) := by
  unfold Program.emit at h ⊢
  simp only [topLines_retarget, subroutinesLines_retarget, retarget_globals, retarget_functions,
    retarget_entry, retarget_pool]
  cases hglobals : topLines p .finish p.globals with
  | error fault =>
    rw [hglobals] at h
    cases h
  | ok globals =>
    cases hsubroutines : subroutinesLines p p.functions with
    | error fault =>
      rw [hglobals, hsubroutines] at h
      cases h
    | ok subroutines =>
      rw [hglobals, hsubroutines] at h
      cases hentry : p.functions[p.entry]? with
      | none =>
        rw [hentry] at h
        cases h
      | some entry =>
        rw [hentry] at h
        cases hbody : topLines p .finish entry.body with
        | error fault =>
          simp only [hbody] at h
          cases h
        | ok body =>
          simp only [hbody] at h ⊢
          cases h
          exact ⟨_, rfl, rfl⟩

theorem assemblyText_cons (line : Assembly.Line) (lines : List Assembly.Line) :
    assemblyText (line :: lines) = line.text ++ "\n" ++ assemblyText lines := by
  simp [assemblyText]

/-- Where one compilation has assembly, another one for another version has the same, apart from the
number of the version. -/
structure Compilation.Retargets (old new : Compilation) (v w : Nat) : Prop where
  hasErrors : new.hasErrors = false
  result : ∃ body : String, old.result = .ok (s!"#pragma version {v}\n" ++ body) ∧
    new.result = .ok (s!"#pragma version {w}\n" ++ body)

theorem versionFaults_eq_nil {version : Nat} (hmin : Options.minVersion ≤ version)
    (hmax : version ≤ Options.maxVersion) : versionFaults version = [] := by
  simp [versionFaults, hmin, hmax]

/-- What is compiled when nothing fatal is found on the way. -/
theorem Loaded.compile_of_noErrors {l : Loaded} {version : Nat} {p : Program} {ds : List Diagnostic}
    {lines : List Assembly.Line} (hloading : ∀ d ∈ l.diagnostics, d.isFatal = false)
    (hversion : versionFaults version = []) (hbuilt : Program.ofModules l.modules version = (some p, ds))
    (hds : ∀ d ∈ ds, d.isFatal = false) (htypes : ∀ d ∈ p.typeFaults, d.isFatal = false)
    (hemit : p.emit = .ok lines) : l.compile version true =
      ⟨some lines, l.diagnostics ++ ds ++ p.typeFaults, l.sources⟩ := by
  have hbuilding : ∀ d ∈ l.diagnostics ++ ds, d.isFatal = false :=
    forall_mem_append.mpr ⟨hloading, hds⟩
  have hchecking : ∀ d ∈ l.diagnostics ++ ds ++ p.typeFaults, d.isFatal = false :=
    forall_mem_append.mpr ⟨hbuilding, htypes⟩
  unfold Loaded.compile
  dsimp only
  rw [hversion, append_nil, if_neg ((not_any_isFatal_iff _).mpr hloading), hbuilt]
  dsimp only
  rw [if_neg ((not_any_isFatal_iff _).mpr hbuilding), Bool.not_true, Bool.or_false,
    if_neg ((not_any_isFatal_iff _).mpr hchecking), hemit]
  rfl

theorem Loaded.diagnostics_subset (l : Loaded) (version : Nat) (emit : Bool) :
    l.diagnostics ⊆ (l.compile version emit).diagnostics := by
  have hloading : l.diagnostics ⊆ l.diagnostics ++ versionFaults version :=
    subset_append_left _ _
  unfold Loaded.compile
  dsimp only
  split
  · exact hloading
  split
  · exact subset_append_of_subset_left _ hloading
  split
  · exact subset_append_of_subset_left _ hloading
  split
  all_goals
    exact subset_append_of_subset_left _ (subset_append_of_subset_left _ hloading)

/-- What was loaded and compiles for a version compiles for every newer one that is supported. -/
theorem Loaded.compile_retargets {l : Loaded} {v w : Nat} (hvw : v ≤ w) (hw : w ≤ Options.maxVersion)
    (h : (l.compile v true).hasErrors = false) : (l.compile v true).Retargets (l.compile w true) v w := by
  have hquiet : ∀ d ∈ (l.compile v true).diagnostics, d.isFatal = false :=
    (not_any_isFatal_iff _).mp (by rw [← Compilation.hasErrors, h]; exact Bool.false_ne_true)
  have hloading : ∀ d ∈ l.diagnostics, d.isFatal = false :=
    fun d hd => hquiet d (l.diagnostics_subset v true hd)
  obtain ⟨lines, hlines⟩ := Option.isSome_iff_exists.mp ((l.assembly_isSome_iff v).mpr hquiet)
  obtain ⟨hsupported, p, ds, hbuilt, hds, htypes, hemit⟩ := exists_program_of_compile hlines
  obtain ⟨hmin, hmax⟩ := supported_of_versionFaults hsupported
  obtain ⟨body, rfl, hemit'⟩ := Program.emit_retarget hemit w
  have hold := Loaded.compile_of_noErrors hloading (versionFaults_eq_nil hmin hmax) hbuilt hds htypes
    hemit
  have hnew := Loaded.compile_of_noErrors hloading
    (versionFaults_eq_nil (Nat.le_trans hmin hvw) hw) (Program.ofModules_newer hvw hbuilt hds) hds
    (by rwa [Program.typeFaults_retarget]) hemit'
  rw [Program.typeFaults_retarget] at hnew
  rw [Program.version_of_ofModules hbuilt] at hold
  have hnone : (l.diagnostics ++ ds ++ p.typeFaults).any (·.isFatal) = false := by
    rw [hold] at h
    exact h
  refine ⟨?_, assemblyText body, ?_, ?_⟩
  · rw [hnew]
    exact hnone
  · simp only [Compilation.result, Compilation.hasErrors, hold, hnone, assemblyText_cons]
    rfl
  · simp only [Compilation.result, Compilation.hasErrors, hnew, hnone, assemblyText_cons]
    rfl

/-- A source that compiles for a version compiles for every newer one that is supported, to the same
text but for the number of the version. Modules may come from any provider: one that is a function of
what it is asked for, or one that looks them up in some state, such as a tree of files. -/
theorem compile_newer :
    (∀ (provider : Provider Id) (options : Options) (text fileName : String) (v w : Nat),
      Options.minVersion ≤ v → v ≤ w → w ≤ Options.maxVersion →
      ∀ c ∈ (compile provider { options with version := v } true text fileName).run, c.hasErrors = false →
        ∃ c' ∈ (compile provider { options with version := w } true text fileName).run, c.Retargets c' v w) ∧
    ∀ (σ : Type) (provider : Provider (StateM σ)) (options : Options) (text fileName : String)
      (v w : Nat) (state : σ), Options.minVersion ≤ v → v ≤ w → w ≤ Options.maxVersion →
      ∀ c ∈ ((compile provider { options with version := v } true text fileName).run state).1,
        c.hasErrors = false →
        ∃ c' ∈ ((compile provider { options with version := w } true text fileName).run state).1,
          c.Retargets c' v w := by
  have hretargets {v w : Nat} (hvw : v ≤ w) (hw : w ≤ Options.maxVersion) {loaded : Option Loaded}
      {c : Compilation} (hc : c ∈ loaded.map (·.compile v true)) (h : c.hasErrors = false) :
      ∃ c' ∈ loaded.map (·.compile w true), c.Retargets c' v w := by
    obtain ⟨l, rfl, rfl⟩ := Option.map_eq_some_iff.mp hc
    exact ⟨_, rfl, Loaded.compile_retargets hvw hw h⟩
  constructor
  · intro provider options text fileName v w _ hvw hw c hc h
    exact hretargets hvw hw hc h
  · intro σ provider options text fileName v w state _ hvw hw c hc h
    exact hretargets hvw hw hc h

namespace Sample

/-- A main file that imports a module and calls a subroutine of it. -/
def mainText : String :=
  "import \"twice\"; function logic(txn, gtxn, args) \x7b return twice(txn.Fee); \x7d"

/-- A subroutine, which version 3 does not have. -/
def files : List (String × String) :=
  [("twice.tl", "function twice(n) \x7b return n + n; \x7d")]

end Sample

/-- The sample compiles for version 4, and so for version 5. -/
theorem compile_newer_sample :
    ∃ c ∈ (compile (.memory Sample.files) ⟨4, ".tl", []⟩ true Sample.mainText "main.tl").run,
      ∃ c' ∈ (compile (.memory Sample.files) ⟨5, ".tl", []⟩ true Sample.mainText "main.tl").run,
        c.Retargets c' 4 5 := by
  have hcompiled : (compile (.memory Sample.files) ⟨4, ".tl", []⟩ true Sample.mainText "main.tl").run.any
      (!·.hasErrors) = true := by decide +kernel
  obtain ⟨c, hc, herrors⟩ := (Option.any_eq_true _ _).mp hcompiled
  exact ⟨c, hc, compile_newer.1 (.memory Sample.files) ⟨4, ".tl", []⟩ Sample.mainText "main.tl" 4 5 (by decide)
    (by decide) (by decide) c hc (by simpa using herrors)⟩

end Teal
