import Teal.Command.Run
import Teal.Proofs.Compile.Newer
import Teal.Proofs.Loader.Files

/-! What a build writes. All that a build does before it writes leaves the tree of files as it is, and it
writes one file, to which the path of the main file with another extension leads. No source starts with the
character that assembly starts with, so a source survives if and only if it is not that file. -/

namespace Teal

open FileTree

/-! ### Sources and assembly differ -/

/-- The character that starts assembly starts no lexeme. -/
theorem Tree.Parsed.head?_ne_of_ok {file : FileId} {text : String} {parsed : Parsed}
    (h : ofText file text = .ok parsed) : text.toList.head? ≠ some '#' := by
  intro hhead
  obtain ⟨cs, hcs⟩ := List.head?_eq_some_iff.mp hhead
  have hpiece : Scan.piece '#' cs = ⟨0, none, some (.unexpected '#')⟩ := rfl
  have hfatal : (scan file text).diagnostics.any (·.isFatal) = true := by
    rw [scan, hcs, Scan.run, hpiece]
    rfl
  have herror : ofText file text = .error (scan file text).diagnostics := if_pos hfatal
  rw [herror] at h
  cases h

theorem assemblyText_head? {program : Program} {lines : List Assembly.Line} (h : program.emit = .ok lines) :
    (assemblyText lines).toList.head? = some '#' := by
  obtain ⟨body, rfl, -⟩ := Program.emit_retarget h program.version
  have hpragma : (Assembly.Line.version program.version).text =
      "#pragma version " ++ toString program.version := rfl
  rw [assemblyText_cons, hpragma, String.append_assoc, String.append_assoc, String.toList_append]
  rfl

theorem utf8_assemblyText_ne {program : Program} {lines : List Assembly.Line} (h : program.emit = .ok lines)
    {file : FileId} {text : String} {parsed : Tree.Parsed} (hparsed : Tree.Parsed.ofText file text = .ok parsed) :
    Text.utf8 (assemblyText lines).toList ≠ Text.utf8 text.toList := by
  intro heq
  have hsame := congrArg Text.ofUtf8Lossy heq
  rw [Text.ofUtf8Lossy_utf8, Text.ofUtf8Lossy_utf8] at hsame
  exact Tree.Parsed.head?_ne_of_ok hparsed (hsame ▸ assemblyText_head? h)

/-! ### The output is a file -/

theorem Path.fileName?_of_dash {p : Path} (h : p.text = "-") : p.fileName? ≠ none := by
  have hslash : '/' ∉ p.text.toList := by
    rw [h]
    decide
  obtain ⟨rooted, segments⟩ := p
  cases rooted with
  | true => simp [text] at hslash
  | false =>
    cases segments with
    | nil => exact absurd h (by decide)
    | cons s rest =>
      cases rest with
      | nil =>
        have hs : s = "-" := by simpa [text] using h
        subst hs
        decide
      | cons s' rest => simp [text, String.intercalate_cons_cons] at hslash

theorem Path.text_replaceExtension_ne (p : Path) : (p.replaceExtension Command.outputExtension).text ≠ "-" := by
  intro hdash
  rw [replaceExtension] at hdash
  rcases withExtension_cases Command.outputExtension (by decide) p.cutExtension with ⟨hnone, hsame⟩ | ⟨start, htext⟩
  · rw [hsame] at hdash
    exact fileName?_of_dash hdash hnone
  · have hlength : start.length + 5 = 1 := by
      rw [htext] at hdash
      exact (String.length_append ..).symm.trans (congrArg String.length hdash)
    omega

namespace Command

/-! ### Asking before writing -/

section Asking

variable (t : FileTree)

theorem answers_projectLoad (path : Path) : t.Answers (Project.load FileTree.system path) fun _ => True := by
  refine answers_bind (answers_get _) fun r _ => ?_
  cases r with
  | error fault => exact answers_pure trivial
  | ok text => exact answers_pure trivial

theorem answers_firstPresent (paths : List Path) :
    t.Answers (Project.firstPresent FileTree.system paths) fun _ => True := by
  induction paths with
  | nil => exact answers_pure trivial
  | cons p rest ih =>
    refine answers_bind (answers_get _) fun found _ => ?_
    split
    · exact answers_pure trivial
    · exact ih

/-- An outcome in place of an answer is a failure. -/
def Fails {α : Type} (r : Except Outcome α) : Prop := ∀ o, r = .error o → o.status = 1

theorem fails_ok {α : Type} (a : α) : Fails (.ok a) := nofun

theorem fails_error {α : Type} {o : Outcome} (h : o.status = 1) : Fails (.error o : Except Outcome α) := by
  rintro _ ⟨⟩
  exact h

theorem answers_resolveInput (input : Path) : t.Answers (resolveInput FileTree.system input) Fails := by
  refine answers_bind (answers_get _) fun isDir _ => ?_
  split
  · refine answers_bind (answers_get _) fun there _ => ?_
    split
    · exact answers_pure (fails_error rfl)
    · refine answers_bind (answers_projectLoad t _) fun project _ => ?_
      cases project with
      | error fault => exact answers_pure (fails_error rfl)
      | ok project =>
        dsimp only
        cases project.entry with
        | some entry => exact answers_pure (fails_ok _)
        | none => exact answers_pure (fails_error rfl)
  · refine answers_bind (answers_firstPresent t _) fun found _ => ?_
    cases found with
    | none => exact answers_pure (fails_ok _)
    | some path =>
      refine answers_bind (answers_projectLoad t _) fun project _ => ?_
      cases project with
      | error fault => exact answers_pure (fails_error rfl)
      | ok project => exact answers_pure (fails_ok _)

/-- What is compiled comes from a tree, unless there is a failure. -/
structure Compiled (r : Except Outcome (Path × Compilation)) : Prop where
  fails : Fails r
  readFrom : ∀ entry c, r = .ok (entry, c) →
    ∃ text, t.read entry = .ok text ∧ c.ReadFrom t ⟨entry.text, text⟩

theorem extension_options (project : Option Project) (version : Option Nat) :
    (options project version).extension = Loader.Bundle.extension := by
  cases project <;> rfl

theorem answers_compileJob (job : Job) (emit : Bool) :
    t.Answers (compileJob FileTree.system job emit) (Compiled t) := by
  refine answers_bind (answers_resolveInput t job.input) fun r hr => ?_
  cases r with
  | error o => exact answers_pure ⟨fails_error (hr o rfl), nofun⟩
  | ok input =>
    have hfile : t.Answers (compileFile FileTree.system (options input.project job.version) emit input.entry)
        fun r => ∀ c, r = .ok c → ∃ c', c = some c' ∧
          ∃ text, t.read input.entry = .ok text ∧ c'.ReadFrom t ⟨input.entry.text, text⟩ := by
      refine answers_bind (answers_get (·.read input.entry)) fun r hr => ?_
      cases r with
      | error fault => exact answers_pure nofun
      | ok text =>
        obtain ⟨place, hresolve, hnode⟩ := read_eq_ok hr.symm
        refine answers_bind (answers_compileText ⟨input.entry, rfl, hresolve, hnode⟩
          (extension_options input.project job.version) emit) fun c hc => ?_
        obtain ⟨c, rfl, hc⟩ := hc
        exact answers_pure (by rintro _ ⟨⟩; exact ⟨c, rfl, text, hr.symm, hc⟩)
    refine answers_bind hfile fun r hr => ?_
    cases r with
    | error fault => exact answers_pure ⟨fails_error rfl, nofun⟩
    | ok c =>
      obtain ⟨c, rfl, hc⟩ := hr c rfl
      exact answers_pure ⟨fails_ok _, by rintro _ _ ⟨⟩; exact hc⟩

end Asking

/-! ### Writing -/

section Writing

variable {t t' : FileTree} {job : Job} {o : Outcome} {entry : Path} {c : Compilation}

theorem run_write_ok {path : Path} {text : String} (h : t.write path text = .ok t') :
    (FileTree.system.write path text).run t = (.ok (), t') := by
  simp only [FileTree.system, StateT.run_bind, StateT.run_get, pure_bind, h]
  rfl

theorem run_write_error {path : Path} {text : String} {fault : FileSystem.Fault}
    (h : t.write path text = .error fault) : (FileTree.system.write path text).run t = (.error fault, t) := by
  simp only [FileTree.system, StateT.run_bind, StateT.run_get, pure_bind, h]
  rfl

/-- A build that succeeds has assembly, and has written it. -/
theorem exists_write_of_run (hcompiled : (compileJob FileTree.system job true).run t = (.ok (entry, c), t))
    (hrun : (runBuild FileTree.system job none).run t = (o, t')) (hok : o.status = 0) :
    ∃ lines, c.assembly = some lines ∧
      t.write (entry.replaceExtension outputExtension) (assemblyText lines) = .ok t' := by
  rw [runBuild, run_bind_eq hcompiled] at hrun
  dsimp only at hrun
  cases hlines : c.assembly with
  | none =>
    rw [hlines] at hrun
    cases hrun
    cases hok
  | some lines =>
    rw [hlines] at hrun
    refine ⟨lines, rfl, ?_⟩
    dsimp only [Option.getD_none] at hrun
    rw [if_neg (by simpa using Path.text_replaceExtension_ne entry), StateT.run_bind] at hrun
    cases hwrite : t.write (entry.replaceExtension outputExtension) (assemblyText lines) with
    | error fault =>
      rw [run_write_error hwrite] at hrun
      cases hrun
      cases hok
    | ok written =>
      rw [run_write_ok hwrite] at hrun
      by_cases hformat : job.format = .human
      · rw [if_pos hformat] at hrun
        cases hrun
        rfl
      · rw [if_neg hformat] at hrun
        cases hrun
        rfl

/-- A build turns one tree of files into another: what it compiles, which place its output has, and what
becomes of all places and of those of the sources. -/
structure Builds (t t' : FileTree) (job : Job) (entry : Path) (c : Compilation) (place : List String) :
    Prop where
  compiled : (compileJob FileTree.system job true).run t = (.ok (entry, c), t)
  output : t'.resolve (entry.replaceExtension outputExtension) = .ok place
  written : ∃ lines, c.assembly = some lines ∧
    t'.node? place = some (.file (Text.utf8 (assemblyText lines).toList))
  others : ∀ other, other ≠ place → t'.node? other = t.node? other
  main : ∃ text, t.read entry = .ok text ∧ ⟨entry.text, text⟩ ∈ c.sources.files
  sources : ∀ f ∈ c.sources.files, t.Provides f
  spares : ∀ f ∈ c.sources.files, ∀ source, t.HoldsAt f source →
    (t'.node? source = t.node? source ↔ source ≠ place)

/-- A build without a given output that succeeds writes assembly to the place of the main file with another
extension and changes no other place. A source that took part is changed if and only if it stands there. -/
theorem run_build_writes (hrun : (Command.run FileTree.system (.build job none)).run t = (o, t'))
    (hok : o.status = 0) : ∃ entry c place, Builds t t' job entry c place := by
  obtain ⟨r, hcompiled, hr⟩ := answers_compileJob t job true
  cases r with
  | error failed =>
    have hfailed : (o, t') = (failed, t) := by
      rw [← hrun]
      exact run_bind_eq hcompiled
    cases hfailed
    cases (hr.fails o rfl).symm.trans hok
  | ok compiled =>
    obtain ⟨entry, c⟩ := compiled
    obtain ⟨text, hread, hfrom⟩ := hr.readFrom entry c rfl
    obtain ⟨lines, hlines, hwrite⟩ := exists_write_of_run hcompiled hrun hok
    obtain ⟨dir, name, haims, rfl⟩ := write_eq_ok hwrite
    have hplace : dir ++ [name] ≠ [] := by simp
    have hothers (other : List String) (hne : other ≠ dir ++ [name]) := node?_put_ne hne t
      (.file (Text.utf8 (assemblyText lines).toList))
    refine ⟨entry, c, dir ++ [name], hcompiled, haims.resolve_put _,
      ⟨lines, hlines, node?_put_self hplace t _⟩, hothers, ⟨text, hread, hfrom.main⟩,
      hfrom.provided, fun f hf source hsource => ⟨?_, hothers source⟩⟩
    -- What stands there now is assembly, and what stood there was parsed.
    rintro hsame rfl
    obtain ⟨path, -, -, hnode⟩ := hsource
    obtain ⟨program, hemit⟩ := hfrom.emitted lines hlines
    obtain ⟨file, parsed, hparsed⟩ := hfrom.parsed lines hlines f hf
    rw [node?_put_self hplace, hnode] at hsame
    exact utf8_assemblyText_ne hemit hparsed (FileTree.Node.file.inj (Option.some.inj hsame))

end Writing

/-- A file of some text at the root. -/
def Sample.file (name text : String) : List String × FileTree.Node :=
  ([name], .file (Text.utf8 text.toList))

def Sample.files : FileTree :=
  ⟨[], [Sample.file "main.tl" "import a;function logic(txn,gtxn,args)\x7breturn two;\x7d",
    Sample.file "a.tl" "const two=2;"]⟩

def Sample.job (input : String) : Job := ⟨.ofText input, none, .human⟩

def Sample.built (t : FileTree) (input : String) : Outcome × FileTree :=
  (Command.run FileTree.system (.build (Sample.job input) none)).run t

theorem run_build_writes_sample : (Sample.built Sample.files "main.tl").1.status = 0 ∧
    ∃ entry c place, Builds Sample.files (Sample.built Sample.files "main.tl").2 (Sample.job "main.tl")
      entry c place := by
  have hok : (Sample.built Sample.files "main.tl").1.status = 0 := by decide +kernel
  exact ⟨hok, run_build_writes (Prod.eta _).symm hok⟩

/-- A main file that has the extension of assembly. -/
def Sample.clash : FileTree :=
  ⟨[], [Sample.file "main.teal" "function logic(txn, gtxn, args) \x7b return 1; \x7d"]⟩

/-- A build that succeeds has written over its main file. -/
theorem run_build_overwrites : (Sample.built Sample.clash "main.teal").1.status = 0 ∧
    (Sample.built Sample.clash "main.teal").2.node? ["main.teal"] ≠ Sample.clash.node? ["main.teal"] := by
  decide +kernel

end Command

end Teal
