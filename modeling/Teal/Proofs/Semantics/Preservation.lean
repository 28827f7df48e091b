import Teal.Proofs.Compile.Total
import Teal.Proofs.Semantics.Simulation

/-! Emission preserves meaning. The lines of a program set up the pool, go through the globals, pass by
the subroutines and end in the body of the entry point; since its code simulates what it was emitted
for, the machine ends with the outcome of the program wherever its evaluation ends. -/

namespace Teal.Semantics

open Assembly List
open Program (Stmt Function)

variable {Env : Type} {p : Program} {I : Interp Env} {lines : List Line}

theorem distinct_of_programCode (hp : p.WellBuilt) (h : ProgramCode p lines) : Distinct lines := by
  intro before after l heq l' hl' htext
  obtain ⟨i, hi⟩ := mem_iff_getElem?.mp (mem_defined.mp hl')
  have hlt : i < before.length := (List.getElem?_eq_some_iff.mp hi).1
  have hfirst : lines[i]? = some (.label l') := by
    rw [heq, getElem?_append_left hlt, hi]
  have hsecond : lines[before.length]? = some (.label l) := by
    rw [heq, getElem?_append_right .refl, Nat.sub_self]
    rfl
  have hsame := (h.label_unique hp hfirst hsecond htext).2
  omega

theorem exists_parts (h : ProgramCode p lines) : ∃ globals subroutines body entry,
    lines = [.version p.version] ++ poolLines p.pool ++
      (globals ++ (subroutines ++ (body ++ [.label .programEnd]))) ∧
    p.functions[p.entry]? = some entry ∧ Code p (.outer .finish) (.block p.globals) globals ∧
    SubroutinesCode p p.functions subroutines ∧ Code p (.outer .finish) (.block entry.body) body := by
  cases h with
  | @mk globals subroutines body entry hentry hglobals hsubroutines hbody =>
    refine ⟨globals, subroutines, body, entry, ?_, hentry, hglobals, hsubroutines, hbody⟩
    simp only [append_assoc]

/-! ### Subroutines -/

theorem exists_body_of_subroutinesCode {fs : List Function} {ls : List Line}
    (h : SubroutinesCode p fs ls) {f : Function} (hf : f ∈ fs) (hsub : HasSubroutine f) :
    ∃ body after, .label (.subroutine f.name.text) :: (body ++ after) <:+ ls ∧
      Code p (.outer .returnCall) (.block f.body) body := by
  induction h with
  | nil => cases hf
  | @skip g rest ls hskip _ ih =>
    rcases mem_cons.mp hf with rfl | hf
    · rw [hsub.1, hsub.2] at hskip
      cases hskip
    · exact ih hf
  | @cons g rest body ls _ _ hbody _ ih =>
    rcases mem_cons.mp hf with rfl | hf
    · refine ⟨body, .label (.subroutineEnd f.name.text) :: ls, ?_, hbody⟩
      simp only [append_assoc, cons_append, nil_append]
      exact suffix_cons _ _
    · obtain ⟨body', after, hplace, hcode⟩ := ih hf
      exact ⟨body', after, hplace.trans (suffix_append _ _), hcode⟩

theorem installed_of_programCode (h : ProgramCode p lines) : Installed p lines := by
  obtain ⟨globals, subroutines, body, entry, rfl, _, _, hsubroutines, _⟩ := exists_parts h
  intro f hf hsub
  obtain ⟨fbody, after, ⟨before, rfl⟩, hcode⟩ :=
    exists_body_of_subroutinesCode hsubroutines hf hsub
  refine ⟨fbody, after ++ (body ++ [.label .programEnd]), ?_, hcode⟩
  exact ⟨[.version p.version] ++ poolLines p.pool ++ (globals ++ before), by simp⟩

theorem onward_of_subroutinesCode (hlabels : Distinct lines) {fs : List Function}
    {ls code : List Line} (h : SubroutinesCode p fs ls) (hplace : ls ++ code <:+ lines) :
    Onward p I lines (ls ++ code) code := by
  induction h with
  | nil => exact .refl
  | skip _ _ ih => exact ih hplace
  | cons _ _ _ _ ih =>
    simp only [append_assoc, cons_append, nil_append] at hplace ⊢
    have hbody := suffix_next (suffix_next hplace)
    have hend := suffix_behind hbody
    exact (Onward.branch hlabels hend).trans (ih (suffix_next hend))

/-! ### Programs -/

/-- The first lines set up the pool. -/
theorem reach_header (p : Program) (I : Interp Env) (lines code : List Line) (env : Env) :
    Reach I lines ⟨[.version p.version] ++ poolLines p.pool ++ code, [], fun _ => .int 0, [], ⟨[], []⟩,
      env⟩ ⟨code, [], fun _ => .int 0, [], p.pool, env⟩ := by
  refine .head rfl ?_
  obtain ⟨ints, bytes⟩ := p.pool
  cases ints with
  | nil =>
    cases bytes with
    | nil => exact .refl
    | cons => exact .one rfl
  | cons =>
    cases bytes with
    | nil => exact .one rfl
    | cons => exact .head rfl (.one rfl)

theorem evalBlock_append {call : Calls Env} {fuel : Nat} (stmts stmts' : List Stmt) (m : Memory Env) :
    evalBlock p I call fuel (stmts ++ stmts') m = evalBlock p I call fuel stmts m >>= fun r =>
      if r.1 = .next then evalBlock p I call fuel stmts' r.2 else .ok r := by
  induction stmts generalizing m with
  | nil =>
    rw [nil_append, evalBlock]
    rfl
  | cons st rest ih =>
    rw [cons_append, evalBlock, evalBlock]
    cases evalStmt p I call fuel st m with
    | error stop => rfl
    | ok r =>
      obtain ⟨completion, m'⟩ := r
      cases completion with
      | next => exact ih m'
      | broke => rfl
      | returned v => rfl

/-- From the globals on, the machine does what the globals and the body of the entry point do, and comes
to the end of the program with the value that is returned. -/
theorem sim_globals (hp : p.Sound) (hlabels : Distinct lines) (hinstalled : Installed p lines)
    {globals subroutines body rest : List Line} {entry : Function} (hentry : entry ∈ p.functions)
    (hglobals : Code p (.outer .finish) (.block p.globals) globals)
    (hsubroutines : SubroutinesCode p p.functions subroutines)
    (hbody : Code p (.outer .finish) (.block entry.body) body)
    (hplace : globals ++ (subroutines ++ (body ++ rest)) <:+ lines) (fuel : Nat) {m : Memory Env}
    {s : State Env} (h : At p m (globals ++ (subroutines ++ (body ++ rest))) [] [] s) :
    Sim I lines s (evalBlock p I (evalCall p I fuel) fuel (p.globals ++ entry.body) m) fun r t =>
      ∃ v rest, r.1 = .returned v ∧ At p r.2 (.finish :: rest) [v] [] t := by
  have hsubPlace := suffix_behind hplace
  have hbodyPlace := suffix_behind hsubPlace
  rw [evalBlock_append]
  refine (simulates_of_code hp hlabels hinstalled fuel hglobals hplace h).bind fun r t _ ht => ?_
  obtain ⟨completion, m'⟩ := r
  cases completion with
  | next =>
    obtain ⟨u, hreach, hu⟩ := onward_of_subroutinesCode hlabels hsubroutines hsubPlace ht
    refine .reach hreach ?_
    refine (simulates_of_code hp hlabels hinstalled fuel hbody hbodyPlace hu).andThen ?_
    intro r w heval hw
    exact ⟨w, .refl, hw.returned heval (hp.terminates entry hentry) rfl⟩
  | broke =>
    obtain ⟨_, _, hloop, _⟩ := ht
    cases hloop
  | returned v =>
    obtain ⟨rest, hrest⟩ := ht
    exact .pure ⟨v, rest, rfl, hrest⟩

/-- The machine does from the first line of a program what the evaluation of the program does, and ends
with the value that the entry point returns. -/
theorem sim_evalProgram (hp : p.Sound) (h : ProgramCode p lines) (fuel : Nat) (env : Env) :
    Sim I lines (start lines env) (evalProgram p I fuel env) fun r t =>
      Ends I lines t (.returned r.1 r.2.env) := by
  obtain ⟨globals, subroutines, body, entry, hlines, hentry, hglobals, hsubroutines, hbody⟩ :=
    exists_parts h
  have hlabels := distinct_of_programCode hp.toWellBuilt h
  have hinstalled := installed_of_programCode h
  have hstart : At p (⟨fun _ => .int 0, env⟩ : Memory Env)
      (globals ++ (subroutines ++ (body ++ [.label .programEnd]))) [] []
      ⟨globals ++ (subroutines ++ (body ++ [.label .programEnd])), [], fun _ => .int 0, [], p.pool,
        env⟩ :=
    ⟨_, rfl, fun _ _ _ => rfl⟩
  have hheader := reach_header p I lines
    (globals ++ (subroutines ++ (body ++ [.label .programEnd]))) env
  rw [← hlines] at hheader
  rw [evalProgram, hentry]
  refine .reach hheader ?_
  refine (sim_globals hp hlabels hinstalled (mem_of_getElem? hentry) hglobals hsubroutines hbody
    ⟨_, hlines.symm⟩ fuel hstart).bind fun r t _ ht => ?_
  obtain ⟨v, rest, hv, slots, rfl, _⟩ := ht
  obtain ⟨completion, m⟩ := r
  cases hv
  exact .pure (.one rfl)

/-- Where the evaluation of a program ends, the machine ends with the same outcome. -/
theorem ends_of_outcome? (hp : p.Sound) (h : ProgramCode p lines) {fuel : Nat} {env : Env}
    {outcome : Outcome Env} (heval : outcome? p I fuel env = some outcome) :
    Ends I lines (start lines env) outcome := by
  have hsim := sim_evalProgram (I := I) hp h fuel env
  unfold outcome? at heval
  cases hprogram : evalProgram p I fuel env with
  | ok r =>
    rw [hprogram] at heval hsim
    cases heval
    obtain ⟨t, hreach, hend⟩ := hsim
    exact hreach.ends hend
  | error stop =>
    rw [hprogram] at heval hsim
    cases stop with
    | failed =>
      cases heval
      exact hsim
    | outOfFuel => cases heval

end Teal.Semantics

namespace Teal

namespace Sample

open Assembly (Line)
open Semantics (Value Interp)

/-- What the operations of the sample compute. -/
def compute : Line → List Value → Option (List Value)
  | .binary .lt, [.int a, .int b] => some [.int (if a < b then 1 else 0)]
  | .binary .eq, [.int a, .int b] => some [.int (if a = b then 1 else 0)]
  | .binary .add, [.int a, .int b] => some [.int (a + b)]
  | .builtin "addw" [], [.int a, .int b] => some [.int (if a + b < a then 1 else 0), .int (a + b)]
  | _, _ => none

/-- Operations that count in the environment how many of them are applied. -/
def counting : Interp Nat where
  apply line args count := do
    let vs ← compute line args
    if h : vs.length = line.pushes then some (⟨vs, h⟩, count + 1) else none

theorem outcome?_program :
    Semantics.outcome? program counting 10 0 = some (.returned (.int 9) 28) := by decide +kernel

end Sample

/-- What is built and checked without a fatal report is emitted as lines that mean the same. Whatever the
operations compute and in every environment, if the evaluation of the program ends, with a value or with
a failure, then so do all runs of the lines that are long enough. -/
theorem emit_preserves_outcome {ms : List Tree.SourceModule} {version : Nat} {p : Program}
    {ds : List Diagnostic} (hbuilt : Program.ofModules ms version = (some p, ds))
    (hds : ∀ d ∈ ds, d.isFatal = false) (htypes : ∀ d ∈ p.typeFaults, d.isFatal = false) {Env : Type}
    (I : Semantics.Interp Env) :
    ∃ lines, p.emit = .ok lines ∧
      ∀ (env : Env) (fuel : Nat) (outcome : Semantics.Outcome Env),
        Semantics.outcome? p I fuel env = some outcome →
          ∃ n, ∀ k, n ≤ k → Semantics.run I lines k (Semantics.start lines env) = some outcome := by
  have hp := sound_of_ofModules hbuilt hds htypes
  obtain ⟨lines, hlines, hcode⟩ := Assembly.emit_code hp
  refine ⟨lines, hlines, fun env fuel outcome heval => ?_⟩
  exact (Semantics.ends_of_outcome? hp hcode heval).exists_run

/-- The sample returns nine, both when it is evaluated and when its lines are run. -/
theorem emit_preserves_outcome_sample :
    Program.ofModules Sample.modules 5 = (some Sample.program, []) ∧
      Sample.program.typeFaults = [] ∧
      Semantics.outcome? Sample.program Sample.counting 10 0 = some (.returned (.int 9) 28) ∧
      ∃ lines n, Sample.program.emit = .ok lines ∧
        Semantics.run Sample.counting lines n (Semantics.start lines 0) = some (.returned (.int 9) 28) := by
  obtain ⟨lines, hlines, hruns⟩ := emit_preserves_outcome Sample.ofModules_modules (by simp)
    (by simp [Sample.typeFaults_program]) Sample.counting
  obtain ⟨n, hn⟩ := hruns 0 10 _ Sample.outcome?_program
  exact ⟨Sample.ofModules_modules, Sample.typeFaults_program, Sample.outcome?_program, lines, n,
    hlines, hn n (Nat.le_refl n)⟩

end Teal
