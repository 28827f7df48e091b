import Teal.Proofs.Compile.Total
import Teal.Proofs.Program.Build.Breaks
import Teal.Proofs.Program.Typing.Remarks

/-! Loops in emitted code. Of all lines only three kinds tell of loops: the labels where one starts and
where it ends, and the branches to its end. `Laid` says in which order these stand for a piece of a
program, by the loops that are around each break in its own copy of a body: a body that stands in place of
a call is a copy of its own, and no loop around the call is a loop of that copy. The lines that are emitted
have these marks in this order. -/

namespace Teal.Program

def Expr.isCall : Expr → Bool
  | .call _ _ _ _ _ => true
  | _ => false

/-- Whether the code of a statement is that of its parts and of the statements inside of it, apart from
lines that do not tell of loops. The value of a constant has no code. -/
def Stmt.isPlain : Stmt → Bool
  | .constDecl _ _ _ | .loop _ _ _ _ | .breakLoop _ => false
  | _ => true

end Teal.Program

namespace Teal.Assembly

open List
open Program (Expr Stmt Function)

/-- What a line tells of the loop with a number in a copy of a body. -/
inductive LoopMark where
  | start (n : Nat) (path : List Nat)
  | stop (n : Nat) (path : List Nat)
  /-- Go to the end of the loop. -/
  | leave (n : Nat) (path : List Nat)
deriving DecidableEq

def Line.loopMark? : Line → Option LoopMark
  | .label (.inBody (.loopStart n) path) => some (.start n path)
  | .label (.inBody (.loopEnd n) path) => some (.stop n path)
  | .branch (.inBody (.loopEnd n) path) => some (.leave n path)
  | _ => none

def loopMarks (lines : List Line) : List LoopMark := lines.filterMap Line.loopMark?

/-- A place in a copy of a body: the calls that were replaced by bodies around it, and the loops around it
in its own copy, the innermost first. -/
structure Spot where
  path : List Nat
  loops : List Nat

/-- The place outside of all loops of a body that stands in place of no call. -/
def Spot.outer : Spot := ⟨[], []⟩

/-- The marks of a piece of a program at a place. -/
inductive Laid (p : Program) : Spot → Piece → List LoopMark → Prop
  | plain {spot e marks} (hcall : e.isCall = false) (hparts : Laid p spot (.exprs e.parts) marks) :
      Laid p spot (.expr e) marks
  /-- A body in place of a call is a copy of its own. -/
  | inlined {spot span f name site args marks marks'} {callee : Function}
      (hcallee : p.functions[f]? = some callee) (hinline : callee.inline = true)
      (hargs : Laid p spot (.exprs args) marks)
      (hbody : Laid p ⟨spot.path ++ [site], []⟩ (.block callee.body) marks') :
      Laid p spot (.expr (.call span f name site args)) (marks ++ marks')
  | called {spot span f name site args marks} {callee : Function}
      (hcallee : p.functions[f]? = some callee) (hinline : callee.inline = false)
      (hargs : Laid p spot (.exprs args) marks) :
      Laid p spot (.expr (.call span f name site args)) marks
  | nil {spot} : Laid p spot (.exprs []) []
  | cons {spot e rest marks marks'} (he : Laid p spot (.expr e) marks)
      (hrest : Laid p spot (.exprs rest) marks') : Laid p spot (.exprs (e :: rest)) (marks ++ marks')
  | stmt {spot s marks marks'} (hplain : s.isPlain = true) (hparts : Laid p spot (.exprs s.parts) marks)
      (hinner : Laid p spot (.block s.inner) marks') : Laid p spot (.stmt s) (marks ++ marks')
  | constDecl {spot span name value} : Laid p spot (.stmt (.constDecl span name value)) []
  | loop {spot span label test body marks marks'} (htest : Laid p spot (.expr test) marks)
      (hbody : Laid p ⟨spot.path, label :: spot.loops⟩ (.block body) marks') :
      Laid p spot (.stmt (.loop span label test body))
        ([.start label spot.path] ++ marks ++ marks' ++ [.stop label spot.path])
  /-- A break goes to the end of the innermost loop around it. -/
  | breakLoop {spot span n outer} (hloops : spot.loops = n :: outer) :
      Laid p spot (.stmt (.breakLoop span)) [.leave n spot.path]
  | blockNil {spot} : Laid p spot (.block []) []
  | blockCons {spot s rest marks marks'} (hs : Laid p spot (.stmt s) marks)
      (hrest : Laid p spot (.block rest) marks') : Laid p spot (.block (s :: rest)) (marks ++ marks')

/-- The marks of a program: those of the global declarations, of the functions that are called, one behind
another, and of the entry point. -/
def ProgramLaid (p : Program) (marks : List LoopMark) : Prop :=
  ∃ globals subroutines body entry, p.functions[p.entry]? = some entry ∧
    Laid p .outer (.block p.globals) globals ∧
    List.Forall₂ (fun f marks => Laid p .outer (.block f.body) marks)
      (p.functions.filter fun f => !(f.inline || f.isEntry)) subroutines ∧
    Laid p .outer (.block entry.body) body ∧ marks = globals ++ subroutines.flatten ++ body

/-! ### Lines without marks -/

section Marks

variable {p : Program}

@[simp] theorem loopMarks_append (ls ls' : List Line) :
    loopMarks (ls ++ ls') = loopMarks ls ++ loopMarks ls' :=
  filterMap_append

@[simp] theorem loopMarks_storeLines (slots : List Nat) : loopMarks (storeLines slots) = [] := by
  simp [loopMarks, storeLines, Line.loopMark?]

@[simp] theorem loopMarks_replicate_pop (n : Nat) : loopMarks (List.replicate n .pop) = [] := by
  simp [loopMarks, Line.loopMark?]

@[simp] theorem loopMarks_poolLines (pool : Pool) : loopMarks (poolLines pool) = [] := by
  rw [poolLines, loopMarks_append]
  split <;> split <;> rfl

theorem loopMarks_choiceLines (c : Context) (label : Nat) (test yes no : List Line) :
    loopMarks (choiceLines c label test yes no) = loopMarks test ++ (loopMarks yes ++ loopMarks no) := by
  simp only [choiceLines, loopMarks_append]
  change loopMarks test ++ [] ++ loopMarks yes ++ [] ++ loopMarks no ++ [] = _
  simp only [append_nil, append_assoc]

theorem loopMarks_ifLines (c : Context) (label : Nat) (test yes : List Line) :
    loopMarks (ifLines c label test yes) = loopMarks test ++ loopMarks yes := by
  simp only [ifLines, loopMarks_append]
  change loopMarks test ++ [] ++ loopMarks yes ++ [] = _
  simp only [append_nil]

theorem loopMarks_ifElseLines (c : Context) (label : Nat) (test yes no : List Line) :
    loopMarks (ifElseLines c label test yes no) = loopMarks test ++ (loopMarks yes ++ loopMarks no) := by
  simp only [ifElseLines, loopMarks_append]
  change loopMarks test ++ [] ++ loopMarks yes ++ [] ++ loopMarks no ++ [] = _
  simp only [append_nil, append_assoc]

theorem loopMarks_loopLines (c : Context) (label : Nat) (test body : List Line) :
    loopMarks (loopLines c label test body) =
      [.start label c.path] ++ loopMarks test ++ loopMarks body ++ [.stop label c.path] := by
  simp only [loopLines, loopMarks_append]
  change [.start label c.path] ++ loopMarks test ++ [] ++ loopMarks body ++ [.stop label c.path] = _
  rw [append_nil]

/-- The operands of an operation are its parts, and its line tells of no loop. -/
theorem operation?_eq {e : Expr} {operands : List Expr} {line : Line}
    (h : e.operation? = some (operands, line)) :
    e.parts = operands ∧ e.isCall = false ∧ line.loopMark? = none := by
  cases Expr.operation_of_eq h <;> exact ⟨rfl, rfl, rfl⟩

end Marks

/-! ### Emitted code -/

/-- A context of emission stands for a place: it has the ends of the loops there, and no return looks like a
break. -/
structure Context.StandsFor (c : Context) (spot : Spot) : Prop where
  path : c.path = spot.path
  loopEnds : c.loopEnds = spot.loops.map fun n => .inBody (.loopEnd n) spot.path
  exit : c.exit.line.loopMark? = none

namespace Laid

variable {p : Program} {spot : Spot}

variable {marks : List LoopMark} {s : Stmt}

theorem single {e : Expr} (he : Laid p spot (.expr e) marks) : Laid p spot (.exprs [e]) marks := by
  have h : Laid p spot (.exprs [e]) (marks ++ []) := he.cons .nil
  rwa [append_nil] at h

theorem blockAppend {stmts stmts' : List Stmt} {marks' : List LoopMark}
    (h' : Laid p spot (.block stmts') marks') : ∀ {marks : List LoopMark},
      Laid p spot (.block stmts) marks → Laid p spot (.block (stmts ++ stmts')) (marks ++ marks') := by
  induction stmts with
  | nil =>
    intro marks h
    cases h
    exact h'
  | cons s rest ih =>
    intro marks h
    cases h with
    | blockCons hs hrest =>
      rw [append_assoc]
      exact .blockCons hs (ih hrest)

theorem ofValue {value : Expr} (hplain : s.isPlain = true) (hparts : s.parts = [value])
    (hinner : s.inner = []) (hvalue : Laid p spot (.expr value) marks) : Laid p spot (.stmt s) marks := by
  have hblock : Laid p spot (.block s.inner) [] := hinner ▸ .blockNil
  have h := Laid.stmt hplain (hparts ▸ hvalue.single) hblock
  rwa [append_nil] at h

theorem ofNone (hplain : s.isPlain = true) (hparts : s.parts = []) (hinner : s.inner = []) :
    Laid p spot (.stmt s) [] := by
  have hexprs : Laid p spot (.exprs s.parts) [] := hparts ▸ .nil
  have hblock : Laid p spot (.block s.inner) [] := hinner ▸ .blockNil
  exact .stmt hplain hexprs hblock

end Laid

section Code

variable {p : Program}

variable {lines : List Line}

/-- The marks of emitted code are those of the piece it is for. The induction is over the code; the place
moves with the context into loops and into bodies. -/
theorem laid_of_code {c : Context} {piece : Piece} (h : Code p c piece lines) :
    ∀ {spot : Spot}, c.StandsFor spot → Laid p spot piece (loopMarks lines) := by
  induction h with
  | literal | «variable» | constant => exact fun _ => .plain rfl .nil
  | operation heq _ _ _ ih =>
    intro spot hspot
    obtain ⟨rfl, hcall, hline⟩ := operation?_eq heq
    have hnone : loopMarks [_] = [] := filterMap_cons_none hline
    rw [loopMarks_append, hnone, append_nil]
    exact .plain hcall (ih hspot)
  | group _ ih => exact fun hspot => .plain rfl (ih hspot).single
  | cast _ _ ih => exact fun hspot => .plain rfl (ih hspot).single
  | @inlined c span f site args ls slots body callee hcallee hinline _ _ _ _ iha ihb =>
    intro spot hspot
    have hinner : (c.inlined callee.name.text site).StandsFor ⟨spot.path ++ [site], []⟩ :=
      ⟨by rw [Context.inlined, hspot.path], rfl, rfl⟩
    have hend : loopMarks [.label ((c.inlined callee.name.text site).label
      (.inlineEnd callee.name.text))] = [] := rfl
    rw [loopMarks_append, loopMarks_append, loopMarks_append, loopMarks_storeLines, hend,
      append_nil, append_nil]
    exact .inlined hcallee hinline (iha hspot) (ihb hinner)
  | @called c span f site args ls slots callee hcallee hinline _ _ _ _ iha =>
    intro spot hspot
    have hcall : loopMarks [.call (.subroutine callee.name.text)] = [] := rfl
    rw [loopMarks_append, loopMarks_append, loopMarks_storeLines, hcall, append_nil, append_nil]
    exact .called hcallee hinline (iha hspot)
  | cond _ _ _ _ _ _ iht ihy ihn =>
    intro spot hspot
    rw [loopMarks_choiceLines]
    exact .plain rfl ((iht hspot).cons ((ihy hspot).cons (ihn hspot).single))
  | nil => exact fun _ => .nil
  | cons _ _ _ ihe ihr =>
    intro spot hspot
    rw [loopMarks_append]
    exact .cons (ihe hspot) (ihr hspot)
  | varDecl _ _ _ ih =>
    intro spot hspot
    rw [loopMarks_append, loopMarks_storeLines, append_nil]
    exact .ofValue rfl rfl rfl (ih hspot)
  | constDecl => exact fun _ => .constDecl
  | assign _ _ _ ih =>
    intro spot hspot
    rw [loopMarks_append, loopMarks_storeLines, append_nil]
    exact .ofValue rfl rfl rfl (ih hspot)
  | @setField c span field value ls _ _ ih =>
    intro spot hspot
    have hline : loopMarks [.innerField field] = [] := rfl
    rw [loopMarks_append, hline, append_nil]
    exact .ofValue rfl rfl rfl (ih hspot)
  | innerBegin | innerSubmit | error => exact fun _ => .ofNone rfl rfl rfl
  | ret _ _ ih =>
    intro spot hspot
    have hline : loopMarks [_] = [] := filterMap_cons_none hspot.exit
    rw [loopMarks_append, hline, append_nil]
    exact .ofValue rfl rfl rfl (ih hspot)
  | ifThen _ _ _ iht ihy =>
    intro spot hspot
    rw [loopMarks_ifLines]
    exact .stmt rfl (iht hspot).single (ihy hspot)
  | ifElse _ _ _ _ iht ihy ihn =>
    intro spot hspot
    rw [loopMarks_ifElseLines]
    exact .stmt rfl (iht hspot).single ((ihn hspot).blockAppend (ihy hspot))
  | @loop c span label test body lt lb _ _ _ iht ihb =>
    intro spot hspot
    have hbody : (c.inLoop label).StandsFor ⟨spot.path, label :: spot.loops⟩ :=
      ⟨hspot.path, by rw [Context.inLoop, Context.label, hspot.path, hspot.loopEnds]; rfl, hspot.exit⟩
    rw [loopMarks_loopLines, hspot.path]
    exact .loop (iht hspot) (ihb hbody)
  | @breakLoop c span target hloop =>
    intro spot hspot
    rw [Context.loopEnd, hspot.loopEnds, head?_map] at hloop
    obtain ⟨n, hn, rfl⟩ := Option.map_eq_some_iff.mp hloop
    obtain ⟨outer, hloops⟩ := head?_eq_some_iff.mp hn
    exact .breakLoop hloops
  | exprStmt _ ih =>
    intro spot hspot
    rw [loopMarks_append, loopMarks_replicate_pop, append_nil]
    exact .ofValue rfl rfl rfl (ih hspot)
  | blockNil => exact fun _ => .blockNil
  | blockCons _ _ ihs ihr =>
    intro spot hspot
    rw [loopMarks_append]
    exact .blockCons (ihs hspot) (ihr hspot)

theorem laid_of_subroutinesCode {fs : List Function} (h : SubroutinesCode p fs lines) : ∃ marks,
      List.Forall₂ (fun f marks => Laid p .outer (.block f.body) marks)
        (fs.filter fun f => !(f.inline || f.isEntry)) marks ∧ loopMarks lines = marks.flatten := by
  induction h with
  | nil => exact ⟨[], .nil, rfl⟩
  | skip hskip _ ih =>
    rw [filter_cons_of_neg (by rw [hskip]; simp)]
    exact ih
  | @cons f rest body ls hinline hentry hbody _ ih =>
    obtain ⟨marks, hlaid, hmarks⟩ := ih
    rw [filter_cons_of_pos (by simp [hinline, hentry])]
    refine ⟨loopMarks body :: marks, .cons (laid_of_code hbody ⟨rfl, rfl, rfl⟩) hlaid, ?_⟩
    rw [loopMarks_append, loopMarks_append, loopMarks_append, hmarks, flatten_cons]
    change [] ++ loopMarks body ++ [] ++ marks.flatten = _
    rw [nil_append, append_nil]

theorem laid_of_programCode (h : ProgramCode p lines) : ProgramLaid p (loopMarks lines) := by
  cases h with
  | mk hentry hglobals hsubroutines hbody =>
    obtain ⟨marks, hlaid, hmarks⟩ := laid_of_subroutinesCode hsubroutines
    refine ⟨_, marks, _, _, hentry, laid_of_code hglobals ⟨rfl, rfl, rfl⟩, hlaid,
      laid_of_code hbody ⟨rfl, rfl, rfl⟩, ?_⟩
    simp only [loopMarks_append, loopMarks_poolLines, hmarks]
    change [] ++ [] ++ _ ++ _ ++ _ ++ [] = _
    rw [append_nil, nil_append, nil_append]

end Code

end Teal.Assembly

namespace Teal

open Program Assembly

/-- Whatever else is wrong with the modules, the breaks that have no loop of their function around them
are reported, each once, at their places and in their order, and no other break is. If nothing fatal is
reported, the program has the breaks of the source, and wherever one of them is emitted, it is a branch to
the end of the innermost loop around it in the same copy of its body. -/
theorem breaks_leave_loops (ms : List Tree.SourceModule) (version : Nat) :
    strayReports (Program.ofModules ms version).2 =
        (Tree.strays ((items ms).flatMap Tree.Item.breaks)).map Fault.breakOutside.toDiagnostic ∧
      ∀ p ds, Program.ofModules ms version = (some p, ds) → (∀ d ∈ ds, d.isFatal = false) →
        (∀ d ∈ p.typeFaults, d.isFatal = false) →
        p.breaks = (items ms).flatMap Tree.Item.breaks ∧
          ∃ lines, p.emit = .ok lines ∧ ProgramLaid p (loopMarks lines) := by
  refine ⟨strayReports_ofModules ms version, fun p ds hbuilt hds htypes => ?_⟩
  obtain ⟨tip, hitems⟩ := itemsMirror_of_ofModules hbuilt hds
  obtain ⟨lines, hlines, hcode⟩ := emit_code (sound_of_ofModules hbuilt hds htypes)
  exact ⟨hitems.breaks_eq, lines, hlines, laid_of_programCode hcode⟩

namespace Sample

def place (n : UInt32) : Span := ⟨0, n, n⟩

/-- Two stray breaks and two others, one of them in a loop whose test has no meaning. -/
def straying : List Tree.SourceModule :=
  [⟨"main", 0, ⟨[], [function false "logic" ["txn", "gtxn", "args"]
    [.breakLoop (place 1),
      .loop .nowhere (var "missing") .nowhere
        [.ifThen .nowhere (int 1) .nowhere [.breakLoop (place 2)], .breakLoop (place 3)],
      .ifElse .nowhere (int 1) .nowhere [.ret .nowhere (int 1)] .nowhere [.breakLoop (place 4)]]]⟩,
    true⟩]

/-- An inline function with a loop, which is left by a break. -/
def counted : Tree.Item :=
  function true "counted" ["n"]
    [declare ["i"] (int 0),
      .loop .nowhere (int 1) .nowhere
        [.ifThen .nowhere (binary .eq (var "i") (var "n")) .nowhere [.breakLoop (place 1)],
          assign "i" (binary .add (var "i") (int 1))],
      .ret .nowhere (var "i")]

/-- Loops in loops, and a body with a loop that stands in place of a call in a loop. -/
def looping : List Tree.SourceModule :=
  [⟨"main", 0, ⟨[], [counted, function false "logic" ["txn", "gtxn", "args"]
    [declare ["k"] (int 0),
      .loop .nowhere (int 1) .nowhere
        [assign "k" (binary .add (var "k") (call "counted" [int 3])),
          .loop .nowhere (binary .lt (var "k") (int 5)) .nowhere [.breakLoop (place 2)],
          .ifThen .nowhere (binary .lt (int 5) (var "k")) .nowhere [.breakLoop (place 3)]],
      .ret .nowhere (var "k")]]⟩, true⟩]

/-- A program is built and checked without a report, and its lines have these marks. -/
def lays (marks : List LoopMark) : Option Program × List Diagnostic → Bool
  | (some p, []) =>
    p.typeFaults.isEmpty && (p.emit.toOption.map loopMarks == some marks)
  | _ => false

/-- The marks of the lines for `looping`: the loop of the inline function is one of its own copy. -/
def loopingMarks : List LoopMark :=
  [.start 2 [], .start 0 [3], .leave 0 [3], .stop 0 [3], .start 4 [], .leave 4 [], .stop 4 [],
    .leave 2 [], .stop 2 []]

theorem lays_looping : lays loopingMarks (Program.ofModules looping 5) = true := by decide +kernel

theorem exists_of_lays {marks : List LoopMark} {r : Option Program × List Diagnostic}
    (h : lays marks r = true) : ∃ p, r = (some p, []) ∧ p.typeFaults = [] ∧
      p.emit.toOption.map loopMarks = some marks := by
  obtain ⟨_ | p, _ | ⟨d, ds⟩⟩ := r
  · cases h
  · cases h
  · obtain ⟨htypes, hmarks⟩ := Bool.and_eq_true_iff.mp h
    exact ⟨p, rfl, List.isEmpty_iff.mp htypes, beq_iff_eq.mp hmarks⟩
  · cases h

end Sample

/-- Two breaks of one sample are reported, among other faults. Those of the other are emitted as branches
out of their own loops. -/
theorem breaks_leave_loops_sample :
    strayReports (Program.ofModules Sample.straying 5).2 =
        [Fault.breakOutside.toDiagnostic (Sample.place 1),
          Fault.breakOutside.toDiagnostic (Sample.place 4)] ∧
      ∃ p, Program.ofModules Sample.looping 5 = (some p, []) ∧ p.typeFaults = [] ∧
        p.breaks = [(Sample.place 1, 1), (Sample.place 2, 2), (Sample.place 3, 1)] ∧
        ∃ lines, p.emit = .ok lines ∧ loopMarks lines = Sample.loopingMarks ∧
          ProgramLaid p Sample.loopingMarks := by
  refine ⟨(breaks_leave_loops Sample.straying 5).1, ?_⟩
  obtain ⟨p, hbuilt, htypes, hmarks⟩ := Sample.exists_of_lays Sample.lays_looping
  obtain ⟨hbreaks, lines, hlines, hlaid⟩ :=
    (breaks_leave_loops Sample.looping 5).2 p [] hbuilt (by simp) (by simp [htypes])
  rw [hlines] at hmarks
  have hsame : loopMarks lines = Sample.loopingMarks := Option.some.inj hmarks
  exact ⟨p, hbuilt, htypes, hbreaks, lines, hlines, hsame, hsame ▸ hlaid⟩

end Teal
