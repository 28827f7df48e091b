import Teal.Proofs.Program.Sound

/-! The shape of emitted code. `Code p c piece lines` says how the lines of an expression, a statement or
a block in a context are put together from the lines of its parts, down to the bodies that stand in
place of calls; the parts come with what is known of them. Emission succeeds on every sound program, and
what it yields has this shape, so that all later results are inductions over it. -/

namespace Teal.Assembly

open List
open Program (Expr Index FieldSource Stmt Function Literal poolValue? Stores)

/-- The slots of variables, as they are seen from a scope. -/
def SlotsOf (p : Program) (scope : ScopeId) (names : List Ident) (slots : List Nat) : Prop :=
  names.map (fun name => p.scopes.kindOf? scope name.text) = slots.map fun slot => some (.variable slot)

/-- The lines that take values from the stack into slots, the topmost into the last. -/
def storeLines (slots : List Nat) : List Line := slots.reverse.map .store

/-- What lines are emitted for. -/
inductive Piece where
  | expr (e : Expr)
  | exprs (es : List Expr)
  | stmt (s : Stmt)
  | block (stmts : List Stmt)

inductive Code (p : Program) : Context → Piece → List Line → Prop
  | literal {c span value ref} (hvalue : poolValue? p.pool ref = some value) :
      Code p c (.expr (.literal span value ref)) [.literal ref]
  | variable {c span name scope slot}
      (hkind : p.scopes.kindOf? scope name = some (.variable slot)) :
      Code p c (.expr (.ident span name scope)) [.load slot]
  | constant {c span name scope ref value}
      (hkind : p.scopes.kindOf? scope name = some (.constant ref))
      (hvalue : poolValue? p.pool ref = some value) :
      Code p c (.expr (.ident span name scope)) [.literal ref]
  | operation {c e operands line ls} (heq : e.operation? = some (operands, line))
      (hpops : line.pops = operands.length) (harity : e.arity p = line.pushes)
      (hoperands : Code p c (.exprs operands) ls) : Code p c (.expr e) (ls ++ [line])
  | group {c span e ls} (he : Code p c (.expr e) ls) : Code p c (.expr (.group span e)) ls
  | cast {c span ty e ls} (he : Code p c (.expr e) ls) (hscalar : e.arity p = 1) :
      Code p c (.expr (.cast span ty e)) ls
  /-- A call in whose place the body of the function stands. -/
  | inlined {c span f site args ls slots body} {callee : Function}
      (hcallee : p.functions[f]? = some callee) (hinline : callee.inline = true)
      (hlength : args.length = callee.params.length) (hargs : Code p c (.exprs args) ls)
      (hslots : SlotsOf p callee.scope (callee.params.map (·.1)) slots)
      (hbody : Code p (c.inlined callee.name.text site) (.block callee.body) body) :
      Code p c (.expr (.call span f callee.name.text site args))
        (ls ++ storeLines slots ++ body ++
          [.label ((c.inlined callee.name.text site).label (.inlineEnd callee.name.text))])
  | called {c span f site args ls slots} {callee : Function}
      (hcallee : p.functions[f]? = some callee) (hinline : callee.inline = false)
      (hentry : callee.isEntry = false) (hlength : args.length = callee.params.length)
      (hargs : Code p c (.exprs args) ls)
      (hslots : SlotsOf p callee.scope (callee.params.map (·.1)) slots) :
      Code p c (.expr (.call span f callee.name.text site args))
        (ls ++ storeLines slots ++ [.call (.subroutine callee.name.text)])
  | cond {c span label test yes no lt ly ln} (htest : Code p c (.expr test) lt)
      (hyes : Code p c (.expr yes) ly) (hno : Code p c (.expr no) ln)
      (htestScalar : test.arity p = 1) (hyesScalar : yes.arity p = 1) (hnoScalar : no.arity p = 1) :
      Code p c (.expr (.cond span label test yes no)) (choiceLines c label lt ly ln)
  | nil {c} : Code p c (.exprs []) []
  | cons {c e rest ls ls'} (he : Code p c (.expr e) ls) (hscalar : e.arity p = 1)
      (hrest : Code p c (.exprs rest) ls') : Code p c (.exprs (e :: rest)) (ls ++ ls')
  | varDecl {c span scope names value ls slots} (hlength : names.length = value.arity p)
      (hvalue : Code p c (.expr value) ls) (hslots : SlotsOf p scope names slots) :
      Code p c (.stmt (.varDecl span scope names value)) (ls ++ storeLines slots)
  | constDecl {c span name value} : Code p c (.stmt (.constDecl span name value)) []
  | assign {c span scope targets value ls slots} (hlength : targets.length = value.arity p)
      (hvalue : Code p c (.expr value) ls) (hslots : SlotsOf p scope targets slots) :
      Code p c (.stmt (.assign span scope targets value)) (ls ++ storeLines slots)
  | setField {c span field value ls} (hvalue : Code p c (.expr value) ls)
      (hscalar : value.arity p = 1) :
      Code p c (.stmt (.setField span field value)) (ls ++ [.innerField field])
  | innerBegin {c span} : Code p c (.stmt (.innerBegin span)) [.innerBegin]
  | innerSubmit {c span} : Code p c (.stmt (.innerSubmit span)) [.innerSubmit]
  | ret {c span value ls} (hvalue : Code p c (.expr value) ls) (hscalar : value.arity p = 1) :
      Code p c (.stmt (.ret span value)) (ls ++ [c.exit.line])
  | error {c span} : Code p c (.stmt (.error span)) [.err]
  | ifThen {c span label test yes lt ly} (htest : Code p c (.expr test) lt)
      (hscalar : test.arity p = 1) (hyes : Code p c (.block yes) ly) :
      Code p c (.stmt (.ifThen span label test yes)) (ifLines c label lt ly)
  | ifElse {c span label test yes no lt ly ln} (htest : Code p c (.expr test) lt)
      (hscalar : test.arity p = 1) (hyes : Code p c (.block yes) ly) (hno : Code p c (.block no) ln) :
      Code p c (.stmt (.ifElse span label test yes no)) (ifElseLines c label lt ly ln)
  | loop {c span label test body lt lb} (htest : Code p c (.expr test) lt)
      (hscalar : test.arity p = 1)
      (hbody : Code p (c.inLoop label) (.block body) lb) :
      Code p c (.stmt (.loop span label test body)) (loopLines c label lt lb)
  | breakLoop {c span target} (hloop : c.loopEnd = some target) :
      Code p c (.stmt (.breakLoop span)) [.branch target]
  | exprStmt {c span value ls} (hvalue : Code p c (.expr value) ls) :
      Code p c (.stmt (.expr span value)) (ls ++ List.replicate (value.arity p) .pop)
  | blockNil {c} : Code p c (.block []) []
  | blockCons {c s rest ls ls'} (hs : Code p c (.stmt s) ls) (hrest : Code p c (.block rest) ls') :
      Code p c (.block (s :: rest)) (ls ++ ls')

/-- The lines of those functions of a list that are called, one behind another. -/
inductive SubroutinesCode (p : Program) : List Function → List Line → Prop
  | nil : SubroutinesCode p [] []
  | skip {f rest ls} (hskip : (f.inline || f.isEntry) = true) (hrest : SubroutinesCode p rest ls) :
      SubroutinesCode p (f :: rest) ls
  | cons {f rest body ls} (hinline : f.inline = false) (hentry : f.isEntry = false)
      (hbody : Code p (.outer .returnCall) (.block f.body) body)
      (hrest : SubroutinesCode p rest ls) :
      SubroutinesCode p (f :: rest)
        ([.branch (.subroutineEnd f.name.text), .label (.subroutine f.name.text)] ++ body ++
          [.label (.subroutineEnd f.name.text)] ++ ls)

inductive ProgramCode (p : Program) : List Line → Prop
  | mk {globals subroutines body : List Line} {entry : Function}
      (hentry : p.functions[p.entry]? = some entry)
      (hglobals : Code p (.outer .finish) (.block p.globals) globals)
      (hsubroutines : SubroutinesCode p p.functions subroutines)
      (hbody : Code p (.outer .finish) (.block entry.body) body) :
      ProgramCode p ([.version p.version] ++ poolLines p.pool ++ globals ++ subroutines ++ body ++
        [.label .programEnd])

/-! ### Stores -/

section Stores

variable {p : Program} {scope : ScopeId} {names : List Ident} {slots : List Nat}

variable (h : SlotsOf p scope names slots)

include h

theorem SlotsOf.length_eq : slots.length = names.length := by
  have hlength := congrArg List.length h
  rw [length_map, length_map] at hlength
  exact hlength.symm

theorem SlotsOf.reverse : SlotsOf p scope names.reverse slots.reverse := by
  unfold SlotsOf
  rw [map_reverse, map_reverse, h]

theorem mapM_slot :
    names.mapM (fun name => do return .store (← slot p scope name.text)) =
      (.ok (slots.map .store) : Emitted) := by
  induction names generalizing slots with
  | nil =>
    obtain rfl : slots = [] := map_eq_nil_iff.mp h.symm
    rfl
  | cons name rest ih =>
    cases slots with
    | nil => cases h
    | cons s slots =>
      rw [SlotsOf, map_cons, map_cons, List.cons.injEq] at h
      have hslot : slot p scope name.text = .ok s := by
        rw [slot, h.1]
      rw [mapM_cons, ih h.2, hslot]
      rfl

theorem storeNames_eq : storeNames p scope names = .ok (storeLines slots) :=
  mapM_slot h.reverse

omit h

theorem exists_slotsOf (h : Stores p scope names) : ∃ slots, SlotsOf p scope names slots := by
  induction names with
  | nil => exact ⟨[], rfl⟩
  | cons name rest ih =>
    obtain ⟨slot, hslot⟩ := h name mem_cons_self
    obtain ⟨slots, hslots⟩ := ih fun x hx => h x (mem_cons_of_mem _ hx)
    refine ⟨slot :: slots, ?_⟩
    rw [SlotsOf, map_cons, map_cons, hslot, hslots]

end Stores

/-! ### Expressions -/

section Exprs

variable {p : Program} {expand : Nat → Context → Emitted} {c : Context}

variable {e : Expr} {ls : List Line} {span : Span} {bound : Nat}

theorem exprsLines_cons {rest : List Expr} {ls' : List Line} (he : exprLines p expand c e = .ok ls)
    (hrest : exprsLines p expand c rest = .ok ls') : exprsLines p expand c (e :: rest) = .ok (ls ++ ls') := by
  rw [exprsLines, he, hrest]
  rfl

theorem exprsLines_singleton (e : Expr) : exprsLines p expand c [e] = exprLines p expand c e := by
  rw [exprsLines, exprsLines]
  cases exprLines p expand c e with
  | error f => rfl
  | ok ls =>
    change Except.ok (ls ++ []) = _
    rw [append_nil]

theorem exprsLines_append (es es' : List Expr) :
    exprsLines p expand c (es ++ es') =
      do return (← exprsLines p expand c es) ++ (← exprsLines p expand c es') := by
  induction es with
  | nil =>
    rw [nil_append, exprsLines]
    cases exprsLines p expand c es' <;> rfl
  | cons e rest ih =>
    rw [cons_append, exprsLines, exprsLines, ih]
    cases exprLines p expand c e with
    | error f => rfl
    | ok ls =>
      cases exprsLines p expand c rest with
      | error f => rfl
      | ok ls' =>
        cases exprsLines p expand c es' with
        | error f => rfl
        | ok ls'' =>
          change Except.ok (ls ++ (ls' ++ ls'')) = Except.ok (ls ++ ls' ++ ls'')
          rw [append_assoc]

theorem indexLines_eq (i : Index) : indexLines p expand c i = exprsLines p expand c i.exprs := by
  cases i with
  | const n => rw [indexLines, Index.exprs, exprsLines]
  | dynamic e => rw [indexLines, Index.exprs, exprsLines_singleton]

theorem sourceLines_eq (source : FieldSource) :
    sourceLines p expand c source = exprsLines p expand c source.exprs := by
  cases source with
  | gtxn i => rw [sourceLines, FieldSource.exprs, indexLines_eq]
  | txn | global | itxn => rw [sourceLines, FieldSource.exprs, exprsLines]

theorem append_line {x y : Emitted} (line : Line)
    (h : (do return (← x) ++ (← y)) = (.ok ls : Emitted)) :
    (do return (← x) ++ (← y) ++ [line]) = (.ok (ls ++ [line]) : Emitted) := by
  cases x with
  | error f => cases h
  | ok a =>
    cases y with
    | error f => cases h
    | ok b =>
      cases h
      rfl

/-- The lines of an operation are those of its operands and then its own line. -/
theorem exprLines_operation {operands : List Expr} {line : Line}
    (heq : e.operation? = some (operands, line)) (h : exprsLines p expand c operands = .ok ls) :
    exprLines p expand c e = .ok (ls ++ [line]) := by
  cases Expr.operation_of_eq heq with
  | unary | args =>
    rw [exprsLines_singleton] at h
    rw [exprLines, h]
    rfl
  | binary =>
    rw [← singleton_append, exprsLines_append, exprsLines_singleton, exprsLines_singleton] at h
    rw [exprLines]
    exact append_line _ h
  | builtin =>
    rw [exprLines, h]
    rfl
  | field =>
    rw [exprLines, sourceLines_eq, h]
    rfl
  | fieldAt hop =>
    rw [exprsLines_append] at h
    rw [exprLines, hop, sourceLines_eq, indexLines_eq]
    exact append_line _ h
  | arg =>
    cases h
    rw [exprLines]
    rfl

/-- The bodies that may stand in place of a call are emitted. -/
def Expands (p : Program) (bound : Nat) (expand : Nat → Context → Emitted) : Prop :=
  ∀ {f : Nat} {callee : Function} (c : Context), f < bound → p.functions[f]? = some callee →
    ∃ body, expand f c = .ok body ∧ Code p c (.block callee.body) body

theorem loadName_code {scope : ScopeId} {name : String} (h : p.Loads scope name) :
    ∃ ls, loadName p scope name = .ok ls ∧ Code p c (.expr (.ident span name scope)) ls := by
  rcases h with ⟨slot, hkind⟩ | ⟨ref, value, hkind, hvalue⟩
  · exact ⟨[.load slot], by rw [loadName, hkind], .variable hkind⟩
  · exact ⟨[.literal ref], by rw [loadName, hkind], .constant hkind hvalue⟩

theorem exprs_code {es : List Expr}
    (h : ∀ e ∈ es, ∃ ls, exprLines p expand c e = .ok ls ∧ Code p c (.expr e) ls)
    (hscalar : ∀ e ∈ es, e.arity p = 1) :
    ∃ ls, exprsLines p expand c es = .ok ls ∧ Code p c (.exprs es) ls := by
  induction es with
  | nil => exact ⟨[], by rw [exprsLines]; rfl, .nil⟩
  | cons e rest ih =>
    obtain ⟨ls, hls, hcode⟩ := h e mem_cons_self
    obtain ⟨ls', hls', hcode'⟩ := ih (fun x hx => h x (mem_cons_of_mem _ hx))
      fun x hx => hscalar x (mem_cons_of_mem _ hx)
    exact ⟨ls ++ ls', exprsLines_cons hls hls',
      .cons hcode (hscalar e mem_cons_self) hcode'⟩

/-- A call is emitted if its arguments are and, for an inline function, the body is. -/
theorem call_code (hp : p.Sound) (hexpand : Expands p bound expand) {f : Nat} {callee : Function}
    (hbound : f < bound) (hcallee : p.functions[f]? = some callee) (hentry : callee.isEntry = false)
    (site : Nat) {args : List Expr} (hlength : args.length = callee.params.length)
    (hargs : Code p c (.exprs args) ls) :
    ∃ lines, callLines p expand c f callee.name.text site ls = .ok lines ∧
      Code p c (.expr (.call span f callee.name.text site args)) lines := by
  obtain ⟨slots, hslots⟩ :=
    exists_slotsOf (hp.params callee (mem_of_getElem? hcallee) hentry).2
  unfold callLines
  rw [hcallee]
  cases hinline : callee.inline with
  | true =>
    obtain ⟨body, hbody, hcode⟩ := hexpand (c.inlined callee.name.text site) hbound hcallee
    refine ⟨_, ?_, .inlined hcallee hinline hlength hargs hslots hcode⟩
    simp only [storeNames_eq hslots, hinline, hbody, if_true]
    rfl
  | false =>
    refine ⟨_, ?_, .called hcallee hinline hentry hlength hargs hslots⟩
    simp only [storeNames_eq hslots, hinline, Bool.false_eq_true, if_false]
    rfl

theorem expr_code (hp : p.Sound) (hexpand : Expands p bound expand) (he : e.Sound p bound) :
    ∃ ls, exprLines p expand c e = .ok ls ∧ Code p c (.expr e) ls := by
  induction he with
  | literal hvalue => exact ⟨_, by rw [exprLines]; rfl, .literal hvalue⟩
  | ident _ hloads =>
    rw [exprLines]
    exact loadName_code hloads
  | operation heq hpops harity _ hscalar ih =>
    obtain ⟨ls, hls, hcode⟩ := exprs_code ih hscalar
    exact ⟨_, exprLines_operation heq hls, .operation heq hpops harity hcode⟩
  | group _ ih =>
    obtain ⟨ls, hls, hcode⟩ := ih
    exact ⟨ls, by rw [exprLines, hls], .group hcode⟩
  | cast _ hscalar ih =>
    obtain ⟨ls, hls, hcode⟩ := ih
    exact ⟨ls, by rw [exprLines, hls], .cast hcode hscalar⟩
  | @call span f name site args callee hbound hcallee hname hentry hlength _ hscalar ih =>
    obtain ⟨ls, hls, hcode⟩ := exprs_code ih hscalar
    rw [exprLines, hls, ← hname]
    exact call_code hp hexpand hbound hcallee hentry site hlength hcode
  | cond _ _ _ htest hyes hno iht ihy ihn =>
    obtain ⟨lt, hlt, htcode⟩ := iht
    obtain ⟨ly, hly, hycode⟩ := ihy
    obtain ⟨ln, hln, hncode⟩ := ihn
    refine ⟨_, ?_, .cond htcode hycode hncode htest hyes hno⟩
    rw [exprLines, hlt, hly, hln]
    rfl

end Exprs

/-! ### Statements -/

section Stmts

variable {p : Program} {expand : Nat → Context → Emitted}

theorem block_code {c : Context} {stmts : List Stmt}
    (h : ∀ s ∈ stmts, ∃ ls, stmtLines p expand c s = .ok ls ∧ Code p c (.stmt s) ls) :
    ∃ ls, blockLines p expand c stmts = .ok ls ∧ Code p c (.block stmts) ls := by
  induction stmts with
  | nil => exact ⟨[], by rw [blockLines]; rfl, .blockNil⟩
  | cons s rest ih =>
    obtain ⟨ls, hls, hcode⟩ := h s mem_cons_self
    obtain ⟨ls', hls', hcode'⟩ := ih fun x hx => h x (mem_cons_of_mem _ hx)
    refine ⟨ls ++ ls', ?_, .blockCons hcode hcode'⟩
    rw [blockLines, hls, hls']
    rfl

theorem stmt_code (hp : p.Sound) {bound : Nat} (hexpand : Expands p bound expand) {loops : Nat}
    {s : Stmt} (hs : s.Sound p bound loops) : ∀ (c : Context),
    (0 < loops → c.loopEnd.isSome = true) →
      ∃ ls, stmtLines p expand c s = .ok ls ∧ Code p c (.stmt s) ls := by
  induction hs with
  | varDecl _ hstores hlength hvalue =>
    intro c _
    obtain ⟨ls, hls, hcode⟩ := expr_code hp hexpand hvalue
    obtain ⟨slots, hslots⟩ := exists_slotsOf hstores
    refine ⟨_, ?_, .varDecl hlength hcode hslots⟩
    rw [stmtLines, hls, storeNames_eq hslots]
    rfl
  | constDecl => exact fun c _ => ⟨[], by rw [stmtLines]; rfl, .constDecl⟩
  | assign _ hstores hlength hvalue =>
    intro c _
    obtain ⟨ls, hls, hcode⟩ := expr_code hp hexpand hvalue
    obtain ⟨slots, hslots⟩ := exists_slotsOf hstores
    refine ⟨_, ?_, .assign hlength hcode hslots⟩
    rw [stmtLines, hls, storeNames_eq hslots]
    rfl
  | setField hvalue hscalar =>
    intro c _
    obtain ⟨ls, hls, hcode⟩ := expr_code hp hexpand hvalue
    exact ⟨_, by rw [stmtLines, hls]; rfl, .setField hcode hscalar⟩
  | innerBegin => exact fun c _ => ⟨_, by rw [stmtLines]; rfl, .innerBegin⟩
  | innerSubmit => exact fun c _ => ⟨_, by rw [stmtLines]; rfl, .innerSubmit⟩
  | ret hvalue hscalar =>
    intro c _
    obtain ⟨ls, hls, hcode⟩ := expr_code hp hexpand hvalue
    exact ⟨_, by rw [stmtLines, hls]; rfl, .ret hcode hscalar⟩
  | error => exact fun c _ => ⟨_, by rw [stmtLines]; rfl, .error⟩
  | ifThen htest hscalar _ ihy =>
    intro c hloop
    obtain ⟨lt, hlt, htcode⟩ := expr_code hp hexpand htest
    obtain ⟨ly, hly, hycode⟩ := block_code fun s hs => ihy s hs c hloop
    refine ⟨_, ?_, .ifThen htcode hscalar hycode⟩
    rw [stmtLines, hlt, hly]
    rfl
  | ifElse htest hscalar _ _ ihy ihn =>
    intro c hloop
    obtain ⟨lt, hlt, htcode⟩ := expr_code hp hexpand htest
    obtain ⟨ly, hly, hycode⟩ := block_code fun s hs => ihy s hs c hloop
    obtain ⟨ln, hln, hncode⟩ := block_code fun s hs => ihn s hs c hloop
    refine ⟨_, ?_, .ifElse htcode hscalar hycode hncode⟩
    rw [stmtLines, hlt, hly, hln]
    rfl
  | @loop _ span label _ body htest hscalar _ ih =>
    intro c _
    obtain ⟨lt, hlt, htcode⟩ := expr_code hp hexpand htest
    obtain ⟨lb, hlb, hbcode⟩ := block_code fun s hs =>
      ih s hs (c.inLoop label) fun _ => rfl
    refine ⟨_, ?_, .loop htcode hscalar hbcode⟩
    rw [stmtLines, hlt, hlb]
    rfl
  | breakLoop =>
    intro c hloop
    obtain ⟨target, htarget⟩ := Option.isSome_iff_exists.mp (hloop (Nat.succ_pos _))
    refine ⟨[.branch target], ?_, .breakLoop htarget⟩
    rw [stmtLines, htarget]
    rfl
  | expr hvalue =>
    intro c _
    obtain ⟨ls, hls, hcode⟩ := expr_code hp hexpand hvalue
    exact ⟨_, by rw [stmtLines, hls]; rfl, .exprStmt hcode⟩

/-- Every body is emitted with the bodies before it. The induction is on the bound: the body of a
function is expanded with the functions before it only. -/
theorem bodyBelow_expands (hp : p.Sound) (bound : Nat) : Expands p bound (bodyBelow p bound) := by
  induction bound with
  | zero => exact fun _ hlt => absurd hlt (Nat.not_lt_zero _)
  | succ n ih =>
    intro f callee c hlt hcallee
    rw [bodyBelow]
    by_cases hf : f = n
    · subst hf
      rw [if_pos rfl, hcallee]
      exact block_code fun s hs => stmt_code hp ih (hp.soundBodies hcallee s hs) c (by simp)
    · rw [if_neg hf]
      exact ih c (Nat.lt_of_le_of_ne (Nat.lt_succ_iff.mp hlt) hf) hcallee

theorem topLines_code (hp : p.Sound) (exit : Exit) {bound : Nat} {stmts : List Stmt}
    (hbound : bound ≤ p.functions.length) (h : ∀ s ∈ stmts, s.Sound p bound 0) :
    ∃ ls, topLines p exit stmts = .ok ls ∧ Code p (.outer exit) (.block stmts) ls := by
  have hexpand : Expands p bound (bodyBelow p p.functions.length) :=
    fun c hlt hcallee => bodyBelow_expands hp _ c (Nat.lt_of_lt_of_le hlt hbound) hcallee
  exact block_code fun s hs => stmt_code hp hexpand (h s hs) _ (by simp)

/-! ### Programs -/

theorem body_code (hp : p.Sound) (exit : Exit) {f : Function} (hf : f ∈ p.functions) :
    ∃ ls, topLines p exit f.body = .ok ls ∧ Code p (.outer exit) (.block f.body) ls := by
  obtain ⟨i, hi⟩ := mem_iff_getElem?.mp hf
  have hlt := (List.getElem?_eq_some_iff.mp hi).1
  exact topLines_code hp exit (Nat.le_of_lt hlt) (hp.soundBodies hi)

theorem subroutines_code (hp : p.Sound) {fs : List Function} (hfs : ∀ f ∈ fs, f ∈ p.functions) :
    ∃ ls, subroutinesLines p fs = .ok ls ∧ SubroutinesCode p fs ls := by
  induction fs with
  | nil => exact ⟨[], rfl, .nil⟩
  | cons f rest ih =>
    obtain ⟨ls, hls, hcode⟩ := ih fun x hx => hfs x (mem_cons_of_mem _ hx)
    rw [subroutinesLines]
    by_cases hskip : (f.inline || f.isEntry) = true
    · rw [if_pos hskip]
      exact ⟨ls, hls, .skip hskip hcode⟩
    · rw [if_neg hskip]
      obtain ⟨body, hbody, hbcode⟩ := body_code hp .returnCall (hfs f mem_cons_self)
      have hnot := Bool.or_eq_false_iff.mp (Bool.eq_false_iff.mpr hskip)
      refine ⟨_, ?_, .cons hnot.1 hnot.2 hbcode hcode⟩
      rw [subroutineLines, hbody, hls]
      rfl

end Stmts

/-- Every sound program is emitted, and its code has the shape of a program's. -/
theorem emit_code {p : Program} (hp : p.Sound) : ∃ lines, p.emit = .ok lines ∧ ProgramCode p lines := by
  obtain ⟨globals, hglobals, hgcode⟩ :=
    topLines_code hp .finish .refl hp.soundGlobals
  obtain ⟨subroutines, hsubroutines, hscode⟩ := subroutines_code hp fun f hf => hf
  obtain ⟨entry, hentry, _⟩ := hp.entry
  obtain ⟨body, hbody, hbcode⟩ := body_code hp .finish (mem_of_getElem? hentry)
  refine ⟨_, ?_, .mk hentry hgcode hscode hbcode⟩
  simp only [Program.emit, hglobals, hsubroutines, hentry, hbody]
  rfl

/-! ### Single lines -/

section Lines

variable {p : Program} {P : Line → Prop} {ls : List Line}

def Piece.Resolved (p : Program) : Piece → Prop
  | .expr e => ∃ bound, e.Resolved p bound
  | .exprs es => ∀ e ∈ es, ∃ bound, e.Resolved p bound
  | .stmt s => ∃ bound loops, s.Resolved p bound loops
  | .block stmts => ∀ s ∈ stmts, ∃ bound loops, s.Resolved p bound loops

theorem body_resolved (hp : p.WellBuilt) {f : Function} (hf : f ∈ p.functions) :
    (Piece.block f.body).Resolved p := by
  obtain ⟨i, hi⟩ := mem_iff_getElem?.mp hf
  exact fun s hs => ⟨i, 0, hp.bodies hi s hs⟩

theorem operands_resolved {bound : Nat} {e : Expr} {operands : List Expr} {line : Line}
    (he : e.Resolved p bound) (heq : e.operation? = some (operands, line)) :
    ∀ o ∈ operands, o.Resolved p bound := by
  cases Expr.operation_of_eq heq with
  | unary =>
    cases he with
    | unary he => exact forall_mem_singleton.mpr he
  | binary =>
    cases he with
    | binary hl hr => exact forall_mem_cons.mpr ⟨hl, forall_mem_singleton.mpr hr⟩
  | builtin =>
    cases he with
    | builtin _ _ hargs => exact hargs
  | field =>
    cases he with
    | field _ _ _ hsource => exact hsource
  | fieldAt =>
    cases he with
    | fieldAt _ _ _ _ _ _ hsource hindex => exact forall_mem_append.mpr ⟨hsource, hindex⟩
  | arg | args =>
    cases he with
    | arg _ hindex => exact hindex

/-- Lines that refer to nothing and that every version knows. -/
def Line.isBare : Line → Bool
  | .version _ | .intBlock _ | .byteBlock _ | .label _ | .pop | .branch _ | .branchZero _ | .finish
  | .err => true
  | _ => false

/-- Every line of a program has a property, as the nodes that the lines stand for are resolved. -/
structure Rule (p : Program) (P : Line → Prop) : Prop where
  bare {line : Line} (h : line.isBare = true) : P line
  literal {ref value} (h : poolValue? p.pool ref = some value) : P (.literal ref)
  slot {scope name slot} (h : p.scopes.kindOf? scope name = some (.variable slot)) :
    P (.load slot) ∧ P (.store slot)
  operation {bound operands line} {e : Expr} (he : e.Resolved p bound)
    (heq : e.operation? = some (operands, line)) : P line
  innerField {f : Field} (hknows : Field.Table.txn.Knows p.version f.name) (h : 5 ≤ p.version) :
    P (.innerField f)
  inner (h : 5 ≤ p.version) : P .innerBegin ∧ P .innerSubmit
  subroutine (h : 4 ≤ p.version) : P .returnCall ∧ ∀ l, P (.call l)

namespace Rule

variable (hP : Rule p P)

include hP

theorem bares (h : ls.all (·.isBare) = true) : ∀ line ∈ ls, P line :=
  fun line hline => hP.bare (all_eq_true.mp h line hline)

theorem storeLines {scope : ScopeId} {names : List Ident} {slots : List Nat}
    (h : SlotsOf p scope names slots) : ∀ line ∈ storeLines slots, P line := by
  intro line hline
  obtain ⟨slot, hslot, rfl⟩ := mem_map.mp hline
  have hmem := mem_map_of_mem (f := fun slot => some (Symbol.Kind.variable slot))
    (mem_reverse.mp hslot)
  rw [← h] at hmem
  obtain ⟨name, _, hkind⟩ := mem_map.mp hmem
  exact (hP.slot hkind).2

/-- The lines of a piece. A call of a subroutine is only built where there are subroutines, and so is a body
that returns to its caller. -/
theorem code (hp : p.WellBuilt) {c : Context} {piece : Piece} (h : Code p c piece ls)
    (hpiece : piece.Resolved p) (hexit : c.exit = .returnCall → 4 ≤ p.version) : ∀ line ∈ ls, P line := by
  induction h with
  | literal hvalue => exact forall_mem_singleton.mpr (hP.literal hvalue)
  | «variable» hkind => exact forall_mem_singleton.mpr (hP.slot hkind).1
  | constant _ hvalue => exact forall_mem_singleton.mpr (hP.literal hvalue)
  | operation heq _ _ _ ih =>
    obtain ⟨bound, he⟩ := hpiece
    rw [forall_mem_append, forall_mem_singleton]
    exact ⟨ih (fun o ho => ⟨bound, operands_resolved he heq o ho⟩) hexit, hP.operation he heq⟩
  | group _ ih =>
    obtain ⟨bound, he⟩ := hpiece
    cases he with
    | group he => exact ih ⟨bound, he⟩ hexit
  | cast _ _ ih =>
    obtain ⟨bound, he⟩ := hpiece
    cases he with
    | cast _ he => exact ih ⟨bound, he⟩ hexit
  | inlined hcallee _ _ _ hslots _ ihargs ihbody =>
    obtain ⟨bound, he⟩ := hpiece
    cases he with
    | call _ _ _ _ _ hargs =>
      simp only [forall_mem_append]
      exact ⟨⟨⟨ihargs (fun e he => ⟨bound, hargs e he⟩) hexit, hP.storeLines hslots⟩,
        ihbody (body_resolved hp (mem_of_getElem? hcallee)) nofun⟩, hP.bares rfl⟩
  | called hcallee hinline hentry _ _ hslots ihargs =>
    obtain ⟨bound, he⟩ := hpiece
    cases he with
    | call _ _ _ _ _ hargs =>
      have hversion := hp.subroutines _ (mem_of_getElem? hcallee) hentry hinline
      simp only [forall_mem_append, forall_mem_singleton]
      exact ⟨⟨ihargs (fun e he => ⟨bound, hargs e he⟩) hexit, hP.storeLines hslots⟩,
        (hP.subroutine hversion).2 _⟩
  | cond _ _ _ _ _ _ iht ihy ihn =>
    obtain ⟨bound, he⟩ := hpiece
    cases he with
    | cond htest hyes hno =>
      simp only [choiceLines, forall_mem_append]
      exact ⟨⟨⟨⟨⟨iht ⟨bound, htest⟩ hexit, hP.bares rfl⟩, ihy ⟨bound, hyes⟩ hexit⟩, hP.bares rfl⟩,
        ihn ⟨bound, hno⟩ hexit⟩, hP.bares rfl⟩
  | nil | constDecl | blockNil => exact forall_mem_nil _
  | cons _ _ _ ihe ihrest =>
    obtain ⟨he, hrest⟩ := forall_mem_cons.mp hpiece
    exact forall_mem_append.mpr ⟨ihe he hexit, ihrest hrest hexit⟩
  | varDecl _ _ hslots ih =>
    obtain ⟨bound, loops, hs⟩ := hpiece
    cases hs with
    | varDecl _ _ _ hvalue =>
      exact forall_mem_append.mpr ⟨ih ⟨bound, hvalue⟩ hexit, hP.storeLines hslots⟩
  | assign _ _ hslots ih =>
    obtain ⟨bound, loops, hs⟩ := hpiece
    cases hs with
    | assign _ _ _ hvalue =>
      exact forall_mem_append.mpr ⟨ih ⟨bound, hvalue⟩ hexit, hP.storeLines hslots⟩
  | setField _ _ ih =>
    obtain ⟨bound, loops, hs⟩ := hpiece
    cases hs with
    | setField hknows hversion hvalue =>
      rw [forall_mem_append, forall_mem_singleton]
      exact ⟨ih ⟨bound, hvalue⟩ hexit, hP.innerField hknows hversion⟩
  | innerBegin =>
    obtain ⟨bound, loops, hs⟩ := hpiece
    cases hs with
    | innerBegin hversion => exact forall_mem_singleton.mpr (hP.inner hversion).1
  | innerSubmit =>
    obtain ⟨bound, loops, hs⟩ := hpiece
    cases hs with
    | innerSubmit hversion => exact forall_mem_singleton.mpr (hP.inner hversion).2
  | @ret c _ _ _ _ _ ih =>
    obtain ⟨bound, loops, hs⟩ := hpiece
    cases hs with
    | ret hvalue =>
      rw [forall_mem_append, forall_mem_singleton]
      refine ⟨ih ⟨bound, hvalue⟩ hexit, ?_⟩
      cases hc : c.exit with
      | returnCall => exact (hP.subroutine (hexit hc)).1
      | finish | jump target => exact hP.bare rfl
  | error | breakLoop => exact hP.bares rfl
  | ifThen _ _ _ iht ihy =>
    obtain ⟨bound, loops, hs⟩ := hpiece
    cases hs with
    | ifThen htest hyes =>
      simp only [ifLines, forall_mem_append]
      exact ⟨⟨⟨iht ⟨bound, htest⟩ hexit, hP.bares rfl⟩,
        ihy (fun s hs => ⟨bound, loops, hyes s hs⟩) hexit⟩, hP.bares rfl⟩
  | ifElse _ _ _ _ iht ihy ihn =>
    obtain ⟨bound, loops, hs⟩ := hpiece
    cases hs with
    | ifElse htest hyes hno =>
      simp only [ifElseLines, forall_mem_append]
      exact ⟨⟨⟨⟨⟨iht ⟨bound, htest⟩ hexit, hP.bares rfl⟩,
        ihy (fun s hs => ⟨bound, loops, hyes s hs⟩) hexit⟩, hP.bares rfl⟩,
        ihn (fun s hs => ⟨bound, loops, hno s hs⟩) hexit⟩, hP.bares rfl⟩
  | loop _ _ _ iht ihb =>
    obtain ⟨bound, loops, hs⟩ := hpiece
    cases hs with
    | loop htest hbody =>
      simp only [loopLines, forall_mem_append]
      exact ⟨⟨⟨⟨hP.bares rfl, iht ⟨bound, htest⟩ hexit⟩, hP.bares rfl⟩,
        ihb (fun s hs => ⟨bound, loops + 1, hbody s hs⟩) hexit⟩, hP.bares rfl⟩
  | exprStmt _ ih =>
    obtain ⟨bound, loops, hs⟩ := hpiece
    cases hs with
    | expr hvalue =>
      refine forall_mem_append.mpr ⟨ih ⟨bound, hvalue⟩ hexit, fun line hline => ?_⟩
      rw [eq_of_mem_replicate hline]
      exact hP.bare rfl
  | blockCons _ _ ihs ihrest =>
    obtain ⟨hs, hrest⟩ := forall_mem_cons.mp hpiece
    exact forall_mem_append.mpr ⟨ihs hs hexit, ihrest hrest hexit⟩

theorem subroutines (hp : p.WellBuilt) {fs : List Function} (h : SubroutinesCode p fs ls)
    (hfs : ∀ f ∈ fs, f ∈ p.functions) : ∀ line ∈ ls, P line := by
  induction h with
  | nil => exact forall_mem_nil _
  | skip _ _ ih => exact ih fun f hf => hfs f (mem_cons_of_mem _ hf)
  | @cons f _ _ _ hinline hentry hbody _ ih =>
    have hf := hfs f mem_cons_self
    have hlines := hP.code hp hbody (body_resolved hp hf) fun _ => hp.subroutines f hf hentry hinline
    simp only [forall_mem_append]
    exact ⟨⟨⟨hP.bares rfl, hlines⟩, hP.bares rfl⟩, ih fun f hf => hfs f (mem_cons_of_mem _ hf)⟩

theorem program (hp : p.WellBuilt) (h : ProgramCode p ls) : ∀ line ∈ ls, P line := by
  have hpool : ∀ line ∈ poolLines p.pool, P line := by
    intro line hline
    rcases mem_append.mp hline with hline | hline
    all_goals
      split at hline
      · cases hline
      · rw [mem_singleton.mp hline]
        exact hP.bare rfl
  cases h with
  | mk hentry hglobals hsubroutines hbody =>
    have hbelow : (Piece.block p.globals).Resolved p := fun s hs => ⟨_, 0, hp.globals s hs⟩
    have hmain := body_resolved hp (mem_of_getElem? hentry)
    simp only [forall_mem_append]
    exact ⟨⟨⟨⟨⟨hP.bares rfl, hpool⟩, hP.code hp hglobals hbelow nofun⟩,
      hP.subroutines hp hsubroutines fun f hf => hf⟩, hP.code hp hbody hmain nofun⟩, hP.bares rfl⟩

end Rule

end Lines

end Teal.Assembly
