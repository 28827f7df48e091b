import Teal.Proofs.Semantics.Runs

/-! Evaluation and the machine go together. From a state at the code of a piece whose slots agree with
the cells, the machine reaches a state behind the code with the values of the piece on the stack, or it
fails where the evaluation fails. -/

namespace Teal.Semantics

open Assembly List
open Program (Expr Stmt Function poolValue?)

variable {Env : Type}

/-- Where the machine is when a statement in a context is left. -/
def Completed (p : Program) (c : Context) (code : List Line) (stack : List Value)
    (calls : List (List Line)) (r : Completion × Memory Env) (s : State Env) : Prop :=
  match r.1 with
  | .next => At p r.2 code stack calls s
  | .broke => ∃ l rest, c.loopEnd = some l ∧ At p r.2 (.branch l :: rest) stack calls s
  | .returned v => ∃ rest, At p r.2 (c.exit.line :: rest) (v :: stack) calls s

/-- The machine does at the code of a piece what the evaluation of the piece does. -/
def Simulates (p : Program) (I : Interp Env) (lines : List Line) (fuel : Nat) (c : Context)
    (piece : Piece) (ls : List Line) : Prop :=
  ∀ ⦃code : List Line⦄ ⦃stack : List Value⦄ ⦃calls : List (List Line)⦄ ⦃m : Memory Env⦄
    ⦃s : State Env⦄, ls ++ code <:+ lines → At p m (ls ++ code) stack calls s →
    match piece with
    | .expr e => Sim I lines s (evalExpr p I (evalCall p I fuel) e m)
        (Valued p (e.arity p) code stack calls)
    | .exprs es => Sim I lines s (evalExprs p I (evalCall p I fuel) es m)
        (Valued p es.length code stack calls)
    | .stmt st => Sim I lines s (evalStmt p I (evalCall p I fuel) fuel st m)
        (Completed p c code stack calls)
    | .block stmts => Sim I lines s (evalBlock p I (evalCall p I fuel) fuel stmts m)
        (Completed p c code stack calls)

variable {p : Program} {I : Interp Env} {lines : List Line} {call : Calls Env}

theorem evalExprs_singleton (e : Expr) (m : Memory Env) :
    evalExprs p I call [e] m = evalExpr p I call e m := by
  rw [evalExprs]
  cases evalExpr p I call e m with
  | error stop => rfl
  | ok r =>
    change Except.ok (r.1 ++ [], r.2) = Except.ok r
    rw [append_nil]

theorem evalExprs_append (es es' : List Expr) (m : Memory Env) :
    evalExprs p I call (es ++ es') m = evalExprs p I call es m >>= fun r =>
    evalExprs p I call es' r.2 >>= fun r' => .ok (r.1 ++ r'.1, r'.2) := by
  induction es generalizing m with
  | nil =>
    change evalExprs p I call es' m = (evalExprs p I call es' m >>= _)
    cases evalExprs p I call es' m <;> rfl
  | cons e rest ih =>
    rw [cons_append, evalExprs, evalExprs]
    cases evalExpr p I call e m with
    | error stop => rfl
    | ok r =>
      change (evalExprs p I call (rest ++ es') r.2 >>= _) =
        ((evalExprs p I call rest r.2 >>= _) >>= _)
      rw [ih]
      cases evalExprs p I call rest r.2 with
      | error stop => rfl
      | ok r' =>
        change ((evalExprs p I call es' r'.2 >>= _) >>= _) = (evalExprs p I call es' r'.2 >>= _)
        cases evalExprs p I call es' r'.2 with
        | error stop => rfl
        | ok r'' =>
          change Except.ok (r.1 ++ (r'.1 ++ r''.1), r''.2) =
            Except.ok (r.1 ++ r'.1 ++ r''.1, r''.2)
          rw [append_assoc]

theorem evalIndex_eq (i : Program.Index) (m : Memory Env) :
    evalIndex p I call i m = evalExprs p I call i.exprs m := by
  cases i with
  | const n => rw [evalIndex, Program.Index.exprs, evalExprs]
  | dynamic e => rw [evalIndex, Program.Index.exprs, evalExprs_singleton]

theorem evalSource_eq (source : Program.FieldSource) (m : Memory Env) :
    evalSource p I call source m = evalExprs p I call source.exprs m := by
  cases source with
  | gtxn i => rw [evalSource, Program.FieldSource.exprs, evalIndex_eq]
  | txn | global | itxn => rw [evalSource, Program.FieldSource.exprs, evalExprs]

/-- An operation is applied to the values of its operands. -/
theorem evalExpr_operation {e : Expr} {operands : List Expr} {line : Line}
    (h : e.operation? = some (operands, line)) (m : Memory Env) :
    evalExpr p I call e m = evalExprs p I call operands m >>= fun r => applyOp I line r.1 r.2 := by
  cases Expr.operation_of_eq h with
  | unary | args => rw [evalExpr, evalExprs_singleton]
  | @binary _ _ l r =>
    rw [evalExpr, ← singleton_append, evalExprs_append, evalExprs_singleton]
    cases evalExpr p I call l m with
    | error stop => rfl
    | ok a =>
      change (evalExpr p I call r a.2 >>= _) = ((evalExprs p I call [r] a.2 >>= _) >>= _)
      rw [evalExprs_singleton]
      cases evalExpr p I call r a.2 <;> rfl
  | builtin => rw [evalExpr]
  | field => rw [evalExpr, evalSource_eq]
  | @fieldAt _ source _ i _ hop =>
    rw [evalExpr, hop, evalExprs_append, evalSource_eq]
    cases evalExprs p I call source.exprs m with
    | error stop => rfl
    | ok a =>
      change (evalIndex p I call i a.2 >>= _) = ((evalExprs p I call i.exprs a.2 >>= _) >>= _)
      rw [evalIndex_eq]
      cases evalExprs p I call i.exprs a.2 <;> rfl
  | arg =>
    rw [evalExpr, evalExprs]
    rfl

mutual

/-- Control does not go on behind a statement that terminates. -/
theorem evalStmt_ne_next {fuel : Nat} {m m' : Memory Env} (st : Stmt) (h : st.terminates = true) :
    evalStmt p I call fuel st m ≠ .ok (.next, m') := by
  intro heq
  cases st with
  | ret span value =>
    rw [evalStmt] at heq
    cases hvalue : evalExpr p I call value m with
    | error stop =>
      rw [hvalue] at heq
      cases heq
    | ok r =>
      obtain ⟨vs, m₁⟩ := r
      rw [hvalue] at heq
      cases vs with
      | nil => cases heq
      | cons v vs => cases vs <;> cases heq
  | error span =>
    rw [evalStmt] at heq
    cases heq
  | ifElse span label test yes no =>
    have hways := Bool.and_eq_true_iff.mp h
    rw [evalStmt] at heq
    cases htest : evalTest p I call test m with
    | error stop =>
      rw [htest] at heq
      cases heq
    | ok r =>
      obtain ⟨holds, m₁⟩ := r
      rw [htest] at heq
      cases holds with
      | true => exact evalBlock_ne_next yes hways.1 heq
      | false => exact evalBlock_ne_next no hways.2 heq
  | varDecl | constDecl | assign | setField | innerBegin | innerSubmit | ifThen | loop | breakLoop
  | expr => cases h

theorem evalBlock_ne_next {fuel : Nat} {m m' : Memory Env} (stmts : List Stmt)
    (h : Program.blockTerminates stmts = true) : evalBlock p I call fuel stmts m ≠ .ok (.next, m') := by
  intro heq
  cases stmts with
  | nil => cases h
  | cons st rest =>
    rw [evalBlock] at heq
    cases hst : evalStmt p I call fuel st m with
    | error stop =>
      rw [hst] at heq
      cases heq
    | ok r =>
      obtain ⟨completion, m₁⟩ := r
      rw [hst] at heq
      cases completion with
      | broke => cases heq
      | returned v => cases heq
      | next =>
        cases rest with
        | nil => exact evalStmt_ne_next st h hst
        | cons next rest => exact evalBlock_ne_next (next :: rest) h heq

end

/-! ### Going on behind a piece -/

section Onward

variable {c : Context} {code code' : List Line} {stack : List Value} {calls : List (List Line)}
  {s : State Env}

theorem Valued.onward {n : Nat} {r : List Value × Memory Env} (h : Valued p n code stack calls r s)
    (honward : Onward p I lines code code') : ∃ t, Reach I lines s t ∧ Valued p n code' stack calls r t := by
  obtain ⟨t, hreach, ht⟩ := honward h.2
  exact ⟨t, hreach, h.1, ht⟩

theorem Completed.onward {r : Completion × Memory Env} (h : Completed p c code stack calls r s)
    (honward : Onward p I lines code code') :
    ∃ t, Reach I lines s t ∧ Completed p c code' stack calls r t := by
  obtain ⟨completion, m⟩ := r
  cases completion with
  | next => exact honward h
  | broke => exact ⟨s, .refl, h⟩
  | returned v => exact ⟨s, .refl, h⟩

end Onward

/-! ### Expressions -/

section Exprs

variable {n : Nat} {c : Context}

variable {scope : ScopeId} {name : String} {ref : Pool.Ref} {v : Value} {span : Span} {line : Line}
  {e : Expr} {ls lt code after ly ln ls' body : List Line} {l : Label} {stack : List Value}
  {calls : List (List Line)} {m : Memory Env} {s : State Env} {label f site : Nat} {slots : List Nat}
  {args : List Expr}

theorem readName_variable {cell : Cell} (hcell : cell? p scope name = some cell) (m : Memory Env) :
    readName p scope name m = .ok [m.cells cell] := by
  rw [readName, hcell]

theorem readName_constant (hkind : p.scopes.kindOf? scope name = some (.constant ref))
    (hvalue : poolValue? p.pool ref = some v) (m : Memory Env) : readName p scope name m = .ok [v] := by
  simp only [readName, cell?, hkind, hvalue]

theorem Simulates.literal (hvalue : poolValue? p.pool ref = some v) :
    Simulates p I lines n c (.expr (.literal span v ref)) [.literal ref] := by
  intro code stack calls m s _ h
  change Sim I lines s (evalExpr p I (evalCall p I n) (.literal span v ref) m) _
  rw [evalExpr]
  obtain ⟨t, hreach, ht⟩ := h.literal hvalue
  exact .reach hreach (.pure ⟨rfl, ht⟩)

/-- A name is read by a line that pushes its value. -/
theorem Simulates.ident {value : Memory Env → Value} (hread : ∀ m, readName p scope name m = .ok [value m])
    (hline : ∀ {code : List Line} {stack : List Value} {calls : List (List Line)} {m : Memory Env}
      {s : State Env}, At p m (line :: code) stack calls s →
        ∃ t, Reach I lines s t ∧ At p m code (value m :: stack) calls t) :
    Simulates p I lines n c (.expr (.ident span name scope)) [line] := by
  intro code stack calls m s _ h
  change Sim I lines s (evalExpr p I (evalCall p I n) (.ident span name scope) m) _
  rw [evalExpr, hread]
  obtain ⟨t, hreach, ht⟩ := hline h
  exact .reach hreach (.pure ⟨rfl, ht⟩)

theorem Simulates.operation {operands : List Expr} (heq : e.operation? = some (operands, line))
    (hpops : line.pops = operands.length) (harity : e.arity p = line.pushes)
    (hoperands : Simulates p I lines n c (.exprs operands) ls) :
    Simulates p I lines n c (.expr e) (ls ++ [line]) := by
  intro code stack calls m s hplace h
  rw [append_assoc] at hplace h
  change Sim I lines s (evalExpr p I (evalCall p I n) e m) (Valued p (e.arity p) code stack calls)
  rw [evalExpr_operation heq, harity]
  refine (hoperands hplace h).bind fun r t _ ht => ?_
  exact ht.2.operation (Expr.isOperation_line heq) (ht.1.trans hpops.symm)

/-- A test sends the machine on, or to a label. -/
theorem Simulates.test {test : Expr} (htest : Simulates p I lines n c (.expr test) lt)
    (hscalar : test.arity p = 1) (hlabels : Distinct lines) (hlabel : .label l :: after <:+ lines)
    (hplace : lt ++ .branchZero l :: code <:+ lines)
    (h : At p m (lt ++ .branchZero l :: code) stack calls s) :
    Sim I lines s (evalTest p I (evalCall p I n) test m) fun r t =>
      At p r.2 (if r.1 = true then code else after) stack calls t := by
  refine (htest hplace h).bind fun r t _ ht => ?_
  obtain ⟨vs, m'⟩ := r
  exact (ht.2.test hlabels hlabel (ht.1.trans hscalar)).bind fun holds u _ hu => .pure hu

theorem evalExpr_cond {test yes no : Expr} (m : Memory Env) :
    evalExpr p I call (.cond span label test yes no) m = evalTest p I call test m >>= fun r =>
      if r.1 = true then evalExpr p I call yes r.2 else evalExpr p I call no r.2 := by
  rw [evalExpr, evalTest]
  cases evalExpr p I call test m with
  | error stop => rfl
  | ok r =>
    change (truth r.1 >>= _) = ((truth r.1 >>= _) >>= _)
    cases truth r.1 <;> rfl

/-- A choice between two pieces goes on behind both of them. What `fits` says of the place behind a
piece is kept on the way on. -/
theorem Simulates.twoWay (hlabels : Distinct lines) {test : Expr} {l' : Label} {β : Type}
    {yes no : Memory Env → Except Stop β} {fits : List Line → β → State Env → Prop}
    (htest : Simulates p I lines n c (.expr test) lt) (hscalar : test.arity p = 1)
    (hyes : ∀ {rest : List Line} {m : Memory Env} {s : State Env}, ly ++ rest <:+ lines →
      At p m (ly ++ rest) stack calls s → Sim I lines s (yes m) (fits rest))
    (hno : ∀ {rest : List Line} {m : Memory Env} {s : State Env}, ln ++ rest <:+ lines →
      At p m (ln ++ rest) stack calls s → Sim I lines s (no m) (fits rest))
    (honward : ∀ {rest : List Line} {b : β} {s : State Env}, fits rest b s →
      Onward p I lines rest code → ∃ t, Reach I lines s t ∧ fits code b t)
    (hplace : lt ++ .branchZero l :: (ly ++ .branch l' :: .label l :: (ln ++ .label l' :: code)) <:+ lines)
    (h : At p m (lt ++ .branchZero l :: (ly ++ .branch l' :: .label l :: (ln ++ .label l' :: code)))
      stack calls s) :
    Sim I lines s (evalTest p I (evalCall p I n) test m >>= fun r =>
      if r.1 = true then yes r.2 else no r.2) (fits code) := by
  have hyesPlace := suffix_next (suffix_behind hplace)
  have hfalse := suffix_next (suffix_behind hyesPlace)
  have hnoPlace := suffix_next hfalse
  have hend := suffix_behind hnoPlace
  refine (htest.test hscalar hlabels hfalse hplace h).bind fun r t _ ht => ?_
  by_cases hholds : r.1 = true
  · rw [if_pos hholds] at ht ⊢
    exact (hyes hyesPlace ht).andThen fun _ _ _ hu => honward hu (.branch hlabels hend)
  · rw [if_neg hholds] at ht ⊢
    exact (hno hnoPlace ht).andThen fun _ _ _ hu => honward hu .label

theorem Simulates.cond (hlabels : Distinct lines) {test yes no : Expr}
    (htest : Simulates p I lines n c (.expr test) lt) (hyes : Simulates p I lines n c (.expr yes) ly)
    (hno : Simulates p I lines n c (.expr no) ln) (htestScalar : test.arity p = 1)
    (hyesScalar : yes.arity p = 1) (hnoScalar : no.arity p = 1) :
    Simulates p I lines n c (.expr (.cond span label test yes no)) (choiceLines c label lt ly ln) := by
  intro code stack calls m s hplace h
  simp only [choiceLines, append_assoc, cons_append, nil_append] at hplace h
  change Sim I lines s (evalExpr p I (evalCall p I n) (.cond span label test yes no) m)
    (Valued p (yes.arity p) code stack calls)
  rw [evalExpr_cond]
  refine htest.twoWay hlabels htestScalar (fun hplace h => hyes hplace h) (fun hplace h => ?_)
    Valued.onward hplace h
  rw [hyesScalar, ← hnoScalar]
  exact hno hplace h

theorem Simulates.cons {rest : List Expr} (he : Simulates p I lines n c (.expr e) ls)
    (hscalar : e.arity p = 1) (hrest : Simulates p I lines n c (.exprs rest) ls') :
    Simulates p I lines n c (.exprs (e :: rest)) (ls ++ ls') := by
  intro code stack calls m s hplace h
  rw [append_assoc] at hplace h
  change Sim I lines s (evalExprs p I (evalCall p I n) (e :: rest) m)
    (Valued p (rest.length + 1) code stack calls)
  rw [evalExprs]
  refine (he hplace h).bind fun r t _ ht => ?_
  obtain ⟨vs, m'⟩ := r
  refine (hrest (suffix_behind hplace) ht.2).bind fun r u _ hu => .pure ?_
  obtain ⟨ws, m''⟩ := r
  refine ⟨?_, ?_⟩
  · rw [length_append, ht.1, hscalar, hu.1, Nat.add_comm]
  · change At p m'' code ((vs ++ ws).reverse ++ stack) calls u
    rw [reverse_append, append_assoc]
    exact hu.2

/-- A body that is left returns a value. -/
theorem Completed.returned {k : Nat} {stmts : List Stmt} {r : Completion × Memory Env}
    (h : Completed p c code stack calls r s) (heval : evalBlock p I call k stmts m = .ok r)
    (hterminates : Program.blockTerminates stmts = true) (hloop : c.loopEnd = none) :
    ∃ v rest, r.1 = .returned v ∧ At p r.2 (c.exit.line :: rest) (v :: stack) calls s := by
  obtain ⟨completion, m'⟩ := r
  cases completion with
  | next => exact absurd heval (evalBlock_ne_next stmts hterminates)
  | broke =>
    obtain ⟨l, _, hl, _⟩ := h
    rw [hloop] at hl
    cases hl
  | returned v =>
    obtain ⟨rest, hrest⟩ := h
    exact ⟨v, rest, rfl, hrest⟩

/-- Both kinds of calls, which differ in how the machine gets from the stored arguments into the body
and from the end of the body back. -/
theorem At.callee (hp : p.Sound) {callee : Function} (hcallee : p.functions[f]? = some callee)
    (hslots : SlotsOf p callee.scope (callee.params.map (·.1)) slots) {rest entered : List Line}
    {back : List (List Line)} (hbody : ∀ k < n, Simulates p I lines k c (.block callee.body) body)
    (hloop : c.loopEnd = none) (hplace : body ++ rest <:+ lines)
    (henter : ∀ {m : Memory Env} {s : State Env}, At p m entered stack calls s →
      ∃ t, Reach I lines s t ∧ At p m (body ++ rest) stack back t)
    (hleave : ∀ {left : List Line} {stack : List Value} {m : Memory Env} {s : State Env},
      At p m (c.exit.line :: left) stack back s → ∃ t, Reach I lines s t ∧ At p m code stack calls t)
    {vs : List Value} (hlength : vs.length = callee.params.length)
    (h : At p m (storeLines slots ++ entered) (vs.reverse ++ stack) calls s) :
    Sim I lines s (evalCall p I n f vs m) fun r t => At p r.2 code (r.1 :: stack) calls t := by
  cases n with
  | zero => trivial
  | succ k =>
    have hterminates := hp.terminates callee (mem_of_getElem? hcallee)
    rw [evalCall, hcallee]
    refine (h.stores hp.scopes hslots (by rw [length_map, hlength])).bind fun m' t _ ht => ?_
    obtain ⟨u, hreach, hu⟩ := henter ht
    refine .reach hreach ((hbody k (Nat.lt_succ_self k) hplace hu).bind fun r w heval hw => ?_)
    obtain ⟨v, left, hv, hleft⟩ := hw.returned heval hterminates hloop
    obtain ⟨completion, m''⟩ := r
    cases hv
    obtain ⟨x, hreach', hx⟩ := hleave hleft
    exact .reach hreach' (.pure hx)

/-- A call takes its arguments from the stack and leaves one value. -/
theorem Simulates.ofCall (hargs : Simulates p I lines n c (.exprs args) ls)
    (hcall : ∀ {code : List Line} {stack : List Value} {calls : List (List Line)} {vs : List Value}
      {m : Memory Env} {s : State Env}, ls' ++ code <:+ lines → vs.length = args.length →
        At p m (ls' ++ code) (vs.reverse ++ stack) calls s →
        Sim I lines s (evalCall p I n f vs m) fun r t => At p r.2 code (r.1 :: stack) calls t) :
    Simulates p I lines n c (.expr (.call span f name site args)) (ls ++ ls') := by
  intro code stack calls m s hplace h
  rw [append_assoc] at hplace h
  change Sim I lines s (evalExpr p I (evalCall p I n) (.call span f name site args) m)
    (Valued p 1 code stack calls)
  rw [evalExpr]
  refine (hargs hplace h).bind fun r t _ ht => ?_
  obtain ⟨vs, m'⟩ := r
  refine (hcall (suffix_behind hplace) ht.1 ht.2).bind fun r u _ hu => .pure ?_
  exact ⟨rfl, hu⟩

variable (hp : p.Sound) (hlabels : Distinct lines) {callee : Function}
  (hcallee : p.functions[f]? = some callee) (hlength : args.length = callee.params.length)
  (hargs : Simulates p I lines n c (.exprs args) ls)
  (hslots : SlotsOf p callee.scope (callee.params.map (·.1)) slots)

include hp hlabels hcallee hlength hargs hslots

theorem Simulates.inlined
    (hbody : ∀ k < n, Simulates p I lines k (c.inlined callee.name.text site) (.block callee.body) body) :
    Simulates p I lines n c (.expr (.call span f callee.name.text site args))
      (ls ++ storeLines slots ++ body ++
        [.label ((c.inlined callee.name.text site).label (.inlineEnd callee.name.text))]) := by
  rw [append_assoc, append_assoc]
  refine hargs.ofCall fun hplace hvs h => ?_
  rw [append_assoc, append_assoc] at hplace h
  have hbodyPlace := suffix_behind hplace
  have hend := suffix_behind hbodyPlace
  -- The body is entered by falling into it and left by a jump to the label behind it.
  exact At.callee hp hcallee hslots hbody rfl hbodyPlace (fun h => ⟨_, .refl, h⟩)
    (fun h => Onward.branch hlabels hend h) (hvs.trans hlength) h

theorem Simulates.called (hentry : .label (.subroutine callee.name.text) :: (body ++ after) <:+ lines)
    (hbody : ∀ k < n, Simulates p I lines k (.outer .returnCall) (.block callee.body) body) :
    Simulates p I lines n c (.expr (.call span f callee.name.text site args))
      (ls ++ storeLines slots ++ [.call (.subroutine callee.name.text)]) := by
  rw [append_assoc]
  refine hargs.ofCall fun _ hvs h => ?_
  rw [append_assoc] at h
  exact At.callee hp hcallee hslots hbody rfl (suffix_next hentry)
    (At.call hlabels hentry) At.returnCall (hvs.trans hlength) h

end Exprs

/-! ### Statements -/

section Stmts

variable {n : Nat} {c : Context}

variable {span : Span} {scope : ScopeId} {names : List Ident} {value : Expr}
  {ls code lt ly lb : List Line} {line : Line} {stack : List Value} {calls : List (List Line)}
  {m : Memory Env} {s : State Env} {st : Stmt} {label : Nat} {yes body : List Stmt}

theorem evalStmt_varDecl {fuel : Nat} (m : Memory Env) :
    evalStmt p I call fuel (.varDecl span scope names value) m =
      evalStmt p I call fuel (.assign span scope names value) m := by
  rw [evalStmt, evalStmt]

/-- A statement that begins with a value. -/
theorem Simulates.ofValue {ls' : List Line}
    {next : List Value × Memory Env → Except Stop (Completion × Memory Env)}
    (hvalue : Simulates p I lines n c (.expr value) ls)
    (heval : ∀ m, evalStmt p I (evalCall p I n) n st m =
      evalExpr p I (evalCall p I n) value m >>= next)
    (hnext : ∀ {code : List Line} {stack : List Value} {calls : List (List Line)} {vs : List Value}
      {m : Memory Env} {s : State Env}, vs.length = value.arity p →
        At p m (ls' ++ code) (vs.reverse ++ stack) calls s →
        Sim I lines s (next (vs, m)) (Completed p c code stack calls)) :
    Simulates p I lines n c (.stmt st) (ls ++ ls') := by
  intro code stack calls m s hplace h
  rw [append_assoc] at hplace h
  change Sim I lines s (evalStmt p I (evalCall p I n) n st m) _
  rw [heval]
  exact (hvalue hplace h).bind fun r t _ ht => hnext ht.1 ht.2

theorem Simulates.assign (hp : p.scopes.Valid) {slots : List Nat}
    (hvalue : Simulates p I lines n c (.expr value) ls) (hlength : names.length = value.arity p)
    (hslots : SlotsOf p scope names slots) :
    Simulates p I lines n c (.stmt (.assign span scope names value)) (ls ++ storeLines slots) := by
  refine hvalue.ofValue (fun m => by rw [evalStmt]) fun hvs h => ?_
  exact (h.stores hp hslots (hvs.trans hlength.symm)).bind fun m' t _ ht => .pure ht

/-- An operation that leaves nothing. -/
theorem At.effect (hop : line.isOperation = true) (hpushes : line.pushes = 0) {vs : List Value}
    (hlength : vs.length = line.pops) (h : At p m (line :: code) (vs.reverse ++ stack) calls s) :
    Sim I lines s (applyOp I line vs m >>= fun r => .ok (.next, r.2)) (Completed p c code stack calls) := by
  refine (h.operation hop hlength).bind fun r t _ ht => .pure ?_
  obtain ⟨hnone, ht⟩ := ht
  rw [eq_nil_of_length_eq_zero (hnone.trans hpushes)] at ht
  exact ht

theorem Simulates.setField {field : Field} (hvalue : Simulates p I lines n c (.expr value) ls)
    (hscalar : value.arity p = 1) :
    Simulates p I lines n c (.stmt (.setField span field value)) (ls ++ [.innerField field]) := by
  refine hvalue.ofValue (fun m => by rw [evalStmt]) fun hvs h => ?_
  exact At.effect rfl rfl (hvs.trans hscalar) h

/-- A step of an inner transaction takes nothing from the stack and leaves nothing. -/
theorem Simulates.innerStep (hop : line.isOperation = true) (hpops : line.pops = 0)
    (hpushes : line.pushes = 0)
    (heval : ∀ m, evalStmt p I (evalCall p I n) n st m = applyOp I line [] m >>= fun r => .ok (.next, r.2)) :
    Simulates p I lines n c (.stmt st) [line] := by
  intro code stack calls m s _ h
  change Sim I lines s (evalStmt p I (evalCall p I n) n st m) _
  rw [heval]
  have hstack : At p m (line :: code) ([].reverse ++ stack) calls s := h
  have hlength : ([] : List Value).length = line.pops := hpops.symm
  exact hstack.effect hop hpushes hlength

theorem Simulates.ret (hvalue : Simulates p I lines n c (.expr value) ls) (hscalar : value.arity p = 1) :
    Simulates p I lines n c (.stmt (.ret span value)) (ls ++ [c.exit.line]) := by
  refine hvalue.ofValue (fun m => by rw [evalStmt]) fun hvs h => ?_
  obtain ⟨v, rfl⟩ := length_eq_one_iff.mp (hvs.trans hscalar)
  exact .pure ⟨_, h⟩

theorem Simulates.exprStmt (hvalue : Simulates p I lines n c (.expr value) ls) :
    Simulates p I lines n c (.stmt (.expr span value)) (ls ++ List.replicate (value.arity p) .pop) := by
  refine hvalue.ofValue (fun m => by rw [evalStmt]) fun hvs h => ?_
  rw [← hvs, ← length_reverse] at h
  obtain ⟨t, hreach, ht⟩ := h.pops
  exact .reach hreach (.pure ht)

section Tests

variable (hlabels : Distinct lines) {test : Expr} (htest : Simulates p I lines n c (.expr test) lt)
  (hscalar : test.arity p = 1)

include hlabels htest hscalar

theorem Simulates.ifThen (hyes : Simulates p I lines n c (.block yes) ly) :
    Simulates p I lines n c (.stmt (.ifThen span label test yes)) (ifLines c label lt ly) := by
  intro code stack calls m s hplace h
  simp only [ifLines, append_assoc, cons_append, nil_append] at hplace h
  have hyesPlace := suffix_next (suffix_behind hplace)
  have hend := suffix_behind hyesPlace
  change Sim I lines s (evalStmt p I (evalCall p I n) n (.ifThen span label test yes) m) _
  rw [evalStmt]
  refine (htest.test hscalar hlabels hend hplace h).bind fun r t _ ht => ?_
  obtain ⟨holds, m'⟩ := r
  cases holds with
  | true => exact (hyes hyesPlace ht).andThen fun _ _ _ hu => hu.onward .label
  | false => exact .pure ht

theorem Simulates.ifElse {no : List Stmt} {ln : List Line}
    (hyes : Simulates p I lines n c (.block yes) ly) (hno : Simulates p I lines n c (.block no) ln) :
    Simulates p I lines n c (.stmt (.ifElse span label test yes no)) (ifElseLines c label lt ly ln) := by
  intro code stack calls m s hplace h
  simp only [ifElseLines, append_assoc, cons_append, nil_append] at hplace h
  change Sim I lines s (evalStmt p I (evalCall p I n) n (.ifElse span label test yes no) m) _
  rw [evalStmt]
  exact htest.twoWay hlabels hscalar (fun hplace h => hyes hplace h) (fun hplace h => hno hplace h)
    Completed.onward hplace h

/-- A loop from its test on. The induction is on how often it is gone through. -/
theorem Simulates.iterate
    (hbody : Simulates p I lines n (c.inLoop label) (.block body) lb)
    (hplace : loopLines c label lt lb ++ code <:+ lines) (k : Nat)
    (h : At p m (lt ++ .branchZero (c.label (.loopEnd label)) ::
      (lb ++ .branch (c.label (.loopStart label)) :: .label (c.label (.loopEnd label)) :: code))
      stack calls s) :
    Sim I lines s (iterate (evalTest p I (evalCall p I n) test)
      (fun m => evalBlock p I (evalCall p I n) n body m) k m) (Completed p c code stack calls) := by
  simp only [loopLines, append_assoc, cons_append, nil_append] at hplace
  have htestPlace := suffix_next hplace
  have hbodyPlace := suffix_next (suffix_behind htestPlace)
  have hend := suffix_next (suffix_behind hbodyPlace)
  induction k generalizing m s with
  | zero => trivial
  | succ k ih =>
    rw [Semantics.iterate]
    refine (htest.test hscalar hlabels hend htestPlace h).bind fun r t _ ht => ?_
    obtain ⟨holds, m'⟩ := r
    cases holds with
    | false => exact .pure ht
    | true =>
      refine (hbody hbodyPlace ht).bind fun r u _ hu => ?_
      obtain ⟨completion, m''⟩ := r
      cases completion with
      | next =>
        obtain ⟨w, hreach, hw⟩ := Onward.branch hlabels hplace hu
        exact .reach hreach (ih hw)
      | broke =>
        obtain ⟨l, rest, hl, hu⟩ := hu
        cases hl
        obtain ⟨w, hreach, hw⟩ := Onward.branch hlabels hend hu
        exact .reach hreach (.pure hw)
      | returned v => exact .pure hu

theorem Simulates.loop
    (hbody : Simulates p I lines n (c.inLoop label) (.block body) lb) :
    Simulates p I lines n c (.stmt (.loop span label test body)) (loopLines c label lt lb) := by
  intro code stack calls m s hplace h
  simp only [loopLines, append_assoc, cons_append, nil_append] at h
  change Sim I lines s (evalStmt p I (evalCall p I n) n (.loop span label test body) m) _
  rw [evalStmt]
  obtain ⟨t, hreach, ht⟩ := Onward.label h
  exact .reach hreach (htest.iterate hlabels hscalar hbody hplace n ht)

end Tests

theorem Simulates.blockCons {rest : List Stmt} {ls' : List Line}
    (hst : Simulates p I lines n c (.stmt st) ls) (hrest : Simulates p I lines n c (.block rest) ls') :
    Simulates p I lines n c (.block (st :: rest)) (ls ++ ls') := by
  intro code stack calls m s hplace h
  rw [append_assoc] at hplace h
  change Sim I lines s (evalBlock p I (evalCall p I n) n (st :: rest) m) _
  rw [evalBlock]
  refine (hst hplace h).bind fun r t _ ht => ?_
  obtain ⟨completion, m'⟩ := r
  cases completion with
  | next => exact hrest (suffix_behind hplace) ht
  | broke => exact .pure ht
  | returned v => exact .pure ht

end Stmts

/-- The body of every subroutine stands behind its label. -/
def Installed (p : Program) (lines : List Line) : Prop :=
  ∀ f ∈ p.functions, HasSubroutine f → ∃ body after,
    .label (.subroutine f.name.text) :: (body ++ after) <:+ lines ∧
      Code p (.outer .returnCall) (.block f.body) body

/-- Code simulates what it was emitted for. The outer induction is on the fuel, since bodies that are
called are evaluated with less of it; the inner one follows the code. -/
theorem simulates_of_code (hp : p.Sound) (hlabels : Distinct lines) (hinstalled : Installed p lines)
    (n : Nat) {c : Context} {piece : Piece} {ls : List Line} (h : Code p c piece ls) :
    Simulates p I lines n c piece ls := by
  induction n using Nat.strongRecOn generalizing c piece ls with
  | ind n hbelow =>
    induction h with
    | literal hvalue => exact .literal hvalue
    | «variable» hkind =>
      obtain ⟨cell, hcell, hholds⟩ := exists_cell hkind
      exact .ident (readName_variable hcell) fun h => h.load hp.scopes hholds
    | constant hkind hvalue =>
      exact .ident (readName_constant hkind hvalue) fun h => h.literal hvalue
    | operation heq hpops harity _ ih => exact ih.operation heq hpops harity
    | @group _ span e _ _ ih =>
      intro code stack calls m s hplace h
      change Sim I lines s (evalExpr p I (evalCall p I n) (.group span e) m) _
      rw [evalExpr]
      exact ih hplace h
    | @cast _ span ty e _ _ hscalar ih =>
      intro code stack calls m s hplace h
      change Sim I lines s (evalExpr p I (evalCall p I n) (.cast span ty e) m)
        (Valued p 1 code stack calls)
      rw [evalExpr, ← hscalar]
      exact ih hplace h
    | inlined hcallee _ hlength _ hslots hbody ih _ =>
      exact ih.inlined hp hlabels hcallee hlength hslots fun k hk => hbelow k hk hbody
    | called hcallee hinline hentry hlength _ hslots ih =>
      obtain ⟨body, after, hplace, hbody⟩ :=
        hinstalled _ (mem_of_getElem? hcallee) ⟨hinline, hentry⟩
      exact ih.called hp hlabels hcallee hlength hslots hplace fun k hk => hbelow k hk hbody
    | cond _ _ _ ht hy hn iht ihy ihn => exact iht.cond hlabels ihy ihn ht hy hn
    | nil =>
      intro code stack calls m s _ h
      exact .pure ⟨rfl, h⟩
    | cons _ hscalar _ ihe ih => exact ihe.cons hscalar ih
    | @varDecl _ span scope names value _ _ hlength _ hslots ih =>
      intro code stack calls m s hplace h
      change Sim I lines s (evalStmt p I (evalCall p I n) n (.varDecl span scope names value) m) _
      rw [evalStmt_varDecl]
      exact ih.assign hp.scopes hlength hslots hplace h
    | constDecl =>
      intro code stack calls m s _ h
      exact .pure h
    | assign hlength _ hslots ih => exact ih.assign hp.scopes hlength hslots
    | setField _ hscalar ih => exact ih.setField hscalar
    | innerBegin => exact .innerStep rfl rfl rfl fun m => by rw [evalStmt]; rfl
    | innerSubmit => exact .innerStep rfl rfl rfl fun m => by rw [evalStmt]; rfl
    | ret _ hscalar ih => exact ih.ret hscalar
    | error =>
      rintro code stack calls m s _ ⟨slots, rfl, _⟩
      exact Ends.one rfl
    | ifThen _ hscalar _ iht ihy => exact iht.ifThen hlabels hscalar ihy
    | ifElse _ hscalar _ _ iht ihy ihn => exact iht.ifElse hlabels hscalar ihy ihn
    | loop _ hscalar _ iht ihb => exact iht.loop hlabels hscalar ihb
    | breakLoop hloop =>
      intro code stack calls m s _ h
      exact .pure ⟨_, code, hloop, h⟩
    | exprStmt _ ih => exact ih.exprStmt
    | blockNil =>
      intro code stack calls m s _ h
      exact .pure h
    | blockCons _ _ ihs ih => exact ihs.blockCons ih

end Teal.Semantics
