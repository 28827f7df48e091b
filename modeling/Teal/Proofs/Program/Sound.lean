import Teal.Assembly.Emit
import Teal.Proofs.Program.WellTyped

/-! Programs in which the values fit the operations. Apart from literals, names, calls and choices every
expression is an *operation*: a line of assembly that is applied to the values of its operands. In a
sound program each operand leaves one value and the line takes as many values as there are operands. A
program that is well built and in whose types nothing fatal is found is sound. -/

namespace Teal.Program

open List
open Assembly (Line)

/-- The operands of an expression that is a single operation, and its line. -/
def Expr.operation? : Expr → Option (List Expr × Line)
  | .unary _ op e => some ([e], .unary op)
  | .binary _ op l r => some ([l, r], .binary op)
  | .builtin _ b args => some (args, .builtin b.op b.immediates)
  | .field _ source f => some (source.exprs, .field (Assembly.fieldOp source) f)
  | .fieldAt _ source f i =>
    match Assembly.fieldAtOp f source i with
    | .ok op => some (source.exprs ++ i.exprs, .field op f)
    | .error _ => none
  | .arg _ (.const n) => some ([], .arg n)
  | .arg _ (.dynamic e) => some ([e], .args)
  | _ => none

/-- An expression is sound: it is resolved, and every operand leaves one value. -/
inductive Expr.Sound (p : Program) (bound : Nat) : Expr → Prop
  | literal {span value ref} (hvalue : poolValue? p.pool ref = some value) :
      Sound p bound (.literal span value ref)
  | ident {span name scope} (hscope : scope < p.scopes.arena.size) (hloads : Loads p scope name) :
      Sound p bound (.ident span name scope)
  | operation {e operands line} (heq : e.operation? = some (operands, line))
      (hpops : line.pops = operands.length) (harity : e.arity p = line.pushes)
      (hoperands : ∀ o ∈ operands, Sound p bound o) (hscalar : ∀ o ∈ operands, o.arity p = 1) :
      Sound p bound e
  | group {span e} (he : Sound p bound e) : Sound p bound (.group span e)
  | cast {span ty e} (he : Sound p bound e) (hscalar : e.arity p = 1) :
      Sound p bound (.cast span ty e)
  | call {span f name site args} {callee : Function} (hbound : f < bound)
      (hcallee : p.functions[f]? = some callee) (hname : callee.name.text = name)
      (hentry : callee.isEntry = false) (hlength : args.length = callee.params.length)
      (hargs : ∀ e ∈ args, Sound p bound e) (hscalar : ∀ e ∈ args, e.arity p = 1) :
      Sound p bound (.call span f name site args)
  | cond {span label test yes no} (htest : Sound p bound test) (hyes : Sound p bound yes)
      (hno : Sound p bound no) (htestScalar : test.arity p = 1) (hyesScalar : yes.arity p = 1)
      (hnoScalar : no.arity p = 1) : Sound p bound (.cond span label test yes no)

/-- A statement is sound inside so many loops. -/
inductive Stmt.Sound (p : Program) (bound : Nat) : Nat → Stmt → Prop
  | varDecl {loops span scope names value} (hscope : scope < p.scopes.arena.size)
      (hstores : Stores p scope names) (hlength : names.length = value.arity p)
      (hvalue : value.Sound p bound) : Sound p bound loops (.varDecl span scope names value)
  | constDecl {loops span name value} : Sound p bound loops (.constDecl span name value)
  | assign {loops span scope targets value} (hscope : scope < p.scopes.arena.size)
      (hstores : Stores p scope targets) (hlength : targets.length = value.arity p)
      (hvalue : value.Sound p bound) : Sound p bound loops (.assign span scope targets value)
  | setField {loops span field value} (hvalue : value.Sound p bound)
      (hscalar : value.arity p = 1) : Sound p bound loops (.setField span field value)
  | innerBegin {loops span} : Sound p bound loops (.innerBegin span)
  | innerSubmit {loops span} : Sound p bound loops (.innerSubmit span)
  | ret {loops span value} (hvalue : value.Sound p bound) (hscalar : value.arity p = 1) :
      Sound p bound loops (.ret span value)
  | error {loops span} : Sound p bound loops (.error span)
  | ifThen {loops span label test yes} (htest : test.Sound p bound) (hscalar : test.arity p = 1)
      (hyes : ∀ s ∈ yes, Sound p bound loops s) : Sound p bound loops (.ifThen span label test yes)
  | ifElse {loops span label test yes no} (htest : test.Sound p bound)
      (hscalar : test.arity p = 1) (hyes : ∀ s ∈ yes, Sound p bound loops s)
      (hno : ∀ s ∈ no, Sound p bound loops s) :
      Sound p bound loops (.ifElse span label test yes no)
  | loop {loops span label test body} (htest : test.Sound p bound) (hscalar : test.arity p = 1)
      (hbody : ∀ s ∈ body, Sound p bound (loops + 1) s) : Sound p bound loops (.loop span label test body)
  | breakLoop {loops span} : Sound p bound (loops + 1) (.breakLoop span)
  | expr {loops span value} (hvalue : value.Sound p bound) :
      Sound p bound loops (.expr span value)

/-- A program is sound: it is well built, its statements are sound, and no body of a function lets
control run over its end. -/
structure Sound (p : Program) : Prop extends p.WellBuilt where
  soundBodies : ∀ {i : Nat} {f : Function}, p.functions[i]? = some f →
    ∀ s ∈ f.body, s.Sound p i 0
  soundGlobals : ∀ s ∈ p.globals, s.Sound p p.functions.length 0
  terminates : ∀ f ∈ p.functions, blockTerminates f.body = true

/-! ### Operations -/

/-- The expressions that are operations, with their operands and their lines. -/
inductive Expr.Operation : Expr → List Expr → Line → Prop
  | unary {span op e} : Operation (.unary span op e) [e] (.unary op)
  | binary {span op l r} : Operation (.binary span op l r) [l, r] (.binary op)
  | builtin {span call args} : Operation (.builtin span call args) args (.builtin call.op call.immediates)
  | field {span source f} :
      Operation (.field span source f) source.exprs (.field (Assembly.fieldOp source) f)
  | fieldAt {span source f i op} (hop : Assembly.fieldAtOp f source i = .ok op) :
      Operation (.fieldAt span source f i) (source.exprs ++ i.exprs) (.field op f)
  | arg {span n} : Operation (.arg span (.const n)) [] (.arg n)
  | args {span e} : Operation (.arg span (.dynamic e)) [e] .args

theorem Expr.operation_of_eq {e : Expr} {operands : List Expr} {line : Line}
    (h : e.operation? = some (operands, line)) : e.Operation operands line := by
  cases e with
  | unary => cases h; exact .unary
  | binary => cases h; exact .binary
  | builtin => cases h; exact .builtin
  | field => cases h; exact .field
  | fieldAt span source f i =>
    rw [operation?] at h
    split at h
    · next hop => cases h; exact .fieldAt hop
    · cases h
  | arg span i =>
    cases i with
    | const n => cases h; exact .arg
    | dynamic e => cases h; exact .args
  | literal | ident | group | call | cond | cast => cases h

theorem Expr.isOperation_line {e : Expr} {operands : List Expr} {line : Line}
    (h : e.operation? = some (operands, line)) : line.isOperation = true := by
  cases operation_of_eq h <;> rfl

theorem fieldOp_pops (source : FieldSource) : (Assembly.fieldOp source).pops = source.exprs.length := by
  cases source with
  | gtxn i => cases i <;> rfl
  | txn | global | itxn => rfl

/-- An element of a field can be read unless it is of the ledger or of an inner transaction with a
computed index. -/
theorem fieldAtOp_spec {source : FieldSource} {i : Index} (field : Field)
    (hglobal : source ≠ .global) (hinner : source.isInner = true → i.isDynamic = false) :
    ∃ op, Assembly.fieldAtOp field source i = .ok op ∧
      op.pops = source.exprs.length + i.exprs.length := by
  cases source with
  | txn => cases i <;> exact ⟨_, rfl, rfl⟩
  | gtxn j => cases j <;> cases i <;> exact ⟨_, rfl, rfl⟩
  | global => exact absurd rfl hglobal
  | itxn =>
    cases i with
    | const n => exact ⟨_, rfl, rfl⟩
    | dynamic e => cases hinner rfl

/-! ### Soundness of what is well typed -/

section WellTyped

variable {p : Program} {bound : Nat} {e : Expr}

theorem Expr.arity_of_types {ty : Ty} (h : e.types p = [ty]) : e.arity p = 1 := congrArg List.length h

theorem Expr.Sound.of_operands {operands : List Expr} {line : Line}
    (heq : e.operation? = some (operands, line)) (hpops : line.pops = operands.length)
    (harity : e.arity p = line.pushes)
    (h : ∀ o ∈ operands, o.Sound p bound ∧ ∃ ty, o.types p = [ty]) : e.Sound p bound := by
  refine .operation heq hpops harity (fun o ho => (h o ho).1) fun o ho => ?_
  obtain ⟨_, ty, hty⟩ := h o ho
  exact arity_of_types hty

theorem Expr.WellTyped.sound (he : e.Resolved p bound) (h : e.WellTyped p) : e.Sound p bound := by
  induction he with
  | literal hvalue => exact .literal hvalue
  | ident hscope hloads => exact .ident hscope hloads
  | unary _ ih =>
    cases h with
    | unary hwell hty => exact .of_operands rfl rfl rfl (by simp [ih hwell, hty])
  | binary _ _ ihl ihr =>
    cases h with
    | binary hl hr hlty hrty _ =>
      exact .of_operands rfl rfl rfl (by simp [ihl hl, ihr hr, hlty, hrty])
  | group _ ih =>
    cases h with
    | group hwell => exact .group (ih hwell)
  | @call span f name site args callee hbound hcallee hname hentry hlength _ ih =>
    cases h with
    | call _ hwells htys =>
      refine .call hbound hcallee hname hentry hlength (fun e he => ih e he (hwells e he)) ?_
      intro e he
      have hty : e.types p ∈ args.map (·.types p) := mem_map_of_mem he
      rw [htys] at hty
      obtain ⟨param, _, hparam⟩ := mem_map.mp hty
      exact arity_of_types hparam.symm
  | builtin hagrees _ _ ih =>
    cases h with
    | builtin hwells hlength htys =>
      refine .of_operands rfl hagrees.pops hagrees.pushes.symm fun e he => ⟨ih e he (hwells e he), ?_⟩
      rw [← map_fst_zip (Nat.le_of_eq hlength)] at he
      obtain ⟨x, hx, rfl⟩ := mem_map.mp he
      obtain ⟨ty, hty, _⟩ := htys x hx
      exact ⟨ty, hty⟩
  | cond _ _ _ iht ihy ihn =>
    cases h with
    | cond htest hyes hno htty hyty hnty =>
      exact .cond (iht htest) (ihy hyes) (ihn hno) (arity_of_types htty) (arity_of_types hyty)
        (arity_of_types hnty)
  | field _ _ _ _ ih =>
    cases h with
    | field hwells htys =>
      exact .of_operands rfl (fieldOp_pops _) rfl fun e he => ⟨ih e he (hwells e he), _, htys e he⟩
  | @fieldAt span source f i _ _ _ _ hglobal hinner _ _ ihs ihi =>
    cases h with
    | fieldAt hswells hstys hiwells hitys =>
      obtain ⟨op, hop, hpops⟩ := fieldAtOp_spec f hglobal hinner
      have heq : (Expr.fieldAt span source f i).operation? =
          some (source.exprs ++ i.exprs, .field op f) := by
        simp only [operation?, hop]
      refine .of_operands heq (hpops.trans length_append.symm) rfl
        (forall_mem_append.mpr ⟨?_, ?_⟩)
      · exact fun e he => ⟨ihs e he (hswells e he), _, hstys e he⟩
      · exact fun e he => ⟨ihi e he (hiwells e he), _, hitys e he⟩
  | @arg span i _ _ ih =>
    cases h with
    | arg hwells htys =>
      have hindex : ∀ e ∈ i.exprs, e.Sound p bound ∧ ∃ ty, e.types p = [ty] :=
        fun e he => ⟨ih e he (hwells e he), _, htys e he⟩
      cases i with
      | const n => exact .of_operands rfl rfl rfl hindex
      | dynamic e => exact .of_operands rfl rfl rfl hindex
  | cast _ _ ih =>
    cases h with
    | cast hwell hty => exact .cast (ih hwell) (arity_of_types hty)

namespace Typing

variable {Q : List Diagnostic → Prop} [Silent Q]

theorem length_of_returned {current : Option Function} {value : Expr} {tys : List Ty}
    (h : Q (returnRemarks current value tys)) : tys.length = 1 := by
  rcases tys with _ | ⟨ty, _ | ⟨other, rest⟩⟩
  · exact absurd h (Silent.report _ _ _)
  · rfl
  · exact absurd h (Silent.report _ _ _)

theorem stmt_sound (hp : p.WellBuilt) {current : Option Function} {loops : Nat} {s : Stmt}
    (hs : s.Resolved p bound loops) (h : Q (stmt p current s).faults) : s.Sound p bound loops := by
  have htyped {e : Expr} (he : e.Resolved p bound) : Typed Q p e := typed_of_resolved hp he
  have hsound {e : Expr} (he : e.Resolved p bound) (h : Q (expr p e).faults) : e.Sound p bound :=
    ((faults_expr hp he).mp h).sound he
  have hpart {e : Expr} (he : e.Resolved p bound) {remark : List Ty → List Diagnostic}
      (h : ∀ step ∈ [Step.part e remark], Q (step.faults p current)) :
      e.Sound p bound ∧ Q (remark (e.types p)) :=
    ((silent_part (htyped he)).mp (h _ mem_cons_self)).imp_left (hsound he)
  have htest {e : Expr} (he : e.Resolved p bound) (h : Q ((conditionStep e).faults p current)) :
      e.Sound p bound ∧ e.arity p = 1 :=
    ((silent_needed (htyped he)).mp h).imp (hsound he) Expr.arity_of_types
  rw [silent_stmt Q] at h
  induction hs with
  | varDecl hscope hstores hlength hvalue => exact .varDecl hscope hstores hlength (hpart hvalue h).1
  | constDecl hvalue => exact .constDecl
  | assign hscope hstores hlength hvalue => exact .assign hscope hstores hlength (hpart hvalue h).1
  | setField _ _ hvalue =>
    rw [stmtSteps, forall_mem_singleton, silent_needed (htyped hvalue)] at h
    exact .setField (hsound hvalue h.1) (Expr.arity_of_types h.2)
  | innerBegin => exact .innerBegin
  | innerSubmit => exact .innerSubmit
  | ret hvalue =>
    obtain ⟨hvalue, hremark⟩ := hpart hvalue h
    exact .ret hvalue (length_of_returned hremark)
  | error => exact .error
  | ifThen ht _ ih =>
    rw [stmtSteps, forall_mem_cons, forall_mem_singleton] at h
    obtain ⟨htest, hscalar⟩ := htest ht h.1
    exact .ifThen htest hscalar fun s hs => ih s hs ((silent_stmt Q).mp (faults_block.mp h.2 s hs))
  | ifElse ht _ _ ihy ihn =>
    rw [stmtSteps, forall_mem_cons, forall_mem_cons, forall_mem_singleton] at h
    obtain ⟨htest, hscalar⟩ := htest ht h.1
    exact .ifElse htest hscalar (fun s hs => ihy s hs ((silent_stmt Q).mp (faults_block.mp h.2.1 s hs)))
      fun s hs => ihn s hs ((silent_stmt Q).mp (faults_block.mp h.2.2 s hs))
  | loop ht _ ih =>
    rw [stmtSteps, forall_mem_cons, forall_mem_singleton] at h
    obtain ⟨htest, hscalar⟩ := htest ht h.1
    exact .loop htest hscalar fun s hs => ih s hs ((silent_stmt Q).mp (faults_block.mp h.2 s hs))
  | breakLoop => exact .breakLoop
  | expr hvalue => exact .expr (hpart hvalue h).1

end Typing

end WellTyped

/-- A well built program in whose types nothing fatal is found is sound. -/
theorem WellBuilt.sound {p : Program} (hp : p.WellBuilt)
    (h : ∀ d ∈ p.typeFaults, d.isFatal = false) : p.Sound := by
  obtain ⟨hglobals, hfunctions⟩ := forall_mem_append.mp h
  have hfunction {f : Function} (hf : f ∈ p.functions) :=
    (Typing.faults_function_iff (Q := Typing.Quiet)).mp fun d hd =>
      hfunctions d (mem_flatMap.mpr ⟨f, hf, hd⟩)
  refine ⟨hp, fun hf s hs => ?_, fun s hs => ?_, fun f hf => (hfunction hf).2.1⟩
  · have hbody := Typing.faults_block.mp (hfunction (mem_of_getElem? hf)).1
    exact Typing.stmt_sound hp (hp.bodies hf s hs) (hbody s hs)
  · have hblock := (Typing.faults_block (Q := Typing.Quiet)).mp hglobals
    exact Typing.stmt_sound hp (hp.globals s hs) (hblock s hs)

end Teal.Program
