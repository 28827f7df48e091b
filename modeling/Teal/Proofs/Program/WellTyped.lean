import Mathlib.Tactic.MkIffOfInductiveProp
import Teal.Proofs.Program.Build.Item
import Teal.Proofs.Program.Typing.Steps

/-! What it means for a program to be well typed, said by rules for each form of expression and statement
and without the checker. An expression is typed by what declarations tell of it. The checker computes
types on its own, goes on with an invalid type after each report and says nothing more about that; yet it
reports nothing just if the rules hold. -/

namespace Teal.Program

open List

def Expr.types (p : Program) (e : Expr) : List Ty := e.resultTypes p.scopes p.functions

/-- Every value inside an expression is of the type that its place demands. -/
@[mk_iff]
inductive Expr.WellTyped (p : Program) : Expr → Prop
  | literal {span value ref} : WellTyped p (.literal span value ref)
  | ident {span name scope} : WellTyped p (.ident span name scope)
  | unary {span op e} (he : WellTyped p e) (hty : e.types p = [.integer]) :
      WellTyped p (.unary span op e)
  | binary {span op l r ty} (hl : WellTyped p l) (hr : WellTyped p r) (hlty : l.types p = [ty])
      (hrty : r.types p = [ty]) (hop : ty = .integer ∨ ty = .bytes ∧ (op = .eq ∨ op = .ne)) :
      WellTyped p (.binary span op l r)
  | group {span e} (he : WellTyped p e) : WellTyped p (.group span e)
  | call {span f name site args} {callee : Function} (hcallee : p.functions[f]? = some callee)
      (hargs : ∀ e ∈ args, WellTyped p e)
      (htys : args.map (·.types p) = callee.params.map fun param => [param.2]) :
      WellTyped p (.call span f name site args)
  | builtin {span call args} (hargs : ∀ e ∈ args, WellTyped p e)
      (hlength : args.length = call.params.length)
      (htys : ∀ x ∈ args.zip call.params, ∃ ty, x.1.types p = [ty] ∧ x.2.2.accepts ty = true) :
      WellTyped p (.builtin span call args)
  | cond {span label test yes no ty} (htest : WellTyped p test) (hyes : WellTyped p yes)
      (hno : WellTyped p no) (htestTy : test.types p = [.integer]) (hyesTy : yes.types p = [ty])
      (hnoTy : no.types p = [ty]) : WellTyped p (.cond span label test yes no)
  | field {span source f} (hsource : ∀ e ∈ source.exprs, WellTyped p e)
      (hsourceTy : ∀ e ∈ source.exprs, e.types p = [.integer]) : WellTyped p (.field span source f)
  | fieldAt {span source f index} (hsource : ∀ e ∈ source.exprs, WellTyped p e)
      (hsourceTy : ∀ e ∈ source.exprs, e.types p = [.integer])
      (hindex : ∀ e ∈ index.exprs, WellTyped p e)
      (hindexTy : ∀ e ∈ index.exprs, e.types p = [.integer]) :
      WellTyped p (.fieldAt span source f index)
  | arg {span index} (hindex : ∀ e ∈ index.exprs, WellTyped p e)
      (hindexTy : ∀ e ∈ index.exprs, e.types p = [.integer]) : WellTyped p (.arg span index)
  | cast {span ty e inner} (he : WellTyped p e) (hty : e.types p = [inner]) :
      WellTyped p (.cast span ty e)

/-- A statement is well typed where values of some type are returned, or where nothing is returned. -/
@[mk_iff]
inductive Stmt.WellTyped (p : Program) (returned : Option Ty) : Stmt → Prop
  | varDecl {span scope names value} (hvalue : value.WellTyped p) (hty : .unknown ∉ value.types p) :
      WellTyped p returned (.varDecl span scope names value)
  | constDecl {span name value} (hvalue : value.WellTyped p) :
      WellTyped p returned (.constDecl span name value)
  | assign {span scope targets value} (hvalue : value.WellTyped p)
      (hty : value.types p = targets.map fun target => p.scopes.tyOf scope target.text) :
      WellTyped p returned (.assign span scope targets value)
  | setField {span field value} (hvalue : value.WellTyped p) (hty : value.types p = [field.ty]) :
      WellTyped p returned (.setField span field value)
  | innerBegin {span} : WellTyped p returned (.innerBegin span)
  | innerSubmit {span} : WellTyped p returned (.innerSubmit span)
  | ret {span value ty} (hvalue : value.WellTyped p) (hreturned : returned = some ty)
      (hty : value.types p = [ty]) : WellTyped p returned (.ret span value)
  | error {span} : WellTyped p returned (.error span)
  | ifThen {span label test yes} (htest : test.WellTyped p) (hty : test.types p = [.integer])
      (hyes : ∀ s ∈ yes, WellTyped p returned s) : WellTyped p returned (.ifThen span label test yes)
  | ifElse {span label test yes no} (htest : test.WellTyped p) (hty : test.types p = [.integer])
      (hyes : ∀ s ∈ yes, WellTyped p returned s) (hno : ∀ s ∈ no, WellTyped p returned s) :
      WellTyped p returned (.ifElse span label test yes no)
  | loop {span label test body} (htest : test.WellTyped p) (hty : test.types p = [.integer])
      (hbody : ∀ s ∈ body, WellTyped p returned s) : WellTyped p returned (.loop span label test body)
  | breakLoop {span} : WellTyped p returned (.breakLoop span)
  | expr {span value} (hvalue : value.WellTyped p) : WellTyped p returned (.expr span value)

/-- The type of what a function returns; the entry point returns an integer. -/
def Function.returned (f : Function) : Ty := if f.isEntry then .integer else f.returnTy

/-- A function is well typed: so are its statements, what it returns is of a known type, and control
does not run over its end. -/
structure Function.WellTyped (p : Program) (f : Function) : Prop where
  body : ∀ s ∈ f.body, s.WellTyped p (some f.returned)
  returned : blockHasReturn f.body = true → f.returned.isResolved = true
  terminates : blockTerminates f.body = true

structure WellTyped (p : Program) : Prop where
  globals : ∀ s ∈ p.globals, s.WellTyped p none
  functions : ∀ f ∈ p.functions, f.WellTyped p

namespace Typing

/-! ### Reports that are not made -/

/-- A way to say that nothing worth mentioning was reported. Every fault of a type is worth it. -/
class Silent (Q : List Diagnostic → Prop) : Prop where
  nil : Q []
  append {ds es : List Diagnostic} : Q (ds ++ es) ↔ Q ds ∧ Q es
  report (span : Span) (f : Fault) (ds : List Diagnostic) : ¬Q (f.toDiagnostic span :: ds)

instance : Silent (· = []) where
  nil := rfl
  append := append_eq_nil_iff
  report _ _ _ := cons_ne_nil _ _

def Quiet (ds : List Diagnostic) : Prop := ∀ d ∈ ds, d.isFatal = false

instance : Silent Quiet where
  nil := by simp [Quiet]
  append := forall_mem_append
  report _ _ _ h := by cases h _ mem_cons_self

section Reports

variable (Q : List Diagnostic → Prop) [Silent Q]

theorem silent_append {ds es : List Diagnostic} : Q (ds ++ es) ↔ Q ds ∧ Q es := Silent.append

theorem silent_flatMap {α : Type} {l : List α} {f : α → List Diagnostic} :
    Q (l.flatMap f) ↔ ∀ x ∈ l, Q (f x) := by
  induction l with
  | nil => simp [Silent.nil]
  | cons x rest ih => rw [flatMap_cons, silent_append Q, ih, forall_mem_cons]

theorem silent_ite {c : Prop} [Decidable c] {span : Span} {f : Fault} :
    Q (if c then [f.toDiagnostic span] else []) ↔ ¬c := by
  by_cases h : c <;> simp [h, Silent.nil, Silent.report]

end Reports

/-- Types that are compared pair by pair are the same. -/
theorem forall_zip_iff {α β γ : Type} {f : α → γ} {g : β → γ} : ∀ {l : List α} {r : List β},
    l.length = r.length → ((∀ x ∈ l.zip r, f x.1 = g x.2) ↔ l.map f = r.map g)
  | [], [], _ => by simp
  | a :: l, b :: r, h => by
      rw [zip_cons_cons, forall_mem_cons, forall_zip_iff (Nat.succ.inj h), map_cons,
        map_cons, List.cons.injEq]

variable {Q : List Diagnostic → Prop} [Silent Q] {p : Program} {bound : Nat} {current : Option Function}

section Exprs

variable {e l r : Expr}

/-- What is known of an expression before it is checked: its types are valid, and the check finds them
if it reports nothing. -/
structure Typed (Q : List Diagnostic → Prop) (p : Program) (e : Expr) : Prop where
  value : Q (expr p e).faults → (expr p e).value = e.types p
  valid : ∀ ty ∈ e.types p, ty ≠ .invalid

/-! ### Steps without a report -/

variable (h : Typed Q p e)

include h

theorem silent_part {remark : List Ty → List Diagnostic} :
    Q ((Step.part e remark).faults p current) ↔ Q (expr p e).faults ∧ Q (remark (e.types p)) := by
  rw [Step.faults, silent_append Q]
  exact and_congr_right fun hfaults => by rw [h.value hfaults]

/-- Where one value is needed and something is said of its type, nothing is reported just if there is one
and nothing is said of it. -/
theorem silent_single {remark : Ty → List Diagnostic} {accepted : Ty → Prop}
    (hremark : ∀ ty, ty ≠ .invalid → (Q (remark ty) ↔ accepted ty)) :
    Q ((Step.part e fun tys => countRemarks e tys ++ remark (single tys)).faults p current) ↔
      Q (expr p e).faults ∧ ∃ ty, e.types p = [ty] ∧ accepted ty := by
  rw [silent_part h, silent_append Q]
  refine and_congr_right fun _ => ?_
  have hvalid : ∀ ty ∈ e.types p, ty ≠ .invalid := h.valid
  revert hvalid
  rcases e.types p with _ | ⟨ty, _ | ⟨other, rest⟩⟩ <;> intro hvalid
  · simp [countRemarks, Silent.report]
  · simp [countRemarks, single, Silent.nil, hremark ty (hvalid ty mem_cons_self)]
  · have hmem : .invalid ∉ ty :: other :: rest := fun hmem => hvalid _ hmem rfl
    simp [countRemarks, hmem, Silent.report]

theorem silent_count : Q ((Step.part e (countRemarks e)).faults p current) ↔
    Q (expr p e).faults ∧ ∃ ty, e.types p = [ty] := by
  simpa using silent_single h fun ty _ => iff_true_intro (Silent.nil (Q := Q))

/-- A value of a valid type is not reported just if it is of the type that is needed. -/
theorem silent_needed {needed : Ty} {fault : Ty → Fault} :
    Q ((Step.part e (neededRemarks e needed fault)).faults p current) ↔
      Q (expr p e).faults ∧ e.types p = [needed] := by
  have hremark (ty : Ty) (hvalid : ty ≠ .invalid) : Q (if conflicts ty needed = true then
      [(fault ty).toDiagnostic e.span] else []) ↔ ty = needed := by
    rw [silent_ite Q]
    simp [conflicts, hvalid]
  exact (silent_single h hremark).trans (and_congr_right' exists_eq_right)

theorem silent_shape {callee : String} {param : Nat × Builtin.ArgShape} :
    Q ((Step.part e (shapeRemarks callee param e)).faults p current) ↔
      Q (expr p e).faults ∧ ∃ ty, e.types p = [ty] ∧ param.2.accepts ty = true := by
  have hremark (ty : Ty) (hvalid : ty ≠ .invalid) : Q (if ty = .invalid ∨ param.2.accepts ty = true then []
      else [(Fault.builtinArgument param.1 callee param.2 ty).toDiagnostic e.span]) ↔
        param.2.accepts ty = true := by
    rw [← ite_not, silent_ite Q]
    simp [hvalid]
  exact silent_single h hremark

omit h

theorem silent_indices {es : List Expr} (h : ∀ e ∈ es, Typed Q p e) :
    (∀ step ∈ es.map indexStep, Q (step.faults p current)) ↔
      (∀ e ∈ es, Q (expr p e).faults) ∧ ∀ e ∈ es, e.types p = [.integer] := by
  rw [forall_mem_map, ← forall₂_and]
  exact forall₂_congr fun e he => silent_needed (h e he)

omit [Silent Q] in
theorem silent_arguments {α : Type} {remarks : α → Expr → List Ty → List Diagnostic}
    (accepted : α → List Ty → Prop) {args : List Expr} {params : List α}
    (hlength : args.length = params.length)
    (h : ∀ e ∈ args, ∀ param, Q ((Step.part e (remarks param e)).faults p current) ↔
      Q (expr p e).faults ∧ accepted param (e.types p)) :
    (∀ step ∈ argumentSteps remarks args params, Q (step.faults p current)) ↔
      (∀ e ∈ args, Q (expr p e).faults) ∧ ∀ x ∈ args.zip params, accepted x.2 (x.1.types p) := by
  induction args generalizing params with
  | nil => simp [argumentSteps]
  | cons e rest ih =>
    cases params with
    | nil => cases hlength
    | cons param params =>
      obtain ⟨he, hrest⟩ := forall_mem_cons.mp h
      rw [argumentSteps, forall_mem_cons, he, ih (Nat.succ.inj hlength) hrest, zip_cons_cons,
        forall_mem_cons, forall_mem_cons]
      exact and_and_and_comm

/-- Two values are needed, and something is said of their types together. -/
theorem silent_both (hl : Typed Q p l) (hr : Typed Q p r) {remark : Ty → Ty → List Diagnostic}
    {accepted : Ty → Prop} (hremark : ∀ lhs rhs, lhs ≠ .invalid → rhs ≠ .invalid →
      (Q (remark lhs rhs) ↔ lhs = rhs ∧ accepted lhs)) :
    (∀ step ∈ [Step.part l (countRemarks l), .part r (countRemarks r),
        .both l r fun ls rs => remark (single ls) (single rs)], Q (step.faults p current)) ↔
      Q (expr p l).faults ∧ Q (expr p r).faults ∧
        ∃ ty, l.types p = [ty] ∧ r.types p = [ty] ∧ accepted ty := by
  rw [forall_mem_cons, forall_mem_cons, forall_mem_singleton, silent_count hl, silent_count hr, Step.faults]
  have hiff {lhs rhs : Ty} (hlty : l.types p = [lhs]) (hrty : r.types p = [rhs]) :=
    hremark lhs rhs (hl.valid lhs (by simp [hlty])) (hr.valid rhs (by simp [hrty]))
  constructor
  · rintro ⟨⟨hlfaults, lhs, hlty⟩, ⟨hrfaults, rhs, hrty⟩, hboth⟩
    rw [hl.value hlfaults, hr.value hrfaults, hlty, hrty] at hboth
    obtain ⟨rfl, haccepted⟩ := (hiff hlty hrty).mp hboth
    exact ⟨hlfaults, hrfaults, lhs, hlty, hrty, haccepted⟩
  · rintro ⟨hlfaults, hrfaults, ty, hlty, hrty, haccepted⟩
    rw [hl.value hlfaults, hr.value hrfaults, hlty, hrty]
    exact ⟨⟨hlfaults, ty, rfl⟩, ⟨hrfaults, ty, rfl⟩, (hiff hlty hrty).mpr ⟨rfl, haccepted⟩⟩

/-- What a binary operator accepts of operands of one type. -/
theorem allows_iff (op : BinOp) {ty : Ty} : allows op.operandRule ty = true ↔
    ty = .integer ∨ ty = .bytes ∧ (op = .eq ∨ op = .ne) := by
  cases op <;> cases ty <;> decide

theorem silent_unary {op : UnOp} {ty : Ty} (hty : ty ≠ .invalid) :
    Q (unary e op ty).faults ↔ ty = .integer := by
  rw [unary]
  by_cases hinteger : ty = .integer <;> simp [conflicts, hinteger, hty, fail, Silent.nil, Silent.report]

theorem silent_binary {op : BinOp} {lhs rhs : Ty} (hl : lhs ≠ .invalid) (hr : rhs ≠ .invalid) :
    Q (binary e op lhs rhs).faults ↔
      lhs = rhs ∧ (lhs = .integer ∨ lhs = .bytes ∧ (op = .eq ∨ op = .ne)) := by
  rw [binary, if_neg (by simp [hl, hr]), ← allows_iff]
  by_cases hsame : lhs = rhs
  · rw [if_neg (by simp [hsame])]
    cases allows op.operandRule lhs <;> simp [fail, hsame, Silent.nil, Silent.report]
  · simp [hsame, fail, Silent.report]

theorem silent_branches {yes no : Ty} (hyes : yes ≠ .invalid) (hno : no ≠ .invalid) :
    Q (branches e yes no).faults ↔ yes = no ∧ True := by
  rw [branches, if_neg (by simp [hyes, hno])]
  by_cases hsame : yes = no <;> simp [hsame, fail, Silent.nil, Silent.report]

/-! ### Expressions -/

theorem value_builtinArguments (callee : String) (args : List Expr) :
    ∀ params : List (Nat × Builtin.ArgShape),
    (∀ e ∈ args, (expr p e).value = e.types p ∧ ∀ ty ∈ e.types p, ty ≠ .invalid) →
    (∀ x ∈ args.zip params, ∃ ty, x.1.types p = [ty] ∧ x.2.2.accepts ty = true) →
    (builtinArguments p callee args params).value = true := by
  induction args with
  | nil => exact fun _ _ _ => rfl
  | cons e rest ih =>
    rintro (_ | ⟨⟨position, shape⟩, params⟩) hargs htys
    · rfl
    · obtain ⟨⟨hvalue, hvalid⟩, hrest⟩ := forall_mem_cons.mp hargs
      obtain ⟨⟨ty, hty, haccepts⟩, htys⟩ := forall_mem_cons.mp htys
      simp [builtinArguments, builtinArgument, scalar_eq, hvalue, hty, single, hvalid ty (by simp [hty]),
        haccepts, ih params hrest htys]

/-- The check of what is well typed finds its types. -/
theorem value_of_wellTyped (hp : p.WellBuilt) (he : e.Resolved p bound) (h : e.WellTyped p) :
    (expr p e).value = e.types p := by
  have hvalid {e : Expr} (he : e.Resolved p bound) : ∀ ty ∈ e.types p, ty ≠ .invalid :=
    he.resultTypes_valid hp.symbols hp.returns
  induction he with
  | literal | ident | field | fieldAt | arg => rfl
  | unary _ ih =>
    cases h with
    | unary he hty =>
      simp only [expr, Checked.value_bind, scalar_eq, ih he, hty]
      rfl
  | @binary span op l r hl _ ihl ihr =>
    cases h with
    | @binary _ _ _ _ ty hlwell hrwell hlty hrty hop =>
      have hty := hvalid hl ty (by simp [hlty])
      simp only [expr, Checked.value_bind, scalar_eq, ihl hlwell, ihr hrwell, hlty, hrty, single]
      simp [binary, hty, (allows_iff op).mpr hop, Expr.types, Expr.resultTypes]
  | group _ ih =>
    cases h with
    | group he => exact ih he
  | call _ hcallee => simp [expr, hcallee, Expr.types, Expr.resultTypes]
  | builtin _ _ hargs ih =>
    cases h with
    | builtin hwells _ htys =>
      rw [expr, Checked.value_bind, value_builtinArguments _ _ _
        (fun e he => ⟨ih e he (hwells e he), hvalid (hargs e he)⟩) htys]
      rfl
  | @cond span label test yes no _ hyes _ _ ihy ihn =>
    cases h with
    | @cond _ _ _ _ _ ty _ hywell hnwell _ hyty hnty =>
      have hty := hvalid hyes ty (by simp [hyty])
      simp only [expr, Checked.value_bind, scalar_eq, ihy hywell, ihn hnwell, hyty, hnty, single]
      rw [Expr.types] at hyty
      simp [branches, hty, Expr.types, Expr.resultTypes, hyty]
  | cast _ he ih =>
    cases h with
    | @cast _ _ _ inner hwell hty =>
      have hinner := hvalid he inner (by simp [hty])
      simp only [expr, Checked.value_bind, scalar_eq, ih hwell, hty, single, hinner]
      rfl

variable (Q) in
theorem silent_expr : Q (expr p e).faults ↔ ∀ step ∈ exprSteps p e, Q (step.faults p none) := by
  rw [faults_expr_eq p none, silent_flatMap Q]

/-- Nothing is reported of an expression just if it is well typed. -/
theorem faults_expr (hp : p.WellBuilt) (he : e.Resolved p bound) : Q (expr p e).faults ↔ e.WellTyped p := by
  have htyped {e : Expr} (he : e.Resolved p bound) (h : Q (expr p e).faults ↔ e.WellTyped p) :
      Typed Q p e := ⟨fun hfaults => value_of_wellTyped hp he (h.mp hfaults),
    he.resultTypes_valid hp.symbols hp.returns⟩
  induction he with
  | literal => exact iff_of_true Silent.nil .literal
  | ident => exact iff_of_true Silent.nil .ident
  | unary he ih =>
    rw [silent_expr Q, exprSteps, forall_mem_singleton,
      silent_single (htyped he ih) fun _ => silent_unary, Expr.wellTyped_iff]
    simp [ih]
  | binary hl hr ihl ihr =>
    rw [silent_expr Q, exprSteps, silent_both (htyped hl ihl) (htyped hr ihr) fun _ _ => silent_binary,
      Expr.wellTyped_iff]
    simp [ihl, ihr]
  | group he ih =>
    rw [silent_expr Q, exprSteps, forall_mem_singleton, silent_part (htyped he ih), Expr.wellTyped_iff]
    simp [ih, Silent.nil]
  | @call span f name site args callee hbound hcallee hname hentry hlength hargs ih =>
    rw [silent_expr Q, exprSteps, hcallee, Expr.wellTyped_iff]
    refine (silent_arguments (fun (param : Ty × Nat) tys => tys = [param.1]) ?_ fun e he param =>
      silent_needed (htyped (hargs e he) (ih e he))).trans ?_
    · simp [hlength]
    · have hparams : ((callee.params.map (·.2)).zipIdx 1).map (fun param => [param.1]) =
          callee.params.map fun param => [param.2] := by
        rw [← Function.comp_def (fun ty : Ty => [ty]) Prod.fst, ← map_map, zipIdx_map_fst, map_map]
        rfl
      rw [forall_zip_iff (f := Expr.types p) (g := fun param : Ty × Nat => [param.1]) (by simp [hlength]),
        hparams]
      simp [hcallee, forall₂_congr ih]
  | builtin hagrees _ hargs ih =>
    rw [silent_expr Q, exprSteps, Expr.wellTyped_iff]
    refine (silent_arguments (fun (param : Nat × Builtin.ArgShape) tys => ∃ ty, tys = [ty] ∧
      param.2.accepts ty = true) hagrees.params.symm fun e he param =>
        silent_shape (htyped (hargs e he) (ih e he))).trans ?_
    simp [hagrees.params, forall₂_congr ih]
  | cond htest hyes hno iht ihy ihn =>
    rw [silent_expr Q, exprSteps, forall_mem_cons, conditionStep, silent_needed (htyped htest iht),
      silent_both (htyped hyes ihy) (htyped hno ihn) fun _ _ => silent_branches, Expr.wellTyped_iff]
    simp [iht, ihy, ihn, and_left_comm, and_assoc]
  | field _ _ _ hsource ih =>
    rw [silent_expr Q, exprSteps, silent_indices fun e he => htyped (hsource e he) (ih e he),
      Expr.wellTyped_iff]
    simp [forall₂_congr ih]
  | fieldAt _ _ _ _ _ _ hsource hindex ihs ihi =>
    rw [silent_expr Q, exprSteps, forall_mem_append, silent_indices fun e he => htyped (hsource e he) (ihs e he),
      silent_indices fun e he => htyped (hindex e he) (ihi e he), Expr.wellTyped_iff]
    simp [forall₂_congr ihs, forall₂_congr ihi, and_assoc]
  | arg _ hindex ih =>
    rw [silent_expr Q, exprSteps, silent_indices fun e he => htyped (hindex e he) (ih e he),
      Expr.wellTyped_iff]
    simp [forall₂_congr ih]
  | cast _ he ih =>
    rw [silent_expr Q, exprSteps, forall_mem_singleton, silent_count (htyped he ih), Expr.wellTyped_iff]
    simp [ih]

/-- The check of a resolved expression finds its types. -/
theorem typed_of_resolved (hp : p.WellBuilt) (he : e.Resolved p bound) : Typed Q p e :=
  ⟨fun hfaults => value_of_wellTyped hp he ((faults_expr hp he).mp hfaults),
    he.resultTypes_valid hp.symbols hp.returns⟩

end Exprs

/-! ### Statements -/

section Stmts

variable {value : Expr} {stmts : List Stmt}

variable (Q) in
theorem silent_declared {l : List (Ident × Ty)} : Q (declared value l).faults ↔ ∀ x ∈ l, x.2 ≠ .unknown := by
  induction l with
  | nil => simp [declared, Silent.nil]
  | cons x rest ih =>
    obtain ⟨name, ty⟩ := x
    rw [declared, forall_mem_cons]
    by_cases hty : ty = .unknown
    · simp [hty, report, Silent.report]
    · simp [hty, ih]

variable (Q) in
theorem silent_assigned {scope : ScopeId} {l : List (Ident × Ty)}
    (hvalid : ∀ x ∈ l, x.2 ≠ .invalid ∧ p.scopes.tyOf scope x.1.text ≠ .invalid) :
    Q (assigned p scope value l).faults ↔ ∀ x ∈ l, x.2 = p.scopes.tyOf scope x.1.text := by
  induction l with
  | nil => simp [assigned, Silent.nil]
  | cons x rest ih =>
    obtain ⟨target, ty⟩ := x
    obtain ⟨⟨hty, hneeded⟩, hrest⟩ := forall_mem_cons.mp hvalid
    rw [assigned, forall_mem_cons]
    by_cases hsame : ty = p.scopes.tyOf scope target.text
    · simp [conflicts, hsame, ih hrest]
    · simp [conflicts, hsame, hty, hneeded, report, Silent.report]

/-- A function returns values of a known type, and its declaration tells that type. -/
def Returns (f : Function) : Prop := f.returnTy = f.returned ∧ f.returned.isResolved = true

variable (Q) in
theorem silent_returned {f : Function} (hf : Returns f) {tys : List Ty} (hvalid : ∀ ty ∈ tys, ty ≠ .invalid) :
    Q (returnRemarks (some f) value tys) ↔ tys = [f.returned] := by
  obtain ⟨hty, hresolved⟩ := hf
  have hknown : f.returned ≠ .invalid ∧ f.returned ≠ .unknown := by
    constructor <;> intro heq <;> simp [heq, Ty.isResolved] at hresolved
  rcases tys with _ | ⟨ty, _ | ⟨other, rest⟩⟩
  · simp [returnRemarks, Silent.report]
  · by_cases heq : ty = f.returned
    · simp [returnRemarks, hty, heq, conflicts, Silent.nil]
    · have hty' := hvalid ty mem_cons_self
      cases hentry : f.isEntry <;>
        simp [returnRemarks, hknown, hty, heq, hty', conflicts, hentry, Silent.report]
  · simp [returnRemarks, Silent.report]

theorem faults_block : Q (block p current stmts).faults ↔ ∀ s ∈ stmts, Q (stmt p current s).faults := by
  induction stmts with
  | nil => simp [block, Silent.nil]
  | cons s rest ih => rw [block, Checked.faults_bind, silent_append Q, ih, forall_mem_cons]

theorem blockHasReturn_of_mem {s : Stmt} (hs : s ∈ stmts) (h : s.hasReturn = true)
    : blockHasReturn stmts = true := by
  induction stmts with
  | nil => cases hs
  | cons first rest ih =>
    rw [blockHasReturn, Bool.or_eq_true_iff]
    rcases mem_cons.mp hs with rfl | hs
    · exact .inl h
    · exact .inr (ih hs)

/-- The type of an assigned variable is valid. -/
theorem tyOf_valid (hp : p.WellBuilt) {scope : ScopeId} {targets : List Ident}
    (hstores : Stores p scope targets) : ∀ target ∈ targets, p.scopes.tyOf scope target.text ≠ .invalid := by
  intro target htarget
  obtain ⟨slot, hslot⟩ := hstores target htarget
  obtain ⟨x, hlookup, _⟩ := Scopes.exists_lookup_of_kindOf? hslot
  obtain ⟨_, i, hdeclares⟩ := Scopes.declares_of_lookup hlookup
  simpa [Scopes.tyOf, hlookup] using hp.symbols hdeclares

theorem faults_stmts
    (h : ∀ s ∈ stmts, Q (stmt p current s).faults ↔ s.WellTyped p (current.map (·.returned))) :
    Q (block p current stmts).faults ↔ ∀ s ∈ stmts, s.WellTyped p (current.map (·.returned)) := by
  exact faults_block.trans (forall₂_congr h)

variable (Q) in
theorem silent_stmt {s : Stmt} :
    Q (stmt p current s).faults ↔ ∀ step ∈ stmtSteps p current s, Q (step.faults p current) := by
  rw [faults_stmt_eq, silent_flatMap Q]

/-- Nothing is reported of a statement just if it is well typed, provided that the function around it
returns values of a known type if the statement returns any. -/
theorem faults_stmt (hp : p.WellBuilt) {loops : Nat} {s : Stmt} (hs : s.Resolved p bound loops)
    (hreturns : s.hasReturn = true → ∃ f, current = some f ∧ Returns f) :
    Q (stmt p current s).faults ↔ s.WellTyped p (current.map (·.returned)) := by
  have htyped {e : Expr} (he : e.Resolved p bound) : Typed Q p e := typed_of_resolved hp he
  have hexpr {e : Expr} (he : e.Resolved p bound) := faults_expr (Q := Q) hp he
  induction hs with
  | @varDecl _ span scope names value _ _ hlength hvalue =>
    have hknown : (∀ x ∈ names.zip (value.types p), x.2 ≠ .unknown) ↔ .unknown ∉ value.types p := by
      constructor
      · intro h hmem
        obtain ⟨name, hname⟩ := exists_mem_zip (Nat.le_of_eq hlength.symm) hmem
        exact h _ hname rfl
      · exact fun h x hx heq => h (heq ▸ (of_mem_zip hx).2)
    rw [silent_stmt Q, stmtSteps, forall_mem_singleton, silent_part (htyped hvalue),
      silent_declared Q, hknown, Stmt.wellTyped_iff]
    simp [hexpr hvalue]
  | constDecl hvalue | expr hvalue =>
    rw [silent_stmt Q, stmtSteps, forall_mem_singleton, silent_part (htyped hvalue), Stmt.wellTyped_iff]
    simp [hexpr hvalue, Silent.nil]
  | @assign _ span scope targets value _ hstores hlength hvalue =>
    have hvalid : ∀ x ∈ targets.zip (value.types p), x.2 ≠ .invalid ∧
        p.scopes.tyOf scope x.1.text ≠ .invalid := fun x hx =>
      ⟨(htyped hvalue).valid x.2 (of_mem_zip hx).2, tyOf_valid hp hstores x.1 (of_mem_zip hx).1⟩
    have htys := forall_zip_iff (g := id) hlength (f := fun target => p.scopes.tyOf scope target.text)
    rw [silent_stmt Q, stmtSteps, forall_mem_singleton, silent_part (htyped hvalue),
      silent_assigned Q hvalid, forall₂_congr fun _ _ => eq_comm, Stmt.wellTyped_iff]
    refine (and_congr (hexpr hvalue) htys).trans ?_
    simp [Expr.types, eq_comm]
  | setField _ _ hvalue =>
    rw [silent_stmt Q, stmtSteps, forall_mem_singleton, silent_needed (htyped hvalue), Stmt.wellTyped_iff]
    simp [hexpr hvalue]
  | innerBegin => exact iff_of_true Silent.nil .innerBegin
  | innerSubmit => exact iff_of_true Silent.nil .innerSubmit
  | ret hvalue =>
    obtain ⟨f, rfl, hf⟩ := hreturns rfl
    rw [silent_stmt Q, stmtSteps, forall_mem_singleton, silent_part (htyped hvalue),
      silent_returned Q hf (htyped hvalue).valid, Stmt.wellTyped_iff]
    simp [hexpr hvalue]
  | error => exact iff_of_true Silent.nil .error
  | ifThen htest _ ih | loop htest _ ih =>
    rw [Stmt.hasReturn] at hreturns
    have hinner := faults_stmts fun s hs => ih s hs fun h => hreturns (blockHasReturn_of_mem hs h)
    rw [silent_stmt Q, stmtSteps, forall_mem_cons, conditionStep, silent_needed (htyped htest),
      forall_mem_singleton, Step.faults, hinner, Stmt.wellTyped_iff]
    simp [hexpr htest, and_assoc]
  | ifElse htest _ _ ihy ihn =>
    rw [Stmt.hasReturn, Bool.or_eq_true_iff] at hreturns
    have hyes := faults_stmts fun s hs => ihy s hs fun h =>
      hreturns (.inl (blockHasReturn_of_mem hs h))
    have hno := faults_stmts fun s hs => ihn s hs fun h =>
      hreturns (.inr (blockHasReturn_of_mem hs h))
    rw [silent_stmt Q, stmtSteps, forall_mem_cons, conditionStep, silent_needed (htyped htest),
      forall_mem_cons, forall_mem_singleton, Step.faults, Step.faults, hyes, hno, Stmt.wellTyped_iff]
    simp [hexpr htest, and_assoc]
  | breakLoop => exact iff_of_true Silent.nil .breakLoop

/-! ### Functions -/

theorem isResolved_iff {ty : Ty} (h : ty ≠ .invalid) : ty.isResolved = true ↔ ty ≠ .unknown := by
  cases ty <;> simp_all [Ty.isResolved]

theorem faults_function_iff {f : Function} : Q (function p f).faults ↔
    Q (block p (some f) f.body).faults ∧ blockTerminates f.body = true ∧
      (!f.isEntry && decide (f.returnTy = .unknown) && blockHasReturn f.body) = false := by
  rw [function, Checked.faults_bind, silent_append Q]
  refine and_congr_right fun _ => ?_
  cases blockTerminates f.body with
  | false => simp [report, Silent.report]
  | true =>
    cases !f.isEntry && decide (f.returnTy = .unknown) && blockHasReturn f.body with
    | true => simp [report, Silent.report]
    | false => simp [Silent.nil]

/-- Nothing is reported of a function just if it is well typed. The entry point is declared to return an
integer. -/
theorem faults_function (hp : p.WellBuilt) {f : Function} (hf : f ∈ p.functions)
    (hbody : BlockResolved 0 p bound f.body) (hentry : f.isEntry = true → f.returnTy = .integer) :
    Q (function p f).faults ↔ f.WellTyped p := by
  have hreturned : f.returnTy = f.returned := by
    rw [Function.returned]
    split
    · next h => exact hentry h
    · rfl
  have hvalid : f.returned ≠ .invalid := hreturned ▸ hp.returns f hf
  have hunknown : (!f.isEntry && decide (f.returnTy = .unknown) && blockHasReturn f.body) = false ↔
      (blockHasReturn f.body = true → f.returned.isResolved = true) := by
    rw [hreturned, isResolved_iff hvalid]
    by_cases hty : f.returned = .unknown
    · cases hother : f.isEntry with
      | true =>
        rw [Function.returned, if_pos hother] at hty
        cases hty
      | false => simp [hty]
    · simp [hty]
  have hstmts (hresolved : blockHasReturn f.body = true → f.returned.isResolved = true) :
      Q (block p (some f) f.body).faults ↔ ∀ s ∈ f.body, s.WellTyped p (some f.returned) :=
    faults_stmts fun s hs => faults_stmt hp (hbody s hs) fun h =>
      ⟨f, rfl, hreturned, hresolved (blockHasReturn_of_mem hs h)⟩
  rw [faults_function_iff (Q := Q), hunknown]
  constructor
  · rintro ⟨hfaults, hterminates, hresolved⟩
    exact ⟨(hstmts hresolved).mp hfaults, hresolved, hterminates⟩
  · exact fun h => ⟨(hstmts h.returned).mpr h.body, h.terminates, h.returned⟩

end Stmts

end Typing

theorem Stmt.hasReturn_of_isDecl {s : Stmt} (h : s.isDecl = true) : s.hasReturn = false := by
  cases s with
  | varDecl | constDecl => rfl
  | _ => cases h

end Teal.Program

namespace Teal

/-- Nothing is reported of the types of a program that was built without a fatal report just if it is
well typed. -/
theorem typeFaults_eq_nil_iff_wellTyped {ms : List Tree.SourceModule} {version : Nat} {p : Program}
    {ds : List Diagnostic} (hbuilt : Program.ofModules ms version = (some p, ds))
    (hds : ∀ d ∈ ds, d.isFatal = false) : p.typeFaults = [] ↔ p.WellTyped := by
  have hp := Program.wellBuilt_of_ofModules hbuilt hds
  obtain ⟨tip, hitems⟩ := Program.itemsMirror_of_ofModules hbuilt hds
  have hglobals : (Program.Typing.block p none p.globals).faults = [] ↔
      ∀ s ∈ p.globals, s.WellTyped p none :=
    Program.Typing.faults_stmts (Q := (· = [])) fun s hs =>
      Program.Typing.faults_stmt (Q := (· = [])) hp (hp.globals s hs) fun h => by
      rw [Program.Stmt.hasReturn_of_isDecl (hp.decls s hs)] at h
      cases h
  have hfunctions : ∀ f ∈ p.functions, (Program.Typing.function p f).faults = [] ↔ f.WellTyped p := by
    intro f hf
    obtain ⟨i, hi⟩ := List.mem_iff_getElem?.mp hf
    obtain ⟨_, _, _, hmirrors⟩ := hitems.exists_mirrors hf
    exact Program.Typing.faults_function (Q := (· = [])) hp hf (hp.bodies hi) hmirrors.returns
  rw [Program.typeFaults, List.append_eq_nil_iff, hglobals, List.flatMap_eq_nil_iff]
  constructor
  · exact fun h => ⟨h.1, fun f hf => (hfunctions f hf).mp (h.2 f hf)⟩
  · exact fun h => ⟨h.globals, fun f hf => (hfunctions f hf).mpr (h.functions f hf)⟩

/-! ### A sample program

It has a global variable, an inline function that is expanded at several places, a subroutine that is
called twice, a loop that is left by a break, and an operation that leaves two values. -/

namespace Sample

open Teal.Tree

def ident (text : String) : Ident := ⟨text, .nowhere⟩

def var (name : String) : Expr := .var .nowhere name

def int (n : UInt64) : Expr := .int .nowhere n

def binary (op : BinOp) (l r : Expr) : Expr := .binary .nowhere op l r

def call (name : String) (args : List Expr) : Expr := .call .nowhere (ident name) args

def declare (names : List String) (value : Expr) : Stmt :=
  .decl .nowhere ⟨false, names.map ident, value⟩

def assign (name : String) (value : Expr) : Stmt :=
  .assign .nowhere (.var .nowhere name) [] value

def function (isInline : Bool) (name : String) (params : List String) (body : List Stmt) : Item :=
  .function .nowhere
    ⟨isInline, ident name, params.map fun param => ⟨ident param, none⟩, ⟨.nowhere, body⟩⟩

def least : Item :=
  function true "least" ["a", "b"]
    [.ret .nowhere (.cond .nowhere (binary .lt (var "a") (var "b")) (var "a") (var "b"))]

/-- The sum of the numbers up to one, which is at most the limit. -/
def total : Item :=
  function false "total" ["n"]
    [declare ["sum"] (int 0), declare ["i"] (int 0),
      .loop .nowhere (int 1) .nowhere
        [.ifThen .nowhere (binary .eq (var "i") (call "least" [var "n", var "limit"])) .nowhere
            [.breakLoop .nowhere],
          assign "i" (binary .add (var "i") (int 1)), assign "sum" (binary .add (var "sum") (var "i"))],
      .ret .nowhere (var "sum")]

def main : Item :=
  function false "logic" ["txn", "gtxn", "args"]
    [declare ["high", "low"] (call "addw" [call "total" [int 2], call "total" [int 5]]),
      .ifElse .nowhere (binary .lt (call "least" [var "high", call "least" [var "low", int 7]]) (int 9))
        .nowhere [.ret .nowhere (var "low")] .nowhere [.error .nowhere]]

def modules : List SourceModule :=
  [⟨"main", 0, ⟨[], [.decl .nowhere ⟨false, [ident "limit"], int 3⟩, least, total, main]⟩, true⟩]

theorem isSome_program : (Program.ofModules modules 5).1.isSome = true := by decide +kernel

def program : Program := (Program.ofModules modules 5).1.get isSome_program

theorem ofModules_modules : Program.ofModules modules 5 = (some program, []) := by
  have hdiagnostics : (Program.ofModules modules 5).2.isEmpty = true := by decide +kernel
  exact Prod.ext (Option.some_get isSome_program).symm (List.isEmpty_iff.mp hdiagnostics)

theorem typeFaults_program : program.typeFaults = [] := by
  have hfaults : program.typeFaults.isEmpty = true := by decide +kernel
  exact List.isEmpty_iff.mp hfaults

end Sample

theorem typeFaults_eq_nil_iff_wellTyped_sample :
    Program.ofModules Sample.modules 5 = (some Sample.program, []) ∧ Sample.program.typeFaults = [] ∧
      Sample.program.WellTyped :=
  ⟨Sample.ofModules_modules, Sample.typeFaults_program,
    (typeFaults_eq_nil_iff_wellTyped Sample.ofModules_modules (by simp)).mp Sample.typeFaults_program⟩

end Teal
