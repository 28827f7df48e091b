import Teal.Program.Typing
import Teal.Proofs.Program.Resolved

/-! The check of an expression or a statement is a row of steps: a part is checked and something is said of its
types, something is said of the types of two parts together, or the statements of a block are checked. -/

namespace Teal.Program

open List

namespace Typing

/-! ### Steps of a check -/

inductive Step where
  /-- A part is checked, then something is said of its types. -/
  | part (e : Expr) (remark : List Ty → List Diagnostic)
  /-- Something is said of the types of two parts together. -/
  | both (l r : Expr) (remark : List Ty → List Ty → List Diagnostic)
  /-- The statements of a block are checked. -/
  | inner (stmts : List Stmt)

namespace Step

def part? : Step → Option Expr
  | .part e _ => some e
  | .both _ _ _ | .inner _ => none

def about : Step → List Expr
  | .part e _ => [e]
  | .both l r _ => [l, r]
  | .inner _ => []

def remarks (p : Program) : Step → List Diagnostic
  | .part e remark => remark (expr p e).value
  | .both l r remark => remark (expr p l).value (expr p r).value
  | .inner _ => []

def faults (p : Program) (current : Option Function) : Step → List Diagnostic
  | .part e remark => (expr p e).faults ++ remark (expr p e).value
  | .both l r remark => remark (expr p l).value (expr p r).value
  | .inner stmts => (block p current stmts).faults

end Step

/-- The only type of a row of types; a row of another length has none. -/
def single : List Ty → Ty
  | [ty] => ty
  | _ => .invalid

def countRemarks (e : Expr) (tys : List Ty) : List Diagnostic :=
  if tys.length = 1 ∨ .invalid ∈ tys then []
  else [(Fault.notScalar e.text tys.length).toDiagnostic e.span]

/-- What is said where one value of a type is needed. -/
def neededRemarks (e : Expr) (needed : Ty) (fault : Ty → Fault) (tys : List Ty) : List Diagnostic :=
  countRemarks e tys ++
    if conflicts (single tys) needed then [(fault (single tys)).toDiagnostic e.span] else []

/-- What is said of an argument, by the type and the position of its parameter. -/
def argumentRemarks (callee : String) (param : Ty × Nat) (e : Expr) : List Ty → List Diagnostic :=
  neededRemarks e param.1 (.argument param.2 callee param.1)

/-- What is said of an argument of a builtin, by the position and the shape of its parameter. -/
def shapeRemarks (callee : String) (param : Nat × Builtin.ArgShape) (e : Expr) (tys : List Ty) :
    List Diagnostic :=
  countRemarks e tys ++
    if single tys = .invalid ∨ param.2.accepts (single tys) = true then []
    else [(Fault.builtinArgument param.1 callee param.2 (single tys)).toDiagnostic e.span]

def returnRemarks (current : Option Function) (value : Expr) : List Ty → List Diagnostic
  | [ty] =>
    match current with
    | none => []
    | some f =>
      if f.returnTy ≠ .invalid && conflicts ty f.returnTy then
        if f.isEntry then [(Fault.entryReturn ty value.text).toDiagnostic value.span]
        else if f.returnTy ≠ .unknown then
          [(Fault.functionReturn f.name.text f.returnTy ty value.text).toDiagnostic value.span]
        else []
      else []
  | tys => [(Fault.returnCount value.text tys.length).toDiagnostic value.span]

def conditionStep (e : Expr) : Step :=
  .part e (neededRemarks e .integer fun ty => .condition ty e.text)

def indexStep (e : Expr) : Step := .part e (neededRemarks e .integer fun ty => .index ty e.text)

/-- The checks of arguments, each against its parameter. -/
def argumentSteps {α : Type} (remarks : α → Expr → List Ty → List Diagnostic) :
    List Expr → List α → List Step
  | e :: rest, param :: params => .part e (remarks param e) :: argumentSteps remarks rest params
  | _, _ => []

def exprSteps (p : Program) : Expr → List Step
  | .literal _ _ _ | .ident _ _ _ => []
  | .unary span op e =>
    [.part e fun tys => countRemarks e tys ++ (unary (.unary span op e) op (single tys)).faults]
  | .binary span op l r =>
    [.part l (countRemarks l), .part r (countRemarks r),
      .both l r fun ls rs => (binary (.binary span op l r) op (single ls) (single rs)).faults]
  | .group _ e => [.part e fun _ => []]
  | .call _ f name _ args =>
    match p.functions[f]? with
    | none => []
    | some callee => argumentSteps (argumentRemarks name) args ((callee.params.map (·.2)).zipIdx 1)
  | .builtin _ b args => argumentSteps (shapeRemarks b.name) args b.params
  | .cond span label test yes no =>
    [conditionStep test, .part yes (countRemarks yes), .part no (countRemarks no),
      .both yes no fun ys ns =>
        (branches (.cond span label test yes no) (single ys) (single ns)).faults]
  | .field _ source _ => source.exprs.map indexStep
  | .fieldAt _ source _ i => source.exprs.map indexStep ++ i.exprs.map indexStep
  | .arg _ i => i.exprs.map indexStep
  | .cast _ _ e => [.part e (countRemarks e)]

def stmtSteps (p : Program) (current : Option Function) : Stmt → List Step
  | .varDecl _ _ names value => [.part value fun tys => (declared value (names.zip tys)).faults]
  | .constDecl _ _ value | .expr _ value => [.part value fun _ => []]
  | .assign _ scope targets value =>
    [.part value fun tys => (assigned p scope value (targets.zip tys)).faults]
  | .setField _ field value =>
    [.part value (neededRemarks value field.ty fun ty =>
    .fieldValue field.name field.ty ty value.text)]
  | .ret _ value => [.part value (returnRemarks current value)]
  | .ifThen _ _ test yes => [conditionStep test, .inner yes]
  | .ifElse _ _ test yes no => [conditionStep test, .inner yes, .inner no]
  | .loop _ _ test body => [conditionStep test, .inner body]
  | .innerBegin _ | .innerSubmit _ | .error _ | .breakLoop _ => []

/-! ### The steps make up the check -/

section Steps

variable (p : Program) (current : Option Function)

variable (e : Expr)

variable (c : Checked (List Ty))

theorem scalar_eq : scalar e c = ⟨single c.value, c.faults ++ countRemarks e c.value⟩ := by
  obtain ⟨tys, faults⟩ := c
  rcases tys with _ | ⟨ty, _ | ⟨other, rest⟩⟩
  · simp [scalar, single, countRemarks, bind, pure, report]
  · simp [scalar, single, countRemarks, bind, pure]
  · by_cases h : .invalid ∈ ty :: other :: rest
    · simp [scalar, single, countRemarks, bind, pure, h]
    · simp [scalar, single, countRemarks, bind, pure, h, report]

/-- A demand for one value of a type, and what comes behind it. -/
theorem faults_needed_eq {α : Type} (needed : Ty) (fault : Ty → Fault) (next : Checked α) :
    (scalar e c >>= fun ty => if conflicts ty needed = true then
      report e.span (fault ty) >>= fun _ => next else next).faults =
      c.faults ++ neededRemarks e needed fault c.value ++ next.faults := by
  rw [scalar_eq, Checked.faults_bind, neededRemarks]
  dsimp only
  split <;> simp [report]

theorem faults_needed_only_eq (needed : Ty) (fault : Ty → Fault) :
    (scalar e c >>= fun ty => if conflicts ty needed = true then
      report e.span (fault ty) else pure ()).faults = c.faults ++ neededRemarks e needed fault c.value :=
  (faults_needed_eq e c needed fault (pure ())).trans (append_nil _)

theorem faults_condition_eq : (condition e (expr p e)).faults = (conditionStep e).faults p current :=
  faults_needed_only_eq e _ .integer _

theorem faults_index_eq (i : Index) :
    (index p i).faults = (i.exprs.map indexStep).flatMap (Step.faults p current) := by
  cases i with
  | const n => simp [index, Index.exprs]
  | dynamic e =>
    rw [index, indexValue, faults_needed_only_eq]
    simp [Index.exprs, indexStep, Step.faults]

theorem faults_fieldSource_eq (source : FieldSource) :
    (fieldSource p source).faults = (source.exprs.map indexStep).flatMap (Step.faults p current) := by
  cases source with
  | gtxn i =>
    rw [fieldSource]
    exact faults_index_eq p current i
  | txn | global | itxn => simp [fieldSource, FieldSource.exprs]

variable (callee : String)

theorem faults_arguments_eq (args : List Expr) : ∀ (position : Nat) (tys : List Ty),
    (arguments p callee position args tys).faults =
      (argumentSteps (argumentRemarks callee) args (tys.zipIdx position)).flatMap
        (Step.faults p current) := by
  induction args with
  | nil => simp [arguments, argumentSteps]
  | cons e rest ih =>
    rintro position (_ | ⟨needed, tys⟩)
    · simp [arguments, argumentSteps]
    · rw [arguments, faults_needed_eq, ih, zipIdx_cons, argumentSteps, flatMap_cons,
        Step.faults, argumentRemarks]

theorem faults_builtinArgument_eq (position : Nat) (shape : Builtin.ArgShape)
    (e : Expr) (c : Checked (List Ty)) :
    (builtinArgument callee position shape e c).faults =
      c.faults ++ shapeRemarks callee (position, shape) e c.value := by
  rw [builtinArgument, scalar_eq, Checked.faults_bind, shapeRemarks]
  by_cases hty : single c.value = .invalid
  · simp [hty]
  · cases shape.accepts (single c.value) with
    | true => simp [hty]
    | false => simp [hty, report]

theorem faults_builtinArguments_eq (args : List Expr) :
    ∀ params : List (Nat × Builtin.ArgShape), (builtinArguments p callee args params).faults =
      (argumentSteps (shapeRemarks callee) args params).flatMap (Step.faults p current) := by
  induction args with
  | nil => simp [builtinArguments, argumentSteps]
  | cons e rest ih =>
    rintro (_ | ⟨⟨position, shape⟩, params⟩)
    · simp [builtinArguments, argumentSteps]
    · rw [builtinArguments, Checked.faults_bind, Checked.faults_bind, faults_builtinArgument_eq, ih,
        Checked.faults_pure, append_nil, argumentSteps, flatMap_cons, Step.faults]

/-- All that is reported of an expression is reported in its steps. -/
theorem faults_expr_eq : (expr p e).faults = (exprSteps p e).flatMap (Step.faults p current) := by
  cases e with
  | literal | ident => simp [expr, exprSteps]
  | unary | binary | group | cast => simp [expr, exprSteps, scalar_eq, Step.faults]
  | call span f name site args =>
    rw [expr, exprSteps]
    cases p.functions[f]? with
    | none => rfl
    | some callee =>
      rw [Checked.faults_bind, faults_arguments_eq p current, Checked.faults_pure, append_nil]
  | builtin span call args =>
    rw [expr, exprSteps, Checked.faults_bind, faults_builtinArguments_eq p current,
      Checked.faults_pure, append_nil]
  | cond span label test yes no =>
    rw [expr, exprSteps, Checked.faults_bind, faults_condition_eq p current]
    simp [scalar_eq, Step.faults]
  | field => simp [expr, exprSteps, faults_fieldSource_eq p current]
  | fieldAt => simp [expr, exprSteps, faults_fieldSource_eq p current, faults_index_eq p current]
  | arg => simp [expr, exprSteps, faults_index_eq p current]

theorem faults_returned_eq (value : Expr) : (returned p current value).faults =
    (expr p value).faults ++ returnRemarks current value (expr p value).value := by
  rw [returned, Checked.faults_bind]
  congr 1
  rcases (expr p value).value with _ | ⟨ty, _ | ⟨other, rest⟩⟩
  · rfl
  · cases current with
    | none => rfl
    | some f =>
      simp only [returnRemarks]
      split
      · split
        · rfl
        · split <;> rfl
      · rfl
  · rfl

/-- All that is reported of a statement is reported in its steps. -/
theorem faults_stmt_eq (s : Stmt) :
    (stmt p current s).faults = (stmtSteps p current s).flatMap (Step.faults p current) := by
  cases s with
  | varDecl | constDecl | assign | expr => simp [stmt, stmtSteps, Step.faults]
  | setField span field value =>
    rw [stmt, faults_needed_only_eq]
    simp [stmtSteps, Step.faults]
  | ret span value =>
    rw [stmt, faults_returned_eq]
    simp [stmtSteps, Step.faults]
  | ifThen | ifElse | loop =>
    simp [stmt, stmtSteps, faults_condition_eq p current, Step.faults]
  | innerBegin | innerSubmit | error | breakLoop => simp [stmt, stmtSteps]

end Steps

end Typing

end Teal.Program
