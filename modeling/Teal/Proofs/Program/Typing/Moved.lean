import Teal.Program.Typing
import Teal.Proofs.Program.Build.Moved

/-! Checking types does not depend on places. Programs that are the same but for places have the same types
and the same faults in the same order, each at a place of an expression or of a name of the program. -/

namespace Teal.Program

open List

/-- Checks that yield the same and find the same at other places. -/
structure Checked.Moved {α : Type} (R : Span → Span → Prop) (c c' : Checked α) : Prop where
  value : c.value = c'.value
  faults : Forall₂ (Diagnostic.Moved R) c.faults c'.faults

namespace Typing

variable {R : Span → Span → Prop}

section Rules

variable {α β : Type}

theorem moved_pure (a : α) : (pure a : Checked α).Moved R (pure a) := ⟨rfl, .nil⟩

theorem moved_bind {c c' : Checked α} (hc : c.Moved R c') {f f' : α → Checked β}
    (hf : ∀ a, (f a).Moved R (f' a)) : (c >>= f).Moved R (c' >>= f') := by
  obtain ⟨hvalue, hfaults⟩ := hf c.value
  refine ⟨?_, ?_⟩
  · rw [Checked.value_bind, Checked.value_bind, ← hc.value, hvalue]
  · rw [Checked.faults_bind, Checked.faults_bind, ← hc.value]
    exact rel_append hc.faults hfaults

theorem moved_ite {p : Prop} [Decidable p] {c c' d d' : Checked α} (hc : c.Moved R c')
    (hd : d.Moved R d') : (if p then c else d).Moved R (if p then c' else d') := by
  split
  · exact hc
  · exact hd

end Rules

theorem report_moved {a b : Span} (h : R a b) (f : Fault) : (report a f).Moved R (report b f) :=
  ⟨rfl, .cons ⟨rfl, rfl, rfl, rfl, rfl, rfl, h⟩ .nil⟩

theorem fail_moved {a b : Span} (h : R a b) (f : Fault) : (fail a f).Moved R (fail b f) :=
  ⟨rfl, .cons ⟨rfl, rfl, rfl, rfl, rfl, rfl, h⟩ .nil⟩

/-! ### Expressions -/

section Expr

variable {e e' : Expr} (he : e.Moved R e')

include he

theorem unary_moved (op : UnOp) (ty : Ty) : (unary e op ty).Moved R (unary e' op ty) := by
  rw [unary, unary, ← he.text_eq]
  exact moved_ite (fail_moved he.span _) (moved_pure _)

theorem binary_moved (op : BinOp) (lhs rhs : Ty) : (binary e op lhs rhs).Moved R (binary e' op lhs rhs) := by
  rw [binary, binary, ← he.text_eq]
  refine moved_ite (moved_pure _) (moved_ite (fail_moved he.span _) ?_)
  exact moved_ite (moved_pure _) (fail_moved he.span _)

theorem branches_moved (yes no : Ty) : (branches e yes no).Moved R (branches e' yes no) := by
  rw [branches, branches, ← he.text_eq]
  exact moved_ite (moved_pure _) (moved_ite (fail_moved he.span _) (moved_pure _))

variable {types types' : Checked (List Ty)} (htypes : types.Moved R types')

include htypes

theorem scalar_moved : (scalar e types).Moved R (scalar e' types') := by
  refine moved_bind htypes fun tys => ?_
  rw [← he.text_eq]
  split
  · exact moved_pure _
  · exact moved_ite (moved_pure _) (moved_bind (report_moved he.span _) fun _ => moved_pure _)

theorem condition_moved : (condition e types).Moved R (condition e' types') := by
  refine moved_bind (scalar_moved he htypes) fun ty => ?_
  rw [← he.text_eq]
  exact moved_ite (report_moved he.span _) (moved_pure _)

theorem indexValue_moved : (indexValue e types).Moved R (indexValue e' types') := by
  refine moved_bind (scalar_moved he htypes) fun ty => ?_
  rw [← he.text_eq]
  exact moved_ite (report_moved he.span _) (moved_pure _)

theorem builtinArgument_moved (callee : String) (position : Nat) (shape : Builtin.ArgShape) :
    (builtinArgument callee position shape e types).Moved R
      (builtinArgument callee position shape e' types') := by
  refine moved_bind (scalar_moved he htypes) fun ty => ?_
  refine moved_ite (moved_pure _) (moved_ite (moved_pure _) ?_)
  exact moved_bind (report_moved he.span _) fun _ => moved_pure _

end Expr

theorem paramTypes_eq {f f' : Function} (hf : f.Moved R f') : f.params.map (·.2) = f'.params.map (·.2) :=
  map_eq_of_forall₂ hf.params fun _ _ hp => hp.ty

section Exprs

-- Theorems that are proved together share their assumptions.
set_option linter.unusedSectionVars false

variable {p p' : Program} (hp : p.Moved R p')

include hp

mutual

theorem expr_moved {e e' : Expr} (he : e.Moved R e') : (expr p e).Moved R (expr p' e') := by
  have hall := he
  cases he with
  | literal h value ref => exact moved_pure _
  | ident h name scope =>
    rw [expr, expr, Scopes.tyOf_of_erase hp.scopes]
    exact moved_pure _
  | unary h op he =>
    rw [expr, expr]
    exact moved_bind (scalar_moved he (expr_moved he)) fun ty => unary_moved hall op ty
  | binary h op hl hr =>
    rw [expr, expr]
    refine moved_bind (scalar_moved hl (expr_moved hl)) fun lhs => ?_
    exact moved_bind (scalar_moved hr (expr_moved hr)) fun rhs => binary_moved hall op lhs rhs
  | group h he =>
    rw [expr, expr]
    exact expr_moved he
  | call h f name site hargs =>
    rw [expr, expr]
    obtain ⟨hnone, hnone'⟩ | ⟨callee, callee', hsome, hsome', hcallee⟩ :=
      getElem?_of_forall₂ hp.functions f
    · rw [hnone, hnone']
      exact moved_pure _
    · rw [hsome, hsome']
      dsimp only
      rw [← paramTypes_eq hcallee, ← hcallee.returnTy]
      exact moved_bind (arguments_moved name 1 hargs _) fun _ => moved_pure _
  | builtin h call hargs =>
    rw [expr, expr]
    exact moved_bind (builtinArguments_moved call.name hargs call.params) fun _ => moved_pure _
  | cond h label htest hyes hno =>
    rw [expr, expr]
    refine moved_bind (condition_moved htest (expr_moved htest)) fun _ => ?_
    refine moved_bind (scalar_moved hyes (expr_moved hyes)) fun yes => ?_
    exact moved_bind (scalar_moved hno (expr_moved hno)) fun no => branches_moved hall yes no
  | field h hsource field =>
    rw [expr, expr]
    exact moved_bind (fieldSource_moved hsource) fun _ => moved_pure _
  | fieldAt h hsource field hi =>
    rw [expr, expr]
    refine moved_bind (fieldSource_moved hsource) fun _ => ?_
    exact moved_bind (index_moved hi) fun _ => moved_pure _
  | arg h hi =>
    rw [expr, expr]
    exact moved_bind (index_moved hi) fun _ => moved_pure _
  | cast h ty he =>
    rw [expr, expr]
    exact moved_bind (scalar_moved he (expr_moved he)) fun _ => moved_pure _
termination_by sizeOf e

theorem index_moved {i i' : Index} (hi : i.Moved R i') : (index p i).Moved R (index p' i') := by
  cases hi with
  | const n => exact moved_pure _
  | dynamic he =>
    rw [index, index]
    exact indexValue_moved he (expr_moved he)
termination_by sizeOf i

theorem fieldSource_moved {source source' : FieldSource}
    (hsource : source.Moved R source') : (fieldSource p source).Moved R (fieldSource p' source') := by
  cases hsource with
  | gtxn hi =>
    rw [fieldSource, fieldSource]
    exact index_moved hi
  | _ => exact moved_pure _
termination_by sizeOf source

theorem arguments_moved (callee : String) (position : Nat)
    {args args' : List Expr} (hargs : Forall₂ (Expr.Moved R) args args') (tys : List Ty) :
    (arguments p callee position args tys).Moved R (arguments p' callee position args' tys) := by
  cases hargs with
  | nil => exact moved_pure _
  | cons he hrest =>
    cases tys with
    | nil => exact moved_pure _
    | cons needed tys =>
      rw [arguments, arguments]
      refine moved_bind (scalar_moved he (expr_moved he)) fun ty => ?_
      have hothers := arguments_moved callee (position + 1) hrest tys
      exact moved_ite (moved_bind (report_moved he.span _) fun _ => hothers) hothers
termination_by sizeOf args

theorem builtinArguments_moved (callee : String)
    {args args' : List Expr} (hargs : Forall₂ (Expr.Moved R) args args')
    (params : List (Nat × Builtin.ArgShape)) :
    (builtinArguments p callee args params).Moved R (builtinArguments p' callee args' params) := by
  cases hargs with
  | nil => exact moved_pure _
  | cons he hrest =>
    cases params with
    | nil => exact moved_pure _
    | cons param params =>
      obtain ⟨position, shape⟩ := param
      rw [builtinArguments, builtinArguments]
      refine moved_bind (builtinArgument_moved he (expr_moved he) callee position shape) fun ok => ?_
      exact moved_bind (builtinArguments_moved callee hrest params) fun _ => moved_pure _
termination_by sizeOf args

end

end Exprs

/-! ### Statements -/

section Stmt

variable {value value' : Expr} (hvalue : value.Moved R value')

include hvalue

theorem declared_moved {names names' : List Ident} (hnames : Forall₂ (Ident.Moved R) names names')
    (tys : List Ty) : (declared value (names.zip tys)).Moved R (declared value' (names'.zip tys)) := by
  induction hnames generalizing tys with
  | nil => exact moved_pure _
  | cons hname _ ih =>
    cases tys with
    | nil => exact moved_pure _
    | cons ty tys =>
      rw [zip_cons_cons, zip_cons_cons, declared, declared, ← hname.text, ← hvalue.text_eq]
      exact moved_ite (moved_bind (report_moved hvalue.span _) fun _ => ih tys) (ih tys)

theorem assigned_moved {p p' : Program} (hp : p.Moved R p') (scope : ScopeId) {names names' : List Ident}
    (hnames : Forall₂ (Ident.Moved R) names names') (tys : List Ty) :
    (assigned p scope value (names.zip tys)).Moved R (assigned p' scope value' (names'.zip tys)) := by
  induction hnames generalizing tys with
  | nil => exact moved_pure _
  | cons hname _ ih =>
    cases tys with
    | nil => exact moved_pure _
    | cons ty tys =>
      rw [zip_cons_cons, zip_cons_cons, assigned, assigned, ← hname.text, ← hvalue.text_eq,
        Scopes.tyOf_of_erase hp.scopes]
      exact moved_ite (moved_bind (report_moved hvalue.span _) fun _ => ih tys) (ih tys)

theorem returned_moved {p p' : Program} (hp : p.Moved R p') {current current' : Option Function}
    (hcurrent : Option.Rel (Function.Moved R) current current') :
    (returned p current value).Moved R (returned p' current' value') := by
  refine moved_bind (expr_moved hp hvalue) fun tys => ?_
  rw [← hvalue.text_eq]
  split
  · cases hcurrent with
    | none => exact moved_pure _
    | some hf =>
      dsimp only
      rw [← hf.returnTy, ← hf.isEntry, ← hf.name.text]
      refine moved_ite (moved_ite (report_moved hvalue.span _) ?_) (moved_pure _)
      exact moved_ite (report_moved hvalue.span _) (moved_pure _)
  · exact report_moved hvalue.span _

end Stmt

section Stmts

variable {p p' : Program} (hp : p.Moved R p')

include hp

section Block

set_option linter.unusedSectionVars false

variable {current current' : Option Function} (hcurrent : Option.Rel (Function.Moved R) current current')

include hcurrent

mutual

theorem stmt_moved {s s' : Stmt} (hs : s.Moved R s') : (stmt p current s).Moved R (stmt p' current' s') := by
  cases hs with
  | varDecl h scope hnames hvalue =>
    rw [stmt, stmt]
    exact moved_bind (expr_moved hp hvalue) fun tys => declared_moved hvalue hnames tys
  | constDecl h hname hvalue =>
    rw [stmt, stmt]
    exact moved_bind (expr_moved hp hvalue) fun _ => moved_pure _
  | assign h scope htargets hvalue =>
    rw [stmt, stmt]
    exact moved_bind (expr_moved hp hvalue) fun tys => assigned_moved hvalue hp scope htargets tys
  | setField h field hvalue =>
    rw [stmt, stmt, ← hvalue.text_eq]
    refine moved_bind (scalar_moved hvalue (expr_moved hp hvalue)) fun ty => ?_
    exact moved_ite (report_moved hvalue.span _) (moved_pure _)
  | ret h hvalue =>
    rw [stmt, stmt]
    exact returned_moved hvalue hp hcurrent
  | ifThen h label htest hyes =>
    rw [stmt, stmt]
    refine moved_bind (condition_moved htest (expr_moved hp htest)) fun _ => ?_
    exact block_moved hyes
  | ifElse h label htest hyes hno =>
    rw [stmt, stmt]
    refine moved_bind (condition_moved htest (expr_moved hp htest)) fun _ => ?_
    exact moved_bind (block_moved hyes) fun _ => block_moved hno
  | loop h label htest hbody =>
    rw [stmt, stmt]
    refine moved_bind (condition_moved htest (expr_moved hp htest)) fun _ => ?_
    exact block_moved hbody
  | expr h hvalue =>
    rw [stmt, stmt]
    exact moved_bind (expr_moved hp hvalue) fun _ => moved_pure _
  | _ => exact moved_pure _
termination_by sizeOf s

theorem block_moved {stmts stmts' : List Stmt} (hstmts : Forall₂ (Stmt.Moved R) stmts stmts') :
    (block p current stmts).Moved R (block p' current' stmts') := by
  cases hstmts with
  | nil => exact moved_pure _
  | cons hs hrest =>
    rw [block, block]
    exact moved_bind (stmt_moved hs) fun _ => block_moved hrest
termination_by sizeOf stmts

end

end Block

theorem function_moved {f f' : Function} (hf : f.Moved R f') : (function p f).Moved R (function p' f') := by
  unfold function
  rw [← blockTerminates_eq hf.body, ← blockHasReturn_eq hf.body, ← hf.isEntry, ← hf.returnTy, ← hf.name.text]
  refine moved_bind (block_moved hp (.some hf) hf.body) fun _ => ?_
  have hlast (c : Prop) [Decidable c] : (if c then report f.name.span (.unknownReturn f.name.text)
      else pure () : Checked Unit).Moved R (if c then report f'.name.span (.unknownReturn f.name.text)
      else pure ()) := moved_ite (report_moved hf.name.span _) (moved_pure _)
  exact moved_ite (moved_bind (report_moved hf.name.span _) fun _ => hlast _) (hlast _)

end Stmts

end Typing

/-- Programs that are the same but for places have the same faults of type at such places. -/
theorem typeFaults_moved {R : Span → Span → Prop} {p p' : Program} (hp : p.Moved R p') :
    Forall₂ (Diagnostic.Moved R) p.typeFaults p'.typeFaults := by
  refine rel_append (Typing.block_moved hp .none hp.globals).faults ?_
  exact rel_flatMap hp.functions fun _ _ hf => (Typing.function_moved hp hf).faults

end Teal.Program
