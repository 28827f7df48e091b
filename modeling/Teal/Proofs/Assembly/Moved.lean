import Teal.Assembly.Emit
import Teal.Proofs.Program.Moved

/-! The assembly does not depend on places: programs that are the same but for places have the same lines, or
fail for the same reason. -/

namespace Teal.Assembly

open List

open Program (Expr Index FieldSource Stmt Function)

variable {R : Span → Span → Prop}

theorem fieldOp_moved {source source' : FieldSource} (h : source.Moved R source') :
    fieldOp source = fieldOp source' := by
  cases h with
  | gtxn hi => cases hi <;> rfl
  | _ => rfl

theorem fieldAtOp_moved (field : Field) {source source' : FieldSource} (hsource : source.Moved R source')
    {i i' : Index} (hi : i.Moved R i') : fieldAtOp field source i = fieldAtOp field source' i' := by
  cases hsource with
  | gtxn hj => cases hj <;> cases hi <;> rfl
  | _ => cases hi <;> rfl

section Lines

variable {p p' : Program} (hp : p.Moved R p')

include hp

theorem loadName_moved (scope : ScopeId) (name : String) : loadName p scope name = loadName p' scope name := by
  rw [loadName, loadName, Scopes.kindOf?_of_erase hp.scopes]

theorem storeNames_moved (scope : ScopeId) {names names' : List Ident}
    (hnames : Forall₂ (Ident.Moved R) names names') :
    storeNames p scope names = storeNames p' scope names' := by
  have htexts : names.map (·.text) = names'.map (·.text) :=
    map_eq_of_forall₂ hnames fun _ _ h => h.text
  have hstores (p : Program) (names : List Ident) : storeNames p scope names =
      (names.map (·.text)).reverse.mapM fun name => return .store (← slot p scope name) := by
    rw [storeNames, ← map_reverse, mapM_map]
    rfl
  have hslot (name : String) : slot p scope name = slot p' scope name := by
    rw [slot, slot, Scopes.kindOf?_of_erase hp.scopes]
  simp only [hstores, htexts, hslot]

theorem callLines_moved (expand : Nat → Context → Emitted) (c : Context) (f : Nat) (name : String) (site : Nat)
    (args : List Line) : callLines p expand c f name site args = callLines p' expand c f name site args := by
  unfold callLines
  obtain ⟨hnone, hnone'⟩ | ⟨callee, callee', hsome, hsome', hcallee⟩ :=
    Program.getElem?_of_forall₂ hp.functions f
  · rw [hnone, hnone']
  · have hparams : Forall₂ (Ident.Moved R) (callee.params.map (·.1)) (callee'.params.map (·.1)) := by
      rw [forall₂_map_left_iff, forall₂_map_right_iff]
      exact hcallee.params.imp fun _ _ h => h.name
    rw [hsome, hsome']
    dsimp only
    rw [storeNames_moved hp callee.scope hparams, hcallee.scope, hcallee.inline]

variable (expand : Nat → Context → Emitted)

-- Theorems that are proved together share their assumptions.
set_option linter.unusedSectionVars false

mutual

theorem exprLines_moved (c : Context)
    {e e' : Expr} (he : e.Moved R e') : exprLines p expand c e = exprLines p' expand c e' := by
  cases he with
  | literal h value ref => rfl
  | ident h name scope => rw [exprLines, exprLines, loadName_moved hp]
  | unary h op he => rw [exprLines, exprLines, exprLines_moved c he]
  | binary h op hl hr =>
    rw [exprLines, exprLines, exprLines_moved c hl, exprLines_moved c hr]
  | group h he => rw [exprLines, exprLines, exprLines_moved c he]
  | call h f name site hargs =>
    rw [exprLines, exprLines, exprsLines_moved c hargs]
    simp only [callLines_moved hp]
  | builtin h call hargs => rw [exprLines, exprLines, exprsLines_moved c hargs]
  | cond h label htest hyes hno =>
    rw [exprLines, exprLines, exprLines_moved c htest, exprLines_moved c hyes, exprLines_moved c hno]
  | field h hsource field =>
    rw [exprLines, exprLines, sourceLines_moved c hsource, fieldOp_moved hsource]
  | fieldAt h hsource field hi =>
    rw [exprLines, exprLines, fieldAtOp_moved field hsource hi, sourceLines_moved c hsource,
      indexLines_moved c hi]
  | arg h hi =>
    cases hi with
    | const n => rfl
    | dynamic he => rw [exprLines, exprLines, exprLines_moved c he]
  | cast h ty he => rw [exprLines, exprLines, exprLines_moved c he]
termination_by sizeOf e

theorem indexLines_moved (c : Context)
    {i i' : Index} (hi : i.Moved R i') : indexLines p expand c i = indexLines p' expand c i' := by
  cases hi with
  | const n => rfl
  | dynamic he => rw [indexLines, indexLines, exprLines_moved c he]
termination_by sizeOf i

theorem sourceLines_moved (c : Context) {source source' : FieldSource} (hsource : source.Moved R source') :
    sourceLines p expand c source = sourceLines p' expand c source' := by
  cases hsource with
  | gtxn hi => rw [sourceLines, sourceLines, indexLines_moved c hi]
  | _ => rfl
termination_by sizeOf source

theorem exprsLines_moved (c : Context) {es es' : List Expr} (hes : Forall₂ (Expr.Moved R) es es') :
    exprsLines p expand c es = exprsLines p' expand c es' := by
  cases hes with
  | nil => rfl
  | cons he hes =>
    rw [exprsLines, exprsLines, exprLines_moved c he, exprsLines_moved c hes]
termination_by sizeOf es

end

mutual

theorem stmtLines_moved (c : Context)
    {s s' : Stmt} (hs : s.Moved R s') : stmtLines p expand c s = stmtLines p' expand c s' := by
  cases hs with
  | varDecl h scope hnames hvalue =>
    rw [stmtLines, stmtLines, exprLines_moved hp expand c hvalue, storeNames_moved hp scope hnames]
  | assign h scope htargets hvalue =>
    rw [stmtLines, stmtLines, exprLines_moved hp expand c hvalue, storeNames_moved hp scope htargets]
  | setField h field hvalue => rw [stmtLines, stmtLines, exprLines_moved hp expand c hvalue]
  | ret h hvalue => rw [stmtLines, stmtLines, exprLines_moved hp expand c hvalue]
  | ifThen h label htest hyes =>
    rw [stmtLines, stmtLines, exprLines_moved hp expand c htest, blockLines_moved c hyes]
  | ifElse h label htest hyes hno =>
    rw [stmtLines, stmtLines, exprLines_moved hp expand c htest, blockLines_moved c hyes,
      blockLines_moved c hno]
  | loop h label htest hbody =>
    rw [stmtLines, stmtLines, exprLines_moved hp expand c htest, blockLines_moved _ hbody]
  | expr h hvalue =>
    rw [stmtLines, stmtLines, exprLines_moved hp expand c hvalue,
      hvalue.resultTypes_eq hp.scopes (hp.functions.imp fun _ _ h => h.alike)]
  | _ => rfl
termination_by sizeOf s

theorem blockLines_moved (c : Context)
    {stmts stmts' : List Stmt} (hstmts : Forall₂ (Stmt.Moved R) stmts stmts') :
    blockLines p expand c stmts = blockLines p' expand c stmts' := by
  cases hstmts with
  | nil => rfl
  | cons hs hrest =>
    rw [blockLines, blockLines, stmtLines_moved c hs, blockLines_moved c hrest]
termination_by sizeOf stmts

end

theorem bodyBelow_moved (bound : Nat) : bodyBelow p bound = bodyBelow p' bound := by
  induction bound with
  | zero => rfl
  | succ bound ih =>
    funext f c
    rw [bodyBelow, bodyBelow, ih]
    obtain ⟨hnone, hnone'⟩ | ⟨callee, callee', hsome, hsome', hcallee⟩ :=
      Program.getElem?_of_forall₂ hp.functions bound
    · rw [hnone, hnone']
    · rw [hsome, hsome']
      dsimp only
      rw [blockLines_moved hp _ c hcallee.body]

theorem topLines_moved (exit : Exit) {stmts stmts' : List Stmt}
    (hstmts : Forall₂ (Stmt.Moved R) stmts stmts') : topLines p exit stmts = topLines p' exit stmts' := by
  rw [topLines, topLines, bodyBelow_moved hp, hp.functions.length_eq, blockLines_moved hp _ _ hstmts]

theorem subroutinesLines_moved {fs fs' : List Function} (hfs : Forall₂ (Function.Moved R) fs fs') :
    subroutinesLines p fs = subroutinesLines p' fs' := by
  induction hfs with
  | nil => rfl
  | cons hf _ ih =>
    rw [subroutinesLines, subroutinesLines, subroutineLines, subroutineLines, hf.inline, hf.isEntry,
      hf.name.text, topLines_moved hp .returnCall hf.body, ih]

end Lines

end Teal.Assembly

namespace Teal.Program

/-- Programs that are the same but for places have the same assembly. -/
theorem emit_eq_of_moved {R : Span → Span → Prop} {p p' : Program} (hp : p.Moved R p') :
    p.emit = p'.emit := by
  unfold emit
  rw [Assembly.topLines_moved hp .finish hp.globals, Assembly.subroutinesLines_moved hp hp.functions,
    hp.version, hp.pool, hp.entry]
  obtain ⟨hnone, hnone'⟩ | ⟨entry, entry', hsome, hsome', hentry⟩ :=
    getElem?_of_forall₂ hp.functions p'.entry
  · rw [hnone, hnone']
  · rw [hsome, hsome']
    simp only [Assembly.topLines_moved hp .finish hentry.body]

end Teal.Program
