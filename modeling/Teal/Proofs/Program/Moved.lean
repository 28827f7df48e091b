import Teal.Proofs.Scope.Moved
import Teal.Proofs.Tree.Moved
import Teal.Program.Text

/-! Programs that were moved: the same but for the places of their parts, which stand in a given relation.
What a program is written as, of what types its values are and how its blocks end does not depend on
places. -/

namespace Teal.Program

open List

section Relation

variable (R : Span → Span → Prop)

mutual

inductive Expr.Moved : Expr → Expr → Prop
  | literal {a b : Span} (h : R a b) (value : Literal) (ref : Pool.Ref) :
      Expr.Moved (.literal a value ref) (.literal b value ref)
  | ident {a b : Span} (h : R a b) (name : String) (scope : ScopeId) :
      Expr.Moved (.ident a name scope) (.ident b name scope)
  | unary {a b : Span} (h : R a b) (op : UnOp) {e e' : Expr} (he : Expr.Moved e e') :
      Expr.Moved (.unary a op e) (.unary b op e')
  | binary {a b : Span} (h : R a b) (op : BinOp) {l l' r r' : Expr} (hl : Expr.Moved l l')
      (hr : Expr.Moved r r') : Expr.Moved (.binary a op l r) (.binary b op l' r')
  | group {a b : Span} (h : R a b) {e e' : Expr} (he : Expr.Moved e e') :
      Expr.Moved (.group a e) (.group b e')
  | call {a b : Span} (h : R a b) (f : Nat) (name : String) (site : Nat) {args args' : List Expr}
      (hargs : Forall₂ Expr.Moved args args') :
      Expr.Moved (.call a f name site args) (.call b f name site args')
  | builtin {a b : Span} (h : R a b) (call : Builtin.Call) {args args' : List Expr}
      (hargs : Forall₂ Expr.Moved args args') :
      Expr.Moved (.builtin a call args) (.builtin b call args')
  | cond {a b : Span} (h : R a b) (label : Nat) {test test' yes yes' no no' : Expr}
      (htest : Expr.Moved test test') (hyes : Expr.Moved yes yes') (hno : Expr.Moved no no') :
      Expr.Moved (.cond a label test yes no) (.cond b label test' yes' no')
  | field {a b : Span} (h : R a b) {source source' : FieldSource}
      (hsource : FieldSource.Moved source source') (field : Field) :
      Expr.Moved (.field a source field) (.field b source' field)
  | fieldAt {a b : Span} (h : R a b) {source source' : FieldSource}
      (hsource : FieldSource.Moved source source') (field : Field) {i i' : Index}
      (hi : Index.Moved i i') : Expr.Moved (.fieldAt a source field i) (.fieldAt b source' field i')
  | arg {a b : Span} (h : R a b) {i i' : Index} (hi : Index.Moved i i') :
      Expr.Moved (.arg a i) (.arg b i')
  | cast {a b : Span} (h : R a b) (ty : Ty) {e e' : Expr} (he : Expr.Moved e e') :
      Expr.Moved (.cast a ty e) (.cast b ty e')

inductive Index.Moved : Index → Index → Prop
  | const (n : UInt8) : Index.Moved (.const n) (.const n)
  | dynamic {e e' : Expr} (he : Expr.Moved e e') : Index.Moved (.dynamic e) (.dynamic e')

inductive FieldSource.Moved : FieldSource → FieldSource → Prop
  | txn : FieldSource.Moved .txn .txn
  | gtxn {i i' : Index} (hi : Index.Moved i i') : FieldSource.Moved (.gtxn i) (.gtxn i')
  | global : FieldSource.Moved .global .global
  | itxn : FieldSource.Moved .itxn .itxn

end

inductive Stmt.Moved : Stmt → Stmt → Prop
  | varDecl {a b : Span} (h : R a b) (scope : ScopeId) {names names' : List Ident}
      (hnames : Forall₂ (Ident.Moved R) names names') {value value' : Expr}
      (hvalue : value.Moved R value') :
      Stmt.Moved (.varDecl a scope names value) (.varDecl b scope names' value')
  | constDecl {a b : Span} (h : R a b) {name name' : Ident} (hname : name.Moved R name')
      {value value' : Expr} (hvalue : value.Moved R value') :
      Stmt.Moved (.constDecl a name value) (.constDecl b name' value')
  | assign {a b : Span} (h : R a b) (scope : ScopeId) {targets targets' : List Ident}
      (htargets : Forall₂ (Ident.Moved R) targets targets') {value value' : Expr}
      (hvalue : value.Moved R value') :
      Stmt.Moved (.assign a scope targets value) (.assign b scope targets' value')
  | setField {a b : Span} (h : R a b) (field : Field) {value value' : Expr}
      (hvalue : value.Moved R value') : Stmt.Moved (.setField a field value) (.setField b field value')
  | innerBegin {a b : Span} (h : R a b) : Stmt.Moved (.innerBegin a) (.innerBegin b)
  | innerSubmit {a b : Span} (h : R a b) : Stmt.Moved (.innerSubmit a) (.innerSubmit b)
  | ret {a b : Span} (h : R a b) {value value' : Expr} (hvalue : value.Moved R value') :
      Stmt.Moved (.ret a value) (.ret b value')
  | error {a b : Span} (h : R a b) : Stmt.Moved (.error a) (.error b)
  | ifThen {a b : Span} (h : R a b) (label : Nat) {test test' : Expr} (htest : test.Moved R test')
      {yes yes' : List Stmt} (hyes : Forall₂ Stmt.Moved yes yes') :
      Stmt.Moved (.ifThen a label test yes) (.ifThen b label test' yes')
  | ifElse {a b : Span} (h : R a b) (label : Nat) {test test' : Expr} (htest : test.Moved R test')
      {yes yes' no no' : List Stmt} (hyes : Forall₂ Stmt.Moved yes yes')
      (hno : Forall₂ Stmt.Moved no no') :
      Stmt.Moved (.ifElse a label test yes no) (.ifElse b label test' yes' no')
  | loop {a b : Span} (h : R a b) (label : Nat) {test test' : Expr} (htest : test.Moved R test')
      {body body' : List Stmt} (hbody : Forall₂ Stmt.Moved body body') :
      Stmt.Moved (.loop a label test body) (.loop b label test' body')
  | breakLoop {a b : Span} (h : R a b) : Stmt.Moved (.breakLoop a) (.breakLoop b)
  | expr {a b : Span} (h : R a b) {value value' : Expr} (hvalue : value.Moved R value') :
      Stmt.Moved (.expr a value) (.expr b value')

structure ParamMoved (p p' : Ident × Ty) : Prop where
  name : p.1.Moved R p'.1
  ty : p.2 = p'.2

structure Function.Moved (f f' : Function) : Prop where
  name : f.name.Moved R f'.name
  inline : f.inline = f'.inline
  isEntry : f.isEntry = f'.isEntry
  params : Forall₂ (ParamMoved R) f.params f'.params
  scope : f.scope = f'.scope
  body : Forall₂ (Stmt.Moved R) f.body f'.body
  returnTy : f.returnTy = f'.returnTy

structure Function.Alike (f f' : Function) : Prop where
  isEntry : f.isEntry = f'.isEntry
  params : f.params.length = f'.params.length
  returnTy : f.returnTy = f'.returnTy

theorem Function.Moved.alike {R : Span → Span → Prop} {f f' : Function} (h : f.Moved R f') : f.Alike f' :=
  ⟨h.isEntry, h.params.length_eq, h.returnTy⟩

end Relation

section Same

variable {R : Span → Span → Prop}

theorem Expr.Moved.span {e e' : Expr} (h : e.Moved R e') : R e.span e'.span := by
  cases h <;> assumption

theorem Index.Moved.isDynamic_eq {i i' : Index} (h : i.Moved R i') : i.isDynamic = i'.isDynamic := by
  cases h <;> rfl

theorem FieldSource.Moved.isInner_eq {source source' : FieldSource} (h : source.Moved R source') :
    source.isInner = source'.isInner := by
  cases h <;> rfl

/-! ### Text -/

mutual

theorem Expr.Moved.text_eq {e e' : Expr} (h : e.Moved R e') : e.text = e'.text := by
  cases h with
  | literal h value ref => rfl
  | ident h name scope => rfl
  | unary h op he => rw [Expr.text, Expr.text, he.text_eq]
  | binary h op hl hr => rw [Expr.text, Expr.text, hl.text_eq, hr.text_eq]
  | group h he => rw [Expr.text, Expr.text, he.text_eq]
  | call h f name site hargs => rw [Expr.text, Expr.text, texts_eq hargs]
  | builtin h call hargs => rw [Expr.text, Expr.text, texts_eq hargs]
  | cond h label htest hyes hno => rw [Expr.text, Expr.text, htest.text_eq, hyes.text_eq, hno.text_eq]
  | field h hsource field => rw [Expr.text, Expr.text, hsource.text_eq]
  | fieldAt h hsource field hi => rw [Expr.text, Expr.text, hsource.text_eq, hi.text_eq]
  | arg h hi => rw [Expr.text, Expr.text, hi.text_eq]
  | cast h ty he => rw [Expr.text, Expr.text, he.text_eq]

theorem Index.Moved.text_eq {i i' : Index} (h : i.Moved R i') : i.text = i'.text := by
  cases h with
  | const n => rfl
  | dynamic he => rw [Index.text, Index.text, he.text_eq]

theorem FieldSource.Moved.text_eq {source source' : FieldSource} (h : source.Moved R source') :
    source.text = source'.text := by
  cases h with
  | gtxn hi => rw [FieldSource.text, FieldSource.text, hi.text_eq]
  | _ => rfl

theorem texts_eq {es es' : List Expr} (h : Forall₂ (Expr.Moved R) es es') : texts es = texts es' := by
  cases h with
  | nil => rfl
  | cons he hes => rw [texts, texts, he.text_eq, texts_eq hes]

end

/-! ### Types -/

theorem getElem?_of_forall₂ {α β : Type} {S : α → β → Prop} {as : List α} {bs : List β}
    (h : Forall₂ S as bs) (i : Nat) :
    (as[i]? = none ∧ bs[i]? = none) ∨ ∃ a b, as[i]? = some a ∧ bs[i]? = some b ∧ S a b := by
  induction h generalizing i with
  | nil => exact .inl ⟨rfl, rfl⟩
  | cons hab _ ih =>
    cases i with
    | zero => exact .inr ⟨_, _, rfl, rfl, hab⟩
    | succ i => exact ih i

section Types

variable {scopes scopes' : Scopes} (hscopes : scopes.erase = scopes'.erase)
  {functions functions' : List Function} (hfunctions : Forall₂ Function.Alike functions functions')

include hscopes hfunctions

theorem Expr.Moved.resultTypes_eq {e e' : Expr} (h : e.Moved R e') :
    e.resultTypes scopes functions = e'.resultTypes scopes' functions' := by
  cases h with
  | ident h name scope =>
    rw [Expr.resultTypes, Expr.resultTypes, Scopes.tyOf_of_erase hscopes]
  | group h he =>
    rw [Expr.resultTypes, Expr.resultTypes, he.resultTypes_eq]
  | call h f name site hargs =>
    rw [Expr.resultTypes, Expr.resultTypes]
    obtain ⟨hnone, hnone'⟩ | ⟨callee, callee', hsome, hsome', hcallee⟩ := getElem?_of_forall₂ hfunctions f
    · rw [hnone, hnone']
    · rw [hsome, hsome', Option.map_some, Option.map_some, hcallee.returnTy]
  | cond h label htest hyes hno =>
    rw [Expr.resultTypes, Expr.resultTypes, hyes.resultTypes_eq]
  | _ => rfl

theorem Expr.Moved.scalarType_eq {e e' : Expr} (h : e.Moved R e') :
    e.scalarType scopes functions = e'.scalarType scopes' functions' := by
  rw [Expr.scalarType, Expr.scalarType, h.resultTypes_eq hscopes hfunctions]

-- Theorems that are proved together share their assumptions.
set_option linter.unusedSectionVars false

mutual

theorem Stmt.Moved.firstReturn?_eq {s s' : Stmt} (h : s.Moved R s') :
    s.firstReturn? scopes functions = s'.firstReturn? scopes' functions' := by
  cases h with
  | ret h hvalue =>
    rw [Stmt.firstReturn?, Stmt.firstReturn?, hvalue.scalarType_eq hscopes hfunctions]
  | ifThen h label htest hyes =>
    rw [Stmt.firstReturn?, Stmt.firstReturn?, blockFirstReturn?_eq hyes]
  | ifElse h label htest hyes hno =>
    rw [Stmt.firstReturn?, Stmt.firstReturn?, blockFirstReturn?_eq hyes, blockFirstReturn?_eq hno]
  | loop h label htest hbody =>
    rw [Stmt.firstReturn?, Stmt.firstReturn?, blockFirstReturn?_eq hbody]
  | _ => rfl

theorem blockFirstReturn?_eq {stmts stmts' : List Stmt} (h : Forall₂ (Stmt.Moved R) stmts stmts') :
    blockFirstReturn? scopes functions stmts = blockFirstReturn? scopes' functions' stmts' := by
  cases h with
  | nil => rfl
  | cons hs hstmts =>
    rw [blockFirstReturn?, blockFirstReturn?, hs.firstReturn?_eq, blockFirstReturn?_eq hstmts]

end

end Types

/-! ### Ends of blocks -/

mutual

theorem Stmt.Moved.terminates_eq {s s' : Stmt} (h : s.Moved R s') : s.terminates = s'.terminates := by
  cases h with
  | ifElse h label htest hyes hno =>
    rw [Stmt.terminates, Stmt.terminates, blockTerminates_eq hyes, blockTerminates_eq hno]
  | _ => rfl

theorem blockTerminates_eq {stmts stmts' : List Stmt} (h : Forall₂ (Stmt.Moved R) stmts stmts') :
    blockTerminates stmts = blockTerminates stmts' := by
  cases h with
  | nil => rfl
  | cons hs hstmts =>
    cases hstmts with
    | nil => rw [blockTerminates, blockTerminates, hs.terminates_eq]
    | cons ht hrest =>
      rw [blockTerminates, blockTerminates]
      exact blockTerminates_eq (.cons ht hrest)

end

mutual

theorem Stmt.Moved.hasReturn_eq {s s' : Stmt} (h : s.Moved R s') : s.hasReturn = s'.hasReturn := by
  cases h with
  | ifThen h label htest hyes => rw [Stmt.hasReturn, Stmt.hasReturn, blockHasReturn_eq hyes]
  | ifElse h label htest hyes hno =>
    rw [Stmt.hasReturn, Stmt.hasReturn, blockHasReturn_eq hyes, blockHasReturn_eq hno]
  | loop h label htest hbody => rw [Stmt.hasReturn, Stmt.hasReturn, blockHasReturn_eq hbody]
  | _ => rfl

theorem blockHasReturn_eq {stmts stmts' : List Stmt} (h : Forall₂ (Stmt.Moved R) stmts stmts') :
    blockHasReturn stmts = blockHasReturn stmts' := by
  cases h with
  | nil => rfl
  | cons hs hstmts => rw [blockHasReturn, blockHasReturn, hs.hasReturn_eq, blockHasReturn_eq hstmts]

end

end Same

end Teal.Program

namespace Teal

structure Program.Moved (R : Span → Span → Prop) (p p' : Program) : Prop where
  version : p.version = p'.version
  pool : p.pool = p'.pool
  scopes : p.scopes.erase = p'.scopes.erase
  globals : List.Forall₂ (Program.Stmt.Moved R) p.globals p'.globals
  functions : List.Forall₂ (Program.Function.Moved R) p.functions p'.functions
  entry : p.entry = p'.entry

end Teal
