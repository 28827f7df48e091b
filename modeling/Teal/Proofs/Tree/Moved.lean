import Mathlib.Data.List.Forall2
import Teal.Proofs.Tree.Shape

/-! Trees that were moved. Two trees are the same but for their places, and a relation says how the places
of one stand to those of the other. Where the relation tells nothing, the trees are just of the same shape;
a tree that was moved to itself has only places about which the relation tells something. The places of
blocks, of type annotations and of imports are left open, since no name is looked up there. -/

namespace Teal

open List

structure Ident.Moved (R : Span → Span → Prop) (a b : Ident) : Prop where
  text : a.text = b.text
  span : R a.span b.span

theorem map_eq_of_forall₂ {α β γ : Type} {S : α → β → Prop} {as : List α} {bs : List β}
    (h : Forall₂ S as bs) {f : α → γ} {g : β → γ} (hfg : ∀ a b, S a b → f a = g b) : as.map f = bs.map g := by
  rw [← forall₂_eq_eq_eq, forall₂_map_left_iff, forall₂_map_right_iff]
  exact h.imp hfg

namespace Tree

section Relation

variable (R : Span → Span → Prop)

mutual

inductive Expr.Moved : Expr → Expr → Prop
  | int {a b : Span} (h : R a b) (n : UInt64) : Expr.Moved (.int a n) (.int b n)
  | bytes {a b : Span} (h : R a b) (bs : List UInt8) : Expr.Moved (.bytes a bs) (.bytes b bs)
  | var {a b : Span} (h : R a b) (name : String) : Expr.Moved (.var a name) (.var b name)
  | unary {a b : Span} (h : R a b) (op : UnOp) {e e' : Expr} (he : Expr.Moved e e') :
      Expr.Moved (.unary a op e) (.unary b op e')
  | binary {a b : Span} (h : R a b) (op : BinOp) {l l' r r' : Expr} (hl : Expr.Moved l l')
      (hr : Expr.Moved r r') : Expr.Moved (.binary a op l r) (.binary b op l' r')
  | group {a b : Span} (h : R a b) {e e' : Expr} (he : Expr.Moved e e') :
      Expr.Moved (.group a e) (.group b e')
  | call {a b : Span} (h : R a b) {name name' : Ident} (hname : name.Moved R name')
      {args args' : List Expr} (hargs : Forall₂ Expr.Moved args args') :
      Expr.Moved (.call a name args) (.call b name' args')
  | cond {a b : Span} (h : R a b) {test test' yes yes' no no' : Expr} (htest : Expr.Moved test test')
      (hyes : Expr.Moved yes yes') (hno : Expr.Moved no no') :
      Expr.Moved (.cond a test yes no) (.cond b test' yes' no')
  | element {a b : Span} (h : R a b) {base base' : Ident} (hbase : base.Moved R base') {i i' : Expr}
      (hi : Expr.Moved i i') : Expr.Moved (.element a base i) (.element b base' i')
  | field {a b : Span} (h : R a b) {owner owner' : Owner} (howner : Owner.Moved owner owner')
      {name name' : Ident} (hname : name.Moved R name') :
      Expr.Moved (.field a owner name) (.field b owner' name')
  | fieldAt {a b : Span} (h : R a b) {owner owner' : Owner} (howner : Owner.Moved owner owner')
      {name name' : Ident} (hname : name.Moved R name') {i i' : Expr} (hi : Expr.Moved i i') :
      Expr.Moved (.fieldAt a owner name i) (.fieldAt b owner' name' i')
  | method {a b : Span} (h : R a b) {base base' method method' : Ident} (hbase : base.Moved R base')
      (hmethod : method.Moved R method') {args args' : List Expr}
      (hargs : Forall₂ Expr.Moved args args') :
      Expr.Moved (.method a base method args) (.method b base' method' args')

inductive Owner.Moved : Owner → Owner → Prop
  | name {name name' : Ident} (hname : name.Moved R name') : Owner.Moved (.name name) (.name name')
  | element {a b : Span} (h : R a b) {base base' : Ident} (hbase : base.Moved R base') {i i' : Expr}
      (hi : Expr.Moved i i') : Owner.Moved (.element a base i) (.element b base' i')

end

inductive Target.Moved : Target → Target → Prop
  | var {a b : Span} (h : R a b) (name : String) : Target.Moved (.var a name) (.var b name)
  | field {a b : Span} (h : R a b) (base : String) {field field' : Ident}
      (hfield : field.Moved R field') : Target.Moved (.field a base field) (.field b base field')

structure Decl.Moved (d d' : Decl) : Prop where
  isConst : d.isConst = d'.isConst
  names : Forall₂ (Ident.Moved R) d.names d'.names
  value : d.value.Moved R d'.value

def targetsSpan (first : Target) (others : List Target) : Span :=
  first.span.merge (others.getLastD first).span

inductive Stmt.Moved : Stmt → Stmt → Prop
  | decl {a b : Span} (h : R a b) {d d' : Decl} (hd : d.Moved R d') :
      Stmt.Moved (.decl a d) (.decl b d')
  | assign {a b : Span} (h : R a b) {first first' : Target} (hfirst : first.Moved R first')
      {others others' : List Target} (hothers : Forall₂ (Target.Moved R) others others')
      (hall : R (targetsSpan first others) (targetsSpan first' others')) {value value' : Expr}
      (hvalue : value.Moved R value') :
      Stmt.Moved (.assign a first others value) (.assign b first' others' value')
  | ret {a b : Span} (h : R a b) {value value' : Expr} (hvalue : value.Moved R value') :
      Stmt.Moved (.ret a value) (.ret b value')
  | error {a b : Span} (h : R a b) : Stmt.Moved (.error a) (.error b)
  | breakLoop {a b : Span} (h : R a b) : Stmt.Moved (.breakLoop a) (.breakLoop b)
  | ifThen {a b : Span} (h : R a b) {test test' : Expr} (htest : test.Moved R test') (c d : Span)
      {yes yes' : List Stmt} (hyes : Forall₂ Stmt.Moved yes yes') :
      Stmt.Moved (.ifThen a test c yes) (.ifThen b test' d yes')
  | ifElse {a b : Span} (h : R a b) {test test' : Expr} (htest : test.Moved R test')
      (c d e f : Span) {yes yes' no no' : List Stmt} (hyes : Forall₂ Stmt.Moved yes yes')
      (hno : Forall₂ Stmt.Moved no no') :
      Stmt.Moved (.ifElse a test c yes e no) (.ifElse b test' d yes' f no')
  | loop {a b : Span} (h : R a b) {test test' : Expr} (htest : test.Moved R test') (c d : Span)
      {body body' : List Stmt} (hbody : Forall₂ Stmt.Moved body body') :
      Stmt.Moved (.loop a test c body) (.loop b test' d body')
  | expr {a b : Span} (h : R a b) {value value' : Expr} (hvalue : value.Moved R value') :
      Stmt.Moved (.expr a value) (.expr b value')

structure Param.Moved (p p' : Param) : Prop where
  name : p.name.Moved R p'.name
  type : p.type.map (·.1) = p'.type.map (·.1)

structure Function.Moved (f f' : Function) : Prop where
  inline : f.inline = f'.inline
  name : f.name.Moved R f'.name
  params : Forall₂ (Param.Moved R) f.params f'.params
  body : Forall₂ (Stmt.Moved R) f.body.stmts f'.body.stmts

inductive Item.Moved : Item → Item → Prop
  | decl {a b : Span} (h : R a b) {d d' : Decl} (hd : d.Moved R d') :
      Item.Moved (.decl a d) (.decl b d')
  | function {a b : Span} (h : R a b) {f f' : Function} (hf : f.Moved R f') :
      Item.Moved (.function a f) (.function b f')

end Relation

theorem Expr.Moved.span {R : Span → Span → Prop} {e e' : Expr} (h : e.Moved R e') : R e.span e'.span := by
  cases h <;> assumption

/-! ### Shapes -/

def anywhere (_ _ : Span) : Prop := True

theorem moved_ident_erase (name : Ident) : name.Moved anywhere name.erase := ⟨rfl, trivial⟩

mutual

theorem Expr.moved_erase (e : Expr) : e.Moved anywhere e.erase := by
  cases e with
  | int span n => exact .int trivial n
  | bytes span bs => exact .bytes trivial bs
  | var span name => exact .var trivial name
  | unary span op e => exact .unary trivial op e.moved_erase
  | binary span op l r => exact .binary trivial op l.moved_erase r.moved_erase
  | group span e => exact .group trivial e.moved_erase
  | call span name args => exact .call trivial (moved_ident_erase name) (moved_eraseExprs args)
  | cond span test yes no =>
    exact .cond trivial test.moved_erase yes.moved_erase no.moved_erase
  | element span base i => exact .element trivial (moved_ident_erase base) i.moved_erase
  | field span owner name => exact .field trivial owner.moved_erase (moved_ident_erase name)
  | fieldAt span owner name i =>
    exact .fieldAt trivial owner.moved_erase (moved_ident_erase name) i.moved_erase
  | method span base method args =>
    exact .method trivial (moved_ident_erase base) (moved_ident_erase method) (moved_eraseExprs args)

theorem Owner.moved_erase (owner : Owner) : owner.Moved anywhere owner.erase := by
  cases owner with
  | name name => exact .name (moved_ident_erase name)
  | element span base i => exact .element trivial (moved_ident_erase base) i.moved_erase

theorem moved_eraseExprs (es : List Expr) : Forall₂ (Expr.Moved anywhere) es (eraseExprs es) := by
  cases es with
  | nil => exact .nil
  | cons e es => exact .cons e.moved_erase (moved_eraseExprs es)

end

theorem Target.moved_erase (t : Target) : t.Moved anywhere t.erase := by
  cases t with
  | var span name => exact .var trivial name
  | field span base field => exact .field trivial base (moved_ident_erase field)

/-- What holds of each thing and its image holds of lists of them. -/
theorem forall₂_map_of_forall {α β : Type} {S : α → β → Prop} {f : α → β} (h : ∀ a, S a (f a))
    (as : List α) : Forall₂ S as (as.map f) :=
  forall₂_map_right_iff.mpr (forall₂_same.mpr fun a _ => h a)

theorem Decl.moved_erase (d : Decl) : d.Moved anywhere d.erase :=
  ⟨rfl, forall₂_map_of_forall moved_ident_erase d.names, d.value.moved_erase⟩

mutual

theorem Stmt.moved_erase (s : Stmt) : s.Moved anywhere s.erase := by
  cases s with
  | decl span d => exact .decl trivial d.moved_erase
  | assign span first others value =>
    exact .assign trivial first.moved_erase (forall₂_map_of_forall Target.moved_erase others) trivial
      value.moved_erase
  | ret span value => exact .ret trivial value.moved_erase
  | error span => exact .error trivial
  | breakLoop span => exact .breakLoop trivial
  | ifThen span test yesSpan yes =>
    exact .ifThen trivial test.moved_erase yesSpan .nowhere (moved_eraseStmts yes)
  | ifElse span test yesSpan yes noSpan no =>
    exact .ifElse trivial test.moved_erase yesSpan .nowhere noSpan .nowhere (moved_eraseStmts yes)
      (moved_eraseStmts no)
  | loop span test bodySpan body =>
    exact .loop trivial test.moved_erase bodySpan .nowhere (moved_eraseStmts body)
  | expr span value => exact .expr trivial value.moved_erase

theorem moved_eraseStmts (stmts : List Stmt) : Forall₂ (Stmt.Moved anywhere) stmts (eraseStmts stmts) := by
  cases stmts with
  | nil => exact .nil
  | cons s stmts => exact .cons s.moved_erase (moved_eraseStmts stmts)

end

theorem Param.moved_erase (p : Param) : p.Moved anywhere p.erase :=
  ⟨moved_ident_erase p.name, by rw [Param.erase, Option.map_map]; rfl⟩

theorem Function.moved_erase (f : Function) : f.Moved anywhere f.erase :=
  ⟨rfl, moved_ident_erase f.name, forall₂_map_of_forall Param.moved_erase f.params,
    forall₂_map_of_forall Stmt.moved_erase f.body.stmts⟩

theorem Item.moved_erase (i : Item) : i.Moved anywhere i.erase := by
  cases i with
  | decl span d => exact .decl trivial d.moved_erase
  | function span f => exact .function trivial f.moved_erase

/-! ### Trees of one shape -/

section Shape

variable {R : Span → Span → Prop}

theorem moved_ident_erase_eq {name name' : Ident} (h : name.Moved R name') : name.erase = name'.erase := by
  rw [Ident.erase, Ident.erase, h.text]

mutual

theorem Expr.Moved.erase_eq {e e' : Expr} (h : e.Moved R e') : e.erase = e'.erase := by
  cases h with
  | int h n => rfl
  | bytes h bs => rfl
  | var h name => rfl
  | unary h op he => rw [Expr.erase, Expr.erase, he.erase_eq]
  | binary h op hl hr => rw [Expr.erase, Expr.erase, hl.erase_eq, hr.erase_eq]
  | group h he => rw [Expr.erase, Expr.erase, he.erase_eq]
  | call h hname hargs =>
    rw [Expr.erase, Expr.erase, moved_ident_erase_eq hname, eraseExprs_eq_of_moved hargs]
  | cond h htest hyes hno => rw [Expr.erase, Expr.erase, htest.erase_eq, hyes.erase_eq, hno.erase_eq]
  | element h hbase hi => rw [Expr.erase, Expr.erase, moved_ident_erase_eq hbase, hi.erase_eq]
  | field h howner hname => rw [Expr.erase, Expr.erase, howner.erase_eq, moved_ident_erase_eq hname]
  | fieldAt h howner hname hi =>
    rw [Expr.erase, Expr.erase, howner.erase_eq, moved_ident_erase_eq hname, hi.erase_eq]
  | method h hbase hmethod hargs =>
    rw [Expr.erase, Expr.erase, moved_ident_erase_eq hbase, moved_ident_erase_eq hmethod,
      eraseExprs_eq_of_moved hargs]

theorem Owner.Moved.erase_eq {o o' : Owner} (h : o.Moved R o') : o.erase = o'.erase := by
  cases h with
  | name hname => rw [Owner.erase, Owner.erase, moved_ident_erase_eq hname]
  | element h hbase hi => rw [Owner.erase, Owner.erase, moved_ident_erase_eq hbase, hi.erase_eq]

theorem eraseExprs_eq_of_moved {es es' : List Expr} (h : Forall₂ (Expr.Moved R) es es') :
    eraseExprs es = eraseExprs es' := by
  cases h with
  | nil => rfl
  | cons he hes => rw [eraseExprs, eraseExprs, he.erase_eq, eraseExprs_eq_of_moved hes]

end

theorem Target.Moved.erase_eq {t t' : Target} (h : t.Moved R t') : t.erase = t'.erase := by
  cases h with
  | var h name => rfl
  | field h base hfield => rw [Target.erase, Target.erase, moved_ident_erase_eq hfield]

theorem Decl.Moved.erase_eq {d d' : Decl} (h : d.Moved R d') : d.erase = d'.erase := by
  rw [Decl.erase, Decl.erase, h.isConst, h.value.erase_eq,
    map_eq_of_forall₂ h.names fun _ _ hname => moved_ident_erase_eq hname]

mutual

theorem Stmt.Moved.erase_eq {s s' : Stmt} (h : s.Moved R s') : s.erase = s'.erase := by
  cases h with
  | decl h hd => rw [Stmt.erase, Stmt.erase, hd.erase_eq]
  | assign h hfirst hothers hall hvalue =>
    rw [Stmt.erase, Stmt.erase, hfirst.erase_eq, hvalue.erase_eq,
      map_eq_of_forall₂ hothers fun _ _ ht => ht.erase_eq]
  | ret h hvalue => rw [Stmt.erase, Stmt.erase, hvalue.erase_eq]
  | error h => rfl
  | breakLoop h => rfl
  | ifThen h htest c d hyes => rw [Stmt.erase, Stmt.erase, htest.erase_eq, eraseStmts_eq_of_moved hyes]
  | ifElse h htest c d e f hyes hno =>
    rw [Stmt.erase, Stmt.erase, htest.erase_eq, eraseStmts_eq_of_moved hyes, eraseStmts_eq_of_moved hno]
  | loop h htest c d hbody => rw [Stmt.erase, Stmt.erase, htest.erase_eq, eraseStmts_eq_of_moved hbody]
  | expr h hvalue => rw [Stmt.erase, Stmt.erase, hvalue.erase_eq]

theorem eraseStmts_eq_of_moved {stmts stmts' : List Stmt} (h : Forall₂ (Stmt.Moved R) stmts stmts') :
    eraseStmts stmts = eraseStmts stmts' := by
  cases h with
  | nil => rfl
  | cons hs hrest => rw [eraseStmts, eraseStmts, hs.erase_eq, eraseStmts_eq_of_moved hrest]

end

theorem Param.Moved.erase_eq {p p' : Param} (h : p.Moved R p') : p.erase = p'.erase := by
  have htype := congrArg (Option.map fun ty => (ty, Span.nowhere)) h.type
  rw [Option.map_map, Option.map_map] at htype
  rw [Param.erase, Param.erase, moved_ident_erase_eq h.name]
  exact congrArg (Param.mk _) htype

theorem Function.Moved.erase_eq {f f' : Function} (h : f.Moved R f') : f.erase = f'.erase := by
  rw [Function.erase, Function.erase, h.inline, moved_ident_erase_eq h.name,
    map_eq_of_forall₂ h.params fun _ _ hp => hp.erase_eq, Block.erase, Block.erase,
    map_eq_of_forall₂ h.body fun _ _ hs => hs.erase_eq]

theorem Item.Moved.erase_eq {i i' : Item} (h : i.Moved R i') : i.erase = i'.erase := by
  cases h with
  | decl h hd => rw [Item.erase, Item.erase, hd.erase_eq]
  | function h hf => rw [Item.erase, Item.erase, hf.erase_eq]

/-- Without places there are none to forget. -/
theorem Module.erase_erase (m : Module) : m.erase.erase = m.erase := by
  have hitems : Item.erase ∘ Item.erase = Item.erase := funext fun i => i.moved_erase.erase_eq.symm
  simp only [Module.erase, map_map, hitems]
  rfl

end Shape

end Tree

end Teal
