import Teal.Proofs.Assembly.Effect
import Teal.Proofs.Scope.Slots
import Teal.Program

/-! What the builder establishes about each node of a program. Names stand for what the node needs,
literals are in the pool where the node says, calls go to functions before a bound and pass as many
arguments as there are parameters, and the operation of a builtin agrees with its arguments. The version
of the program has whatever a node needs. All of it persists when the program grows. -/

namespace Teal.Program

open Assembly List

def poolValue? (pool : Pool) : Pool.Ref → Option Literal
  | .int i => pool.ints[i]?.map .int
  | .bytes i => pool.bytes[i]?.map .bytes

def Index.exprs : Index → List Expr
  | .const _ => []
  | .dynamic e => [e]

def FieldSource.exprs : FieldSource → List Expr
  | .gtxn i => i.exprs
  | .txn | .global | .itxn => []

/-- The first version that allows an index, where computed ones are allowed from a version on. -/
def Index.since (computed : Nat) : Index → Nat
  | .const _ => 0
  | .dynamic _ => computed

/-- The first version in which fields can be read from a source. -/
def FieldSource.since : FieldSource → Nat
  | .gtxn i => i.since 3
  | .itxn => 5
  | .txn | .global => 0

def FieldSource.table : FieldSource → Field.Table
  | .global => .global
  | .txn | .gtxn _ | .itxn => .txn

/-- Number of values that an expression leaves, as declarations tell it. -/
def Expr.arity (p : Program) (e : Expr) : Nat := (e.resultTypes p.scopes p.functions).length

/-- A name stands for a value, as it is seen from a scope: a variable, or a constant in the pool. -/
def Loads (p : Program) (scope : ScopeId) (name : String) : Prop :=
  (∃ slot, p.scopes.kindOf? scope name = some (.variable slot)) ∨
    ∃ ref value, p.scopes.kindOf? scope name = some (.constant ref) ∧
      poolValue? p.pool ref = some value

theorem Loads.exists_lookup {p : Program} {scope : ScopeId} {name : String} (h : Loads p scope name) :
    ∃ x i, p.scopes.lookup scope name = some x ∧ p.scopes.Declares i x := by
  rcases h with ⟨slot, hkind⟩ | ⟨ref, value, hkind, _⟩
  all_goals
    obtain ⟨x, hlookup, _⟩ := Scopes.exists_lookup_of_kindOf? hkind
    obtain ⟨_, i, hdeclares⟩ := Scopes.declares_of_lookup hlookup
    exact ⟨x, i, hlookup, hdeclares⟩

/-- Names stand for variables, as they are seen from a scope. -/
def Stores (p : Program) (scope : ScopeId) (names : List Ident) : Prop :=
  ∀ name ∈ names, ∃ slot, p.scopes.kindOf? scope name.text = some (.variable slot)

/-- An expression is resolved in a program; it calls only functions before a bound. -/
inductive Expr.Resolved (p : Program) (bound : Nat) : Expr → Prop
  | literal {span value ref} (hvalue : poolValue? p.pool ref = some value) :
      Resolved p bound (.literal span value ref)
  | ident {span name scope} (hscope : scope < p.scopes.arena.size) (hloads : Loads p scope name) :
      Resolved p bound (.ident span name scope)
  | unary {span op e} (he : Resolved p bound e) : Resolved p bound (.unary span op e)
  | binary {span op l r} (hl : Resolved p bound l) (hr : Resolved p bound r) :
      Resolved p bound (.binary span op l r)
  | group {span e} (he : Resolved p bound e) : Resolved p bound (.group span e)
  | call {span f name site args} {callee : Function} (hbound : f < bound)
      (hcallee : p.functions[f]? = some callee) (hname : callee.name.text = name)
      (hentry : callee.isEntry = false) (hlength : args.length = callee.params.length)
      (hargs : ∀ e ∈ args, Resolved p bound e) : Resolved p bound (.call span f name site args)
  | builtin {span call args} (hagrees : Builtin.Call.Agrees call args.length)
      (hknown : Builtin.KnownIn p.version call.op call.immediates)
      (hargs : ∀ e ∈ args, Resolved p bound e) : Resolved p bound (.builtin span call args)
  | cond {span label test yes no} (htest : Resolved p bound test) (hyes : Resolved p bound yes)
      (hno : Resolved p bound no) : Resolved p bound (.cond span label test yes no)
  | field {span source f} (hty : f.ty ≠ .invalid) (hknows : source.table.Knows p.version f.name)
      (hsince : source.since ≤ p.version) (hsource : ∀ e ∈ source.exprs, Resolved p bound e) :
      Resolved p bound (.field span source f)
  | fieldAt {span source f index} (hty : f.ty ≠ .invalid)
      (hknows : source.table.Knows p.version f.name) (hsince : source.since ≤ p.version)
      (hcomputed : index.since 5 ≤ p.version) (hglobal : source ≠ .global)
      (hinner : source.isInner = true → index.isDynamic = false)
      (hsource : ∀ e ∈ source.exprs, Resolved p bound e)
      (hindex : ∀ e ∈ index.exprs, Resolved p bound e) :
      Resolved p bound (.fieldAt span source f index)
  | arg {span index} (hcomputed : index.since 5 ≤ p.version)
      (hindex : ∀ e ∈ index.exprs, Resolved p bound e) :
      Resolved p bound (.arg span index)
  | cast {span ty e} (hty : ty ≠ .invalid) (he : Resolved p bound e) :
      Resolved p bound (.cast span ty e)

/-- A statement is resolved in a program, inside so many loops. -/
inductive Stmt.Resolved (p : Program) (bound : Nat) : Nat → Stmt → Prop
  | varDecl {loops span scope names value} (hscope : scope < p.scopes.arena.size)
      (hstores : Stores p scope names) (hlength : names.length = value.arity p)
      (hvalue : value.Resolved p bound) : Resolved p bound loops (.varDecl span scope names value)
  | constDecl {loops span name value} (hvalue : value.Resolved p bound) :
      Resolved p bound loops (.constDecl span name value)
  | assign {loops span scope targets value} (hscope : scope < p.scopes.arena.size)
      (hstores : Stores p scope targets) (hlength : targets.length = value.arity p)
      (hvalue : value.Resolved p bound) : Resolved p bound loops (.assign span scope targets value)
  | setField {loops span field value} (hknows : Field.Table.txn.Knows p.version field.name)
      (hversion : 5 ≤ p.version) (hvalue : value.Resolved p bound) :
      Resolved p bound loops (.setField span field value)
  | innerBegin {loops span} (hversion : 5 ≤ p.version) : Resolved p bound loops (.innerBegin span)
  | innerSubmit {loops span} (hversion : 5 ≤ p.version) :
      Resolved p bound loops (.innerSubmit span)
  | ret {loops span value} (hvalue : value.Resolved p bound) :
      Resolved p bound loops (.ret span value)
  | error {loops span} : Resolved p bound loops (.error span)
  | ifThen {loops span label test yes} (htest : test.Resolved p bound)
      (hyes : ∀ s ∈ yes, Resolved p bound loops s) :
      Resolved p bound loops (.ifThen span label test yes)
  | ifElse {loops span label test yes no} (htest : test.Resolved p bound)
      (hyes : ∀ s ∈ yes, Resolved p bound loops s) (hno : ∀ s ∈ no, Resolved p bound loops s) :
      Resolved p bound loops (.ifElse span label test yes no)
  | loop {loops span label test body} (htest : test.Resolved p bound)
      (hbody : ∀ s ∈ body, Resolved p bound (loops + 1) s) :
      Resolved p bound loops (.loop span label test body)
  | breakLoop {loops span} : Resolved p bound (loops + 1) (.breakLoop span)
  | expr {loops span value} (hvalue : value.Resolved p bound) :
      Resolved p bound loops (.expr span value)

/-! ### Growth

A program grows while it is built: scopes and functions are added behind those there are, and literals
are added to the pool. -/

/-- The second program is for the same version and holds the scopes, functions and literals of the
first. -/
structure Extends (p q : Program) : Prop where
  version : q.version = p.version
  size_le : p.scopes.arena.size ≤ q.scopes.arena.size
  scopes : Scopes.AgreeBelow p.scopes.arena.size p.scopes q.scopes
  functions : p.functions <+: q.functions
  ints : p.pool.ints <+: q.pool.ints
  bytes : p.pool.bytes <+: q.pool.bytes

theorem getElem?_of_isPrefix {α : Type} {l l' : List α} (h : l <+: l') {i : Nat} {a : α}
    (ha : l[i]? = some a) : l'[i]? = some a := by
  obtain ⟨t, rfl⟩ := h
  rw [getElem?_append_left (List.getElem?_eq_some_iff.mp ha).1, ha]

theorem poolValue?_of_isPrefix {pool pool' : Pool} (hints : pool.ints <+: pool'.ints)
    (hbytes : pool.bytes <+: pool'.bytes) {ref : Pool.Ref} {value : Literal}
    (hvalue : poolValue? pool ref = some value) : poolValue? pool' ref = some value := by
  cases ref with
  | int i =>
    obtain ⟨n, hn, rfl⟩ := Option.map_eq_some_iff.mp hvalue
    exact Option.map_eq_some_iff.mpr ⟨n, getElem?_of_isPrefix hints hn, rfl⟩
  | bytes i =>
    obtain ⟨bs, hbs, rfl⟩ := Option.map_eq_some_iff.mp hvalue
    exact Option.map_eq_some_iff.mpr ⟨bs, getElem?_of_isPrefix hbytes hbs, rfl⟩

namespace Extends

variable {p q r : Program}

theorem trans (h : Extends p q) (h' : Extends q r) : Extends p r where
  version := h'.version.trans h.version
  size_le := Nat.le_trans h.size_le h'.size_le
  scopes := h.scopes.trans (h'.scopes.mono h.size_le)
  functions := h.functions.trans h'.functions
  ints := h.ints.trans h'.ints
  bytes := h.bytes.trans h'.bytes

theorem poolValue? (h : Extends p q) {ref : Pool.Ref} {value : Literal}
    (hvalue : Program.poolValue? p.pool ref = some value) : Program.poolValue? q.pool ref = some value :=
  poolValue?_of_isPrefix h.ints h.bytes hvalue

theorem loads (h : Extends p q) {scope : ScopeId} (hscope : scope < p.scopes.arena.size)
    {name : String} (hloads : Loads p scope name) : Loads q scope name := by
  rw [Loads, h.scopes.kindOf? hscope]
  rcases hloads with hvariable | ⟨ref, value, hkind, hvalue⟩
  · exact .inl hvariable
  · exact .inr ⟨ref, value, hkind, h.poolValue? hvalue⟩

theorem stores (h : Extends p q) {scope : ScopeId} (hscope : scope < p.scopes.arena.size)
    {names : List Ident} (hstores : Stores p scope names) : Stores q scope names := by
  intro name hname
  rw [h.scopes.kindOf? hscope]
  exact hstores name hname

end Extends

namespace Expr.Resolved

variable {p q : Program} {bound : Nat} {e : Expr}

variable (h : e.Resolved p bound)

include h

/-- The types that declarations tell of a resolved expression stay as they are. -/
theorem resultTypes_eq (hext : Extends p q) :
    e.resultTypes q.scopes q.functions = e.resultTypes p.scopes p.functions := by
  induction h with
  | ident hscope _ => simp only [resultTypes, hext.scopes.tyOf hscope]
  | call _ hcallee _ _ _ _ _ =>
    simp only [resultTypes, hcallee, getElem?_of_isPrefix hext.functions hcallee]
  | group _ ih => simpa only [resultTypes] using ih
  | cond _ _ _ _ ih _ => simpa only [resultTypes] using ih
  | literal | unary | binary | builtin | field | fieldAt | arg | cast => simp only [resultTypes]

theorem arity_eq (hext : Extends p q) : e.arity q = e.arity p := by
  rw [arity, arity, h.resultTypes_eq hext]

theorem mono (hext : Extends p q) {bound' : Nat} (hle : bound ≤ bound') : e.Resolved q bound' := by
  induction h with
  | literal hvalue => exact .literal (hext.poolValue? hvalue)
  | ident hscope hloads =>
    exact .ident (Nat.lt_of_lt_of_le hscope hext.size_le) (hext.loads hscope hloads)
  | unary _ ih => exact .unary ih
  | binary _ _ ihl ihr => exact .binary ihl ihr
  | group _ ih => exact .group ih
  | call hbound hcallee hname hentry hlength _ ih =>
    exact .call (Nat.lt_of_lt_of_le hbound hle) (getElem?_of_isPrefix hext.functions hcallee)
      hname hentry hlength ih
  | builtin hagrees hknown _ ih => exact .builtin hagrees (hext.version ▸ hknown) ih
  | cond _ _ _ iht ihy ihn => exact .cond iht ihy ihn
  | field hty hknows hsince _ ih =>
    exact .field hty (hext.version ▸ hknows) (hext.version ▸ hsince) ih
  | fieldAt hty hknows hsince hcomputed hglobal hinner _ _ ihs ihi =>
    exact .fieldAt hty (hext.version ▸ hknows) (hext.version ▸ hsince) (hext.version ▸ hcomputed)
      hglobal hinner ihs ihi
  | arg hcomputed _ ih => exact .arg (hext.version ▸ hcomputed) ih
  | cast hty _ ih => exact .cast hty ih

/-- The type of a resolved expression is looked up in a scope that exists. -/
theorem typeScope_lt : ∀ scope ∈ e.typeScope?, scope < p.scopes.arena.size := by
  induction h with
  | ident hscope _ =>
    intro scope hmem
    simp only [typeScope?, Option.mem_def, Option.some.injEq] at hmem
    exact hmem ▸ hscope
  | group _ ih => simpa only [typeScope?] using ih
  | cond _ _ _ _ ih _ => simpa only [typeScope?] using ih
  | literal | unary | binary | call | builtin | field | fieldAt | arg | cast => simp [typeScope?]

/-- No type of a resolved expression is invalid if none of a name or of a function is. -/
theorem resultTypes_valid (hsymbols : ∀ {i x}, p.scopes.Declares i x → x.ty ≠ .invalid)
    (hreturns : ∀ f ∈ p.functions, f.returnTy ≠ .invalid) :
    ∀ ty ∈ e.resultTypes p.scopes p.functions, ty ≠ .invalid := by
  induction h with
  | @literal _ value _ _ => cases value <;> simp [resultTypes, Literal.ty]
  | ident _ hloads =>
    obtain ⟨x, i, hlookup, hdeclares⟩ := hloads.exists_lookup
    simpa [resultTypes, Scopes.tyOf, hlookup] using hsymbols hdeclares
  | unary => simp [resultTypes, UnOp.resultTy]
  | binary => simp [resultTypes, BinOp.resultTy]
  | group _ ih => simpa only [resultTypes] using ih
  | call _ hcallee _ _ _ _ _ =>
    simpa [resultTypes, hcallee] using hreturns _ (mem_of_getElem? hcallee)
  | builtin hagrees _ _ _ =>
    rw [resultTypes]
    exact hagrees.results
  | cond _ _ _ _ ih _ => simpa only [resultTypes] using ih
  | field hty _ _ _ _ => simpa [resultTypes] using hty
  | fieldAt hty _ _ _ _ _ _ _ _ _ => simpa [resultTypes] using hty
  | arg => simp [resultTypes]
  | cast hty _ _ => simpa [resultTypes] using hty

end Expr.Resolved

namespace Stmt.Resolved

variable {p q : Program} {bound : Nat} {loops : Nat} {s : Stmt}

theorem mono (h : s.Resolved p bound loops) (hext : Extends p q) {bound' : Nat}
    (hle : bound ≤ bound') : s.Resolved q bound' loops := by
  induction h with
  | varDecl hscope hstores hlength hvalue =>
    exact .varDecl (Nat.lt_of_lt_of_le hscope hext.size_le) (hext.stores hscope hstores)
      (hlength.trans (hvalue.arity_eq hext).symm) (hvalue.mono hext hle)
  | constDecl hvalue => exact .constDecl (hvalue.mono hext hle)
  | assign hscope hstores hlength hvalue =>
    exact .assign (Nat.lt_of_lt_of_le hscope hext.size_le) (hext.stores hscope hstores)
      (hlength.trans (hvalue.arity_eq hext).symm) (hvalue.mono hext hle)
  | setField hknows hversion hvalue =>
    exact .setField (hext.version ▸ hknows) (hext.version ▸ hversion) (hvalue.mono hext hle)
  | innerBegin hversion => exact .innerBegin (hext.version ▸ hversion)
  | innerSubmit hversion => exact .innerSubmit (hext.version ▸ hversion)
  | ret hvalue => exact .ret (hvalue.mono hext hle)
  | error => exact .error
  | ifThen htest _ ihy => exact .ifThen (htest.mono hext hle) ihy
  | ifElse htest _ _ ihy ihn => exact .ifElse (htest.mono hext hle) ihy ihn
  | loop htest _ ih => exact .loop (htest.mono hext hle) ih
  | breakLoop => exact .breakLoop
  | expr hvalue => exact .expr (hvalue.mono hext hle)

end Stmt.Resolved

theorem forall_blockReturnScopes {P : ScopeId → Prop} {stmts : List Stmt}
    (h : ∀ s ∈ stmts, ∀ scope ∈ s.returnScopes, P scope) : ∀ scope ∈ blockReturnScopes stmts, P scope := by
  induction stmts with
  | nil => simp [blockReturnScopes]
  | cons s rest ih =>
    intro scope hscope
    rw [blockReturnScopes, mem_append] at hscope
    rcases hscope with hscope | hscope
    · exact h s mem_cons_self scope hscope
    · exact ih (fun s hs => h s (mem_cons_of_mem _ hs)) scope hscope

/-- The types of returned values are looked up in scopes that exist. -/
theorem Stmt.Resolved.returnScopes_lt {p : Program} {bound : Nat} {loops : Nat} {s : Stmt}
    (h : s.Resolved p bound loops) : ∀ scope ∈ s.returnScopes, scope < p.scopes.arena.size := by
  induction h with
  | ret hvalue =>
    intro scope hscope
    rw [returnScopes, Option.mem_toList] at hscope
    exact hvalue.typeScope_lt scope hscope
  | ifThen _ _ ihy =>
    rw [returnScopes]
    exact forall_blockReturnScopes ihy
  | ifElse _ _ _ ihy ihn =>
    intro scope hscope
    rw [returnScopes, mem_append] at hscope
    rcases hscope with hscope | hscope
    · exact forall_blockReturnScopes ihy scope hscope
    · exact forall_blockReturnScopes ihn scope hscope
  | loop _ _ ih =>
    rw [returnScopes]
    exact forall_blockReturnScopes ih
  | varDecl | constDecl | assign | setField | innerBegin | innerSubmit | error | breakLoop | expr =>
    simp [returnScopes]

end Teal.Program
