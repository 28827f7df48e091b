import Teal.Proofs.Program.Build.Opened

/-! How a program mirrors its source. Every part of the source has its counterpart of the same kind, at
the same place and in the same order, and all names of a statement are looked up in one scope: the scope
that holds what was declared before the statement, and nothing else. Scopes are numbered in the order of
the source, so the number of each is known from what stands before it. -/

namespace Teal

open List

namespace Symbol

def ident (x : Symbol) : Ident := ⟨x.name, x.span⟩

def Kind.isConstant : Kind → Bool
  | .constant _ => true
  | _ => false

def Kind.isRuntime : Kind → Bool
  | .runtime _ => true
  | _ => false

/-- Whether a name of the kind can be read. -/
def Kind.isValue : Kind → Bool
  | .variable _ | .constant _ => true
  | _ => false

end Symbol

/-- The computed index of what stands before a dot. -/
def Tree.Owner.exprs : Tree.Owner → List Tree.Expr
  | .name _ => []
  | .element _ _ i => [i]

namespace Scopes

/-- A scope is open directly below another and holds just some symbols, no two of one name. -/
structure Opens (s : Scopes) (kind : Scope.Kind) (parent inner : ScopeId) (symbols : List Symbol) :
    Prop where
  lt : parent < inner
  get : ∃ base, s.arena[inner]? = some ⟨some parent, kind, symbols, base⟩
  names : (symbols.map (·.name)).Nodup

section Opens

variable {s t : Scopes} {kind : Scope.Kind} {parent inner : ScopeId} {symbols : List Symbol}

theorem opens_openScope (s : Scopes) (kind : Scope.Kind) (hparent : parent < s.arena.size) :
    (s.openScope kind parent).2.Opens kind parent s.arena.size [] :=
  ⟨hparent, ⟨s.used, openScope_get s kind parent⟩, nodup_nil⟩

variable (h : s.Opens kind parent inner symbols)

include h

theorem Opens.of_agree {n : Nat} (hagree : AgreeBelow n s t)
    (hinner : inner < n) : t.Opens kind parent inner symbols := by
  obtain ⟨base, hget⟩ := h.get
  exact ⟨h.lt, ⟨base, (hagree inner hinner).trans hget⟩, h.names⟩

theorem Opens.lt_size : inner < s.arena.size := by
  obtain ⟨base, hget⟩ := h.get
  exact (Array.getElem?_eq_some_iff.mp hget).1

/-- The scopes that are seen from an open scope are the scope itself and those seen from its parent. -/
theorem Opens.path : ∃ base, s.path inner = ⟨some parent, kind, symbols, base⟩ :: s.path parent := by
  obtain ⟨base, hget⟩ := h.get
  refine ⟨base, ?_⟩
  rw [Scopes.path, hget]
  simp only [if_pos h.lt]

omit h

variable {x : Symbol}

theorem find?_of_mem_nodup {symbols : List Symbol} (hnodup : (symbols.map (·.name)).Nodup)
    (hx : x ∈ symbols) : symbols.find? (·.name == x.name) = some x := by
  induction symbols with
  | nil => cases hx
  | cons y rest ih =>
    obtain ⟨hnot, hrest⟩ := nodup_cons.mp hnodup
    rcases mem_cons.mp hx with rfl | hx
    · simp
    · have hne : y.name ≠ x.name := by
        intro heq
        exact hnot (mem_map.mpr ⟨x, hx, heq.symm⟩)
      rw [find?_cons_of_neg (by simpa using hne)]
      exact ih hrest hx

theorem Opens.lookup_mem (h : s.Opens kind parent inner symbols) (hx : x ∈ symbols) :
    s.lookup inner x.name = some x := by
  obtain ⟨base, hpath⟩ := h.path
  have hfind : Scope.find? ⟨some parent, kind, symbols, base⟩ x.name = some x :=
    find?_of_mem_nodup h.names hx
  rw [lookup, hpath, findSome?_cons, hfind]

/-- All other names stand for what they stand for outside. -/
theorem Opens.lookup_cases (h : s.Opens kind parent inner symbols) (name : String) :
    (∃ x ∈ symbols, x.name = name ∧ s.lookup inner name = some x) ∨
      s.lookup inner name = s.lookup parent name := by
  by_cases hname : ∃ x ∈ symbols, x.name = name
  · obtain ⟨x, hx, rfl⟩ := hname
    exact .inl ⟨x, hx, rfl, h.lookup_mem hx⟩
  · right
    obtain ⟨base, hpath⟩ := h.path
    have hfind : Scope.find? ⟨some parent, kind, symbols, base⟩ name = none := by
      rw [Scope.find?, find?_eq_none]
      intro x hx
      simpa using fun heq => hname ⟨x, hx, heq⟩
    rw [lookup, hpath, findSome?_cons, hfind]
    rfl

/-- Writing a symbol that is permitted adds it to those of the scope. -/
theorem Opens.insert (h : s.Opens kind parent inner symbols)
    (hpermits : s.permits inner x.name = .ok ()) (used : Nat) :
    ({ s.insert inner x with used := used } : Scopes).Opens kind parent inner (symbols ++ [x]) := by
  obtain ⟨base, hget⟩ := h.get
  refine ⟨h.lt, ⟨base, insert_get x hget⟩, ?_⟩
  rw [map_append, nodup_append]
  refine ⟨h.names, by simp, ?_⟩
  intro name hname name' hname'
  obtain ⟨y, hy, rfl⟩ := mem_map.mp hname
  rw [mem_singleton.mp hname']
  exact (fresh_of_permits hpermits).1 y ⟨_, hget, hy⟩

/-- A scope is open directly below another and holds symbols of some names, all of one kind. -/
def Holds (s : Scopes) (kind : Scope.Kind) (parent inner : ScopeId) (names : List Ident)
    (isKind : Symbol.Kind → Bool) : Prop :=
  ∃ symbols, s.Opens kind parent inner symbols ∧ symbols.map (·.ident) = names ∧
    ∀ x ∈ symbols, isKind x.kind = true

variable {names : List Ident} {isKind : Symbol.Kind → Bool}

theorem Holds.lt_size (h : s.Holds kind parent inner names isKind) : inner < s.arena.size := by
  obtain ⟨symbols, hopens, _⟩ := h
  exact hopens.lt_size

theorem Holds.of_agree (h : s.Holds kind parent inner names isKind)
    (hagree : AgreeBelow s.arena.size s t) : t.Holds kind parent inner names isKind := by
  obtain ⟨symbols, hopens, hrest⟩ := h
  exact ⟨symbols, hopens.of_agree hagree hopens.lt_size, hrest⟩

theorem Holds.isVariable (h : s.Holds kind parent inner names Symbol.Kind.isVariable) {name : Ident}
    (hname : name ∈ names) : ∃ slot, s.kindOf? inner name.text = some (.variable slot) := by
  obtain ⟨symbols, hopens, rfl, hkinds⟩ := h
  obtain ⟨x, hx, rfl⟩ := mem_map.mp hname
  have hkind : s.kindOf? inner x.name = some x.kind :=
    congrArg (Option.map Symbol.kind) (hopens.lookup_mem hx)
  have hvariable := hkinds x hx
  cases hx : x.kind with
  | «variable» slot => exact ⟨slot, hx ▸ hkind⟩
  | constant | function | runtime =>
    rw [hx] at hvariable
    cases hvariable

theorem Holds.insert (h : s.Holds kind parent inner names isKind)
    (hpermits : s.permits inner x.name = .ok ()) (hkind : isKind x.kind = true) (used : Nat) :
    ({ s.insert inner x with used := used } : Scopes).Holds kind parent inner (names ++ [x.ident])
      isKind := by
  obtain ⟨symbols, hopens, hnames, hkinds⟩ := h
  refine ⟨symbols ++ [x], hopens.insert hpermits used, by simp [hnames], ?_⟩
  intro y hy
  rcases mem_append.mp hy with hy | hy
  · exact hkinds y hy
  · rw [mem_singleton.mp hy]
    exact hkind

end Opens

end Scopes

namespace Program

/-- How the names of an expression are taken. -/
structure Reading where
  /-- The name is read as a value, by a node that looks it up from a scope. -/
  value : String → ScopeId → Prop
  /-- The name stands for a number that is known beforehand. -/
  number : String → Prop
  /-- The name stands for the function of an index. -/
  call : String → Nat → Prop
  /-- No declaration of the name is seen. -/
  undeclared : String → Prop
  machine : String → Runtime → Prop

namespace Reading

/-- Names are looked up from a scope, where they stand for what `look` tells. -/
def seen (look : String → Option Symbol.Kind) (scope : ScopeId) : Reading where
  value name place := place = scope ∧ ∃ kind, look name = some kind ∧ kind.isValue = true
  number name := ∃ i, look name = some (.constant (.int i))
  call name f := look name = some (.function f)
  undeclared name := look name = none
  machine name r := look name = some (.runtime r)

/-- An expression is a number that is known beforehand. -/
def Known (R : Reading) : Tree.Expr → Prop
  | .int _ _ => True
  | .group _ e => R.Known e
  | .var _ name => R.number name
  | _ => False

/-- Arguments of a builtin, and those of them that are pushed. Any other is known beforehand: a number,
or the bare name of a field. -/
inductive Pushed (R : Reading) : List Tree.Expr → List Tree.Expr → Prop
  | nil : Pushed R [] []
  | push {e args origins} (hrest : Pushed R args origins) : Pushed R (e :: args) (e :: origins)
  | number {e args origins} (he : R.Known e) (hrest : Pushed R args origins) :
      Pushed R (e :: args) origins
  | field {span name args origins} (hrest : Pushed R args origins) :
      Pushed R (.var span name :: args) origins

/-- What stands before the dot of a field, and what the field is read from. -/
inductive Source (R : Reading) : Tree.Owner → FieldSource → Prop
  | txn {name} (hmachine : R.machine name.text .txn) : Source R (.name name) .txn
  | global {name} (hmachine : R.machine name.text .global) : Source R (.name name) .global
  | itxn {name} (hmachine : R.machine name.text .itxn) : Source R (.name name) .itxn
  | gtxn {span base i i'} (hmachine : R.machine base.text .gtxn)
      (hknown : i'.isDynamic = false → R.Known i) : Source R (.element span base i) (.gtxn i')

end Reading

/-- An expression of a program mirrors one of the source. Of a builtin the arguments that are pushed have
their counterparts; each of the others became part of the instruction, and so do indices that are known
beforehand. -/
inductive Expr.Mirrors (R : Reading) : Tree.Expr → Expr → Prop
  | int {span n ref} : Mirrors R (.int span n) (.literal span (.int n) ref)
  | bytes {span bs ref} : Mirrors R (.bytes span bs) (.literal span (.bytes bs) ref)
  | var {span name scope} (hvalue : R.value name scope) :
      Mirrors R (.var span name) (.ident span name scope)
  | unary {span op e e'} (he : Mirrors R e e') : Mirrors R (.unary span op e) (.unary span op e')
  | binary {span op l l' r r'} (hl : Mirrors R l l') (hr : Mirrors R r r') :
      Mirrors R (.binary span op l r) (.binary span op l' r')
  | group {span e e'} (he : Mirrors R e e') : Mirrors R (.group span e) (.group span e')
  | call {span f name site args args'} (hcall : R.call name.text f)
      (hlength : args'.length = args.length) (hargs : ∀ x ∈ args.zip args', Mirrors R x.1 x.2) :
      Mirrors R (.call span name args) (.call span f name.text site args')
  | cast {span name ty e e'} (hundeclared : R.undeclared name.text)
      (hty : Build.castTy? name.text = some ty) (he : Mirrors R e e') :
      Mirrors R (.call span name [e]) (.cast span ty e')
  | builtin {span name args call kept} {origins : List Tree.Expr}
      (hundeclared : R.undeclared name.text) (hcast : Build.castTy? name.text = none)
      (hname : call.name = name.text)
      (himmediates : kept.length + call.immediates.length = args.length)
      (hpushed : R.Pushed args origins) (hlength : kept.length = origins.length)
      (hargs : ∀ x ∈ origins.zip kept, Mirrors R x.1 x.2) :
      Mirrors R (.call span name args) (.builtin span call kept)
  | cond {span label test test' yes yes' no no'} (htest : Mirrors R test test')
      (hyes : Mirrors R yes yes') (hno : Mirrors R no no') :
      Mirrors R (.cond span test yes no) (.cond span label test' yes' no')
  | element {span base i i'} (hmachine : R.machine base.text .args)
      (hknown : i'.isDynamic = false → R.Known i) (hindex : ∀ e ∈ i'.exprs, Mirrors R i e) :
      Mirrors R (.element span base i) (.arg span i')
  | field {span owner name source f} (hname : f.name = name.text) (howner : R.Source owner source)
      (hsource : ∀ x ∈ owner.exprs.zip source.exprs, Mirrors R x.1 x.2) :
      Mirrors R (.field span owner name) (.field span source f)
  | fieldAt {span owner name i source f i'} (hname : f.name = name.text)
      (howner : R.Source owner source)
      (hsource : ∀ x ∈ owner.exprs.zip source.exprs, Mirrors R x.1 x.2)
      (hknown : i'.isDynamic = false → R.Known i) (hindex : ∀ e ∈ i'.exprs, Mirrors R i e) :
      Mirrors R (.fieldAt span owner name i) (.fieldAt span source f i')

/-- What one reading takes a name for, another does as well. -/
structure Reading.Implies (R R' : Reading) : Prop where
  value : ∀ {name scope}, R.value name scope → R'.value name scope
  number : ∀ {name}, R.number name → R'.number name
  call : ∀ {name f}, R.call name f → R'.call name f
  undeclared : ∀ {name}, R.undeclared name → R'.undeclared name
  machine : ∀ {name r}, R.machine name r → R'.machine name r

section Implies

variable {R R' : Reading}

theorem Reading.Implies.known (h : R.Implies R') (e : Tree.Expr) (he : R.Known e) : R'.Known e := by
  cases e with
  | int => trivial
  | group span e => exact h.known e he
  | var span name => exact h.number he
  | bytes | unary | binary | call | cond | element | field | fieldAt | method => cases he
termination_by structural e

theorem Reading.Implies.pushed (h : R.Implies R') {args origins : List Tree.Expr}
    (hpushed : R.Pushed args origins) : R'.Pushed args origins := by
  induction hpushed with
  | nil => exact .nil
  | push _ ih => exact .push ih
  | number he _ ih => exact .number (h.known _ he) ih
  | field _ ih => exact .field ih

theorem Reading.Implies.source (h : R.Implies R') {owner : Tree.Owner} {source : FieldSource}
    (hsource : R.Source owner source) : R'.Source owner source := by
  cases hsource with
  | txn hmachine => exact .txn (h.machine hmachine)
  | global hmachine => exact .global (h.machine hmachine)
  | itxn hmachine => exact .itxn (h.machine hmachine)
  | gtxn hmachine hknown => exact .gtxn (h.machine hmachine) fun hconst => h.known _ (hknown hconst)

theorem Expr.Mirrors.imp (h : R.Implies R') {tree : Tree.Expr} {e : Expr} (he : e.Mirrors R tree) :
    e.Mirrors R' tree := by
  induction he with
  | int => exact .int
  | bytes => exact .bytes
  | var hvalue => exact .var (h.value hvalue)
  | unary _ ih => exact .unary ih
  | binary _ _ ihl ihr => exact .binary ihl ihr
  | group _ ih => exact .group ih
  | call hcall hlength _ ih => exact .call (h.call hcall) hlength ih
  | cast hundeclared hty _ ih => exact .cast (h.undeclared hundeclared) hty ih
  | builtin hundeclared hcast hname himmediates hpushed hlength _ ih =>
    exact .builtin (h.undeclared hundeclared) hcast hname himmediates (h.pushed hpushed) hlength ih
  | cond _ _ _ ihtest ihyes ihno => exact .cond ihtest ihyes ihno
  | element hmachine hknown _ ih =>
    exact .element (h.machine hmachine) (fun hconst => h.known _ (hknown hconst)) ih
  | field hname howner _ ih => exact .field hname (h.source howner) ih
  | fieldAt hname howner _ hknown _ ihsource ihindex =>
    exact .fieldAt hname (h.source howner) ihsource (fun hconst => h.known _ (hknown hconst)) ihindex

end Implies

variable {R : Reading} {args origins : List Tree.Expr} {s : Scopes}

theorem Reading.Pushed.length_le (h : R.Pushed args origins) : origins.length ≤ args.length := by
  induction h with
  | nil => exact .refl
  | push _ ih => exact Nat.succ_le_succ ih
  | number _ _ ih => exact Nat.le_succ_of_le ih
  | field _ ih => exact Nat.le_succ_of_le ih

/-- Where as many are pushed as there are, none is left out. -/
theorem Reading.Pushed.eq_of_length (h : R.Pushed args origins)
    (hlength : origins.length = args.length) : origins = args := by
  induction h with
  | nil => rfl
  | push _ ih => rw [ih (Nat.succ.inj hlength)]
  | number _ hrest _ => exact absurd hlength (Nat.ne_of_lt (Nat.lt_succ_of_le hrest.length_le))
  | field hrest _ => exact absurd hlength (Nat.ne_of_lt (Nat.lt_succ_of_le hrest.length_le))

/-- Every computed part of a source has its origin. -/
theorem Reading.Source.length_le {owner : Tree.Owner} {source : FieldSource}
    (h : R.Source owner source) : source.exprs.length ≤ owner.exprs.length := by
  cases h with
  | txn | global | itxn => exact .refl
  | @gtxn _ _ _ i' => cases i' <;> simp [FieldSource.exprs, Index.exprs, Tree.Owner.exprs]

/-- What stands in the shorter of two lists has a partner in the other. -/
theorem exists_mem_zip {α β : Type} {l : List α} {l' : List β} (h : l'.length ≤ l.length) {b : β}
    (hb : b ∈ l') : ∃ a, (a, b) ∈ l.zip l' := by
  rw [← map_snd_zip h, mem_map] at hb
  obtain ⟨⟨a, _⟩, hmem, rfl⟩ := hb
  exact ⟨a, hmem⟩

/-- A declaration and its counterpart, which opens a scope for what follows. Its value does not see the
names that it declares. -/
inductive DeclMirrors (s : Scopes) (scope : ScopeId) (span : Span) (decl : Tree.Decl) :
    Stmt → ScopeId → Prop
  | varDecl {inner value} (hconst : decl.isConst = false)
      (hvalue : value.Mirrors (.seen (s.kindOf? scope) scope) decl.value)
      (hholds : s.Holds .decl scope inner decl.names Symbol.Kind.isVariable) :
      DeclMirrors s scope span decl (.varDecl span inner decl.names value) inner
  | constDecl {inner name value} (hconst : decl.isConst = true) (hnames : decl.names = [name])
      (hvalue : value.Mirrors (.seen (s.kindOf? scope) scope) decl.value)
      (hholds : s.Holds .decl scope inner [name] Symbol.Kind.isConstant) :
      DeclMirrors s scope span decl (.constDecl span name value) inner

theorem DeclMirrors.holds {scope : ScopeId} {span : Span} {decl : Tree.Decl} {stmt : Stmt}
    {inner : ScopeId} (h : DeclMirrors s scope span decl stmt inner) :
    ∃ names isKind, s.Holds .decl scope inner names isKind ∧ ∀ f, isKind (.function f) = false := by
  cases h with
  | varDecl _ _ hholds => exact ⟨_, _, hholds, fun _ => rfl⟩
  | constDecl _ _ _ hholds => exact ⟨_, _, hholds, fun _ => rfl⟩

mutual

/-- A statement and its counterpart, with the scope that is seen behind it. The scopes that are opened
for it are numbered from `next` on. -/
inductive StmtMirrors (s : Scopes) : (next : Nat) → ScopeId → Tree.Stmt → Stmt → ScopeId → Prop
  | decl {next scope span decl stmt} (hdecl : DeclMirrors s scope span decl stmt next) :
      StmtMirrors s next scope (.decl span decl) stmt next
  | assign {next scope span first others names value value'}
      (htargets : first :: others = names.map fun name => .var name.span name.text)
      (hvariables : ∀ name ∈ names, ∃ slot, s.kindOf? scope name.text = some (.variable slot))
      (hvalue : value'.Mirrors (.seen (s.kindOf? scope) scope) value) :
      StmtMirrors s next scope (.assign span first others value) (.assign span scope names value')
        scope
  | setField {next scope span targetSpan base name field value value'}
      (hlook : s.runtimeOf? scope base = some .itxn) (hname : field.name = name.text)
      (hvalue : value'.Mirrors (.seen (s.kindOf? scope) scope) value) :
      StmtMirrors s next scope (.assign span (.field targetSpan base name) [] value)
        (.setField span field value') scope
  | innerBegin {next scope span callSpan base method}
      (hlook : s.kindOf? scope base.text = some (.runtime .itxn)) (hmethod : method.text = "begin") :
      StmtMirrors s next scope (.expr span (.method callSpan base method [])) (.innerBegin span) scope
  | innerSubmit {next scope span callSpan base method}
      (hlook : s.kindOf? scope base.text = some (.runtime .itxn)) (hmethod : method.text = "submit") :
      StmtMirrors s next scope (.expr span (.method callSpan base method [])) (.innerSubmit span) scope
  | ret {next scope span value value'} (hvalue : value'.Mirrors (.seen (s.kindOf? scope) scope) value) :
      StmtMirrors s next scope (.ret span value) (.ret span value') scope
  | error {next scope span} : StmtMirrors s next scope (.error span) (.error span) scope
  | breakLoop {next scope span} : StmtMirrors s next scope (.breakLoop span) (.breakLoop span) scope
  | ifThen {next scope span label test test' yesSpan yes yes'}
      (htest : test'.Mirrors (.seen (s.kindOf? scope) scope) test)
      (hopens : s.Opens .block scope next []) (hyes : BlockMirrors s (next + 1) next yes yes') :
      StmtMirrors s next scope (.ifThen span test yesSpan yes) (.ifThen span label test' yes') scope
  | ifElse {next scope span label test test' yesSpan yes yes' noSpan no no'}
      (htest : test'.Mirrors (.seen (s.kindOf? scope) scope) test)
      (hopens : s.Opens .block scope next []) (hyes : BlockMirrors s (next + 1) next yes yes')
      (hopens' : s.Opens .block scope (next + 1 + Tree.blockOpened yes) [])
      (hno : BlockMirrors s (next + 1 + Tree.blockOpened yes + 1) (next + 1 + Tree.blockOpened yes)
        no no') :
      StmtMirrors s next scope (.ifElse span test yesSpan yes noSpan no)
        (.ifElse span label test' yes' no') scope
  | loop {next scope span label test test' bodySpan body body'}
      (htest : test'.Mirrors (.seen (s.kindOf? scope) scope) test)
      (hopens : s.Opens .block scope next []) (hbody : BlockMirrors s (next + 1) next body body') :
      StmtMirrors s next scope (.loop span test bodySpan body) (.loop span label test' body') scope
  | expr {next scope span value value'} (hvalue : value'.Mirrors (.seen (s.kindOf? scope) scope) value) :
      StmtMirrors s next scope (.expr span value) (.expr span value') scope

/-- A block and its counterpart: as many statements in the same order. -/
inductive BlockMirrors (s : Scopes) : (next : Nat) → ScopeId → List Tree.Stmt → List Stmt → Prop
  | nil {next scope} : BlockMirrors s next scope [] []
  | cons {next scope after stmt stmt' rest rest'}
      (hstmt : StmtMirrors s next scope stmt stmt' after)
      (hrest : BlockMirrors s (next + stmt.opened) after rest rest') :
      BlockMirrors s next scope (stmt :: rest) (stmt' :: rest')

end

/-- A function and its counterpart, which sees what is seen from the scope `tip`. The parameters of the
entry point stand for parts of the machine, those of other functions for variables. -/
structure Function.Mirrors (s : Scopes) (tip : ScopeId) (span : Span) (tree : Tree.Function)
    (f : Function) : Prop where
  name : f.name = tree.name
  inline : f.inline = tree.inline
  span : f.span = span
  isEntry : f.isEntry = (tree.name.text == entryName)
  params : f.params.map (·.1) = tree.params.map (·.name)
  returns : f.isEntry = true → f.returnTy = .integer
  scope : f.scope = tip + 1
  holds : s.Holds .block tip f.scope (f.params.map (·.1))
    (if f.isEntry then Symbol.Kind.isRuntime else Symbol.Kind.isVariable)
  body : BlockMirrors s (f.scope + 1) f.scope tree.body.stmts f.body

/-- The symbol of a function, which is declared behind it. -/
def Function.symbol (f : Function) (index : Nat) : Symbol :=
  ⟨f.name.text, f.returnTy, .function index, f.name.span⟩

def Build.machineSymbol (r : Runtime) : Symbol := ⟨r.text, .unknown, .runtime r, .nowhere⟩

/-- The scopes before any item: those of the machine's names and an empty block. -/
def startPath : List Scope :=
  [⟨some Scopes.root, .block, [], 0⟩,
    ⟨none, .block, [Build.machineSymbol .global, Build.machineSymbol .itxn], 0⟩]

/-- Items and their counterparts, with the scope that is seen behind them: one declaration for each
declaration and one function for each function, in the same order. The scope behind an item is the last
one that is opened for it. -/
inductive ItemsMirror (s : Scopes) : List Tree.Item → ScopeId → List Stmt → List Function → Prop
  | start (hstart : s.path 1 = startPath) : ItemsMirror s [] 1 [] []
  | decl {items tip globals functions span decl stmt}
      (hitems : ItemsMirror s items tip globals functions)
      (hdecl : DeclMirrors s tip span decl stmt (tip + 1)) :
      ItemsMirror s (items ++ [.decl span decl]) (tip + 1) (globals ++ [stmt]) functions
  | function {items tip globals functions span} {tree : Tree.Function} {f : Function}
      (hitems : ItemsMirror s items tip globals functions)
      (hfunction : f.Mirrors s tip span tree)
      (hopens : s.Opens .decl tip (tip + 2 + Tree.blockOpened tree.body.stmts)
        [f.symbol functions.length]) :
      ItemsMirror s (items ++ [.function span tree]) (tip + 2 + Tree.blockOpened tree.body.stmts)
        globals (functions ++ [f])

theorem ItemsMirror.exists_mirrors {items : List Tree.Item} {tip : ScopeId} {globals : List Stmt}
    {functions : List Function} (h : ItemsMirror s items tip globals functions) {f : Function}
    (hf : f ∈ functions) : ∃ tip span tree, f.Mirrors s tip span tree := by
  induction h with
  | start => cases hf
  | decl _ _ ih => exact ih hf
  | function _ hfunction _ ih =>
    rcases mem_append.mp hf with hf | hf
    · exact ih hf
    · rw [mem_singleton.mp hf]
      exact ⟨_, _, _, hfunction⟩

def items (ms : List Tree.SourceModule) : List Tree.Item := ms.flatMap (·.tree.items)

end Program

end Teal
