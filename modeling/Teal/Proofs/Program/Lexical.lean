import Teal.Proofs.Program.Outline
import Teal.Proofs.Program.Slots
import Teal.Proofs.Semantics.Cells

/-! Names are scoped lexically. What a name stands for is told from the source alone, by an environment
that grows as the items are read in their order: a declaration is visible behind itself up to the end of
its block, and a function behind its body. A program looks its names up in a tree of scopes, and finds for
each of them the declaration that the environment has. -/

namespace Teal

open List

namespace Lexical

/-- What a declaration makes of a name. -/
inductive Form where
  | variable
  | constant
  | machine
  /-- A function, by its number in the source. -/
  | function (index : Nat)
deriving DecidableEq

def Form.isValue : Form → Bool
  | .variable | .constant => true
  | _ => false

/-- A name that is declared in a region of the source. -/
structure Declaration where
  region : Nat
  name : Ident
  form : Form
deriving DecidableEq

/-- What is visible at a place of the source, the nearest first. Every block and every declaration is a
region of its own, and they are numbered in the order of the source. -/
structure Env where
  visible : List Declaration
  regions : Nat
  /-- Number of functions before the place. -/
  functions : Nat

namespace Env

/-- Before any item there are the names of the machine, and the block of the items is open. -/
def start : Env where
  visible := [Runtime.global, Runtime.itxn].map fun r => ⟨0, ⟨r.text, .nowhere⟩, .machine⟩
  regions := 2
  functions := 0

def find? (env : Env) (name : String) : Option Declaration :=
  env.visible.find? (·.name.text == name)

/-- Names are declared in a new region. -/
def declare (env : Env) (form : Form) (names : List Ident) : Env :=
  { env with
    visible := names.map (fun name => ⟨env.regions, name, form⟩) ++ env.visible
    regions := env.regions + 1 }

/-- A block sees what is visible before it. -/
def block (env : Env) : Env := { env with regions := env.regions + 1 }

/-- Behind a block, what was declared inside is gone. -/
def leave (env inner : Env) : Env := { env with regions := inner.regions }

end Env

def declForm (d : Tree.Decl) : Form := if d.isConst then .constant else .variable

/-- The parameters of the entry point stand for parts of the machine. -/
def paramForm (f : Tree.Function) : Form :=
  if f.name.text == Program.entryName then .machine else .variable

mutual

def afterStmt (env : Env) : Tree.Stmt → Env
  | .decl _ d => env.declare (declForm d) d.names
  | .ifThen _ _ _ yes => env.leave (afterBlock env.block yes)
  | .ifElse _ _ _ yes _ no =>
    let behind := env.leave (afterBlock env.block yes)
    behind.leave (afterBlock behind.block no)
  | .loop _ _ _ body => env.leave (afterBlock env.block body)
  | .assign _ _ _ _ | .ret _ _ | .error _ | .breakLoop _ | .expr _ _ => env

def afterBlock (env : Env) : List Tree.Stmt → Env
  | [] => env
  | s :: rest => afterBlock (afterStmt env s) rest

end

namespace Env

/-- A body sees the parameters, and what is visible before the function. -/
def body (env : Env) (f : Tree.Function) : Env :=
  env.declare (paramForm f) (f.params.map (·.name))

/-- What is visible behind an item. A function is not visible in its own body. -/
def afterItem (env : Env) : Tree.Item → Env
  | .decl _ d => env.declare (declForm d) d.names
  | .function _ f =>
    let behind := env.leave (afterBlock (env.body f) f.body.stmts)
    { behind.declare (.function env.functions) [f.name] with functions := env.functions + 1 }

end Env

end Lexical

namespace Symbol.Kind

/-- What a symbol was declared as. -/
def form : Symbol.Kind → Lexical.Form
  | .variable _ => .variable
  | .constant _ => .constant
  | .function f => .function f
  | .runtime _ => .machine

variable {kind : Symbol.Kind}

theorem form_of_isVariable (h : kind.isVariable = true) : kind.form = .variable := by
  cases kind with
  | «variable» => rfl
  | constant | function | runtime => cases h

theorem form_of_isConstant (h : kind.isConstant = true) : kind.form = .constant := by
  cases kind with
  | constant => rfl
  | «variable» | function | runtime => cases h

theorem form_of_isRuntime (h : kind.isRuntime = true) : kind.form = .machine := by
  cases kind with
  | runtime => rfl
  | «variable» | constant | function => cases h

theorem isValue_form (kind : Symbol.Kind) : kind.form.isValue = kind.isValue := by
  cases kind <;> rfl

end Symbol.Kind

/-- The declaration whose symbol is found when a name is looked up from a scope. -/
def Scopes.declaration? (s : Scopes) (scope : ScopeId) (name : String) : Option Lexical.Declaration :=
  (s.home? scope name).bind fun home =>
    (s.lookup scope name).map fun x => ⟨home, x.ident, x.kind.form⟩

namespace Lexical

open Program (Expr Stmt Function)

/-- Names as an environment has them. A value is looked up from the scope of its node, and the symbol that
is found there is the one of the same declaration; a call goes to the function that was declared. -/
def Env.reading (p : Program) (env : Env) : Program.Reading where
  value name scope := ∃ d, env.find? name = some d ∧ d.form.isValue = true ∧
    p.scopes.declaration? scope name = some d
  number name := ∃ d, env.find? name = some d ∧ d.form = .constant
  call name i := ∃ d f, env.find? name = some d ∧ d.form = .function i ∧
    p.functions[i]? = some f ∧ f.name = d.name
  undeclared name := env.find? name = none
  machine name _ := ∃ d, env.find? name = some d ∧ d.form = .machine

mutual

/-- All names of a statement are what the environment has for them. -/
inductive StmtResolves (p : Program) : Env → Tree.Stmt → Stmt → Prop
  | varDecl {env span d scope value} (hconst : d.isConst = false)
      (hvalue : value.Mirrors (env.reading p) d.value)
      (hnames : ∀ name ∈ d.names,
        p.scopes.declaration? scope name.text = some ⟨env.regions, name, .variable⟩) :
      StmtResolves p env (.decl span d) (.varDecl span scope d.names value)
  | constDecl {env span d name value} (hconst : d.isConst = true) (hnames : d.names = [name])
      (hvalue : value.Mirrors (env.reading p) d.value) :
      StmtResolves p env (.decl span d) (.constDecl span name value)
  | assign {env span first others scope names value value'}
      (htargets : first :: others = names.map fun name => .var name.span name.text)
      (hnames : ∀ name ∈ names, ∃ d, env.find? name.text = some d ∧ d.form = .variable ∧
        p.scopes.declaration? scope name.text = some d)
      (hvalue : value'.Mirrors (env.reading p) value) :
      StmtResolves p env (.assign span first others value) (.assign span scope names value')
  | setField {env span targetSpan base name field value value'}
      (hbase : (env.reading p).machine base .itxn) (hvalue : value'.Mirrors (env.reading p) value) :
      StmtResolves p env (.assign span (.field targetSpan base name) [] value)
        (.setField span field value')
  | innerBegin {env span callSpan base method} (hbase : (env.reading p).machine base.text .itxn) :
      StmtResolves p env (.expr span (.method callSpan base method [])) (.innerBegin span)
  | innerSubmit {env span callSpan base method} (hbase : (env.reading p).machine base.text .itxn) :
      StmtResolves p env (.expr span (.method callSpan base method [])) (.innerSubmit span)
  | ret {env span value value'} (hvalue : value'.Mirrors (env.reading p) value) :
      StmtResolves p env (.ret span value) (.ret span value')
  | error {env span} : StmtResolves p env (.error span) (.error span)
  | breakLoop {env span} : StmtResolves p env (.breakLoop span) (.breakLoop span)
  | ifThen {env span label test test' yesSpan yes yes'} (htest : test'.Mirrors (env.reading p) test)
      (hyes : BlockResolves p env.block yes yes') :
      StmtResolves p env (.ifThen span test yesSpan yes) (.ifThen span label test' yes')
  | ifElse {env span label test test' yesSpan yes yes' noSpan no no'}
      (htest : test'.Mirrors (env.reading p) test) (hyes : BlockResolves p env.block yes yes')
      (hno : BlockResolves p (env.leave (afterBlock env.block yes)).block no no') :
      StmtResolves p env (.ifElse span test yesSpan yes noSpan no) (.ifElse span label test' yes' no')
  | loop {env span label test test' bodySpan body body'} (htest : test'.Mirrors (env.reading p) test)
      (hbody : BlockResolves p env.block body body') :
      StmtResolves p env (.loop span test bodySpan body) (.loop span label test' body')
  | expr {env span value value'} (hvalue : value'.Mirrors (env.reading p) value) :
      StmtResolves p env (.expr span value) (.expr span value')

inductive BlockResolves (p : Program) : Env → List Tree.Stmt → List Stmt → Prop
  | nil {env} : BlockResolves p env [] []
  | cons {env stmt stmt' rest rest'} (hstmt : StmtResolves p env stmt stmt')
      (hrest : BlockResolves p (afterStmt env stmt) rest rest') :
      BlockResolves p env (stmt :: rest) (stmt' :: rest')

end

structure FunctionResolves (p : Program) (env : Env) (tree : Tree.Function) (f : Function) : Prop where
  name : f.name = tree.name
  params : ∀ name ∈ tree.params.map (·.name),
    p.scopes.declaration? f.scope name.text = some ⟨env.regions, name, paramForm tree⟩
  body : BlockResolves p (env.body tree) tree.body.stmts f.body

/-- All names of the items are what the environment has for them, which grows from item to item. -/
inductive ItemsResolve (p : Program) : Env → List Tree.Item → List Stmt → List Function → Prop
  | nil {env} : ItemsResolve p env [] [] []
  | decl {env span d rest stmt globals functions} (hdecl : StmtResolves p env (.decl span d) stmt)
      (hrest : ItemsResolve p (env.afterItem (.decl span d)) rest globals functions) :
      ItemsResolve p env (.decl span d :: rest) (stmt :: globals) functions
  | function {env span tree rest f globals functions} (hfunction : FunctionResolves p env tree f)
      (hrest : ItemsResolve p (env.afterItem (.function span tree)) rest globals functions) :
      ItemsResolve p env (.function span tree :: rest) globals (f :: functions)

end Lexical

/-! ### The tree of scopes -/

namespace Scopes

open Lexical (Declaration)

variable {s : Scopes} {scope : ScopeId} {name : String}

variable {id parent inner : ScopeId} {found : Scope} {kind : Scope.Kind} {symbols : List Symbol}

/-- The first scope of a path is the one it starts from, and the others are the path of its parent. -/
theorem get_of_path {rest : List Scope} (h : s.path id = found :: rest) : s.arena[id]? = some found ∧
      ∀ parent, found.parent = some parent → parent < id → s.path parent = rest := by
  rw [path] at h
  cases hget : s.arena[id]? with
  | none =>
    rw [hget] at h
    cases h
  | some found' =>
    rw [hget] at h
    obtain ⟨rfl, hrest⟩ := List.cons.inj h
    refine ⟨rfl, fun parent hparent hlt => ?_⟩
    rw [hparent] at hrest
    exact (if_pos hlt).symm.trans hrest

def declarationIn? (id : ScopeId) (symbols : List Symbol) (name : String) : Option Declaration :=
  (symbols.find? (·.name == name)).map fun x => ⟨id, x.ident, x.kind.form⟩

theorem declaration?_of_find? {x : Symbol} (hget : s.arena[id]? = some found)
    (hfind : found.find? name = some x) : s.declaration? id name = some ⟨id, x.ident, x.kind.form⟩ := by
  have hhome : s.home? id name = some id := by
    rw [home?, hget]
    simp [hfind]
  have hlookup : s.lookup id name = some x := by
    rw [lookup, path, hget]
    simp [hfind]
  rw [declaration?, hhome, hlookup]
  rfl

/-- A scope comes before those around it. -/
theorem Opens.declaration? (h : s.Opens kind parent inner symbols) : s.declaration? inner name =
      (declarationIn? inner symbols name).or (s.declaration? parent name) := by
  obtain ⟨base, hget⟩ := h.get
  unfold declarationIn?
  cases hfind : symbols.find? (·.name == name) with
  | some x => exact declaration?_of_find? hget hfind
  | none =>
    have hnone (base : Nat) : Scope.find? ⟨some parent, kind, symbols, base⟩ name = none := hfind
    have hhome : s.home? inner name = s.home? parent name := by
      rw [home?, hget]
      simp [hnone, h.lt]
    have hlookup : s.lookup inner name = s.lookup parent name := by
      obtain ⟨base', hpath⟩ := h.path
      rw [lookup, hpath]
      simp [hnone, lookup]
    rw [Scopes.declaration?, hhome, hlookup]
    rfl

/-- Around a scope without a parent there is nothing. -/
theorem declaration?_of_root {base : Nat} (hget : s.arena[id]? = some ⟨none, kind, symbols, base⟩) :
    s.declaration? id name = declarationIn? id symbols name := by
  unfold declarationIn?
  cases hfind : symbols.find? (·.name == name) with
  | some x => exact declaration?_of_find? hget hfind
  | none =>
    have hnone : Scope.find? ⟨none, kind, symbols, base⟩ name = none := hfind
    have hhome : s.home? id name = none := by
      rw [home?, hget]
      simp [hnone]
    rw [Scopes.declaration?, hhome]
    rfl

/-- Where a scope holds names, each of them is found at its declaration. -/
theorem Holds.declaration? {names : List Ident} {isKind : Symbol.Kind → Bool} {form : Lexical.Form}
    (h : s.Holds kind parent inner names isKind) (hform : ∀ {k}, isKind k = true → k.form = form)
    {ident : Ident} (hident : ident ∈ names) :
    s.declaration? inner ident.text = some ⟨inner, ident, form⟩ := by
  obtain ⟨symbols, hopens, rfl, hkinds⟩ := h
  obtain ⟨x, hx, rfl⟩ := mem_map.mp hident
  obtain ⟨base, hget⟩ := hopens.get
  have hfind : Scope.find? ⟨some parent, kind, symbols, base⟩ x.name = some x :=
    find?_of_mem_nodup hopens.names hx
  exact (declaration?_of_find? hget hfind).trans (by rw [hform (hkinds x hx)])

/-- The symbol that is found is the only one of its name where it was declared. -/
theorem lookup_of_declaration? (hs : s.Valid) {d : Declaration} (h : s.declaration? scope name = some d) :
    ∃ x, s.lookup scope name = some x ∧ s.Declares d.region x ∧ x.ident = d.name ∧
      x.kind.form = d.form ∧ ∀ y, s.Declares d.region y → y.name = name → y = x := by
  obtain ⟨home, hhome, hd⟩ := Option.bind_eq_some_iff.mp h
  obtain ⟨x, hlookup, rfl⟩ := Option.map_eq_some_iff.mp hd
  have hfound := hlookup
  rw [lookup_eq_home?, hhome, Option.bind_some] at hfound
  obtain ⟨found, hget, hfind⟩ := Option.bind_eq_some_iff.mp hfound
  have hx : x ∈ found.symbols := mem_of_find?_eq_some hfind
  refine ⟨x, hlookup, ⟨found, hget, hx⟩, rfl, rfl, ?_⟩
  rintro y ⟨found', hget', hy⟩ hname
  cases hget.symm.trans hget'
  have hnodup := hs.names home
  rw [namesOf, hget] at hnodup
  have hfind' := find?_of_mem_nodup hnodup hy
  rw [hname] at hfind'
  exact Option.some.inj (hfind'.symm.trans hfind)

/-- The declaration of a name tells what kind of symbol the name stands for. -/
theorem declaration?_form (s : Scopes) (scope : ScopeId) (name : String) :
    (s.declaration? scope name).map (·.form) = (s.kindOf? scope name).map Symbol.Kind.form := by
  rw [declaration?, kindOf?, lookup_eq_home?]
  cases s.home? scope name with
  | none => rfl
  | some home => simp [Option.map_map, Function.comp_def]

end Scopes

namespace Lexical

open Program

/-! ### The environment -/

theorem Env.regions_block (env : Env) : env.block.regions = env.regions + 1 := rfl

theorem Env.regions_leave (env inner : Env) : (env.leave inner).regions = inner.regions := rfl

mutual

theorem regions_afterStmt (env : Env) (s : Tree.Stmt) :
    (afterStmt env s).regions = env.regions + s.opened := by
  cases s with
  | decl => rfl
  | ifThen _ _ _ yes =>
    rw [afterStmt, Env.regions_leave, regions_afterBlock env.block yes, Env.regions_block,
      Tree.Stmt.opened, Nat.add_assoc]
  | ifElse _ _ _ yes _ no =>
    have hyes := regions_afterBlock env.block yes
    have hno := regions_afterBlock (env.leave (afterBlock env.block yes)).block no
    rw [Env.regions_block, Env.regions_leave, hyes, Env.regions_block] at hno
    rw [afterStmt, Env.regions_leave, hno, Tree.Stmt.opened]
    omega
  | loop _ _ _ body =>
    rw [afterStmt, Env.regions_leave, regions_afterBlock env.block body, Env.regions_block,
      Tree.Stmt.opened, Nat.add_assoc]
  | assign | ret | error | breakLoop | expr => rfl
termination_by structural s

theorem regions_afterBlock (env : Env) (stmts : List Tree.Stmt) :
    (afterBlock env stmts).regions = env.regions + Tree.blockOpened stmts := by
  cases stmts with
  | nil => rfl
  | cons s rest =>
    rw [afterBlock, Tree.blockOpened, regions_afterBlock (afterStmt env s) rest,
      regions_afterStmt env s, Nat.add_assoc]
termination_by structural stmts

end

theorem Env.find?_declare (env : Env) (form : Form) (names : List Ident) (name : String) :
    (env.declare form names).find? name =
      ((names.find? (·.text == name)).map fun found => ⟨env.regions, found, form⟩).or (env.find? name) := by
  rw [Env.find?, Env.declare, find?_append, find?_map]
  rfl

theorem find?_idents (symbols : List Symbol) (name : String) :
    (symbols.map (·.ident)).find? (·.text == name) = (symbols.find? (·.name == name)).map (·.ident) :=
  find?_map

/-- A scope sees what is visible, and the functions that are visible are those of the program. -/
structure Agrees (p : Program) (scope : ScopeId) (env : Env) : Prop where
  declaration : ∀ name, p.scopes.declaration? scope name = env.find? name
  functions : ∀ {name d i}, env.find? name = some d → d.form = .function i →
    ∃ f, p.functions[i]? = some f ∧ f.name = d.name

namespace Agrees

variable {p : Program} {env : Env} {scope inner : ScopeId}

variable {kind : Scope.Kind} {name : String}

variable (h : Agrees p scope env)

include h

/-- A scope that is opened for some symbols sees what is visible behind their declaration. -/
theorem opens {symbols : List Symbol} (form : Form)
    (hopens : p.scopes.Opens kind scope inner symbols) (hinner : inner = env.regions)
    (hform : ∀ x ∈ symbols, x.kind.form = form)
    (hfunctions : ∀ x ∈ symbols, ∀ i, form = .function i → ∃ f, p.functions[i]? = some f ∧ f.name = x.ident) :
    Agrees p inner (env.declare form (symbols.map (·.ident))) where
  declaration name := by
    rw [hopens.declaration?, Env.find?_declare, find?_idents, h.declaration, hinner]
    unfold Scopes.declarationIn?
    cases hfind : symbols.find? (·.name == name) with
    | none => rfl
    | some x =>
      rw [Option.map_some, Option.map_some, Option.map_some, hform x (mem_of_find?_eq_some hfind)]
  functions {name d i} hd hi := by
    rw [Env.find?_declare, find?_idents] at hd
    cases hfind : symbols.find? (·.name == name) with
    | none =>
      rw [hfind] at hd
      exact h.functions hd hi
    | some x =>
      rw [hfind] at hd
      cases hd
      exact hfunctions x (mem_of_find?_eq_some hfind) i hi

theorem block (hopens : p.scopes.Opens .block scope inner [])
    (hinner : inner = env.regions) : Agrees p inner env.block :=
  h.opens .variable hopens hinner (forall_mem_nil _) (forall_mem_nil _)

/-- A scope that holds variables, constants or parts of the machine, as `form` tells. -/
theorem holds {names : List Ident} {isKind : Symbol.Kind → Bool} {form : Form}
    (hholds : p.scopes.Holds kind scope inner names isKind)
    (hinner : inner = env.regions) (hform : ∀ {k}, isKind k = true → k.form = form)
    (hother : ∀ i, form ≠ .function i) : Agrees p inner (env.declare form names) := by
  obtain ⟨symbols, hopens, rfl, hkinds⟩ := hholds
  exact h.opens form hopens hinner (fun x hx => hform (hkinds x hx))
    fun x _ i hi => absurd hi (hother i)

/-- Behind a block a scope sees what it saw before. -/
theorem leave (after : Env) : Agrees p scope (env.leave after) :=
  ⟨h.declaration, h.functions⟩

theorem exists_of_kindOf? {kind : Symbol.Kind} (hkind : p.scopes.kindOf? scope name = some kind) :
    ∃ d, env.find? name = some d ∧ d.form = kind.form := by
  have hform := p.scopes.declaration?_form scope name
  rw [hkind, h.declaration, Option.map_some] at hform
  exact Option.map_eq_some_iff.mp hform

theorem eq_none_of_kindOf? (hkind : p.scopes.kindOf? scope name = none) : env.find? name = none := by
  have hform := p.scopes.declaration?_form scope name
  rw [hkind, h.declaration, Option.map_none] at hform
  exact Option.map_eq_none_iff.mp hform

/-- What a scope sees, the environment has. -/
theorem reading :
    (Reading.seen (p.scopes.kindOf? scope) scope).Implies (env.reading p) where
  value := by
    rintro name _ ⟨rfl, kind, hkind, hvalue⟩
    obtain ⟨d, hd, hform⟩ := h.exists_of_kindOf? hkind
    refine ⟨d, hd, ?_, (h.declaration name).trans hd⟩
    rw [hform, kind.isValue_form]
    exact hvalue
  number := by
    rintro name ⟨i, hkind⟩
    exact h.exists_of_kindOf? hkind
  call := by
    intro name i hkind
    obtain ⟨d, hd, hform⟩ := h.exists_of_kindOf? hkind
    obtain ⟨f, hf, hname⟩ := h.functions hd hform
    exact ⟨d, f, hd, hform, hf, hname⟩
  undeclared := h.eq_none_of_kindOf?
  machine := h.exists_of_kindOf?

omit h

/-- Behind a function its name stands for it. -/
theorem afterFunction {tip : ScopeId} {span : Span} {tree : Tree.Function} {f : Function} {index : Nat}
    (henv : Agrees p tip env) (hname : f.name = tree.name)
    (hopens : p.scopes.Opens .decl tip inner [f.symbol index]) (hindex : env.functions = index)
    (hinner : inner = (afterBlock (env.body tree) tree.body.stmts).regions)
    (hf : p.functions[index]? = some f) : Agrees p inner (env.afterItem (.function span tree)) := by
  have hdeclared := (henv.leave (afterBlock (env.body tree) tree.body.stmts)).opens (.function index)
    hopens hinner (forall_mem_singleton.mpr rfl)
    (forall_mem_singleton.mpr fun i hi => ⟨f, by cases hi; exact hf, rfl⟩)
  have hident : (f.symbol index).ident = tree.name := hname
  rw [map_singleton, hident, ← hindex] at hdeclared
  exact ⟨hdeclared.declaration, hdeclared.functions⟩

theorem start (h : p.scopes.path 1 = startPath) : Agrees p 1 .start where
  declaration name := by
    obtain ⟨hget, hpath⟩ := Scopes.get_of_path h
    obtain ⟨hroot, _⟩ := Scopes.get_of_path (hpath Scopes.root rfl Nat.zero_lt_one)
    have hopens : p.scopes.Opens .block Scopes.root 1 [] :=
      ⟨Nat.zero_lt_one, ⟨0, hget⟩, nodup_nil⟩
    have hvisible : Env.start.visible =
        [Build.machineSymbol .global, Build.machineSymbol .itxn].map fun x =>
          ⟨Scopes.root, x.ident, x.kind.form⟩ := rfl
    rw [hopens.declaration?, Scopes.declaration?_of_root hroot, Env.find?, hvisible, find?_map]
    rfl
  functions {name d i} hd hform := by
    obtain ⟨r, _, rfl⟩ := mem_map.mp (mem_of_find?_eq_some hd)
    cases hform

end Agrees

theorem ItemsResolve.append {p : Program} {env : Env} {items items' : List Tree.Item}
    {globals globals' : List Stmt} {functions functions' : List Function}
    (h : ItemsResolve p env items globals functions)
    (h' : ItemsResolve p (items.foldl Env.afterItem env) items' globals' functions') :
    ItemsResolve p env (items ++ items') (globals ++ globals') (functions ++ functions') := by
  induction h with
  | nil => exact h'
  | decl hdecl _ ih => exact .decl hdecl (ih h')
  | function hfunction _ ih => exact .function hfunction (ih h')

/-- What is known between two items, where `count` functions stand before. -/
structure Between (p : Program) (tip : ScopeId) (count : Nat) (env : Env) : Prop where
  agrees : Agrees p tip env
  regions : env.regions = tip + 1
  functions : env.functions = count

end Lexical

namespace Program

open Lexical

variable {p : Program}

/-! ### Statements -/

variable {env : Env} {span : Span} {tip : ScopeId}

theorem DeclMirrors.resolves {scope inner : ScopeId} {d : Tree.Decl} {stmt : Stmt}
    (h : DeclMirrors p.scopes scope span d stmt inner) (hinner : inner = env.regions)
    (henv : Agrees p scope env) :
    StmtResolves p env (.decl span d) stmt ∧ Agrees p inner (env.declare (declForm d) d.names) := by
  cases h with
  | varDecl hconst hvalue hholds =>
    have hdecl : declForm d = .variable := by simp [declForm, hconst]
    refine ⟨.varDecl hconst (hvalue.imp henv.reading) fun name hname => ?_, ?_⟩
    · rw [hholds.declaration? Symbol.Kind.form_of_isVariable hname, hinner]
    · rw [hdecl]
      exact henv.holds hholds hinner Symbol.Kind.form_of_isVariable fun _ => Form.noConfusion
  | constDecl hconst hnames hvalue hholds =>
    have hdecl : declForm d = .constant := by simp [declForm, hconst]
    refine ⟨.constDecl hconst hnames (hvalue.imp henv.reading), ?_⟩
    rw [hdecl, hnames]
    exact henv.holds hholds hinner Symbol.Kind.form_of_isConstant fun _ => Form.noConfusion

mutual

theorem StmtMirrors.resolves {env : Env} {next : Nat} {scope after : ScopeId} {tree : Tree.Stmt}
    {stmt : Stmt} (h : StmtMirrors p.scopes next scope tree stmt after) (hnext : next = env.regions)
    (henv : Agrees p scope env) : StmtResolves p env tree stmt ∧ Agrees p after (afterStmt env tree) := by
  have hreading := henv.reading
  cases h with
  | decl hdecl => exact hdecl.resolves hnext henv
  | assign htargets hvariables hvalue =>
    refine ⟨.assign htargets (fun name hname => ?_) (hvalue.imp hreading), henv⟩
    obtain ⟨slot, hkind⟩ := hvariables name hname
    obtain ⟨d, hd, hform⟩ := henv.exists_of_kindOf? hkind
    exact ⟨d, hd, hform, (henv.declaration _).trans hd⟩
  | setField hlook _ hvalue =>
    exact ⟨.setField (hreading.machine (Build.runtimeOf?_eq_some hlook)) (hvalue.imp hreading), henv⟩
  | innerBegin hlook => exact ⟨.innerBegin (hreading.machine hlook), henv⟩
  | innerSubmit hlook => exact ⟨.innerSubmit (hreading.machine hlook), henv⟩
  | ret hvalue => exact ⟨.ret (hvalue.imp hreading), henv⟩
  | error => exact ⟨.error, henv⟩
  | breakLoop => exact ⟨.breakLoop, henv⟩
  | ifThen htest hopens hyes =>
    have hyes' := hyes.resolves (congrArg (· + 1) hnext) (henv.block hopens hnext)
    exact ⟨.ifThen (htest.imp hreading) hyes', henv.leave _⟩
  | @ifElse _ _ _ _ _ _ _ yes _ _ _ _ htest hopens hyes hopens' hno =>
    have hyes' := hyes.resolves (congrArg (· + 1) hnext) (henv.block hopens hnext)
    -- The second branch starts from what is visible before both, behind the regions of the first.
    have hmiddle := henv.leave (afterBlock env.block yes)
    have hregions : next + 1 + Tree.blockOpened yes =
        (env.leave (afterBlock env.block yes)).regions := by
      rw [Env.regions_leave, regions_afterBlock, Env.regions_block, hnext]
    have hno' := hno.resolves (congrArg (· + 1) hregions) (hmiddle.block hopens' hregions)
    exact ⟨.ifElse (htest.imp hreading) hyes' hno', hmiddle.leave _⟩
  | loop htest hopens hbody =>
    have hbody' := hbody.resolves (congrArg (· + 1) hnext) (henv.block hopens hnext)
    exact ⟨.loop (htest.imp hreading) hbody', henv.leave _⟩
  | expr hvalue => exact ⟨.expr (hvalue.imp hreading), henv⟩

theorem BlockMirrors.resolves {env : Env} {next : Nat} {scope : ScopeId} {trees : List Tree.Stmt}
    {stmts : List Stmt} (h : BlockMirrors p.scopes next scope trees stmts)
    (hnext : next = env.regions) (henv : Agrees p scope env) : BlockResolves p env trees stmts := by
  cases h with
  | nil => exact .nil
  | @cons _ _ _ stmt _ _ _ hstmt hrest =>
    obtain ⟨hstmt', hafter⟩ := hstmt.resolves hnext henv
    exact .cons hstmt' (hrest.resolves (by rw [regions_afterStmt, hnext]) hafter)

end

/-! ### Items -/

variable {tree : Tree.Function} {f : Function}

theorem Function.Mirrors.resolves (h : f.Mirrors p.scopes tip span tree)
    (hregions : env.regions = tip + 1) (henv : Agrees p tip env) : FunctionResolves p env tree f := by
  have hscope : f.scope = env.regions := h.scope.trans hregions.symm
  have hform : ∀ {k : Symbol.Kind},
      (if f.isEntry then Symbol.Kind.isRuntime else Symbol.Kind.isVariable) k = true →
        k.form = paramForm tree := by
    intro k hk
    rw [h.isEntry] at hk
    unfold paramForm
    by_cases hentry : (tree.name.text == entryName) = true
    · rw [if_pos hentry] at hk ⊢
      exact Symbol.Kind.form_of_isRuntime hk
    · rw [if_neg hentry] at hk ⊢
      exact Symbol.Kind.form_of_isVariable hk
  have hother : ∀ i, paramForm tree ≠ .function i := by
    intro i
    unfold paramForm
    split <;> exact Form.noConfusion
  have hholds := h.holds
  rw [h.params] at hholds
  refine ⟨h.name, fun name hname => ?_, ?_⟩
  · rw [hholds.declaration? hform hname, hscope]
  · exact h.body.resolves (congrArg (· + 1) hscope)
      (henv.holds hholds hscope hform hother)

theorem Function.Mirrors.between {count : Nat} (hfunction : f.Mirrors p.scopes tip span tree)
    (h : Between p tip count env)
    (hopens : p.scopes.Opens .decl tip (tip + 2 + Tree.blockOpened tree.body.stmts) [f.symbol count])
    (hf : p.functions[count]? = some f) :
    Between p (tip + 2 + Tree.blockOpened tree.body.stmts) (count + 1)
      (env.afterItem (.function span tree)) := by
  have hregions : tip + 2 + Tree.blockOpened tree.body.stmts =
      (afterBlock (env.body tree) tree.body.stmts).regions := by
    rw [regions_afterBlock]
    exact congrArg (· + 1 + _) h.regions.symm
  exact ⟨h.agrees.afterFunction hfunction.name hopens h.functions hregions hf,
    congrArg (· + 1) hregions.symm, congrArg (· + 1) h.functions⟩

/-- Item by item, the tree of scopes and the environment grow alike. The functions built so far are the
first ones of the program, so that their numbers are those of the calls. -/
theorem ItemsMirror.resolves {items : List Tree.Item} {globals : List Stmt} {functions : List Function}
    (h : ItemsMirror p.scopes items tip globals functions) (hfirst : functions <+: p.functions) :
    ItemsResolve p .start items globals functions ∧
      Between p tip functions.length (items.foldl Env.afterItem .start) := by
  induction h with
  | start hstart => exact ⟨.nil, Agrees.start hstart, rfl, rfl⟩
  | @decl _ _ _ functions span d stmt _ hdecl ih =>
    obtain ⟨hitems, hbetween⟩ := ih hfirst
    obtain ⟨hstmt, hagrees⟩ := hdecl.resolves hbetween.regions.symm hbetween.agrees
    have hall := hitems.append (ItemsResolve.decl hstmt .nil)
    rw [append_nil] at hall
    rw [foldl_append]
    exact ⟨hall, hagrees, congrArg (· + 1) hbetween.regions, hbetween.functions⟩
  | @function items _ globals functions span tree f _ hfunction hopens ih =>
    obtain ⟨hitems, hbetween⟩ := ih ((prefix_append _ _).trans hfirst)
    have hf : p.functions[functions.length]? = some f := by
      obtain ⟨rest, hrest⟩ := hfirst
      simp [← hrest]
    have hresolves := hfunction.resolves hbetween.regions hbetween.agrees
    have hlast : ItemsResolve p (items.foldl Env.afterItem .start) [.function span tree] [] [f] :=
      .function hresolves .nil
    have hall := hitems.append hlast
    rw [append_nil] at hall
    rw [foldl_append, length_append]
    exact ⟨hall, hfunction.between hbetween hopens hf⟩

end Program

namespace Sample

theorem isSome_shadowed : (Program.ofModules shadowed 5).1.isSome = true := by decide +kernel

def beforeEntry : Lexical.Env :=
  ((Program.items shadowed).take 3).foldl Lexical.Env.afterItem .start

def beforeBranches : Lexical.Env := Lexical.afterStmt (beforeEntry.body entry) first

end Sample

/-- Names are scoped lexically. In a program that is built without a fatal report, every name that is
read, assigned, declared or called has the declaration that the source has in view at its place, and a
cast or a builtin is called only by a name of which none is in view. For a name that is looked up in the
scope of its node, this is the declaration of the one symbol that is found. -/
theorem ofModules_lexical {ms : List Tree.SourceModule} {version : Nat} {p : Program}
    {ds : List Diagnostic} (h : Program.ofModules ms version = (some p, ds))
    (hquiet : ∀ d ∈ ds, d.isFatal = false) :
    Lexical.ItemsResolve p .start (Program.items ms) p.globals p.functions ∧
      ∀ scope name d, p.scopes.declaration? scope name = some d →
        ∃ x, p.scopes.lookup scope name = some x ∧ p.scopes.Declares d.region x ∧
          x.ident = d.name ∧ x.kind.form = d.form ∧
          ∀ y, p.scopes.Declares d.region y → y.name = name → y = x := by
  obtain ⟨tip, hitems⟩ := Program.itemsMirror_of_ofModules h hquiet
  refine ⟨(hitems.resolves prefix_rfl).1, fun scope name d hd => ?_⟩
  exact Scopes.lookup_of_declaration? (Program.valid_of_ofModules h) hd

/-- In the two modules one name has three declarations, and each is in view at places of its own. -/
theorem ofModules_lexical_sample :
    ∃ p, Program.ofModules Sample.shadowed 5 = (some p, []) ∧
      Lexical.ItemsResolve p .start (Program.items Sample.shadowed) p.globals p.functions ∧
      Sample.beforeEntry.find? "x" = some ⟨3, ⟨"x", Sample.spot 2⟩, .variable⟩ ∧
      Sample.beforeEntry.find? "next" = some ⟨5, Sample.ident "next", .function 0⟩ ∧
      Sample.beforeBranches.find? "x" = some ⟨7, ⟨"x", Sample.spot 9⟩, .variable⟩ ∧
      (Lexical.afterBlock Sample.beforeBranches.block Sample.branch).find? "x" =
        some ⟨9, ⟨"x", Sample.spot 13⟩, .variable⟩ ∧
      (Lexical.afterBlock Sample.beforeBranches Sample.rest).find? "x" =
        some ⟨7, ⟨"x", Sample.spot 9⟩, .variable⟩ := by
  obtain ⟨p, hp⟩ := Option.isSome_iff_exists.mp Sample.isSome_shadowed
  have hbuilt : Program.ofModules Sample.shadowed 5 = (some p, []) :=
    Prod.ext hp (List.isEmpty_iff.mp Sample.isEmpty_shadowed)
  exact ⟨p, hbuilt, (ofModules_lexical hbuilt (forall_mem_nil _)).1, by decide, by decide,
    by decide, by decide, by decide⟩

end Teal
