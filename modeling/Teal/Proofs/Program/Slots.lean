import Teal.Proofs.Compile.Total

/-! No two variables of a program share a slot. Scopes are numbered in the order of the source, so
variables that are declared at two places of a program are held by two scopes, or by one scope under two
names; and a slot belongs to one name of one scope. -/

namespace Teal

open List

namespace Program

mutual

/-- The variables that are declared in a statement, each with the scope that holds it. -/
def Stmt.bindings : Stmt → List (ScopeId × Ident)
  | .varDecl _ scope names _ => names.map fun name => (scope, name)
  | .ifThen _ _ _ yes => blockBindings yes
  | .ifElse _ _ _ yes no => blockBindings yes ++ blockBindings no
  | .loop _ _ _ body => blockBindings body
  | _ => []

def blockBindings : List Stmt → List (ScopeId × Ident)
  | [] => []
  | s :: rest => s.bindings ++ blockBindings rest

end

/-- The variables of a function. The parameters of the entry point are none. -/
def Function.bindings (f : Function) : List (ScopeId × Ident) :=
  (if f.isEntry then [] else (f.params.map (·.1)).map fun name => (f.scope, name)) ++
    blockBindings f.body

def bindings (p : Program) : List (ScopeId × Ident) :=
  blockBindings p.globals ++ p.functions.flatMap (·.bindings)

theorem blockBindings_append (stmts stmts' : List Stmt) :
    blockBindings (stmts ++ stmts') = blockBindings stmts ++ blockBindings stmts' := by
  induction stmts with
  | nil => rfl
  | cons s rest ih => rw [cons_append, blockBindings, blockBindings, ih, append_assoc]

end Program

namespace Scopes

/-- Names stand for variables in scopes that are numbered from `lo` on and before `hi`, each of them at
one place only. -/
structure Binds (s : Scopes) (lo hi : Nat) (vars : List (ScopeId × Ident)) : Prop where
  range : ∀ v ∈ vars, lo ≤ v.1 ∧ v.1 < hi
  slot : ∀ v ∈ vars, ∃ x slot, s.Declares v.1 x ∧ s.lookup v.1 v.2.text = some x ∧
    x.name = v.2.text ∧ x.kind = .variable slot
  nodup : (vars.map fun v => (v.1, v.2.text)).Nodup

namespace Binds

variable {s : Scopes} {lo mid hi : Nat} {vars vars' : List (ScopeId × Ident)}

theorem nil (s : Scopes) (lo hi : Nat) : Binds s lo hi [] where
  range := forall_mem_nil _
  slot := forall_mem_nil _
  nodup := nodup_nil

theorem mono (h : Binds s lo mid vars) (hle : mid ≤ hi) : Binds s lo hi vars where
  range v hv := ⟨(h.range v hv).1, Nat.lt_of_lt_of_le (h.range v hv).2 hle⟩
  slot := h.slot
  nodup := h.nodup

theorem perm (h : Binds s lo hi vars) (hperm : vars.Perm vars') : Binds s lo hi vars' where
  range v hv := h.range v (hperm.mem_iff.mpr hv)
  slot v hv := h.slot v (hperm.mem_iff.mpr hv)
  nodup := (hperm.map _).nodup_iff.mp h.nodup

theorem append (h : Binds s lo mid vars) (h' : Binds s mid hi vars') (hlo : lo ≤ mid)
    (hhi : mid ≤ hi) : Binds s lo hi (vars ++ vars') where
  range := by
    rw [forall_mem_append]
    constructor
    · intro v hv
      have hv := h.range v hv
      exact ⟨hv.1, Nat.lt_of_lt_of_le hv.2 hhi⟩
    · intro v hv
      have hv := h'.range v hv
      exact ⟨Nat.le_trans hlo hv.1, hv.2⟩
  slot := forall_mem_append.mpr ⟨h.slot, h'.slot⟩
  nodup := by
    rw [map_append, nodup_append]
    refine ⟨h.nodup, h'.nodup, ?_⟩
    intro key hkey key' hkey' heq
    obtain ⟨v, hv, rfl⟩ := mem_map.mp hkey
    obtain ⟨w, hw, rfl⟩ := mem_map.mp hkey'
    have hscope : v.1 = w.1 := (Prod.ext_iff.mp heq).1
    have hbelow := (h.range v hv).2
    have habove := (h'.range w hw).1
    rw [hscope] at hbelow
    exact Nat.lt_irrefl _ (Nat.lt_of_lt_of_le hbelow habove)

theorem of_holds {kind : Scope.Kind} {parent inner : ScopeId} {names : List Ident}
    (h : s.Holds kind parent inner names Symbol.Kind.isVariable) :
    Binds s inner (inner + 1) (names.map fun name => (inner, name)) := by
  obtain ⟨symbols, hopens, rfl, hkinds⟩ := h
  refine ⟨?_, ?_, ?_⟩
  · intro v hv
    obtain ⟨name, _, rfl⟩ := mem_map.mp hv
    exact ⟨.refl, Nat.lt_succ_self _⟩
  · intro v hv
    obtain ⟨name, hname, rfl⟩ := mem_map.mp hv
    obtain ⟨x, hx, rfl⟩ := mem_map.mp hname
    obtain ⟨base, hget⟩ := hopens.get
    have hvariable := hkinds x hx
    cases hkind : x.kind with
    | «variable» slot =>
      exact ⟨x, slot, ⟨_, hget, hx⟩, hopens.lookup_mem hx, rfl, hkind⟩
    | constant | function | runtime =>
      rw [hkind] at hvariable
      cases hvariable
  · have hkeys : ((symbols.map (·.ident)).map fun name => (inner, name)).map
        (fun v => (v.1, v.2.text)) = (symbols.map (·.name)).map fun name => (inner, name) := by
      simp [Symbol.ident]
    rw [hkeys]
    exact pairwise_map.mpr (hopens.names.imp fun hne heq => hne (Prod.ext_iff.mp heq).2)

/-- Variables of different places have different slots. -/
theorem nodup_kinds (h : Binds s lo hi vars) (hs : s.Valid) :
    (vars.map fun v => s.kindOf? v.1 v.2.text).Nodup := by
  refine pairwise_map.mpr ((pairwise_map.mp h.nodup).imp_of_mem ?_)
  intro v w hv hw hne heq
  obtain ⟨x, k, hx, hlookup, hname, hkind⟩ := h.slot v hv
  obtain ⟨y, l, hy, hlookup', hname', hkind'⟩ := h.slot w hw
  have hsame : x.kind = y.kind := by
    rw [kindOf?, kindOf?, hlookup, hlookup'] at heq
    exact Option.some.inj heq
  obtain ⟨hscope, rfl⟩ := hs.slot_unique hx hy hkind (hsame ▸ hkind)
  exact hne (Prod.ext hscope (hname.symm.trans hname'))

end Binds

end Scopes

namespace Program

open Scopes (Binds)

variable {s : Scopes}

variable {span : Span} {tip : ScopeId} {ms : List Tree.SourceModule} {version : Nat} {p : Program}
  {ds : List Diagnostic}

theorem DeclMirrors.binds {scope inner : ScopeId} {decl : Tree.Decl} {stmt : Stmt}
    (h : DeclMirrors s scope span decl stmt inner) : Binds s inner (inner + 1) stmt.bindings := by
  cases h with
  | varDecl _ _ hholds => exact .of_holds hholds
  | constDecl => exact .nil _ _ _

mutual

theorem StmtMirrors.binds {next : Nat} {scope after : ScopeId} {tree : Tree.Stmt} {stmt : Stmt}
    (h : StmtMirrors s next scope tree stmt after) : Binds s next (next + tree.opened) stmt.bindings := by
  cases h with
  | decl hdecl => exact hdecl.binds
  | ifThen _ _ hyes =>
    have hinner := (Binds.nil s next (next + 1)).append hyes.binds (by omega) (by omega)
    rw [Tree.Stmt.opened, ← Nat.add_assoc]
    exact hinner
  | ifElse _ _ hyes _ hno =>
    have hinner := (Binds.nil s next (next + 1)).append hyes.binds (by omega) (by omega)
    have hboth := (hinner.mono (Nat.le_succ _)).append hno.binds (by omega) (by omega)
    refine hboth.mono ?_
    rw [Tree.Stmt.opened]
    omega
  | loop _ _ hbody =>
    have hinner := (Binds.nil s next (next + 1)).append hbody.binds (by omega) (by omega)
    rw [Tree.Stmt.opened, ← Nat.add_assoc]
    exact hinner
  | assign | setField | innerBegin | innerSubmit | ret | error | breakLoop | expr =>
    exact .nil _ _ _

theorem BlockMirrors.binds {next : Nat} {scope : ScopeId} {trees : List Tree.Stmt}
    {stmts : List Stmt} (h : BlockMirrors s next scope trees stmts) :
    Binds s next (next + Tree.blockOpened trees) (blockBindings stmts) := by
  cases h with
  | nil => exact .nil _ _ _
  | cons hstmt hrest =>
    rw [Tree.blockOpened, ← Nat.add_assoc]
    exact hstmt.binds.append hrest.binds (Nat.le_add_right _ _) (Nat.le_add_right _ _)

end

theorem Function.Mirrors.binds {tree : Tree.Function} {f : Function} (h : f.Mirrors s tip span tree) :
    Binds s (tip + 1) (tip + 2 + Tree.blockOpened tree.body.stmts) f.bindings := by
  have hbody := h.body.binds
  have hholds := h.holds
  rw [h.scope] at hbody hholds
  have hparams : Binds s (tip + 1) (tip + 1 + 1)
      (if f.isEntry then [] else (f.params.map (·.1)).map fun name => (f.scope, name)) := by
    cases hentry : f.isEntry with
    | true => exact .nil _ _ _
    | false =>
      rw [hentry] at hholds
      rw [h.scope]
      exact .of_holds hholds
  exact hparams.append hbody (Nat.le_succ _) (Nat.le_add_right _ _)

/-- The scopes of all variables of a program. The induction is over the items, in whose order scopes are
numbered, while a program has its declarations in front of its functions. -/
theorem ItemsMirror.binds {items : List Tree.Item} {globals : List Stmt} {functions : List Function}
    (h : ItemsMirror s items tip globals functions) : 1 ≤ tip ∧
      Binds s 1 (tip + 1) (blockBindings globals ++ functions.flatMap (·.bindings)) := by
  induction h with
  | start => exact ⟨.refl, .nil _ _ _⟩
  | @decl _ tip globals functions _ _ stmt _ hdecl ih =>
    refine ⟨Nat.le_succ_of_le ih.1, ?_⟩
    have hall := ih.2.append hdecl.binds (by omega) (Nat.le_succ _)
    refine hall.perm ?_
    rw [blockBindings_append, blockBindings, blockBindings, append_nil, append_assoc, append_assoc]
    exact perm_append_comm.append_left _
  | @function _ tip globals functions _ tree f _ hfunction _ ih =>
    refine ⟨Nat.le_trans ih.1 (Nat.le_trans (Nat.le_add_right tip 2) (Nat.le_add_right _ _)), ?_⟩
    have hall := ih.2.append hfunction.binds (by omega) (by omega)
    rw [flatMap_append, flatMap_singleton, ← append_assoc]
    exact hall.mono (Nat.le_succ _)

theorem valid_of_ofModules (h : ofModules ms version = (some p, ds)) : p.scopes.Valid := by
  obtain ⟨b, _, hinv, _, _, rfl⟩ := inv_of_ofModules h
  exact hinv.sane.valid

theorem binds_of_ofModules (h : ofModules ms version = (some p, ds))
    (hquiet : ∀ d ∈ ds, d.isFatal = false) : ∃ hi, Binds p.scopes 1 hi p.bindings := by
  obtain ⟨tip, hitems⟩ := itemsMirror_of_ofModules h hquiet
  exact ⟨tip + 1, hitems.binds.2⟩

end Program

namespace Sample

/-- Scopes in which names are declared, some of them in vain: a name of the same block, a name that is
in the scope already. -/
def operations : List Scopes.Operation :=
  [.newBlock 0, .declareVariable 1 (ident "a") .integer, .declareVariable 1 (ident "a") .bytes,
    .newDecl 1, .declareVariable 2 (ident "a") .integer, .declareConstant 2 (ident "b") .integer (.int 0),
    .newBlock 2, .declareVariable 3 (ident "a") .bytes, .declareFunction 3 (ident "f") 0 .integer,
    .declareRuntime 3 (ident "f") .txn, .declareVariable 1 (ident "c") .integer]

end Sample

/-- Whatever is done to a tree of scopes, its variables have the slots from 0 up to the number in use,
each of them once and given out in that order; there are at most 256, and no scope was opened with more
slots in use than those opened inside of it. So it is for every program that is built, and where nothing
fatal is reported, no two of the declared variables share a slot, parameters included. -/
theorem slots_distinct :
    (∀ (ops : List Scopes.Operation) (answers : List Scopes.Answer) (s : Scopes),
      Scopes.run? .initial ops = some (answers, s) →
      s.slots.Perm (List.range s.used) ∧ s.used ≤ 256 ∧
        answers.filterMap Scopes.Answer.slot? = List.range s.used ∧
        ∀ id, s.baseSlot id ≤ s.used ∧
          ∀ parent, s.parent? id = some parent → s.baseSlot parent ≤ s.baseSlot id) ∧
    ∀ (ms : List Tree.SourceModule) (version : Nat) (p : Program) (ds : List Diagnostic),
      Program.ofModules ms version = (some p, ds) →
      p.scopes.slots.Perm (List.range p.scopes.used) ∧ p.scopes.used ≤ 256 ∧
        ((∀ d ∈ ds, d.isFatal = false) →
          (∀ v ∈ p.bindings, ∃ slot, p.scopes.kindOf? v.1 v.2.text = some (.variable slot)) ∧
            (p.bindings.map fun v => p.scopes.kindOf? v.1 v.2.text).Nodup) := by
  constructor
  · intro ops answers s hrun
    obtain ⟨hvalid, hslots⟩ := Scopes.run?_advances .initial hrun
    refine ⟨hvalid.slots, hvalid.used_le, hslots, fun id => ⟨hvalid.base_le id, ?_⟩⟩
    exact fun parent hparent => (hvalid.parents hparent).2
  · intro ms version p ds hbuilt
    have hvalid := Program.valid_of_ofModules hbuilt
    refine ⟨hvalid.slots, hvalid.used_le, fun hds => ?_⟩
    obtain ⟨hi, hbinds⟩ := Program.binds_of_ofModules hbuilt hds
    refine ⟨?_, hbinds.nodup_kinds hvalid⟩
    intro v hv
    obtain ⟨x, slot, _, hlookup, _, hkind⟩ := hbinds.slot v hv
    exact ⟨slot, by rw [Scopes.kindOf?, hlookup, Option.map_some, hkind]⟩

/-- Three of the operations on scopes are refused, and three slots are given out. The sample has more
variables than that, each with a slot of its own. -/
theorem slots_distinct_sample :
    (∃ answers s, Scopes.run? .initial Sample.operations = some (answers, s) ∧
      answers.filterMap Scopes.Answer.slot? = [0, 1, 2] ∧ s.used = 3) ∧
    Program.ofModules Sample.modules 5 = (some Sample.program, []) ∧
      Sample.program.bindings.length = 8 ∧
      (Sample.program.bindings.map fun v =>
        Sample.program.scopes.kindOf? v.1 v.2.text).Nodup := by
  have hrun : (Scopes.run? .initial Sample.operations).isSome = true := by decide +kernel
  obtain ⟨⟨answers, s⟩, hanswers⟩ := Option.isSome_iff_exists.mp hrun
  obtain ⟨_, _, hslots, _⟩ := slots_distinct.1 Sample.operations answers s hanswers
  have hused : (Scopes.run? .initial Sample.operations).map (·.2.used) = some 3 := by decide +kernel
  rw [hanswers, Option.map_some, Option.some.injEq] at hused
  rw [hused] at hslots
  have hprogram := (slots_distinct.2 _ _ _ _ Sample.ofModules_modules).2.2 (by simp)
  exact ⟨⟨answers, s, hanswers, hslots, hused⟩, Sample.ofModules_modules, by decide +kernel,
    hprogram.2⟩

end Teal
