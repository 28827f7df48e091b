import Teal.Proofs.Program.Build.Step
import Teal.Proofs.Program.Moved

/-! Two runs of the builder side by side. From states that look the same, steps on trees that are the same but
for their places take the same branches and come to states that look the same again. What else is to be said of
the two runs, such as where they report a fault or how many scopes they open, is a property of single steps that
adds up when steps are put together; then it is one of all that is built. -/

namespace Teal.Tree

mutual

def Stmt.opened : Stmt → Nat
  | .decl _ _ => 1
  | .ifThen _ _ _ yes => 1 + blockOpened yes
  | .ifElse _ _ _ yes _ no => 1 + blockOpened yes + (1 + blockOpened no)
  | .loop _ _ _ body => 1 + blockOpened body
  | .assign _ _ _ _ | .ret _ _ | .error _ | .breakLoop _ | .expr _ _ => 0

/-- Number of scopes that are opened for the statements of a block, its own apart. -/
def blockOpened : List Stmt → Nat
  | [] => 0
  | s :: rest => s.opened + blockOpened rest

end

mutual

/-- The breaks in a statement that has `depth` loops around it: their places, each with the number of loops
around it. -/
def Stmt.breaks (depth : Nat) : Stmt → List (Span × Nat)
  | .breakLoop span => [(span, depth)]
  | .ifThen _ _ _ yes => blockBreaks depth yes
  | .ifElse _ _ _ yes _ no => blockBreaks depth yes ++ blockBreaks depth no
  | .loop _ _ _ body => blockBreaks (depth + 1) body
  | .decl _ _ | .assign _ _ _ _ | .ret _ _ | .error _ | .expr _ _ => []

def blockBreaks (depth : Nat) : List Stmt → List (Span × Nat)
  | [] => []
  | s :: rest => s.breaks depth ++ blockBreaks depth rest

end

/-- The breaks of an item, each with the number of loops of its function around it. -/
def Item.breaks : Item → List (Span × Nat)
  | .decl _ _ => []
  | .function _ f => blockBreaks 0 f.body.stmts

def Item.opened : Item → Nat
  | .decl _ _ => 1
  | .function _ f => 1 + (blockOpened f.body.stmts + 1)

/-- The places of the breaks that have no loop around them. -/
def strays (breaks : List (Span × Nat)) : List Span := (breaks.filter (·.2 == 0)).map (·.1)

theorem strays_append (breaks breaks' : List (Span × Nat)) :
    strays (breaks ++ breaks') = strays breaks ++ strays breaks' := by
  rw [strays, List.filter_append, List.map_append]
  rfl

theorem strays_flatMap {α : Type} (f : α → List (Span × Nat)) (l : List α) :
    strays (l.flatMap f) = l.flatMap fun a => strays (f a) := by
  induction l with
  | nil => rfl
  | cons a l ih => rw [List.flatMap_cons, strays_append, ih, List.flatMap_cons]

end Teal.Tree

namespace Teal.Program

open List Scopes

def Builder.retarget (b : Builder) (version : Nat) : Builder := { b with version := version }

/-- States that look the same while building: functions matter only as they are called. -/
structure Builder.Alike (b b' : Builder) : Prop where
  version : b.version = b'.version
  literals : b.literals = b'.literals
  scopes : b.scopes.erase = b'.scopes.erase
  functions : Forall₂ Function.Alike b.functions b'.functions
  tip : b.tip = b'.tip
  labels : b.labels = b'.labels
  entry : b.entry = b'.entry

theorem Builder.Alike.pool {b b' : Builder} (h : b.Alike b') : b.pool = b'.pool :=
  congrArg Pool.Tables.pool h.literals

theorem Builder.Alike.refl (b : Builder) : b.Alike b :=
  ⟨rfl, rfl, rfl, forall₂_same.mpr fun _ _ => ⟨rfl, rfl, rfl⟩, rfl, rfl, rfl⟩

namespace Build

/-- A change of a state that opens so many scopes, and that has nothing to do with the version, with functions
and globals or with what is reported. -/
structure Plain (k : Nat) {α : Type} (g : Builder → α × Builder) (b : Builder) : Prop where
  version : (g b).2.version = b.version
  functions : (g b).2.functions = b.functions
  globals : (g b).2.globals = b.globals
  diagnostics : (g b).2.diagnostics = b.diagnostics
  size : (g b).2.scopes.arena.size = b.scopes.arena.size + k
  newer : ∀ version, g (b.retarget version) = ((g b).1, (g b).2.retarget version)

/-- Single steps from two states have a property, and so has what is put together from steps that have it. It
counts the scopes that are opened and lists the places where stray breaks are reported. Who looks at the version
has to do the same for a newer one, as long as nothing fatal is reported. -/
structure Points (R : Span → Span → Prop)
    (N : Nat → List Span → ∀ {α β : Type}, Build α → Build β → Builder → Builder → Prop) : Prop where
  of_pure {α β : Type} (a : α) (a' : β) (b b' : Builder) :
    N 0 [] (Pure.pure a : Build α) (Pure.pure a' : Build β) b b'
  of_bind {α β γ δ : Type} {m : Build α} {m' : Build β} {f : α → Build γ} {f' : β → Build δ} {j k : Nat}
    {spans spans' : List Span} {b b' : Builder} (hm : N j spans m m' b b')
    (hf : N k spans' (f (m.run b).1) (f' (m'.run b').1) (m.run b).2 (m'.run b').2) :
    N (j + k) (spans ++ spans') (m >>= f) (m' >>= f') b b'
  of_look {γ δ : Type} {f : Builder → Build γ} {f' : Builder → Build δ} {k : Nat} {spans : List Span}
    {b b' : Builder}
    (hnewer : ∀ version, b.version ≤ version → ((f b).run b).2.Quiet → f (b.retarget version) = f b)
    (hf : N k spans (f b) (f' b') b b') : N k spans (MonadState.get >>= f) (MonadState.get >>= f') b b'
  of_change {α β : Type} {g : Builder → α × Builder} {g' : Builder → β × Builder} {k : Nat} {b b' : Builder}
    (hg : Plain k g b) (hg' : Plain k g' b') :
    N k [] (modifyGet g : Build α) (modifyGet g' : Build β) b b'
  of_report {x y : Span} (hspan : R x y) {f g : Fault} (hmessage : f.message = g.message)
    (hhelp : f.help? = g.help?) (hf : f ≠ .breakOutside) (b b' : Builder) :
    N 0 [] (Build.report x f) (Build.report y g) b b'
  of_stray {x y : Span} (hspan : R x y) (b b' : Builder) :
    N 0 [x] (Build.report x .breakOutside) (Build.report y .breakOutside) b b'
  of_globals (tip : ScopeId) {stmts stmts' : List Stmt} (hstmts : Forall₂ (Stmt.Moved R) stmts stmts')
    (b b' : Builder) :
    N 0 [] (modify fun b => { b with tip := tip, globals := b.globals ++ stmts } : Build Unit)
      (modify fun b => { b with tip := tip, globals := b.globals ++ stmts' } : Build Unit) b b'
  of_function {built built' : Function} (hbuilt : built.Moved R built') (b b' : Builder) :
    N 0 [] (modify fun b => { b with functions := b.functions ++ [built] } : Build Unit)
      (modify fun b => { b with functions := b.functions ++ [built'] } : Build Unit) b b'

section Rules

variable (N : Nat → List Span → ∀ {α β : Type}, Build α → Build β → Builder → Builder → Prop)

/-- From two states, two steps come to states that look the same, their values stand in a relation, and they
have a property. -/
structure LinkedAt (k : Nat) (spans : List Span) {α β : Type} (V : α → β → Prop) (m : Build α) (m' : Build β)
    (b b' : Builder) : Prop where
  value : V (m.run b).1 (m'.run b').1
  state : (m.run b).2.Alike (m'.run b').2
  point : N k spans m m' b b'

/-- From all states that look the same. -/
def Linked (k : Nat) (spans : List Span) {α β : Type} (V : α → β → Prop) (m : Build α) (m' : Build β) : Prop :=
  ∀ b b' : Builder, b.Alike b' → LinkedAt N k spans V m m' b b'

variable {N} {R : Span → Span → Prop} {α β γ δ : Type} {V : α → β → Prop} {W : γ → δ → Prop} {m : Build α}
  {m' : Build β} {f : α → Build γ} {f' : β → Build δ} {j k : Nat} {spans spans' : List Span} {x y : Span}

theorem linked_ite {c : Prop} [Decidable c] {n : Build α} {n' : Build β} (hm : Linked N k spans V m m')
    (hn : Linked N k spans V n n') : Linked N k spans V (if c then m else n) (if c then m' else n') := by
  split
  · exact hm
  · exact hn

namespace Points

variable (hN : Points R N)

include hN

theorem pure {a : α} {a' : β} (ha : V a a') : Linked N 0 [] V (Pure.pure a : Build α) (Pure.pure a' : Build β) :=
  fun b b' hb => ⟨ha, hb, hN.of_pure a a' b b'⟩

/-- Steps one behind the other. -/
theorem add (hm : Linked N j spans V m m') (hf : ∀ a a', V a a' → Linked N k spans' W (f a) (f' a')) :
    Linked N (j + k) (spans ++ spans') W (m >>= f) (m' >>= f') := by
  intro b b' hb
  obtain ⟨hvalue, hstate, hfirst⟩ := hm b b' hb
  obtain ⟨hvalue', hstate', hrest⟩ := hf _ _ hvalue _ _ hstate
  exact ⟨hvalue', hstate', hN.of_bind hfirst hrest⟩

/-- Behind steps that open no scope and meet no stray break. -/
theorem bind (hm : Linked N 0 [] V m m') (hf : ∀ a a', V a a' → Linked N k spans W (f a) (f' a')) :
    Linked N k spans W (m >>= f) (m' >>= f') :=
  Nat.zero_add k ▸ hN.add hm hf

/-- Behind such steps that yield the same. -/
theorem «then» {m m' : Build α} {f : α → Build γ} {f' : α → Build δ} (hm : Linked N 0 [] Eq m m')
    (hf : ∀ a, Linked N k spans W (f a) (f' a)) : Linked N k spans W (m >>= f) (m' >>= f') := by
  refine hN.bind hm ?_
  rintro a _ rfl
  exact hf a

/-- What steps yield may be turned into anything behind them. -/
theorem map (hm : Linked N k spans V m m') {g : α → γ} {g' : β → δ} (hg : ∀ a a', V a a' → W (g a) (g' a')) :
    Linked N k spans W (m >>= fun a => Pure.pure (g a)) (m' >>= fun a => Pure.pure (g' a)) :=
  append_nil spans ▸ hN.add hm fun a a' ha => hN.pure (hg a a' ha)

/-- Steps that may yield nothing. -/
theorem bindSome {m : Build (Option α)} {m' : Build (Option β)} {f : Option α → Build γ}
    {f' : Option β → Build δ} (hm : Linked N 0 [] (Option.Rel V) m m') (hnone : Linked N k spans W (f none) (f' none))
    (hsome : ∀ a a', V a a' → Linked N k spans W (f (some a)) (f' (some a'))) :
    Linked N k spans W (m >>= f) (m' >>= f') := by
  refine hN.bind hm ?_
  rintro _ _ (ha | _)
  · exact hsome _ _ ha
  · exact hnone

theorem look {f : Builder → Build γ} {f' : Builder → Build δ}
    (hf : ∀ b b', b.Alike b' → LinkedAt N k spans W (f b) (f' b') b b')
    (hnewer : ∀ b version, b.version ≤ version → ((f b).run b).2.Quiet → f (b.retarget version) = f b) :
    Linked N k spans W (get >>= f) (get >>= f') := by
  intro b b' hb
  obtain ⟨hvalue, hstate, hpoint⟩ := hf b b' hb
  exact ⟨hvalue, hstate, hN.of_look (hnewer b) hpoint⟩

theorem get {f : Builder → Build γ} {f' : Builder → Build δ}
    (hf : ∀ b b', b.Alike b' → Linked N k spans W (f b) (f' b'))
    (hnewer : ∀ b version, b.version ≤ version → ((f b).run b).2.Quiet → f (b.retarget version) = f b) :
    Linked N k spans W (MonadState.get >>= f) (MonadState.get >>= f') :=
  hN.look (fun b b' hb => hf b b' hb b b' hb) hnewer

theorem change {g : Builder → α × Builder} {g' : Builder → β × Builder}
    (hstate : ∀ b b', b.Alike b' → V (g b).1 (g' b').1 ∧ (g b).2.Alike (g' b').2)
    (hg : ∀ b, Plain k g b) (hg' : ∀ b, Plain k g' b) :
    Linked N k [] V (modifyGet g : Build α) (modifyGet g' : Build β) :=
  fun b b' hb => ⟨(hstate b b' hb).1, (hstate b b' hb).2, hN.of_change (hg b) (hg' b')⟩

theorem forM {S : α → β → Prop} {step : α → Build Unit} {step' : β → Build Unit} {count : α → Nat}
    {places : α → List Span}
    (hstep : ∀ a a', S a a' → Linked N (count a) (places a) Eq (step a) (step' a')) {l : List α} {l' : List β}
    (hl : Forall₂ S l l') : Linked N (l.foldr (count · + ·) 0) (l.flatMap places) Eq (l.forM step) (l'.forM step') := by
  induction hl with
  | nil => exact hN.pure rfl
  | cons ha _ ih =>
    rw [foldr_cons, flatMap_cons]
    exact hN.add (hstep _ _ ha) fun _ _ _ => ih

/-! ### Single steps -/

theorem report (hspan : R x y) {f g : Fault} (hmessage : f.message = g.message)
    (hhelp : f.help? = g.help?) (hf : f ≠ .breakOutside) :
    Linked N 0 [] Eq (Build.report x f) (Build.report y g) :=
  fun b b' hb => ⟨rfl, { hb with }, hN.of_report hspan hmessage hhelp hf b b'⟩

theorem fail (hspan : R x y) (f : Fault) (hf : f ≠ .breakOutside) :
    Linked N 0 [] (Option.Rel V) (Build.fail x f) (Build.fail y f) :=
  hN.map (hN.report hspan rfl rfl hf) fun _ _ _ => .none

theorem stray (hspan : R x y) :
    Linked N 0 [x] (Option.Rel V) (Build.fail x .breakOutside) (Build.fail y .breakOutside) := by
  have hreport : Linked N 0 [x] Eq (Build.report x .breakOutside) (Build.report y .breakOutside) :=
    fun b b' hb => ⟨rfl, { hb with }, hN.of_stray hspan b b'⟩
  exact hN.map hreport fun _ _ _ => .none

theorem reportIf {c : Prop} [Decidable c] {f g : Fault} (hspan : R x y) (hfault : c → f = g)
    (hm : Linked N k spans V m m') (hf : f ≠ .breakOutside) :
    Linked N k spans V (if c then Build.report x f >>= fun _ => m else m)
      (if c then Build.report y g >>= fun _ => m' else m') := by
  split
  case isTrue hc =>
    cases hfault hc
    exact hN.then (hN.report hspan rfl rfl hf) fun _ => hm
  case isFalse => exact hm

theorem visit (scopes scopes' : List ScopeId) : Linked N 0 [] Eq (Build.visit scopes) (Build.visit scopes') :=
  hN.change (fun _ _ hb => ⟨rfl, { hb with }⟩)
    (fun _ => ⟨rfl, rfl, rfl, rfl, rfl, fun _ => rfl⟩) (fun _ => ⟨rfl, rfl, rfl, rfl, rfl, fun _ => rfl⟩)

theorem breach (x : Breach) : Linked N 0 [] Eq (Build.breach x) (Build.breach x) :=
  hN.change (fun _ _ hb => ⟨rfl, { hb with }⟩)
    (fun _ => ⟨rfl, rfl, rfl, rfl, rfl, fun _ => rfl⟩) (fun _ => ⟨rfl, rfl, rfl, rfl, rfl, fun _ => rfl⟩)

theorem freshLabel : Linked N 0 [] Eq Build.freshLabel Build.freshLabel :=
  hN.change (fun _ _ hb => ⟨hb.labels, { hb with labels := congrArg (· + 1) hb.labels }⟩)
    (fun _ => ⟨rfl, rfl, rfl, rfl, rfl, fun _ => rfl⟩) (fun _ => ⟨rfl, rfl, rfl, rfl, rfl, fun _ => rfl⟩)

theorem internInt (n : UInt64) : Linked N 0 [] Eq (Build.internInt n) (Build.internInt n) :=
  hN.change (fun b b' hb => by
    rw [← hb.literals]
    exact ⟨rfl, { hb with literals := rfl }⟩)
    (fun _ => ⟨rfl, rfl, rfl, rfl, rfl, fun _ => rfl⟩) (fun _ => ⟨rfl, rfl, rfl, rfl, rfl, fun _ => rfl⟩)

theorem internBytes (bs : List UInt8) : Linked N 0 [] Eq (Build.internBytes bs) (Build.internBytes bs) :=
  hN.change (fun b b' hb => by
    rw [← hb.literals]
    exact ⟨rfl, { hb with literals := rfl }⟩)
    (fun _ => ⟨rfl, rfl, rfl, rfl, rfl, fun _ => rfl⟩) (fun _ => ⟨rfl, rfl, rfl, rfl, rfl, fun _ => rfl⟩)

theorem openScope (kind : Scope.Kind) (parent : ScopeId) :
    Linked N 1 [] Eq (Build.openScope kind parent) (Build.openScope kind parent) := by
  refine hN.then (hN.visit _ _) fun _ => hN.change (fun b b' hb => ?_)
    (fun _ => ⟨rfl, rfl, rfl, rfl, Array.size_push _, fun _ => rfl⟩)
    (fun _ => ⟨rfl, rfl, rfl, rfl, Array.size_push _, fun _ => rfl⟩)
  obtain ⟨hid, hscopes⟩ := openScope_of_erase hb.scopes kind parent
  exact ⟨hid, { hb with scopes := hscopes }⟩

theorem inside {kind : Scope.Kind} {scope : ScopeId} {f : ScopeId → Build γ} {f' : ScopeId → Build δ}
    (hf : ∀ inner, Linked N k spans W (f inner) (f' inner)) :
    Linked N (1 + k) spans W (Build.openScope kind scope >>= f) (Build.openScope kind scope >>= f') := by
  refine hN.add (hN.openScope kind scope) ?_
  rintro inner _ rfl
  exact hf inner

variable (scope : ScopeId)

theorem kindOf? (name : String) : Linked N 0 [] Eq (Build.kindOf? scope name) (Build.kindOf? scope name) := by
  refine hN.then (hN.visit _ _) fun _ => hN.get (fun b b' hb => hN.pure ?_) fun _ _ _ _ => rfl
  exact kindOf?_of_erase hb.scopes scope name

theorem runtimeOf? (name : String) :
    Linked N 0 [] Eq (Build.runtimeOf? scope name) (Build.runtimeOf? scope name) := by
  refine hN.then (hN.visit _ _) fun _ => hN.get (fun b b' hb => hN.pure ?_) fun _ _ _ _ => rfl
  exact runtimeOf?_of_erase hb.scopes scope name

theorem setScopes {s t : Scopes} {b b' : Builder} (hb : b.Alike b') (hst : s.erase = t.erase)
    (hs : s.arena.size = b.scopes.arena.size) :
    LinkedAt N 0 [] Eq (modify fun b => { b with scopes := s } : Build Unit)
      (modify fun b => { b with scopes := t } : Build Unit) b b' := by
  have ht : t.arena.size = b'.scopes.arena.size := by
    rw [← size_eq_of_erase hst, hs, size_eq_of_erase hb.scopes]
  exact ⟨rfl, { hb with scopes := hst },
    hN.of_change ⟨rfl, rfl, rfl, rfl, hs, fun _ => rfl⟩ ⟨rfl, rfl, rfl, rfl, ht, fun _ => rfl⟩⟩

omit hN in
theorem message_eq_of_erase {f g : Scopes.Fault} (h : f.erase = g.erase) :
    (Fault.scope f).message = (Fault.scope g).message := by
  cases f <;> cases g <;> cases h <;> rfl

omit hN in
theorem help?_eq_of_erase {f g : Scopes.Fault} (h : f.erase = g.erase) :
    (Fault.scope f).help? = (Fault.scope g).help? := by
  cases f <;> cases g <;> cases h <;> rfl

theorem store {s t : Scopes} {b b' : Builder} (hb : b.Alike b') (hst : s.erase = t.erase)
    (hs : s.arena.size = b.scopes.arena.size) :
    LinkedAt N 0 [] Eq ((modify fun b => { b with scopes := s } : Build Unit) >>= fun _ => Pure.pure true)
      ((modify fun b => { b with scopes := t } : Build Unit) >>= fun _ => Pure.pure true) b b' := by
  obtain ⟨-, hstate, hpoint⟩ := hN.setScopes hb hst hs
  exact ⟨rfl, hstate, hN.of_bind (k := 0) hpoint (hN.of_pure true true _ _)⟩

theorem refuse (hspan : R x y) {f g : Scopes.Fault} (h : f.erase = g.erase) :
    Linked N 0 [] Eq (Build.report x (.scope f) >>= fun _ => Pure.pure false)
      (Build.report y (.scope g) >>= fun _ => Pure.pure false) :=
  hN.map (hN.report hspan (message_eq_of_erase h) (help?_eq_of_erase h) (by simp)) fun _ _ _ => rfl

theorem declareVariable {name name' : Ident} (hname : name.Moved R name') (ty : Ty) :
    Linked N 0 [] Eq (Build.declareVariable scope name ty) (Build.declareVariable scope name' ty) := by
  refine hN.then (hN.visit _ _) fun _ => hN.look (fun b b' hb => ?_) fun _ _ _ _ => rfl
  have houtcome := declareVariable_of_erase hb.scopes scope hname.text ty
  generalize hr : Scopes.declareVariable scope name ty b.scopes = r at houtcome ⊢
  generalize Scopes.declareVariable scope name' ty b'.scopes = r' at houtcome ⊢
  cases houtcome with
  | ok h =>
    refine hN.store hb h.2 ?_
    obtain ⟨_, _, _, heq⟩ := declareVariable_eq_ok hr
    exact heq ▸ insert_size _
  | error h => exact hN.refuse hname.span h b b' hb

theorem declare {name name' : Ident} (hname : name.Moved R name') (ty : Ty) (kind : Symbol.Kind) :
    Linked N 0 [] Eq (Build.declare scope name ty kind) (Build.declare scope name' ty kind) := by
  refine hN.then (hN.visit _ _) fun _ => hN.look (fun b b' hb => ?_) fun _ _ _ _ => rfl
  have houtcome := declare_of_erase hb.scopes scope hname.text ty kind
  generalize hr : Scopes.declare scope name ty kind b.scopes = r at houtcome ⊢
  generalize Scopes.declare scope name' ty kind b'.scopes = r' at houtcome ⊢
  cases houtcome with
  | ok h =>
    refine hN.store hb h ?_
    obtain ⟨_, rfl⟩ := declare_eq_ok hr
    exact insert_size _
  | error h => exact hN.refuse hname.span h b b' hb

/-- Only here and where a builtin is called the version decides, and a version that is too old is reported. -/
theorem requireVersion (needed : Nat) (feature : Feature) (hspan : R x y) :
    Linked N 0 [] Eq (Build.requireVersion needed feature x) (Build.requireVersion needed feature y) := by
  refine hN.get (fun b b' hb => ?_) fun b version hversion hquiet => ?_
  · rw [← hb.version]
    exact linked_ite (hN.pure rfl) (hN.map (hN.report hspan rfl rfl (by simp)) fun _ _ _ => rfl)
  · by_cases hneeded : needed ≤ b.version
    · have hlater : needed ≤ (b.retarget version).version := Nat.le_trans hneeded hversion
      simp only [if_pos hneeded, if_pos hlater]
    · simp only [if_neg hneeded] at hquiet
      exact absurd hquiet (not_quiet_report x _ b)

end Points

end Rules

end Build

end Teal.Program
