import Teal.Proofs.Program.Build.Stmt

/-! Whole programs. One invariant of the builder is kept by every item: the functions and declarations
built so far are resolved, no two nodes carry one number, and while nothing fatal is reported what is built
mirrors the items, in every tree of scopes that comes later. At the end it becomes what is known of a
program that was built without a fatal report. -/

namespace Teal.Program

open List Scopes

def labels (p : Program) : List Nat :=
  blockLabels p.globals ++ p.functions.flatMap fun f => blockLabels f.body

/-- What the builder ensures of a program if it reports nothing fatal. -/
structure WellBuilt (p : Program) : Prop where
  scopes : p.scopes.Valid
  symbols : ∀ {i x}, p.scopes.Declares i x → x.ty ≠ .invalid
  returns : ∀ f ∈ p.functions, f.returnTy ≠ .invalid
  bodies : ∀ {i f}, p.functions[i]? = some f → BlockResolved 0 p i f.body
  globals : BlockResolved 0 p p.functions.length p.globals
  decls : ∀ s ∈ p.globals, s.isDecl = true
  labels : p.labels.Nodup
  /-- No two functions share a name. -/
  names : ∀ {i j : Nat} {f g : Function}, p.functions[i]? = some f → p.functions[j]? = some g →
    f.name.text = g.name.text → i = j
  unreserved : ∀ f ∈ p.functions, f.name.text ≠ Build.reservedName
  params : ∀ f ∈ p.functions, f.isEntry = false →
    f.scope < p.scopes.arena.size ∧ Stores p f.scope (f.params.map (·.1))
  entry : ∃ f, p.functions[p.entry]? = some f ∧ f.isEntry = true
  subroutines : ∀ f ∈ p.functions, f.isEntry = false → f.inline = false → 4 ≤ p.version

namespace Builder

/-- What holds between items while nothing fatal is reported. -/
structure Regular (b : Builder) : Prop where
  unreserved : ∀ f ∈ b.functions, f.name.text ≠ Build.reservedName
  subroutines : ∀ f ∈ b.functions, f.isEntry = false → f.inline = false → 4 ≤ b.version

/-- What holds between items when some are built. The scope behind them is the last one there is. -/
structure Inv (version : Nat) (items : List Tree.Item) (b : Builder) : Prop where
  version : b.version = version
  sane : b.Sane
  size : b.scopes.arena.size = b.tip + 1
  bodies : ∀ {i f}, b.functions[i]? = some f → BlockResolved 0 b.program i f.body
  globals : BlockResolved 0 b.program b.functions.length b.globals
  decls : ∀ s ∈ b.globals, s.isDecl = true
  labels : Fresh 0 b.labels b.program.labels
  entry : ∀ {i}, b.entry = some i → ∃ f, b.functions[i]? = some f ∧ f.isEntry = true
  regular : b.Quiet → b.Regular
  mirror : b.Quiet → ∀ t, Scopes.AgreeBelow b.scopes.arena.size b.scopes t →
    ItemsMirror t items b.tip b.globals b.functions

theorem Inv.tip_lt {version : Nat} {items : List Tree.Item} {b : Builder} (h : b.Inv version items) :
    b.tip < b.scopes.arena.size :=
  h.size ▸ Nat.lt_succ_self b.tip

end Builder

namespace Build

open Builder

variable {b : Builder} {scope : ScopeId}

/-! ### Parameters -/

theorem paramTy_valid (param : Tree.Param) : paramTy param ≠ .invalid := by
  unfold paramTy
  split <;> simp

variable (isEntry : Bool)

theorem declareParam_declared (hb : b.Sane) (hlast : scope + 1 = b.scopes.arena.size) (i : Nat) (p : Tree.Param) :
    Ensures (declareParam isEntry scope i p) b fun ok b' => ∃ symbol used, symbol.ident = p.name ∧
      (if isEntry then Symbol.Kind.isRuntime else Symbol.Kind.isVariable) symbol.kind = true ∧
      Declared scope symbol used b ok b' := by
  cases isEntry with
  | true =>
    refine ensures_imp (declare_declared hb hlast p.name rfl trivial (by simp)) fun _ _ h => ?_
    exact ⟨_, _, rfl, rfl, h⟩
  | false =>
    refine ensures_imp (declareVariable_declared hb hlast p.name fun _ => paramTy_valid p) fun _ _ h => ?_
    exact ⟨_, _, rfl, rfl, h⟩

theorem parameters_writes (ps : List Tree.Param) : ∀ {b : Builder} (i : Nat), b.Sane →
    scope + 1 = b.scopes.arena.size →
    Ensures (parameters isEntry scope i ps) b fun r b' => r.map (·.1) = ps.map (·.name) ∧
      Writes scope (if isEntry then Symbol.Kind.isRuntime else Symbol.Kind.isVariable)
        (ps.map (·.name)) b b'.Quiet b' := by
  induction ps with
  | nil => exact fun _ hb _ => ensures_pure ⟨rfl, .nil hb _ _⟩
  | cons param ps ih =>
    intro b i hb hlast
    rw [parameters]
    refine ensures_bind (declareParam_declared isEntry hb hlast i param) ?_
    rintro ok b₁ ⟨symbol, used, hident, hkind, h₁⟩
    refine ensures_bind (ih (i + 1) h₁.sane (hlast.trans h₁.size.symm)) ?_
    rintro r b₂ ⟨hnames, h₂⟩
    refine ensures_pure ⟨by simp [hnames], ?_⟩
    rw [map_cons, ← hident]
    exact h₁.writes hkind (fun hquiet => h₁.isTrue (h₂.keeps.quiet hquiet)) h₂

/-! ### The form of a function -/

theorem checkEntry_step (hb : b.Sane) (f : Tree.Function) (moduleName : String) (isMain : Bool) :
    Ensures (checkEntry f moduleName isMain) b fun _ b' => Step b b' := by
  unfold checkEntry
  refine ensures_report_if hb fun b₁ h₁ _ _ => ensures_report_if h₁.sane fun b₂ h₂ _ _ => ?_
  refine ensures_report_if h₂.sane fun b₃ h₃ _ _ => ?_
  have hstep₃ := (h₁.trans h₂).trans h₃
  -- A parameter with a type is reported; what follows is the same in both cases.
  have hlast : ∀ b₄, Step b₃ b₄ →
      Ensures (do if (← get).entry.isSome then report f.name.span .entryTwice) b₄ fun _ b' => Step b b' := by
    intro b₄ h₄
    apply ensures_get
    split
    · refine ensures_imp (report_step h₄.sane _ _) ?_
      rintro _ b' ⟨h₅, _⟩
      exact (hstep₃.trans h₄).trans h₅
    · exact ensures_pure (hstep₃.trans h₄)
  dsimp only
  split
  · refine ensures_bind (report_step h₃.sane _ _) ?_
    rintro _ b₄ ⟨h₄, _⟩
    exact hlast b₄ h₄
  · exact hlast b₃ (.refl h₃.sane)

theorem checkFunction_step (hb : b.Sane) (f : Tree.Function) (moduleName : String) (isMain : Bool) :
    Ensures (checkFunction f moduleName isMain) b fun _ b' =>
      Step b b' ∧ (b'.Quiet → f.name.text ≠ reservedName ∧
        (f.name.text ≠ entryName → f.inline = false → 4 ≤ b.version)) := by
  unfold checkFunction
  refine ensures_report_if hb ?_
  intro b₁ h₁ _ _
  refine ensures_report_if h₁.sane ?_
  intro b₂ h₂ _ hreserved
  have hstep₂ := h₁.trans h₂
  have hname : ∀ b', Step b₂ b' → b'.Quiet → f.name.text ≠ reservedName :=
    fun b' h' hquiet heq => hreserved (by simpa using heq) (h'.keeps.quiet hquiet)
  dsimp only
  split
  · next hisEntry =>
    refine ensures_imp (checkEntry_step hstep₂.sane f moduleName isMain) ?_
    intro _ b₃ h₃
    exact ⟨hstep₂.trans h₃, fun hquiet => ⟨hname b₃ h₃ hquiet,
      fun hother => absurd (by simpa using hisEntry) hother⟩⟩
  · next hother =>
    split
    · refine ensures_bind (requireVersion_step hstep₂.sane _ _ _) ?_
      rintro ok b₃ ⟨h₃, hok, hloud⟩
      refine ensures_pure ⟨hstep₂.trans h₃,
        fun hquiet => ⟨hname b₃ h₃ hquiet, fun _ _ => ?_⟩⟩
      cases ok with
      | false => exact absurd hquiet (hloud rfl)
      | true => exact hstep₂.keeps.version ▸ (hok rfl).2
    · next hinline =>
      exact ensures_pure ⟨hstep₂, fun hquiet => ⟨hname b₂ (.refl hstep₂.sane) hquiet,
        fun _ h => absurd (by simpa using h) hinline⟩⟩

/-! ### Adding a function -/

mutual

/-- Only resolved types are found to be returned. -/
theorem firstReturn?_resolved (scopes : Scopes) (functions : List Function) (s : Stmt) :
    ∀ ty ∈ s.firstReturn? scopes functions, ty.isResolved = true := by
  cases s with
  | ret span value =>
    intro ty hty
    simp only [Stmt.firstReturn?] at hty
    split at hty
    · next hresolved =>
      cases hty
      exact hresolved
    · cases hty
  | ifThen span label test yes =>
    rw [Stmt.firstReturn?]
    exact blockFirstReturn?_resolved scopes functions yes
  | ifElse span label test yes no =>
    intro ty hty
    rw [Stmt.firstReturn?, Option.mem_def, Option.or_eq_some_iff] at hty
    rcases hty with hty | ⟨_, hty⟩
    · exact blockFirstReturn?_resolved scopes functions yes ty hty
    · exact blockFirstReturn?_resolved scopes functions no ty hty
  | loop span label test body =>
    rw [Stmt.firstReturn?]
    exact blockFirstReturn?_resolved scopes functions body
  | varDecl | constDecl | assign | setField | innerBegin | innerSubmit | error | breakLoop | expr =>
    simp [Stmt.firstReturn?]
termination_by structural s

theorem blockFirstReturn?_resolved (scopes : Scopes) (functions : List Function) (stmts : List Stmt) :
    ∀ ty ∈ blockFirstReturn? scopes functions stmts, ty.isResolved = true := by
  cases stmts with
  | nil => simp [blockFirstReturn?]
  | cons s rest =>
    intro ty hty
    rw [blockFirstReturn?, Option.mem_def, Option.or_eq_some_iff] at hty
    rcases hty with hty | ⟨_, hty⟩
    · exact firstReturn?_resolved scopes functions s ty hty
    · exact blockFirstReturn?_resolved scopes functions rest ty hty
termination_by structural stmts

end

/-- The type that a function is found to return is a type, if perhaps an unknown one. -/
theorem returnTy_valid (isEntry : Bool) (scopes : Scopes) (functions : List Function) (body : List Stmt) :
    (if isEntry = true then .integer
      else (blockFirstReturn? scopes functions body).getD .unknown) ≠ Ty.invalid := by
  split
  · simp
  · cases hfirst : blockFirstReturn? scopes functions body with
    | none => simp
    | some ty =>
      have hresolved := blockFirstReturn?_resolved scopes functions body ty hfirst
      rintro rfl
      cases hresolved

theorem getElem?_snoc {α : Type} {l : List α} {a x : α} {i : Nat} (h : (l ++ [a])[i]? = some x) :
    l[i]? = some x ∨ i = l.length ∧ x = a := by
  rw [getElem?_append] at h
  split at h
  · exact .inl h
  · next hle =>
    cases hi : i - l.length with
    | zero =>
      rw [hi] at h
      cases h
      exact .inr ⟨by omega, rfl⟩
    | succ k => simp [hi] at h

/-- What is known of a function when its body is built and it is not added yet. -/
structure Ready (b : Builder) (span : Span) (tree : Tree.Function) (f : Function)
    (b' : Builder) : Prop where
  step : Step b b'
  size : b'.scopes.arena.size = b.tip + 2 + Tree.blockOpened tree.body.stmts
  body : BlockResolved 0 b'.program b.functions.length f.body
  fresh : Fresh b.labels b'.labels (blockLabels f.body)
  unreserved : b'.Quiet → f.name.text ≠ reservedName
  subroutine : b'.Quiet → f.isEntry = false → f.inline = false → 4 ≤ b.version
  mirrors : b'.Quiet → ∀ t, Scopes.AgreeBelow b'.scopes.arena.size b'.scopes t →
    f.Mirrors t b.tip span tree

section Add

variable {b' : Builder} {f : Function} {isMain : Bool}

theorem withFunction_sane (hb' : b'.Sane) (hreturns : f.returnTy ≠ .invalid) :
    Sane { b' with functions := b'.functions ++ [f] } := by
  refine { hb' with refers := ?_, returns := ?_ }
  · intro i x hx
    have hrefers := hb'.refers hx
    unfold Refers at hrefers ⊢
    split
    · next ref hkind =>
      rw [hkind] at hrefers
      exact hrefers
    · next g hkind =>
      rw [hkind] at hrefers
      obtain ⟨callee, hcallee, hname⟩ := hrefers
      exact ⟨callee, getElem?_of_isPrefix (prefix_append _ [f]) hcallee, hname⟩
    · trivial
  · intro g hg
    rcases mem_append.mp hg with hg | hg
    · exact hb'.returns g hg
    · rw [mem_singleton.mp hg]
      exact hreturns

/-- The state behind a function: it is added and declared in a scope of its own, unless that was
refused. -/
structure Added (f : Function) (isMain : Bool) (b' b'' : Builder) : Prop where
  sane : b''.Sane
  grows : Extends b'.program b''.program
  tip : b''.tip = b'.scopes.arena.size
  size : b''.scopes.arena.size = b''.tip + 1
  functions : b''.functions = b'.functions ++ [f]
  globals : b''.globals = b'.globals
  labels : b'.labels ≤ b''.labels
  diagnostics : b'.diagnostics <+: b''.diagnostics
  entry : b''.entry =
    if f.isEntry && isMain then b'.entry.or (some b'.functions.length) else b'.entry
  opens : b''.Quiet → b''.scopes.Opens .decl b'.tip b''.tip [f.symbol b'.functions.length]

theorem addFunction_added (hb' : b'.Sane) (htip : b'.tip < b'.scopes.arena.size)
    (hreturns : f.returnTy ≠ .invalid) :
    Ensures (addFunction f isMain) b' fun _ b'' => Added f isMain b' b'' := by
  unfold addFunction
  apply ensures_get
  refine ensures_bind_run (rfl : (set { b' with functions := b'.functions ++ [f] } : Build _).run b' =
    (⟨⟩, { b' with functions := b'.functions ++ [f] })) ?_
  obtain ⟨hrun, h₂⟩ := openScope_step (withFunction_sane hb' hreturns) htip .decl
  apply ensures_bind_run hrun
  have hopens := opens_openScope b'.scopes .decl htip
  have hsize := openScope_size b'.scopes .decl b'.tip
  have hrefers : Refers (Builder.program { b' with functions := b'.functions ++ [f] })
      (f.symbol b'.functions.length) :=
    ⟨f, by simp [Builder.program], rfl⟩
  refine ensures_bind (declare_declared h₂.sane hsize.symm f.name rfl hrefers fun _ => hreturns) ?_
  intro ok b₃ h₃
  have hsize₃ : b₃.scopes.arena.size = b'.scopes.arena.size + 1 := h₃.size.trans hsize
  have hfunctions : b₃.functions = b'.functions ++ [f] := h₃.keeps.functions
  refine ⟨{ h₃.sane with }, ⟨h₃.keeps.version, hsize₃ ▸ Nat.le_succ _,
    (openScope_agree b'.scopes .decl b'.tip).trans h₃.keeps.scopes, ?_, h₃.keeps.ints,
    h₃.keeps.bytes⟩, rfl, hsize₃, hfunctions, h₃.keeps.globals, h₃.keeps.labels, h₃.keeps.diagnostics,
    ?_, fun hquiet => ?_⟩
  · change b'.functions <+: b₃.functions
    rw [hfunctions]
    exact prefix_append _ _
  · change (if _ then b₃.entry.or _ else b₃.entry) = _
    rw [h₃.keeps.entry]
  · obtain ⟨hpermits, rfl⟩ := h₃.written (h₃.isTrue hquiet)
    exact hopens.insert hpermits _

/-- Numbers of a program to which a function is added. -/
theorem labels_snoc {p q : Program} (hglobals : q.globals = p.globals)
    (hfunctions : q.functions = p.functions ++ [f]) : q.labels = p.labels ++ blockLabels f.body := by
  simp only [labels, hglobals, hfunctions, flatMap_append, flatMap_cons, flatMap_nil,
    append_nil, append_assoc]

/-- The invariant holds again behind a function that was ready to be added. -/
theorem inv_of_added {version : Nat} {items : List Tree.Item} {span : Span} {tree : Tree.Function}
    {b'' : Builder} (hb : b.Inv version items) (hready : Ready b span tree f b')
    (hadded : Added f isMain b' b'') : b''.Inv version (items ++ [.function span tree]) := by
  have hstep := hready.step
  have hgrows := hstep.grows.trans hadded.grows
  have hfunctions : b''.functions = b.functions ++ [f] := by
    rw [hadded.functions, hstep.keeps.functions]
  have hglobals : b''.globals = b.globals := hadded.globals.trans hstep.keeps.globals
  have hquiet' : b''.Quiet → b'.Quiet := fun h d hd => h d (hadded.diagnostics.subset hd)
  have hentry : b''.entry =
      if f.isEntry && isMain then b.entry.or (some b.functions.length) else b.entry := by
    rw [hadded.entry, hstep.keeps.entry, hstep.length_eq]
  have hversion : b''.version = b.version := hgrows.version
  refine ⟨hversion.trans hb.version, hadded.sane, hadded.size, ?_, ?_, ?_, ?_, ?_, ?_, ?_⟩
  · intro i g hg s hs
    rw [hfunctions] at hg
    rcases getElem?_snoc hg with hold | ⟨rfl, rfl⟩
    · exact (hb.bodies hold s hs).mono hgrows .refl
    · exact (hready.body s hs).mono hadded.grows .refl
  · intro s hs
    rw [hglobals] at hs
    refine (hb.globals s hs).mono hgrows ?_
    rw [hfunctions, length_append]
    exact Nat.le_add_right _ _
  · rw [hglobals]
    exact hb.decls
  · rw [labels_snoc (p := b.program) hglobals hfunctions]
    exact hb.labels.append (hready.fresh.mono .refl hadded.labels) (Nat.zero_le _)
      (Nat.le_trans hstep.keeps.labels hadded.labels)
  · intro i hi
    have hold : b.entry = some i → ∃ g, b''.functions[i]? = some g ∧ g.isEntry = true := by
      intro h
      obtain ⟨g, hg, hisEntry⟩ := hb.entry h
      exact ⟨g, getElem?_of_isPrefix hgrows.functions hg, hisEntry⟩
    rw [hentry] at hi
    split at hi
    · next hboth =>
      rcases Option.or_eq_some_iff.mp hi with hi | ⟨_, hi⟩
      · exact hold hi
      · cases hi
        exact ⟨f, by simp [hfunctions], (Bool.and_eq_true_iff.mp hboth).1⟩
    · exact hold hi
  · intro hquiet
    have hregular := hb.regular (hstep.keeps.quiet (hquiet' hquiet))
    constructor
    · rw [hfunctions]
      exact forall_mem_append.mpr
        ⟨hregular.unreserved, forall_mem_singleton.mpr (hready.unreserved (hquiet' hquiet))⟩
    · rw [hfunctions, hversion]
      exact forall_mem_append.mpr
        ⟨hregular.subroutines, forall_mem_singleton.mpr (hready.subroutine (hquiet' hquiet))⟩
  · intro hquiet t hagree
    have hagree' := hadded.grows.scopes.trans (hagree.mono hadded.grows.size_le)
    have hbefore := hb.mirror (hstep.keeps.quiet (hquiet' hquiet)) t (hstep.agree hagree')
    have hopens := (hadded.opens hquiet).of_agree hagree (hadded.size ▸ Nat.lt_succ_self _)
    rw [hstep.keeps.tip, hstep.length_eq, hadded.tip, hready.size] at hopens
    rw [hfunctions, hglobals, hadded.tip, hready.size]
    exact .function hbefore (hready.mirrors (hquiet' hquiet) t hagree') hopens

end Add

/-! ### Items and modules -/

variable {version : Nat} {items : List Tree.Item}

theorem function_inv (hb : b.Inv version items) (span : Span) (f : Tree.Function) (moduleName : String)
    (isMain : Bool) : Ensures (function span f moduleName isMain) b fun _ b' =>
    b'.Inv version (items ++ [.function span f]) := by
  unfold function
  refine ensures_bind (ensures_and (checkFunction_step hb.sane f moduleName isMain)
    ((checkFunction_adds f moduleName isMain).ensures b)) ?_
  rintro _ b₁ ⟨⟨h₁, hform⟩, hsize₁⟩
  apply ensures_get
  have htip : b₁.tip < b₁.scopes.arena.size := by
    rw [h₁.keeps.tip]
    exact h₁.scope_lt hb.tip_lt
  have hscope : b₁.scopes.arena.size = b.tip + 1 := by rw [hsize₁, hb.size]
  obtain ⟨hrun, h₂⟩ := openScope_step h₁.sane htip .block
  apply ensures_bind_run hrun
  have hopened := openScope_size b₁.scopes .block b₁.tip
  refine ensures_bind (parameters_writes (f.name.text == entryName) f.params 0 h₂.sane hopened.symm) ?_
  rintro ps b₃ ⟨hnames, h₃⟩
  have hkeeps₃ := h₂.keeps.trans h₃.keeps
  have hsize₃ : b₃.scopes.arena.size = b₁.scopes.arena.size + 1 := h₃.size.trans hopened
  have hlt₃ : b₁.scopes.arena.size < b₃.scopes.arena.size := hsize₃ ▸ Nat.lt_succ_self _
  have hstep₃ : Step b b₃ := h₁.trans ⟨h₃.sane, hkeeps₃⟩
  refine ensures_bind (ensures_and (block_yields 0 _ f.body.stmts h₃.sane hlt₃)
    ((block_adds 0 _ f.body.stmts).ensures b₃)) ?_
  rintro body b₄ ⟨h₄, hsize₄⟩
  have hstep₄ := hstep₃.trans h₄.step
  have hbody := h₄.good body rfl
  rw [hstep₃.length_eq] at hbody
  apply ensures_bind_run (visit_run (forall_blockReturnScopes fun s hs => (hbody s hs).returnScopes_lt))
  apply ensures_get
  have hquiet₁ : b₄.Quiet → b₁.Quiet := fun hquiet => hkeeps₃.quiet (h₄.step.keeps.quiet hquiet)
  have hreturns := returnTy_valid (f.name.text == entryName) b₄.scopes b₄.functions body
  have htip₄ : b₄.tip < b₄.scopes.arena.size := by
    rw [hstep₄.keeps.tip]
    exact hstep₄.scope_lt hb.tip_lt
  refine ensures_imp (addFunction_added hstep₄.sane htip₄ hreturns) fun _ _ h =>
    inv_of_added hb ⟨hstep₄, ?_, hbody, ?_, ?_, ?_, ?_⟩ h
  · rw [hsize₄, hsize₃, hscope]
  · exact (h₄.fresh body rfl).mono hstep₃.keeps.labels .refl
  · exact fun hquiet => (hform (hquiet₁ hquiet)).1
  · exact fun hquiet hother => (hform (hquiet₁ hquiet)).2 (by simpa using hother)
  · intro hquiet t hagree
    have hheld := (h₃.holds (h₄.step.keeps.quiet hquiet) (holds_openScope htip .block _)).of_agree
      (h₄.step.agree hagree)
    have hmirrors := h₄.mirrors hquiet t hagree
    rw [h₁.keeps.tip, nil_append, ← hnames] at hheld
    rw [hsize₃] at hmirrors
    exact ⟨rfl, rfl, rfl, rfl, hnames, fun hentry => if_pos hentry, hscope, hheld, hmirrors⟩

/-- Declarations are added in front of the functions, so their numbers are given out in another order
than they stand in the program. -/
theorem perm_labels_globals {p q : Program} {stmts : List Stmt}
    (hglobals : q.globals = p.globals ++ stmts) (hfunctions : q.functions = p.functions) :
    q.labels.Perm (p.labels ++ blockLabels stmts) := by
  simp only [labels, hglobals, hfunctions, blockLabels_append, append_assoc]
  exact perm_append_comm.append_left _

theorem declarationItem_inv (hb : b.Inv version items) (span : Span) (decl : Tree.Decl) :
    Ensures (do
      let (stmt, after) ← declaration b.tip span decl
      modify fun b => { b with tip := after, globals := b.globals ++ stmt.toList }) b
      fun _ b' => b'.Inv version (items ++ [.decl span decl]) := by
  have hsees : Sees b.tip (b.scopes.kindOf? b.tip) b := ⟨hb.sane, hb.tip_lt, rfl⟩
  refine ensures_bind (ensures_and (declaration_yields hsees span decl)
    ((declaration_adds span decl).ensures b)) ?_
  rintro ⟨built, after⟩ b₁ ⟨⟨h₁, rfl⟩, hsize⟩
  dsimp only at h₁
  have hkeeps := h₁.step.keeps
  have hsane := h₁.step.sane
  -- The state behind the declaration differs from the one it was built in by the tip and the globals.
  change Builder.Inv version _ { b₁ with
    tip := b.scopes.arena.size, globals := b₁.globals ++ built.toList }
  have hgrows : Extends b.program (Builder.program
      { b₁ with tip := b.scopes.arena.size, globals := b₁.globals ++ built.toList }) :=
    { h₁.step.grows with }
  have hglobals : b₁.globals ++ built.toList = b.globals ++ built.toList := by rw [hkeeps.globals]
  refine ⟨hkeeps.version.trans hb.version, { hsane with }, hsize, ?_, ?_, ?_, ?_, ?_, ?_, ?_⟩
  · exact fun hf s hs => (hb.bodies (hkeeps.functions ▸ hf) s hs).mono hgrows .refl
  · intro s hs
    change s ∈ b₁.globals ++ built.toList at hs
    change s.Resolved _ b₁.functions.length 0
    rw [h₁.step.length_eq]
    rcases mem_append.mp (hglobals ▸ hs) with hs | hs
    · exact (hb.globals s hs).mono hgrows .refl
    · refine ((h₁.good s (Option.mem_toList.mp hs)).resolved 0).mono ?_ .refl
      exact ⟨rfl, .refl, .refl _ _, prefix_rfl, prefix_rfl, prefix_rfl⟩
  · change ∀ s ∈ b₁.globals ++ built.toList, _
    rw [hglobals]
    exact forall_mem_append.mpr ⟨hb.decls, fun s hs => (h₁.good s (Option.mem_toList.mp hs)).isDecl⟩
  · have hperm := perm_labels_globals (p := b.program) (q := Builder.program
      { b₁ with tip := b.scopes.arena.size, globals := b₁.globals ++ built.toList }) hglobals
      hkeeps.functions
    have hfresh : Fresh b.labels b₁.labels (blockLabels built.toList) := by
      cases built with
      | none => exact .nil _ _
      | some s =>
        rw [Option.toList_some, blockLabels, blockLabels, append_nil]
        exact h₁.fresh s rfl
    have hall := hb.labels.append hfresh (Nat.zero_le _) hkeeps.labels
    exact ⟨hperm.nodup_iff.mpr hall.nodup, fun n hn => hall.range n (hperm.mem_iff.mp hn)⟩
  · intro i hi
    obtain ⟨f, hf, hisEntry⟩ := hb.entry (hkeeps.entry ▸ hi)
    exact ⟨f, getElem?_of_isPrefix hgrows.functions hf, hisEntry⟩
  · intro hquiet
    have hregular := hb.regular (hkeeps.quiet hquiet)
    exact ⟨fun f hf => hregular.unreserved f (hkeeps.functions ▸ hf),
      fun f hf => hkeeps.version ▸ hregular.subroutines f (hkeeps.functions ▸ hf)⟩
  · intro hquiet t hagree
    obtain ⟨stmt, rfl⟩ := Option.isSome_iff_exists.mp (h₁.isSome hquiet)
    have hagree₀ := h₁.step.agree hagree
    have hdecl := (h₁.good stmt rfl).mirrors t hagree (hsees.agree hagree₀)
    have hafter := ItemsMirror.decl (hb.mirror (hkeeps.quiet hquiet) t hagree₀) (hb.size ▸ hdecl)
    rw [← hkeeps.globals, ← hkeeps.functions, ← hb.size] at hafter
    exact hafter

theorem item_inv (hb : b.Inv version items) (moduleName : String) (isMain : Bool) (i : Tree.Item) :
    Ensures (item moduleName isMain i) b fun _ b' => b'.Inv version (items ++ [i]) := by
  cases i with
  | decl span decl =>
    rw [item]
    apply ensures_get
    exact declarationItem_inv hb span decl
  | function span f =>
    rw [item]
    exact function_inv hb span f moduleName isMain

theorem forM_inv (moduleName : String) (isMain : Bool) (rest : List Tree.Item) :
    ∀ {b : Builder} {items : List Tree.Item}, b.Inv version items →
    Ensures (rest.forM (item moduleName isMain)) b fun _ b' => b'.Inv version (items ++ rest) := by
  induction rest with
  | nil =>
    intro b items hb
    rw [append_nil]
    exact ensures_pure hb
  | cons i rest ih =>
    intro b items hb
    rw [append_cons]
    exact ensures_bind (item_inv hb moduleName isMain i) fun _ _ h => ih h

theorem modules_inv (ms : List Tree.SourceModule) : ∀ {b : Builder} {done : List Tree.Item},
    b.Inv version done →
    Ensures (modules ms) b fun _ b' => b'.Inv version (done ++ Program.items ms) := by
  induction ms with
  | nil =>
    intro b done hb
    rw [Program.items, flatMap_nil, append_nil]
    exact ensures_pure hb
  | cons m ms ih =>
    intro b done hb
    rw [Program.items, flatMap_cons, ← append_assoc]
    exact ensures_bind (forM_inv m.name m.isMain m.tree.items hb) fun _ _ h => ih h

/-! ### Programs -/

theorem machineName_run {r : Runtime} (h : ∀ i x, b.scopes.Declares i x → x.name ≠ r.text) :
    (machineName r).run b = ((), withSymbol b Scopes.root (machineSymbol r) b.scopes.used) := by
  have hdeclare : b.scopes.declare Scopes.root ⟨r.text, .nowhere⟩ .unknown (.runtime r) =
      .ok (b.scopes.insert Scopes.root (machineSymbol r)) := by
    rw [Scopes.declare, permits_of_undeclared h]
    rfl
  simp only [machineName, StateT.run_bind, StateT.run_get, pure_bind, hdeclare]
  rfl

theorem machineName_sane (hb : b.Sane) (hroot : Scopes.root + 1 = b.scopes.arena.size) {r : Runtime}
    (h : ∀ i x, b.scopes.Declares i x → x.name ≠ r.text) :
    (withSymbol b Scopes.root (machineSymbol r) b.scopes.used).Sane :=
  withSymbol_sane hb hroot (permits_of_undeclared h)
    (hb.valid.insert (hroot ▸ Nat.lt_succ_self _) (h Scopes.root) rfl) trivial
    fun _ => by simp [machineSymbol]

theorem initial_sane (version : Nat) : (Builder.initial version).Sane where
  valid := .initial
  clear := ⟨fun _ hx => absurd hx (not_declares_initial _ _),
    fun _ hx => absurd hx (not_declares_initial _ _)⟩
  refers hx := absurd hx (not_declares_initial _ _)
  typed _ _ _ hx := absurd hx (not_declares_initial _ _)
  returns := by simp [Builder.initial]
  pool := prefix_rfl
  breaches := rfl

/-- The scopes before any item: the machine's names, and an empty block below them. -/
def startScopes : Scopes :=
  ⟨#[⟨none, .block, [machineSymbol .global, machineSymbol .itxn], 0⟩,
    ⟨some Scopes.root, .block, [], 0⟩], 0⟩

theorem path_startScopes : startScopes.path 1 = startPath := by
  simp [Scopes.path, startScopes, startPath, Scopes.root]

/-- The invariant holds before any item. -/
theorem inv_of_empty (hb : b.Sane) (hscopes : b.scopes = startScopes) (htip : b.tip = 1)
    (hfunctions : b.functions = []) (hglobals : b.globals = []) (hentry : b.entry = none) :
    b.Inv b.version [] := by
  have hlabels : b.program.labels = [] := by
    simp only [labels, Builder.program, hfunctions, hglobals, blockLabels, flatMap_nil, append_nil]
  have hsize : b.scopes.arena.size = b.tip + 1 := by rw [hscopes, htip]; rfl
  refine ⟨rfl, hb, hsize, ?_, ?_, ?_, hlabels ▸ .nil _ _, ?_, fun _ => ⟨?_, ?_⟩, fun _ t hagree => ?_⟩
  case refine_7 =>
    have hpath := hagree.path (Nat.lt_of_lt_of_eq (Nat.lt_succ_self b.tip) hsize.symm)
    rw [hscopes, htip, path_startScopes] at hpath
    rw [hfunctions, hglobals, htip]
    exact .start hpath
  all_goals simp [hfunctions, hglobals, hentry, BlockResolved]

/-- Whatever the modules are, the invariant holds when they are built, for the version asked for. -/
theorem program_inv (ms : List Tree.SourceModule) (version : Nat) :
    Ensures (program ms) (.initial version) fun _ b => b.Inv version (Program.items ms) := by
  have hroot : Scopes.root + 1 = (Builder.initial version).scopes.arena.size := rfl
  have hglobal : ∀ i x, (Builder.initial version).scopes.Declares i x → x.name ≠ "global" :=
    fun i x hx => absurd hx (not_declares_initial i x)
  have hsane₁ := machineName_sane (initial_sane version) hroot (r := .global) hglobal
  unfold program
  refine ensures_bind_run (machineName_run hglobal) ?_
  have hroot₁ : Scopes.root + 1 =
      (withSymbol (.initial version) Scopes.root (machineSymbol .global) 0).scopes.arena.size :=
    hroot.trans (insert_size _).symm
  have hitxn : ∀ i x, (withSymbol (.initial version) Scopes.root (machineSymbol .global) 0).scopes.Declares
      i x → x.name ≠ "itxn" := by
    intro i x hx
    rcases (declares_insert _ (hroot ▸ Nat.lt_succ_self _) i x).mp hx with hx | ⟨_, rfl⟩
    · exact absurd hx (not_declares_initial i x)
    · decide
  refine ensures_bind_run (machineName_run (r := .itxn) hitxn) ?_
  have hsane₂ := machineName_sane hsane₁ hroot₁ (r := .itxn) hitxn
  obtain ⟨hrun, h₃⟩ := openScope_step hsane₂
    (Nat.lt_of_succ_le (Nat.le_of_eq (hroot₁.trans (insert_size _).symm))) .block
  apply ensures_bind_run hrun
  refine ensures_bind_run (rfl : (modify _ : Build Unit).run _ = ((), _)) ?_
  refine modules_inv ms (inv_of_empty ?_ rfl rfl rfl rfl rfl)
  exact { h₃.sane with }

end Build

/-- Building never misses anything that it takes for granted, also where it reports faults. -/
theorem breaches_eq_nil (ms : List Tree.SourceModule) (version : Nat) :
    ((Build.program ms).run (.initial version)).2.breaches = [] :=
  Builder.Sane.breaches (Build.program_inv ms version : Builder.Inv _ _ _).sane

/-! ### Names of functions -/

section Names

variable {s : Scopes} {items : List Tree.Item} {tip : ScopeId} {globals : List Stmt}
  {functions : List Function}

/-- A scope that is open below another lies inside of it and of all that are around it. -/
theorem inside_of_opens {kind : Scope.Kind} {parent inner outer : ScopeId} {symbols : List Symbol}
    (h : s.Opens kind parent inner symbols) (houter : outer = parent ∨ s.Inside parent outer) :
    s.Inside inner outer := by
  obtain ⟨base, hget⟩ := h.get
  rcases houter with rfl | houter
  · exact .parent hget trivial rfl
  · exact .further hget trivial rfl houter

/-- Every function is declared in a scope that is seen behind the items. -/
theorem ItemsMirror.declares (h : ItemsMirror s items tip globals functions) :
    ∀ {i : Nat} {f : Function}, functions[i]? = some f →
      ∃ scope, s.Declares scope (f.symbol i) ∧ (scope = tip ∨ s.Inside tip scope) := by
  induction h with
  | start => simp
  | decl _ hdecl ih =>
    intro i f hf
    obtain ⟨scope, hdeclares, hscope⟩ := ih hf
    obtain ⟨_, _, ⟨symbols, hopens, _⟩, _⟩ := hdecl.holds
    exact ⟨scope, hdeclares, .inr (inside_of_opens hopens hscope)⟩
  | function _ _ hopens ih =>
    intro i f hf
    rcases Build.getElem?_snoc hf with hold | ⟨rfl, rfl⟩
    · obtain ⟨scope, hdeclares, hscope⟩ := ih hold
      exact ⟨scope, hdeclares, .inr (inside_of_opens hopens hscope)⟩
    · obtain ⟨base, hget⟩ := hopens.get
      exact ⟨_, ⟨_, hget, mem_cons_self⟩, .inl rfl⟩

/-- No two functions share a name, since a function may not be hidden. -/
theorem ItemsMirror.names (h : ItemsMirror s items tip globals functions) (hclear : s.Clear) :
    ∀ {i j : Nat} {f g : Function}, functions[i]? = some f → functions[j]? = some g →
      f.name.text = g.name.text → i = j := by
  induction h with
  | start => simp
  | decl _ _ ih => exact ih
  | @function _ _ _ functions _ _ f hitems _ hopens ih =>
    have hne : ∀ {i : Nat} {g : Function}, functions[i]? = some g → f.name.text ≠ g.name.text := by
      intro i g hg hname
      obtain ⟨scope, hdeclares, hscope⟩ := hitems.declares hg
      obtain ⟨base, hget⟩ := hopens.get
      have hvariable := hclear.assigned (inside_of_opens hopens hscope) ⟨_, hget, mem_cons_self⟩
        hdeclares hname
      cases hvariable
    intro i j g g' hg hg' hname
    rcases Build.getElem?_snoc hg with hold | ⟨rfl, rfl⟩
    · rcases Build.getElem?_snoc hg' with hold' | ⟨rfl, rfl⟩
      · exact ih hold hold' hname
      · exact absurd hname.symm (hne hold)
    · rcases Build.getElem?_snoc hg' with hold' | ⟨rfl, rfl⟩
      · exact absurd hname (hne hold')
      · rfl

end Names

theorem wellBuilt_of_inv {b : Builder} {version : Nat} {items : List Tree.Item}
    (hinv : b.Inv version items) (hquiet : b.Quiet) {entry : Nat} (hentry : b.entry = some entry) :
    b.program.WellBuilt := by
  have hregular := hinv.regular hquiet
  have hmirror := hinv.mirror hquiet b.scopes (.refl _ _)
  have hindex : b.program.entry = entry := by rw [Builder.program, hentry]; rfl
  refine ⟨hinv.sane.valid, hinv.sane.typed hquiet, hinv.sane.returns, hinv.bodies, hinv.globals,
    hinv.decls, hinv.labels.nodup, hmirror.names hinv.sane.clear, hregular.unreserved, ?_, ?_, hregular.subroutines⟩
  · intro f hf hother
    obtain ⟨tip, span, tree, hmirrors⟩ := hmirror.exists_mirrors hf
    have hholds := hmirrors.holds
    rw [hother] at hholds
    exact ⟨hholds.lt_size, fun name hname => hholds.isVariable hname⟩
  · rw [hindex]
    exact hinv.entry hentry

variable {ms : List Tree.SourceModule} {version : Nat} {p : Program} {ds : List Diagnostic}

variable (h : ofModules ms version = (some p, ds))

include h

/-- What is built is the last state of the builder. -/
theorem builder_of_ofModules :
    ∃ (b : Builder) (entry : Nat), b = ((Build.program ms).run (.initial version)).2 ∧
      b.entry = some entry ∧ b.diagnostics = ds ∧ b.program = p := by
  unfold ofModules at h
  generalize (Build.program ms).run (.initial version) = r at h
  obtain ⟨_, b⟩ := r
  dsimp only at h
  cases hentry : b.entry with
  | none =>
    rw [hentry] at h
    cases h
  | some entry =>
    rw [hentry] at h
    cases h
    exact ⟨b, entry, rfl, hentry, rfl, by rw [Builder.program, hentry]; rfl⟩

/-- What is built satisfies the invariant. -/
theorem inv_of_ofModules :
    ∃ (b : Builder) (entry : Nat), b.Inv version (items ms) ∧ b.entry = some entry ∧
      b.diagnostics = ds ∧ b.program = p := by
  obtain ⟨b, entry, hb, hrest⟩ := builder_of_ofModules h
  exact ⟨b, entry, hb ▸ Build.program_inv ms version, hrest⟩

/-- A program that is built without a fatal report is well built. -/
theorem wellBuilt_of_ofModules (hquiet : ∀ d ∈ ds, d.isFatal = false) : p.WellBuilt := by
  obtain ⟨b, entry, hinv, hentry, rfl, rfl⟩ := inv_of_ofModules h
  exact wellBuilt_of_inv hinv hquiet hentry

theorem version_of_ofModules : p.version = version := by
  obtain ⟨b, _, hinv, _, _, rfl⟩ := inv_of_ofModules h
  exact hinv.version

/-- A program that is built without a fatal report mirrors the items of its modules. -/
theorem itemsMirror_of_ofModules (hquiet : ∀ d ∈ ds, d.isFatal = false) :
    ∃ tip, ItemsMirror p.scopes (items ms) tip p.globals p.functions := by
  obtain ⟨b, _, hinv, _, rfl, rfl⟩ := inv_of_ofModules h
  exact ⟨b.tip, hinv.mirror hquiet b.scopes (.refl _ _)⟩

end Teal.Program
