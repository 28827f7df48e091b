import Teal.Proofs.Program.Build.Expr

/-! Building a statement from a sane state yields a resolved statement that mirrors its source, or reports
something fatal. Declarations write into the scope that was opened last, by themselves, so everything that
was built before stays as it is. What is said of scopes is said for all later trees at once: for every tree
that agrees with the one that was reached. -/

namespace Teal.Program

open List Scopes

def BlockResolved (loops : Nat) (p : Program) (bound : Nat) (stmts : List Stmt) : Prop :=
  ∀ s ∈ stmts, s.Resolved p bound loops

def Stmt.isDecl : Stmt → Bool
  | .varDecl _ _ _ _ | .constDecl _ _ _ => true
  | _ => false

namespace Build

open Builder

variable {b b' : Builder} {scope : ScopeId} {look : String → Option Symbol.Kind}

variable {α : Type} {Q : α → Builder → Prop} {symbol : Symbol} {used : Nat} {ty : Ty}

theorem ensures_report_if {c : Prop} [Decidable c] {span : Span} {fault : Fault} {f : Unit → Build α}
    (hb : b.Sane) (hf : ∀ b', Step b b' → b'.scopes = b.scopes → (c → ¬b'.Quiet) → Ensures (f ()) b' Q) :
    Ensures (if c then report span fault >>= f else f ()) b Q := by
  split
  · refine ensures_bind (report_step hb span fault) ?_
    rintro _ b' ⟨hstep, hscopes, hloud⟩
    exact hf b' hstep hscopes fun _ => hloud
  · next hc => exact hf b (.refl hb) rfl fun h => absurd h hc

theorem Adds.ensures {m : Build α} {k : Nat} (h : Adds k m) (b : Builder) :
    Ensures m b fun _ b' => b'.scopes.arena.size = b.scopes.arena.size + k :=
  h b

/-! ### Scopes -/

theorem openScope_step (hb : b.Sane) (hscope : scope < b.scopes.arena.size) (kind : Scope.Kind) :
    (openScope kind scope).run b =
        (b.scopes.arena.size, { b with scopes := (b.scopes.openScope kind scope).2 }) ∧
      Step b { b with scopes := (b.scopes.openScope kind scope).2 } := by
  constructor
  · have hvisit := visit_one_run hscope
    simp only [openScope, StateT.run_bind, hvisit]
    rfl
  · refine ⟨⟨hb.valid.openScope kind hscope, hb.clear.openScope hb.valid kind hscope, ?_, ?_, hb.returns, hb.pool,
      hb.breaches⟩, ?_⟩
    · intro i x hx
      exact hb.refers ((declares_openScope b.scopes kind scope i x).mp hx)
    · intro hquiet i x hx
      exact hb.typed hquiet ((declares_openScope b.scopes kind scope i x).mp hx)
    · exact ⟨rfl, rfl, rfl, rfl, rfl, by simp, openScope_agree b.scopes kind scope,
        prefix_rfl, prefix_rfl, .refl, prefix_rfl⟩

theorem holds_openScope (hscope : scope < b.scopes.arena.size) (kind : Scope.Kind)
    (isKind : Symbol.Kind → Bool) :
    (b.scopes.openScope kind scope).2.Holds kind scope b.scopes.arena.size [] isKind :=
  ⟨[], opens_openScope b.scopes kind hscope, rfl, by simp⟩

/-- Writing a symbol into a scope, with the number of slots that are in use then. -/
def withSymbol (b : Builder) (scope : ScopeId) (symbol : Symbol) (used : Nat) : Builder :=
  { b with scopes := { b.scopes.insert scope symbol with used := used } }

/-- What declaring a name in the last scope may do: write the symbol, or refuse and report it. -/
structure Declared (scope : ScopeId) (symbol : Symbol) (used : Nat) (b : Builder) (ok : Bool)
    (b' : Builder) : Prop where
  sane : b'.Sane
  keeps : Keeps scope b b'
  size : b'.scopes.arena.size = b.scopes.arena.size
  isTrue : b'.Quiet → ok = true
  written : ok = true →
    b.scopes.permits scope symbol.name = .ok () ∧ b' = withSymbol b scope symbol used

section Declared

variable (hb : b.Sane) (hlast : scope + 1 = b.scopes.arena.size)
  (hpermits : b.scopes.permits scope symbol.name = .ok ())
  (hvalid : (withSymbol b scope symbol used).scopes.Valid) (hrefers : Refers b.program symbol)
  (hty : b.Quiet → symbol.ty ≠ .invalid)

include hb hlast hpermits hvalid hrefers hty

theorem withSymbol_sane : (withSymbol b scope symbol used).Sane := by
  have hscope : scope < b.scopes.arena.size := hlast ▸ Nat.lt_succ_self scope
  refine ⟨hvalid, hb.clear.insert hb.valid hvalid rfl hlast hpermits, ?_, ?_, hb.returns, hb.pool, hb.breaches⟩
  · intro i x hx
    rcases (declares_insert symbol hscope i x).mp hx with hx | ⟨_, rfl⟩
    · exact hb.refers hx
    · exact hrefers
  · intro hquiet i x hx
    rcases (declares_insert symbol hscope i x).mp hx with hx | ⟨_, rfl⟩
    · exact hb.typed hquiet hx
    · exact hty hquiet

theorem Declared.of_permits :
    Declared scope symbol used b true (withSymbol b scope symbol used) where
  sane := withSymbol_sane hb hlast hpermits hvalid hrefers hty
  keeps := ⟨rfl, rfl, rfl, rfl, rfl, Nat.le_of_eq (insert_size symbol).symm,
    insert_agree symbol, prefix_rfl, prefix_rfl, .refl, prefix_rfl⟩
  size := insert_size symbol
  isTrue _ := rfl
  written _ := ⟨hpermits, rfl⟩

end Declared

theorem Declared.of_report (hb : b.Sane) (hscope : scope < b.scopes.arena.size) (span : Span)
    (f : Fault) : Ensures (report span f >>= fun _ => pure false) b (Declared scope symbol used b) := by
  refine ensures_bind (report_step hb span f) ?_
  rintro _ b' ⟨hstep, hscopes, hloud⟩
  exact ensures_pure ⟨hstep.sane, hstep.keeps.mono (Nat.le_of_lt hscope), by rw [hscopes],
    fun hquiet => absurd hquiet hloud, by simp⟩

theorem declare_declared (hb : b.Sane) (hlast : scope + 1 = b.scopes.arena.size) (name : Ident)
    {kind : Symbol.Kind} (hkind : kind.isVariable = false)
    (hrefers : Refers b.program ⟨name.text, ty, kind, name.span⟩) (hty : b.Quiet → ty ≠ .invalid) :
    Ensures (declare scope name ty kind) b
      (Declared scope ⟨name.text, ty, kind, name.span⟩ b.scopes.used b) := by
  have hscope : scope < b.scopes.arena.size := hlast ▸ Nat.lt_succ_self scope
  unfold declare
  apply ensures_bind_run (visit_one_run hscope)
  apply ensures_get
  split
  · next scopes hdeclare =>
    obtain ⟨hpermits, rfl⟩ := declare_eq_ok hdeclare
    exact Declared.of_permits hb hlast hpermits
      (hb.valid.insert hscope (fresh_of_permits hpermits).1 hkind) hrefers hty
  · exact .of_report hb hscope _ _

theorem declareVariable_declared (hb : b.Sane) (hlast : scope + 1 = b.scopes.arena.size)
    (name : Ident) (hty : b.Quiet → ty ≠ .invalid) : Ensures (declareVariable scope name ty) b
      (Declared scope ⟨name.text, ty, .variable b.scopes.used, name.span⟩ (b.scopes.used + 1) b) := by
  have hscope : scope < b.scopes.arena.size := hlast ▸ Nat.lt_succ_self scope
  unfold declareVariable
  apply ensures_bind_run (visit_one_run hscope)
  apply ensures_get
  split
  · next slot scopes hdeclare =>
    obtain ⟨hpermits, hused, _, rfl⟩ := declareVariable_eq_ok hdeclare
    exact Declared.of_permits hb hlast hpermits
      (hb.valid.insertVariable hscope (fresh_of_permits hpermits).1 hused rfl) trivial hty
  · exact .of_report hb hscope _ _

/-- What declaring names of one kind in the last scope may do. If all are written, the scope holds them
behind those it held before. -/
structure Writes (scope : ScopeId) (isKind : Symbol.Kind → Bool) (names : List Ident) (b : Builder)
    (ok : Prop) (b' : Builder) : Prop where
  sane : b'.Sane
  keeps : Keeps scope b b'
  size : b'.scopes.arena.size = b.scopes.arena.size
  holds : ok → ∀ {kind parent done}, b.scopes.Holds kind parent scope done isKind →
    b'.scopes.Holds kind parent scope (done ++ names) isKind

theorem Writes.nil (hb : b.Sane) (isKind : Symbol.Kind → Bool) (ok : Prop) : Writes scope isKind [] b ok b :=
  ⟨hb, .refl _ b, rfl, fun _ _ _ done hholds => (append_nil done).symm ▸ hholds⟩

theorem Declared.writes {isKind : Symbol.Kind → Bool} {names : List Ident} {declared : Bool}
    {b₁ b₂ : Builder} {ok : Prop} (h : Declared scope symbol used b declared b₁)
    (hkind : isKind symbol.kind = true) (hok : ok → declared = true)
    (hrest : Writes scope isKind names b₁ ok b₂) :
    Writes scope isKind (symbol.ident :: names) b ok b₂ where
  sane := hrest.sane
  keeps := h.keeps.trans hrest.keeps
  size := hrest.size.trans h.size
  holds hall _ _ done hholds := by
    obtain ⟨hpermits, rfl⟩ := h.written (hok hall)
    rw [append_cons]
    exact hrest.holds hall (hholds.insert hpermits hkind used)

/-! ### Declarations -/

theorem bindNames_writes (names : List Ident) : ∀ {b : Builder} (tys : List Ty) (ok : Bool),
    b.Sane → scope + 1 = b.scopes.arena.size →
    (b.Quiet → ok = true ∧ names.length = tys.length ∧ ∀ ty ∈ tys, ty ≠ .invalid) →
    Ensures (bindNames scope names tys ok) b fun r b' =>
      Writes scope Symbol.Kind.isVariable names b (r = true) b' ∧ (b'.Quiet → r = true) ∧
        (r = true → ok = true) := by
  induction names with
  | nil =>
    intro b tys ok hb _ hquiet
    rw [bindNames]
    exact ensures_pure ⟨.nil hb _ _, fun h => (hquiet h).1, id⟩
  | cons name names ih =>
    intro b tys ok hb hlast hquiet
    rw [bindNames]
    have hty : b.Quiet → (if ok then tys.head?.getD .invalid else .invalid) ≠ .invalid := by
      intro h
      obtain ⟨hok, hlength, hvalid⟩ := hquiet h
      cases tys with
      | nil => cases hlength
      | cons ty tys => simpa [hok] using hvalid ty mem_cons_self
    refine ensures_bind (declareVariable_declared hb hlast name hty) ?_
    intro declared b₁ h₁
    refine ensures_imp (ih tys.tail (ok && declared) h₁.sane (hlast.trans h₁.size.symm) ?_) ?_
    · intro h
      obtain ⟨hok, hlength, hvalid⟩ := hquiet (h₁.keeps.quiet h)
      refine ⟨by rw [hok, h₁.isTrue h]; rfl, ?_, fun ty hty => hvalid ty (mem_of_mem_tail hty)⟩
      rw [length_tail, ← hlength]
      rfl
    · rintro r b₂ ⟨hwrites, hisTrue, hr⟩
      have hboth : r = true → ok = true ∧ declared = true := fun h => Bool.and_eq_true_iff.mp (hr h)
      exact ⟨h₁.writes rfl (fun h => (hboth h).2) hwrites, hisTrue, fun h => (hboth h).1⟩

theorem requireCount_step (hb : b.Sane) (values names : Nat) (span : Span) :
    Ensures (requireCount values names span) b fun ok b' =>
      Step b b' ∧ b'.scopes = b.scopes ∧ (ok = true → values = names) ∧ (b'.Quiet → ok = true) := by
  unfold requireCount
  split
  · next heq => exact ensures_pure ⟨.refl hb, rfl, fun _ => heq, fun _ => rfl⟩
  · refine ensures_bind (report_step hb span _) ?_
    rintro _ b' ⟨hstep, hscopes, hloud⟩
    exact ensures_pure ⟨hstep, hscopes, by simp, fun hquiet => absurd hquiet hloud⟩

/-- What is built of a declaration is resolved wherever it stands, and mirrors it in every later tree. -/
structure DeclBuilt (look : String → Option Symbol.Kind) (scope : ScopeId) (span : Span)
    (decl : Tree.Decl) (inner : ScopeId) (p : Program) (bound : Nat) (s : Stmt) : Prop where
  resolved : ∀ loops, s.Resolved p bound loops
  isDecl : s.isDecl = true
  mirrors : ∀ t : Scopes, Scopes.AgreeBelow p.scopes.arena.size p.scopes t → t.kindOf? scope = look →
    DeclMirrors t scope span decl s inner

/-- The value of a declaration is built in the state `valued`, and then the scope for its names was
opened. -/
structure Opened (look : String → Option Symbol.Kind) (scope : ScopeId) (decl : Tree.Decl)
    (b valued : Builder) (value : Option Expr) (b' : Builder) : Prop where
  value : ExprYields (.seen look scope) decl.value b value valued
  step : Step valued b'
  last : valued.scopes.arena.size + 1 = b'.scopes.arena.size
  holds : ∀ isKind, b'.scopes.Holds .decl scope valued.scopes.arena.size [] isKind

section Opened

variable {decl : Tree.Decl} {valued : Builder} {value : Option Expr} {b₁ : Builder}

theorem Opened.after (h : Opened look scope decl b valued value b') (hstep : Step b' b₁)
    (hscopes : b₁.scopes = b'.scopes) : Opened look scope decl b valued value b₁ :=
  ⟨h.value, h.step.trans hstep, hscopes ▸ h.last, hscopes ▸ h.holds⟩

theorem bindVariables_yields (h : Opened look scope decl b valued value b') (hconst : decl.isConst = false)
    (span : Span) :
    Ensures (bindVariables span valued.scopes.arena.size decl.names decl.value.span value) b'
      (Yields (DeclBuilt look scope span decl valued.scopes.arena.size) Stmt.labels b) := by
  unfold bindVariables
  refine ensures_report_if h.step.sane ?_
  intro b₁ h₁ hscopes hcount
  replace h := h.after h₁ hscopes
  cases value with
  | none =>
    have hloud : ¬b₁.Quiet := fun hquiet => by simpa using h.value.isSome (h.step.keeps.quiet hquiet)
    refine ensures_bind (bindNames_writes decl.names [] false h₁.sane h.last
      fun hquiet => absurd hquiet hloud) ?_
    rintro r b₂ ⟨hwrites, _⟩
    exact ensures_pure (.none (h.value.step.trans ⟨hwrites.sane, h.step.keeps.trans hwrites.keeps⟩)
      fun hquiet => hloud (hwrites.keeps.quiet hquiet))
  | some e =>
    have hbuilt := h.value.good e rfl
    have he := hbuilt.resolved.mono h.step.grows .refl
    apply ensures_bind_run (resultTypes_run he)
    -- The names are bound to the types of the value, or to none if the count was refused.
    have hbind : ∀ b₂ ok, Step b₁ b₂ → b₂.scopes = b₁.scopes →
        (ok = true → (e.resultTypes b₁.scopes b₁.functions).length = decl.names.length) →
        (b₂.Quiet → ok = true) →
        Ensures (bindNames valued.scopes.arena.size decl.names (e.resultTypes b₁.scopes b₁.functions) ok
            >>= fun bound => if bound = true
              then pure (some (Stmt.varDecl span valued.scopes.arena.size decl.names e)) else pure none)
          b₂ (Yields (DeclBuilt look scope span decl valued.scopes.arena.size) Stmt.labels b) := by
      intro b₂ ok h₂ hscopes₂ hok hquiet₂
      have hopened := h.after h₂ hscopes₂
      have hvalid : b₂.Quiet → ∀ ty ∈ e.resultTypes b₁.scopes b₁.functions, ty ≠ .invalid :=
        fun hquiet => he.resultTypes_valid (h₁.sane.typed (h₂.keeps.quiet hquiet)) h₁.sane.returns
      refine ensures_bind (bindNames_writes decl.names _ ok h₂.sane hopened.last fun hquiet =>
        ⟨hquiet₂ hquiet, (hok (hquiet₂ hquiet)).symm, hvalid hquiet⟩) ?_
      rintro bound b₃ ⟨hwrites, hisTrue, hbound⟩
      have hstep₃ : Step valued b₃ := ⟨hwrites.sane, hopened.step.keeps.trans hwrites.keeps⟩
      have hstep := h.value.step.trans hstep₃
      cases bound with
      | false => exact ensures_pure (.none hstep fun hquiet => by simpa using hisTrue hquiet)
      | true =>
        have hheld := hwrites.holds rfl (hopened.holds _)
        have harity : decl.names.length = e.arity b₃.program := by
          rw [hbuilt.resolved.arity_eq hstep₃.grows, ← hbuilt.resolved.arity_eq h.step.grows]
          exact (hok (hbound rfl)).symm
        refine ensures_pure (.some hstep ⟨fun loops => ?_, rfl, fun t hagree hlook => ?_⟩ ?_)
        · exact .varDecl hheld.lt_size (fun name hname => hheld.isVariable hname) harity
            (hbuilt.resolved.mono hstep₃.grows .refl)
        · exact .varDecl hconst (hlook ▸ hbuilt.mirrors) (hheld.of_agree hagree)
        · rw [Stmt.labels]
          exact (h.value.fresh e rfl).mono .refl hstep₃.keeps.labels
    cases hvalueCount : isValueCount decl.names.length with
    | true =>
      refine ensures_bind (requireCount_step h₁.sane _ decl.names.length decl.value.span) ?_
      rintro ok b₂ ⟨h₂, hscopes₂, hok, hquiet⟩
      exact hbind b₂ ok h₂ hscopes₂ hok hquiet
    | false =>
      have hloud := hcount (by rw [hvalueCount]; rfl)
      exact hbind b₁ false (.refl h₁.sane) rfl (by simp) fun hquiet => absurd hquiet hloud

/-- The place of a constant value exists. -/
theorem constantValue?_refers (hb : b.Sane) {e : Expr} {n : Nat} (he : e.Resolved b.program n)
    {ty : Ty} {ref : Pool.Ref} (h : constantValue? b e = some (ty, ref)) :
    (∃ v, poolValue? b.pool ref = some v) ∧ (b.Quiet → ty ≠ .invalid) := by
  cases he with
  | @literal _ value _ hvalue =>
    simp only [constantValue?, Option.some.injEq, Prod.mk.injEq] at h
    obtain ⟨rfl, rfl⟩ := h
    exact ⟨⟨value, hvalue⟩, fun _ => by cases value <;> simp [Literal.ty]⟩
  | ident =>
    simp only [constantValue?] at h
    split at h
    · next name ty' ref' span hlookup =>
      cases h
      obtain ⟨_, i, hdeclares⟩ := declares_of_lookup hlookup
      exact ⟨hb.refers hdeclares, fun hquiet => hb.typed hquiet hdeclares⟩
    · cases h
  | unary | binary | group | call | builtin | cond | field | fieldAt | arg | cast => cases h

/-- A constant without value is declared all the same, after something fatal was reported. -/
theorem declareInvalid_yields {good : Program → Nat → Stmt → Prop} {name : Ident}
    (h : Opened look scope decl b valued value b') (hloud : ¬b'.Quiet) :
    Ensures (do
      let _ ← declare valued.scopes.arena.size name .invalid (.constant (.int 0))
      pure none) b' (Yields good Stmt.labels b) := by
  have hzero : ∃ v, poolValue? b'.pool (.int 0) = some v := by
    obtain ⟨rest, hrest⟩ := h.step.sane.pool
    exact ⟨.int 0, by rw [poolValue?, ← hrest]; rfl⟩
  refine ensures_bind (declare_declared h.step.sane h.last name rfl hzero
    fun hquiet => absurd hquiet hloud) ?_
  intro ok b₁ h₁
  exact ensures_pure (.none (h.value.step.trans ⟨h₁.sane, h.step.keeps.trans h₁.keeps⟩)
    fun hquiet => hloud (h₁.keeps.quiet hquiet))

theorem bindConstant_yields (h : Opened look scope decl b valued value b') (hconst : decl.isConst = true)
    (span : Span) :
    Ensures (bindConstant span valued.scopes.arena.size decl.names decl.value.span value) b'
      (Yields (DeclBuilt look scope span decl valued.scopes.arena.size) Stmt.labels b) := by
  unfold bindConstant
  split
  · next name hnames =>
    cases value with
    | none =>
      exact declareInvalid_yields h fun hquiet => by simpa using h.value.isSome (h.step.keeps.quiet hquiet)
    | some e =>
      have hbuilt := h.value.good e rfl
      have he := hbuilt.resolved.mono h.step.grows .refl
      have hvisit : (visit e.typeScope?.toList).run b' = ((), b') :=
        visit_run fun id hid => he.typeScope_lt id (Option.mem_toList.mp hid)
      apply ensures_bind_run hvisit
      apply ensures_get
      split
      · refine ensures_bind (report_step h.step.sane decl.value.span _) ?_
        rintro _ b₁ ⟨h₁, hscopes, hloud⟩
        exact declareInvalid_yields (h.after h₁ hscopes) hloud
      · next ty ref hconstant =>
        obtain ⟨hrefers, hty⟩ := constantValue?_refers h.step.sane he hconstant
        refine ensures_bind (declare_declared h.step.sane h.last name rfl hrefers hty) ?_
        intro ok b₁ h₁
        have hstep₁ : Step valued b₁ := ⟨h₁.sane, h.step.keeps.trans h₁.keeps⟩
        have hstep := h.value.step.trans hstep₁
        cases ok with
        | false => exact ensures_pure (.none hstep fun hquiet => by simpa using h₁.isTrue hquiet)
        | true =>
          simp only [Bool.not_true, Bool.false_eq_true, if_false]
          split
          · next hinvalid =>
            exact ensures_pure (.none hstep fun hquiet => hty (h₁.keeps.quiet hquiet) hinvalid)
          obtain ⟨hpermits, rfl⟩ := h₁.written rfl
          have hheld := (h.holds Symbol.Kind.isConstant).insert (x := ⟨name.text, ty, .constant ref, name.span⟩)
            hpermits rfl b'.scopes.used
          refine ensures_pure (.some hstep ⟨fun loops => ?_, rfl, fun t hagree hlook => ?_⟩ ?_)
          · exact .constDecl (hbuilt.resolved.mono hstep₁.grows .refl)
          · exact .constDecl hconst hnames (hlook ▸ hbuilt.mirrors) (hheld.of_agree hagree)
          · rw [Stmt.labels]
            exact (h.value.fresh e rfl).mono .refl hstep₁.keeps.labels
  · exact (h.value.step.trans h.step).fail _ _

end Opened

/-- A declaration opens the next scope. -/
theorem declaration_yields (h : Sees scope look b) (span : Span) (decl : Tree.Decl) :
    Ensures (declaration scope span decl) b fun r b' =>
      Yields (DeclBuilt look scope span decl r.2) Stmt.labels b r.1 b' ∧ r.2 = b.scopes.arena.size := by
  unfold declaration
  refine ensures_bind (ensures_and (expr_yields scope decl.value h) ((expr_adds scope decl.value).ensures b)) ?_
  rintro value b₁ ⟨h₁, hsize⟩
  have hsees := h.after h₁.step
  obtain ⟨hrun, h₂⟩ := openScope_step hsees.sane hsees.lt .decl
  apply ensures_bind_run hrun
  have hopened : Opened look scope decl b b₁ value { b₁ with scopes := (b₁.scopes.openScope .decl scope).2 } :=
    ⟨h₁, h₂, by simp, holds_openScope hsees.lt .decl⟩
  dsimp only
  split
  · next hconst =>
    exact ensures_bind (bindConstant_yields hopened hconst span) fun _ _ h₃ => ensures_pure ⟨h₃, hsize⟩
  · next hconst =>
    exact ensures_bind (bindVariables_yields hopened (by simpa using hconst) span)
      fun _ _ h₃ => ensures_pure ⟨h₃, hsize⟩

/-! ### Assignments and calls -/

/-- What is built of a statement without blocks mirrors it wherever names stand for what `look` tells. -/
structure StmtBuilt (loops : Nat) (look : String → Option Symbol.Kind) (scope : ScopeId)
    (tree : Tree.Stmt) (p : Program) (bound : Nat) (s : Stmt) : Prop where
  resolved : s.Resolved p bound loops
  mirrors : ∀ t : Scopes, t.kindOf? scope = look → ∀ next, StmtMirrors t next scope tree s scope

abbrev SimpleYields (loops : Nat) (look : String → Option Symbol.Kind) (scope : ScopeId)
    (tree : Tree.Stmt) : Builder → Option Stmt → Builder → Prop :=
  Yields (StmtBuilt loops look scope tree) Stmt.labels

theorem assignedName_yields (h : Sees scope look b) (target : Tree.Target) :
    Ensures (assignedName scope target) b
      (Yields (fun _ _ name => target = .var name.span name.text ∧
        ∃ slot, look name.text = some (.variable slot)) (fun _ => []) b) := by
  obtain ⟨hb, hscope, rfl⟩ := h
  cases target with
  | var span name =>
    apply ensures_bind_run (kindOf?_run hscope name)
    split
    · exact Step.fail (.refl hb) _ _
    · next slot hkind => exact ensures_pure (.some (.refl hb) ⟨rfl, slot, hkind⟩ (.nil _ _))
    · exact Step.fail (.refl hb) _ _
  | field span base field => exact Step.fail (.refl hb) _ _

/-- As many names as targets, each of them a variable. -/
theorem assignedNames_yields (targets : List Tree.Target) : ∀ {b : Builder}, Sees scope look b →
    Ensures (targets.mapM (assignedName scope)) b fun r b' =>
      Yields (fun _ _ names => targets = names.map (fun name => .var name.span name.text) ∧
        ∀ name ∈ names, ∃ slot, look name.text = some (.variable slot)) (fun _ => []) b (r.mapM id) b' := by
  induction targets with
  | nil => exact fun h => ensures_pure (.some (.refl h.sane) ⟨rfl, by simp⟩ (.nil _ _))
  | cons target targets ih =>
    intro b h
    rw [mapM_cons]
    refine ensures_bind (assignedName_yields h target) ?_
    intro name b₁ h₁
    refine ensures_bind (ih (h.after h₁.step)) ?_
    intro names b₂ h₂
    apply ensures_pure
    rw [mapM_id_cons]
    refine h₁.map₂ (fun _ _ _ _ _ hname => hname) h₂ List.cons ?_ fun _ _ => rfl
    rintro p n name names ⟨rfl, hname⟩ ⟨rfl, hnames⟩
    exact ⟨rfl, forall_mem_cons.mpr ⟨hname, hnames⟩⟩

variable (loops : Nat)

theorem assignNames_yields (h : Sees scope look b) (span : Span) (first : Tree.Target)
    (others : List Tree.Target) (value : Tree.Expr) :
    Ensures (assignNames scope span first others value) b
      (SimpleYields loops look scope (.assign span first others value) b) := by
  unfold assignNames
  refine ensures_report_if h.sane ?_
  intro b₁ h₁ _ hcount
  refine ensures_bind (assignedNames_yields (first :: others) (h.after h₁)) ?_
  intro names b₂ h₂
  have hstep₂ := h₁.trans h₂.step
  refine Yields.bind hstep₂ (expr_yields scope value (h.after hstep₂)) rfl ?_
  intro e b₃ h₃
  have hstep₃ := hstep₂.trans h₃.step
  have he := h₃.good e rfl
  rw [hstep₂.length_eq] at he
  apply ensures_bind_run (resultTypes_run he.resolved)
  cases hnames : names.mapM id with
  | none =>
    refine ensures_pure (.none hstep₃ fun hquiet => ?_)
    simpa [hnames] using h₂.isSome (h₃.step.keeps.quiet hquiet)
  | some targets =>
  obtain ⟨htargets, hvariables⟩ := h₂.good targets hnames
  dsimp only
  split
  · next hrefused =>
    exact ensures_pure (.none hstep₃ fun hquiet =>
      hcount hrefused ((h₂.step.trans h₃.step).keeps.quiet hquiet))
  refine ensures_bind (requireCount_step h₃.step.sane _ (first :: others).length e.span) ?_
  rintro ok b₄ ⟨h₄, _, hok, hquiet₄⟩
  have hstep₄ := hstep₃.trans h₄
  have hsees₄ := h.after hstep₄
  cases ok with
  | false => exact ensures_pure (.none hstep₄ fun hquiet => by simpa using hquiet₄ hquiet)
  | true =>
    have harity : targets.length = e.arity b₄.program := by
      rw [he.resolved.arity_eq h₄.grows, Expr.arity]
      exact (length_map _).symm.trans ((congrArg List.length htargets).symm.trans (hok rfl).symm)
    refine ensures_pure (.some hstep₄ ⟨?_, fun t ht next => ?_⟩ ?_)
    · exact .assign hsees₄.lt (fun name hname => hsees₄.look ▸ hvariables name hname) harity
        (he.resolved.mono h₄.grows .refl)
    · exact .assign htargets (ht ▸ hvariables) (ht ▸ he.mirrors)
    · rw [Stmt.labels]
      exact (h₃.fresh e rfl).mono hstep₂.keeps.labels h₄.keeps.labels

theorem settableField_yields (hb : b.Sane) (name : Ident) :
    Ensures (settableField name) b
      (Yields (fun p _ field => field.name = name.text ∧ Field.Table.txn.Knows p.version field.name)
        (fun _ => []) b) := by
  unfold settableField
  split
  · exact Step.fail (.refl hb) _ _
  next field hfield =>
  split
  · exact Step.fail (.refl hb) _ _
  have hname : field.name = name.text := by simpa using find?_some hfield
  refine Step.require (.refl hb) rfl fun hversion => ?_
  exact ensures_pure (.some (.refl hb) ⟨hname, field, hname ▸ hfield, hversion⟩ (.nil _ _))

variable (h : Sees scope look b)

include h

theorem assignField_yields (span targetSpan : Span) (base : String) (name : Ident) (value : Tree.Expr) :
    Ensures (assignField scope span targetSpan base name value) b
      (SimpleYields loops look scope (.assign span (.field targetSpan base name) [] value) b) := by
  unfold assignField
  apply ensures_bind_run (runtimeOf?_run h.lt base)
  refine ensures_bind (expr_yields scope value h) ?_
  intro built b₁ h₁
  split
  · exact h₁.step.fail _ _
  next hruntime =>
  refine Yields.bind h₁.step (settableField_yields h₁.step.sane name) rfl ?_
  intro field b₂ h₂
  obtain ⟨hname, hknows⟩ := h₂.good field rfl
  refine (h₁.step.trans h₂.step).require rfl fun hversion => ensures_pure ?_
  refine (h₁.beside (expr_persistent _ value) h₂).map (Stmt.setField span field) ?_
    fun e => by rw [Stmt.labels, append_nil]
  rintro e ⟨he, _⟩
  refine ⟨.setField hknows hversion he.resolved, fun t ht next => .setField ?_ hname (ht ▸ he.mirrors)⟩
  rw [Scopes.runtimeOf?, ht, ← h.look]
  exact Decidable.not_not.mp hruntime

theorem assignment_yields (span : Span) (first : Tree.Target)
    (others : List Tree.Target) (value : Tree.Expr) :
    Ensures (assignment scope span first others value) b
      (SimpleYields loops look scope (.assign span first others value) b) := by
  unfold assignment
  split
  · exact assignField_yields loops h _ _ _ _ _
  · exact assignNames_yields loops h _ _ _ _

theorem methodCall_yields (span callSpan : Span) (base method : Ident) (args : List Tree.Expr) :
    Ensures (methodCall scope span callSpan base method args.length) b
      (SimpleYields loops look scope (.expr span (.method callSpan base method args)) b) := by
  unfold methodCall
  refine Yields.bind (.refl h.sane) (innerMethod_yields h base method) rfl ?_
  intro submits b₁ h₁
  obtain ⟨hitxn, hmethod⟩ := h₁.good submits rfl
  dsimp only
  split
  · exact h₁.step.fail _ _
  next hfound =>
  obtain rfl : args = [] := eq_nil_of_length_eq_zero (Decidable.not_not.mp hfound)
  refine h₁.step.require rfl fun hversion => ensures_pure ?_
  cases submits with
  | true =>
    exact .some h₁.step ⟨.innerSubmit hversion, fun t ht _ => .innerSubmit (ht ▸ hitxn) hmethod⟩ (.nil _ _)
  | false =>
    exact .some h₁.step ⟨.innerBegin hversion, fun t ht _ => .innerBegin (ht ▸ hitxn) hmethod⟩ (.nil _ _)

theorem exprStmt_yields (span : Span) (e : Tree.Expr) :
    Ensures (exprStmt scope span e) b (SimpleYields loops look scope (.expr span e) b) := by
  unfold exprStmt
  split
  · exact methodCall_yields loops h _ _ _ _ _
  · exact Yields.ensures_map (expr_yields scope e h)
      (fun he => ⟨.expr he.resolved, fun t ht _ => .expr (ht ▸ he.mirrors)⟩) fun e => by rw [Stmt.labels]

omit h

/-! ### The walk over a statement -/

/-- What a statement may yield, with the scope that is seen behind it. It mirrors the source in every
later tree, unless something fatal is reported. -/
structure StmtYields (loops : Nat) (scope : ScopeId) (tree : Tree.Stmt) (b : Builder)
    (r : Option Stmt × ScopeId) (b' : Builder) : Prop
    extends Yields (fun p n s => s.Resolved p n loops) Stmt.labels b r.1 b' where
  scope_lt : r.2 < b'.scopes.arena.size
  mirrors : b'.Quiet → ∀ s, r.1 = some s → ∀ t, Scopes.AgreeBelow b'.scopes.arena.size b'.scopes t →
    StmtMirrors t b.scopes.arena.size scope tree s r.2

structure BlockYields (loops : Nat) (scope : ScopeId) (trees : List Tree.Stmt) (b : Builder)
    (r : List Stmt) (b' : Builder) : Prop
    extends Yields (BlockResolved loops) blockLabels b (some r) b' where
  mirrors : b'.Quiet → ∀ t, Scopes.AgreeBelow b'.scopes.arena.size b'.scopes t →
    BlockMirrors t b.scopes.arena.size scope trees r

structure InnerYields (loops : Nat) (scope : ScopeId) (trees : List Tree.Stmt) (b : Builder)
    (r : List Stmt) (b' : Builder) : Prop
    extends Yields (BlockResolved loops) blockLabels b (some r) b' where
  size : b'.scopes.arena.size = b.scopes.arena.size + 1 + Tree.blockOpened trees
  mirrors : b'.Quiet → ∀ t, Scopes.AgreeBelow b'.scopes.arena.size b'.scopes t →
    t.Opens .block scope b.scopes.arena.size [] ∧
      BlockMirrors t (b.scopes.arena.size + 1) b.scopes.arena.size trees r

theorem block_persistent : Persistent (BlockResolved loops) :=
  fun _ _ _ _ hext h s hs => (h s hs).mono hext .refl

/-- The label and the test of a statement with blocks, and what is done with them. -/
theorem ensures_test {test : Tree.Expr} {k : Nat → Option Expr → Build α} (h : Sees scope look b)
    (hk : ∀ r b', ExprYields (.seen look scope) test { b with labels := b.labels + 1 } r b' →
      Sees scope look b' → b'.scopes.arena.size = b.scopes.arena.size → Ensures (k b.labels r) b' Q) :
    Ensures (do let label ← freshLabel; let r ← expr scope test; k label r) b Q := by
  obtain ⟨hrun, hfresh⟩ := freshLabel_step h.sane
  apply ensures_bind_run hrun
  refine ensures_bind (ensures_and (expr_yields scope test (h.after hfresh))
    ((expr_adds scope test).ensures _)) ?_
  rintro r b' ⟨h', hsize⟩
  exact hk r b' h' ((h.after hfresh).after h'.step) hsize

/-- A block in a scope of its own, and what is done with it. -/
theorem ensures_innerBlock {loops : Nat} {trees : List Tree.Stmt} {k : List Stmt → Build α}
    (h : Sees scope look b)
    (hblock : ∀ inner b', b'.Sane → inner < b'.scopes.arena.size →
      Ensures (block loops inner trees) b' (BlockYields loops inner trees b'))
    (hk : ∀ r b', InnerYields loops scope trees b r b' → Ensures (k r) b' Q) :
    Ensures (do let inner ← openScope .block scope; let r ← block loops inner trees; k r) b Q := by
  obtain ⟨hrun, hopen⟩ := openScope_step h.sane h.lt .block
  apply ensures_bind_run hrun
  have hsize := openScope_size b.scopes .block scope
  refine ensures_bind (ensures_and (hblock b.scopes.arena.size _ hopen.sane (by simp))
    ((block_adds loops _ trees).ensures _)) ?_
  rintro r b' ⟨hblock, hadds⟩
  refine hk r b' ⟨.after hopen hblock.toYields, by rw [hadds, hsize], fun hquiet t hagree => ⟨?_, ?_⟩⟩
  · exact (opens_openScope b.scopes .block h.lt).of_agree (hblock.step.agree hagree) (by simp)
  · exact hsize ▸ hblock.mirrors hquiet t hagree

mutual

theorem stmt_yields (loops : Nat) (scope : ScopeId) (s : Tree.Stmt) {b : Builder} (hb : b.Sane)
    (hscope : scope < b.scopes.arena.size) :
    Ensures (stmt loops scope s) b (StmtYields loops scope s b) := by
  have h : Sees scope (b.scopes.kindOf? scope) b := ⟨hb, hscope, rfl⟩
  -- A statement without blocks has its counterpart wherever the names stand for the same.
  have hsimple : ∀ {r b'}, SimpleYields loops (b.scopes.kindOf? scope) scope s b r b' →
      Ensures (pure (r, scope)) b' (StmtYields loops scope s b) := by
    intro r b' h'
    refine ensures_pure ⟨⟨h'.step, h'.isSome, fun s' hs' => (h'.good s' hs').resolved, h'.fresh⟩,
      h'.step.scope_lt hscope, fun _ s' hs' t hagree => ?_⟩
    exact (h'.good s' hs').mirrors t ((h.after h'.step).agree hagree) _
  cases s with
  | decl span decl =>
    rw [stmt]
    refine ensures_imp (ensures_and (declaration_yields h span decl) ((declaration_adds span decl).ensures b)) ?_
    rintro ⟨r, inner⟩ b' ⟨⟨h', rfl⟩, hsize⟩
    refine ⟨⟨h'.step, h'.isSome, fun s' hs' => (h'.good s' hs').resolved loops, h'.fresh⟩,
      hsize ▸ Nat.lt_succ_self _, fun _ s' hs' t hagree => ?_⟩
    exact .decl ((h'.good s' hs').mirrors t hagree ((h.after h'.step).agree hagree))
  | assign span first others value =>
    rw [stmt]
    exact ensures_bind (assignment_yields loops h span first others value) fun _ _ h' => hsimple h'
  | ret span value =>
    rw [stmt]
    refine ensures_bind (expr_yields scope value h) fun r b' h' => hsimple ?_
    exact h'.map (Stmt.ret span) (fun he => ⟨.ret he.resolved, fun t ht _ => .ret (ht ▸ he.mirrors)⟩)
      fun e => by rw [Stmt.labels]
  | error span =>
    rw [stmt]
    exact hsimple (.some (.refl hb) ⟨.error, fun _ _ _ => .error⟩ (.nil _ _))
  | breakLoop span =>
    rw [stmt]
    cases loops with
    | succ loops => exact hsimple (.some (.refl hb) ⟨.breakLoop, fun _ _ _ => .breakLoop⟩ (.nil _ _))
    | zero => exact ensures_bind (Step.fail (.refl hb) span .breakOutside) fun _ _ h' => hsimple h'
  | ifThen span test yesSpan yes =>
    rw [stmt]
    refine ensures_test h fun rt b₁ h₁ hsees₁ hsize₁ => ?_
    refine ensures_innerBlock hsees₁ (fun inner b' => block_yields loops inner yes) fun ys b₂ h₂ => ?_
    have hsees₂ := hsees₁.after h₂.step
    refine ensures_pure ⟨(h₁.beside (expr_persistent _ test) h₂.toYields).numbered hb _
      (fun ht => .ifThen ht.1.resolved ht.2) fun t => by rw [Stmt.labels], hsees₂.lt, ?_⟩
    intro hquiet s' hs' t hagree
    obtain ⟨test', htest', rfl⟩ := Option.map_eq_some_iff.mp hs'
    obtain ⟨hopens, hyes⟩ := hsize₁ ▸ h₂.mirrors hquiet t hagree
    exact .ifThen (hsees₂.agree hagree ▸ (h₁.good test' htest').mirrors) hopens hyes
  | ifElse span test yesSpan yes noSpan no =>
    rw [stmt]
    refine ensures_test h fun rt b₁ h₁ hsees₁ hsize₁ => ?_
    refine ensures_innerBlock hsees₁ (fun inner b' => block_yields loops inner yes) fun ys b₂ h₂ => ?_
    have hsees₂ := hsees₁.after h₂.step
    refine ensures_innerBlock hsees₂ (fun inner b' => block_yields loops inner no) fun ns b₃ h₃ => ?_
    have hsees₃ := hsees₂.after h₃.step
    have hparts := (h₁.beside (expr_persistent _ test) h₂.toYields).beside
      (fun _ _ _ _ hext h => ⟨expr_persistent _ test hext h.1, block_persistent loops hext h.2⟩)
      h₃.toYields
    refine ensures_pure ⟨hparts.numbered hb _ (fun ht => .ifElse ht.1.1.resolved ht.1.2 ht.2)
      fun t => by rw [Stmt.labels], hsees₃.lt, ?_⟩
    intro hquiet s' hs' t hagree
    obtain ⟨test', htest', rfl⟩ := Option.map_eq_some_iff.mp hs'
    obtain ⟨hopens, hyes⟩ := hsize₁ ▸
      h₂.mirrors (h₃.step.keeps.quiet hquiet) t (h₃.step.agree hagree)
    obtain ⟨hopens', hno⟩ := hsize₁ ▸ h₂.size ▸ h₃.mirrors hquiet t hagree
    exact .ifElse (hsees₃.agree hagree ▸ (h₁.good test' htest').mirrors) hopens hyes hopens' hno
  | loop span test bodySpan body =>
    rw [stmt]
    refine ensures_test h fun rt b₁ h₁ hsees₁ hsize₁ => ?_
    refine ensures_innerBlock hsees₁ (fun inner b' => block_yields (loops + 1) inner body) fun stmts b₂ h₂ => ?_
    have hsees₂ := hsees₁.after h₂.step
    refine ensures_pure ⟨(h₁.beside (expr_persistent _ test) h₂.toYields).numbered hb _
      (fun ht => .loop ht.1.resolved ht.2) fun t => by rw [Stmt.labels], hsees₂.lt, ?_⟩
    intro hquiet s' hs' t hagree
    obtain ⟨test', htest', rfl⟩ := Option.map_eq_some_iff.mp hs'
    obtain ⟨hopens, hbody⟩ := hsize₁ ▸ h₂.mirrors hquiet t hagree
    exact .loop (hsees₂.agree hagree ▸ (h₁.good test' htest').mirrors) hopens hbody
  | expr span e =>
    rw [stmt]
    exact ensures_bind (exprStmt_yields loops h span e) fun _ _ h' => hsimple h'
termination_by structural s

theorem block_yields (loops : Nat) (scope : ScopeId) (stmts : List Tree.Stmt) {b : Builder}
    (hb : b.Sane) (hscope : scope < b.scopes.arena.size) :
    Ensures (block loops scope stmts) b (BlockYields loops scope stmts b) := by
  cases stmts with
  | nil =>
    rw [block]
    exact ensures_pure ⟨.some (.refl hb) (by simp [BlockResolved]) (.nil _ _), fun _ _ _ => .nil⟩
  | cons s rest =>
    rw [block]
    refine ensures_bind (ensures_and (stmt_yields loops scope s hb hscope)
      ((stmt_adds loops scope s).ensures b)) ?_
    rintro ⟨built, after⟩ b₁ ⟨h₁, hsize⟩
    refine ensures_bind (block_yields loops after rest h₁.step.sane h₁.scope_lt) ?_
    intro others b₂ h₂
    refine ensures_pure ⟨?_, fun hquiet t hagree => ?_⟩
    · cases built with
      | none => exact .after h₁.step h₂.toYields
      | some s =>
        have hboth := h₁.beside (fun _ _ _ _ hext h => h.mono hext .refl) h₂.toYields
        exact hboth.map (· :: others) (fun h => forall_mem_cons.mpr h) fun s => by rw [blockLabels]
    · have hquiet₁ := h₂.step.keeps.quiet hquiet
      obtain ⟨s', rfl⟩ := Option.isSome_iff_exists.mp (h₁.isSome hquiet₁)
      exact .cons (h₁.mirrors hquiet₁ s' rfl t (h₂.step.agree hagree)) (hsize ▸ h₂.mirrors hquiet t hagree)
termination_by structural stmts

end

end Build

end Teal.Program
