import Teal.Program.Build.Item
import Teal.Proofs.Program.Labels
import Teal.Proofs.Scope.Hiding

/-! Reasoning about steps of the builder. `Ensures m b Q` says that running `m` from `b` ends with a
value and in a state that satisfy `Q`. A state is *sane* if all its symbols stand for something that
exists, no name hides one that must be seen, and nothing that was taken for granted was missing; while
nothing fatal is reported, no symbol is of an invalid type either. Building below the top level only adds:
it keeps the scopes there are, the functions, the literals and the diagnostics. -/

namespace Teal.Program

open List Option

namespace Builder

def program (b : Builder) : Program :=
  ⟨b.version, b.pool, b.scopes, b.globals, b.functions, b.entry.getD 0⟩

def Quiet (b : Builder) : Prop := ∀ d ∈ b.diagnostics, d.isFatal = false

def Refers (p : Program) (x : Symbol) : Prop :=
  match x.kind with
  | .constant ref => ∃ value, poolValue? p.pool ref = some value
  | .function f => ∃ callee, p.functions[f]? = some callee ∧ callee.name.text = x.name
  | _ => True

structure Sane (b : Builder) : Prop where
  valid : b.scopes.Valid
  clear : b.scopes.Clear
  refers : ∀ {i x}, b.scopes.Declares i x → Refers b.program x
  typed : b.Quiet → ∀ {i x}, b.scopes.Declares i x → x.ty ≠ .invalid
  returns : ∀ f ∈ b.functions, f.returnTy ≠ .invalid
  pool : [0, 1] <+: b.pool.ints
  breaches : b.breaches = []

/-- Between two states the first `n` scopes stay as they are, and the rest only grows. -/
structure Keeps (n : Nat) (b b' : Builder) : Prop where
  version : b'.version = b.version
  functions : b'.functions = b.functions
  globals : b'.globals = b.globals
  tip : b'.tip = b.tip
  entry : b'.entry = b.entry
  size_le : b.scopes.arena.size ≤ b'.scopes.arena.size
  scopes : Scopes.AgreeBelow n b.scopes b'.scopes
  ints : b.pool.ints <+: b'.pool.ints
  bytes : b.pool.bytes <+: b'.pool.bytes
  labels : b.labels ≤ b'.labels
  diagnostics : b.diagnostics <+: b'.diagnostics

namespace Keeps

variable {n : Nat} {b b' b'' : Builder}

theorem refl (n : Nat) (b : Builder) : Keeps n b b :=
  ⟨rfl, rfl, rfl, rfl, rfl, .refl, .refl _ _, prefix_rfl, prefix_rfl,
    .refl, prefix_rfl⟩

theorem trans (h : Keeps n b b') (h' : Keeps n b' b'') : Keeps n b b'' where
  version := h'.version.trans h.version
  functions := h'.functions.trans h.functions
  globals := h'.globals.trans h.globals
  tip := h'.tip.trans h.tip
  entry := h'.entry.trans h.entry
  size_le := Nat.le_trans h.size_le h'.size_le
  scopes := h.scopes.trans h'.scopes
  ints := h.ints.trans h'.ints
  bytes := h.bytes.trans h'.bytes
  labels := Nat.le_trans h.labels h'.labels
  diagnostics := h.diagnostics.trans h'.diagnostics

theorem mono (h : Keeps n b b') {m : Nat} (hle : m ≤ n) : Keeps m b b' :=
  { h with scopes := h.scopes.mono hle }

theorem quiet (h : Keeps n b b') (hquiet : b'.Quiet) : b.Quiet :=
  fun d hd => hquiet d (h.diagnostics.subset hd)

theorem grows (h : Keeps b.scopes.arena.size b b') : Extends b.program b'.program where
  version := h.version
  size_le := h.size_le
  scopes := h.scopes
  functions := ⟨[], (append_nil _).trans h.functions.symm⟩
  ints := h.ints
  bytes := h.bytes

end Keeps

end Builder

open Builder

namespace Build

/-- Running a step from a state yields a value and a state as wanted. -/
def Ensures {α : Type} (m : Build α) (b : Builder) (Q : α → Builder → Prop) : Prop :=
  Q (m.run b).1 (m.run b).2

section Rules

variable {α β : Type} {m : Build α} {b b' : Builder}

variable {a : α} {Q R : α → Builder → Prop} {f : α → Build β}

theorem ensures_pure (h : Q a b) : Ensures (pure a) b Q := h

theorem ensures_bind {Q : β → Builder → Prop} (hm : Ensures m b R)
    (hf : ∀ a b', R a b' → Ensures (f a) b' Q) : Ensures (m >>= f) b Q :=
  hf _ _ hm

theorem ensures_bind_run {Q : β → Builder → Prop} (hm : m.run b = (a, b')) (hf : Ensures (f a) b' Q) :
    Ensures (m >>= f) b Q := by
  have h : Ensures m b fun x c => x = a ∧ c = b' := by
    simp only [Ensures, hm, and_self]
  refine ensures_bind h ?_
  rintro x c ⟨rfl, rfl⟩
  exact hf

theorem ensures_imp (hm : Ensures m b R) (h : ∀ a b', R a b' → Q a b') : Ensures m b Q :=
  h _ _ hm

theorem ensures_and (hq : Ensures m b Q) (hr : Ensures m b R) : Ensures m b fun a b' => Q a b' ∧ R a b' :=
  ⟨hq, hr⟩

theorem ensures_get {f : Builder → Build β} {Q : β → Builder → Prop} (hf : Ensures (f b) b Q) :
    Ensures (get >>= f) b Q := hf

end Rules

/-- From one sane state a step leads to another and keeps what there is. -/
structure Step (b b' : Builder) : Prop where
  sane : b'.Sane
  keeps : Keeps b.scopes.arena.size b b'

namespace Step

variable {b b' b'' : Builder}

theorem refl (hb : b.Sane) : Step b b := ⟨hb, .refl _ b⟩

variable (h : Step b b')

include h

theorem trans (h' : Step b' b'') : Step b b'' :=
  ⟨h'.sane, h.keeps.trans (h'.keeps.mono h.keeps.size_le)⟩

theorem grows : Extends b.program b'.program := h.keeps.grows

theorem scope_lt {scope : ScopeId} (hscope : scope < b.scopes.arena.size) : scope < b'.scopes.arena.size :=
  Nat.lt_of_lt_of_le hscope h.keeps.size_le

theorem length_eq : b'.functions.length = b.functions.length := by
  rw [h.keeps.functions]

/-- A tree agrees with the one of a later state only if it agrees with that of an earlier one. -/
theorem agree {t : Scopes} (hagree : Scopes.AgreeBelow b'.scopes.arena.size b'.scopes t) :
    Scopes.AgreeBelow b.scopes.arena.size b.scopes t :=
  h.keeps.scopes.trans (hagree.mono h.keeps.size_le)

end Step

/-- A state in which names of a scope stand for what `look` tells. -/
structure Sees (scope : ScopeId) (look : String → Option Symbol.Kind) (b : Builder) : Prop where
  sane : b.Sane
  lt : scope < b.scopes.arena.size
  look : b.scopes.kindOf? scope = look

section Sees

variable {b b' : Builder} {scope : ScopeId} {look : String → Option Symbol.Kind}

theorem Sees.agree (h : Sees scope look b) {t : Scopes}
    (hagree : Scopes.AgreeBelow b.scopes.arena.size b.scopes t) : t.kindOf? scope = look := by
  rw [← h.look]
  funext name
  exact hagree.kindOf? h.lt name

theorem Sees.after (h : Sees scope look b) (hstep : Step b b') : Sees scope look b' :=
  ⟨hstep.sane, hstep.scope_lt h.lt, h.agree hstep.keeps.scopes⟩

end Sees

/-! ### What a step may yield

A step yields something, or it yields nothing after a fatal report. What it yields is good in the
program as far as it is built, with calls below the number of functions there are, and carries numbers
that were given out during the step. -/

structure Yields {α : Type} (good : Program → Nat → α → Prop) (labels : α → List Nat) (b : Builder)
    (r : Option α) (b' : Builder) : Prop where
  step : Step b b'
  isSome : b'.Quiet → r.isSome = true
  good : ∀ a, r = some a → good b'.program b.functions.length a
  fresh : ∀ a, r = some a → Fresh b.labels b'.labels (labels a)

/-- What is good in a program is good in every one that extends it. -/
def Persistent {α : Type} (good : Program → Nat → α → Prop) : Prop :=
  ∀ ⦃p q n a⦄, Extends p q → good p n a → good q n a

namespace Yields

variable {α β : Type} {good : Program → Nat → α → Prop} {labels : α → List Nat}
  {good' : Program → Nat → β → Prop} {labels' : β → List Nat} {b b' b'' : Builder}

theorem none (hstep : Step b b') (hloud : ¬b'.Quiet) : Yields good labels b none b' :=
  ⟨hstep, fun hquiet => absurd hquiet hloud, by simp, by simp⟩

theorem some {a : α} (hstep : Step b b') (hgood : good b'.program b.functions.length a)
    (hfresh : Fresh b.labels b'.labels (labels a)) : Yields good labels b (some a) b' where
  step := hstep
  isSome _ := rfl
  good := by rintro _ ⟨⟩; exact hgood
  fresh := by rintro _ ⟨⟩; exact hfresh

/-- What yields nothing yields nothing of any other kind. -/
theorem absent (h : Yields good labels b (Option.none : Option α) b') :
    Yields good' labels' b (Option.none : Option β) b' :=
  .none h.step fun hquiet => by simpa using h.isSome hquiet

variable {r : Option α} {r' : Option β} {m : Build (Option α)}

/-- A step before adds to the room for numbers. -/
theorem after (hstep : Step b b') (h : Yields good labels b' r b'') : Yields good labels b r b'' where
  step := hstep.trans h.step
  isSome := h.isSome
  good a ha := hstep.length_eq ▸ h.good a ha
  fresh a ha := (h.fresh a ha).mono hstep.keeps.labels .refl

theorem map (h : Yields good labels b r b') (f : α → β)
    (hgood : ∀ {a}, good b'.program b.functions.length a → good' b'.program b.functions.length (f a))
    (hlabels : ∀ a, labels' (f a) = labels a) : Yields good' labels' b (r.map f) b' where
  step := h.step
  isSome hquiet := by
    rw [isSome_map]
    exact h.isSome hquiet
  good c hc := by
    obtain ⟨a, ha, rfl⟩ := map_eq_some_iff.mp hc
    exact hgood (h.good a ha)
  fresh c hc := by
    obtain ⟨a, ha, rfl⟩ := map_eq_some_iff.mp hc
    rw [hlabels]
    exact h.fresh a ha

/-- Two parts that are built one after the other. -/
theorem pair (hpersistent : Persistent good) (h : Yields good labels b r b')
    (h' : Yields good' labels' b' r' b'') : Yields (fun p n (x : α × β) => good p n x.1 ∧ good' p n x.2)
      (fun x => labels x.1 ++ labels' x.2) b (Prod.mk <$> r <*> r') b'' where
  step := h.step.trans h'.step
  isSome hquiet := by
    have hsome' := h'.isSome hquiet
    have hsome := h.isSome (h'.step.keeps.quiet hquiet)
    obtain ⟨a, rfl⟩ := isSome_iff_exists.mp hsome
    obtain ⟨c, rfl⟩ := isSome_iff_exists.mp hsome'
    rfl
  good x hx := by
    cases hr : r with
    | none => rw [hr] at hx; cases hx
    | some a =>
      cases hr' : r' with
      | none => rw [hr, hr'] at hx; cases hx
      | some c =>
        rw [hr, hr'] at hx
        cases hx
        exact ⟨hpersistent h'.step.grows (h.good a hr), h.step.length_eq ▸ h'.good c hr'⟩
  fresh x hx := by
    cases hr : r with
    | none => rw [hr] at hx; cases hx
    | some a =>
      cases hr' : r' with
      | none => rw [hr, hr'] at hx; cases hx
      | some c =>
        rw [hr, hr'] at hx
        cases hx
        exact (h.fresh a hr).append (h'.fresh c hr') h.step.keeps.labels h'.step.keeps.labels

theorem map₂ {γ : Type} {good'' : Program → Nat → γ → Prop} {labels'' : γ → List Nat}
    (hpersistent : Persistent good) (h : Yields good labels b r b')
    (h' : Yields good' labels' b' r' b'') (f : α → β → γ)
    (hgood : ∀ {p n a c}, good p n a → good' p n c → good'' p n (f a c))
    (hlabels : ∀ a c, labels'' (f a c) = labels a ++ labels' c) :
    Yields good'' labels'' b (f <$> r <*> r') b'' := by
  have hpair : Yields good'' labels'' b ((Prod.mk <$> r <*> r').map fun x => f x.1 x.2) b'' := by
    exact (h.pair hpersistent h').map (fun x => f x.1 x.2) (fun hx => hgood hx.1 hx.2)
      fun x => hlabels x.1 x.2
  have heq : (Prod.mk <$> r <*> r').map (fun x => f x.1 x.2) = f <$> r <*> r' := by
    cases r <;> cases r' <;> rfl
  rw [heq] at hpair
  exact hpair

/-- The same where the second part is there in any case. -/
theorem beside {c : β} (hpersistent : Persistent good) (h : Yields good labels b r b')
    (h' : Yields good' labels' b' (Option.some c) b'') :
    Yields (fun p n a => good p n a ∧ good' p n c) (fun a => labels a ++ labels' c) b r b'' where
  step := h.step.trans h'.step
  isSome hquiet := h.isSome (h'.step.keeps.quiet hquiet)
  good a ha := ⟨hpersistent h'.step.grows (h.good a ha), h.step.length_eq ▸ h'.good c rfl⟩
  fresh a ha := (h.fresh a ha).append (h'.fresh c rfl) h.step.keeps.labels h'.step.keeps.labels

/-- What needs a part is done with it, or left out together with it. -/
theorem bind {b₀ : Builder} {f : Option α → Build (Option β)} (h₀ : Step b₀ b)
    (hm : Ensures m b (Yields good labels b)) (hnone : f Option.none = pure Option.none)
    (hsome : ∀ a b', Yields good labels b (Option.some a) b' →
      Ensures (f (Option.some a)) b' (Yields good' labels' b₀)) :
    Ensures (m >>= f) b (Yields good' labels' b₀) := by
  refine ensures_bind hm ?_
  intro r b' h
  cases r with
  | none =>
    rw [hnone]
    exact ensures_pure (.after h₀ h.absent)
  | some a => exact hsome a b' h

theorem ensures_map (hm : Ensures m b (Yields good labels b)) {f : α → β}
    (hgood : ∀ {p n a}, good p n a → good' p n (f a)) (hlabels : ∀ a, labels' (f a) = labels a) :
    Ensures (m >>= fun r => pure (r.map f)) b (Yields good' labels' b) :=
  ensures_bind hm fun _ _ h => ensures_pure (h.map f hgood hlabels)

end Yields

/-! ### Single steps -/

section Steps

variable {b : Builder}

/-- A sane state stays sane when something is reported, a number given out or a literal added. -/
theorem Step.of_changes (hb : b.Sane) {literals : Pool.Tables} {labels : Nat} {diagnostics : List Diagnostic}
    (hints : b.pool.ints <+: literals.pool.ints) (hbytes : b.pool.bytes <+: literals.pool.bytes)
    (hlabels : b.labels ≤ labels) (hdiagnostics : b.diagnostics <+: diagnostics) :
    Step b { b with literals := literals, labels := labels, diagnostics := diagnostics } := by
  have hkeeps : Keeps b.scopes.arena.size b
      { b with literals := literals, labels := labels, diagnostics := diagnostics } :=
    ⟨rfl, rfl, rfl, rfl, rfl, .refl, .refl _ _, hints, hbytes, hlabels, hdiagnostics⟩
  refine ⟨⟨hb.valid, hb.clear, ?_, fun hquiet => hb.typed (hkeeps.quiet hquiet), hb.returns,
    hb.pool.trans hints, hb.breaches⟩, hkeeps⟩
  intro i x hx
  have hrefers := hb.refers hx
  unfold Refers at hrefers ⊢
  split
  · next ref hkind =>
    rw [hkind] at hrefers
    obtain ⟨value, hvalue⟩ := hrefers
    exact ⟨value, hkeeps.grows.poolValue? hvalue⟩
  · next f hkind =>
    rw [hkind] at hrefers
    exact hrefers
  · trivial

theorem isFatal_toDiagnostic (f : Fault) (span : Span) : (f.toDiagnostic span).isFatal = true := rfl

theorem not_quiet_report (span : Span) (f : Fault) (b : Builder) : ¬((report span f).run b).2.Quiet := by
  intro hquiet
  have hfatal := hquiet (f.toDiagnostic span) (mem_append_right _ mem_cons_self)
  rw [isFatal_toDiagnostic] at hfatal
  cases hfatal

theorem report_step (hb : b.Sane) (span : Span) (f : Fault) :
    Ensures (report span f) b fun _ b' => Step b b' ∧ b'.scopes = b.scopes ∧ ¬b'.Quiet :=
  ⟨Step.of_changes hb prefix_rfl prefix_rfl .refl (prefix_append _ _), rfl,
    not_quiet_report span f b⟩

variable {b' : Builder} {α : Type} {good : Program → Nat → α → Prop} {scope : ScopeId}

theorem Step.fail {labels : α → List Nat} (h : Step b b') (span : Span) (f : Fault) :
    Ensures (fail span f) b' (Yields good labels b) := by
  refine ensures_bind (report_step h.sane span f) ?_
  rintro _ b'' ⟨hstep, _, hloud⟩
  exact .none (h.trans hstep) hloud

/-- Looking into scopes that exist changes nothing. -/
theorem visit_run {scopes : List ScopeId} (h : ∀ id ∈ scopes, id < b.scopes.arena.size) :
    (visit scopes).run b = ((), b) := by
  have hnone : scopes.filter (fun id => decide (b.scopes.arena.size ≤ id)) = [] := by
    rw [filter_eq_nil_iff]
    intro id hid
    simpa using h id hid
  change ((), { b with breaches := b.breaches ++ (scopes.filter _).map .noScope }) = ((), b)
  rw [hnone, map_nil, append_nil]

variable (h : scope < b.scopes.arena.size)

include h

theorem visit_one_run : (visit [scope]).run b = ((), b) :=
  visit_run fun id hid => by simp at hid; exact hid ▸ h

theorem kindOf?_run (name : String) : (kindOf? scope name).run b = (b.scopes.kindOf? scope name, b) := by
  have hvisit := visit_one_run h
  simp only [kindOf?, StateT.run_bind, hvisit]
  rfl

theorem runtimeOf?_run (name : String) :
    (runtimeOf? scope name).run b = (b.scopes.runtimeOf? scope name, b) := by
  have hvisit := visit_one_run h
  simp only [runtimeOf?, StateT.run_bind, hvisit]
  rfl

theorem known_run (e : Tree.Expr) : (known scope e).run b = (constArg b scope e, b) := by
  have hvisit := visit_one_run h
  simp only [known, StateT.run_bind, hvisit]
  rfl

omit h

theorem resultTypes_run {e : Expr} {n : Nat} (h : e.Resolved b.program n) :
    (resultTypes e).run b = (e.resultTypes b.scopes b.functions, b) := by
  have hvisit : (visit e.typeScope?.toList).run b = ((), b) :=
    visit_run fun id hid => h.typeScope_lt id (mem_toList.mp hid)
  simp only [resultTypes, StateT.run_bind, hvisit]
  rfl

theorem freshLabel_step (hb : b.Sane) :
    freshLabel.run b = (b.labels, { b with labels := b.labels + 1 }) ∧
      Step b { b with labels := b.labels + 1 } :=
  ⟨rfl, Step.of_changes hb prefix_rfl prefix_rfl (Nat.le_succ _) prefix_rfl⟩

/-- What carries the number that was given out before its parts were built. -/
theorem Yields.numbered {β : Type} {labels : α → List Nat} {good' : Program → Nat → β → Prop}
    {labels' : β → List Nat} {r : Option α} (hb : b.Sane)
    (h : Yields good labels { b with labels := b.labels + 1 } r b') (f : α → β)
    (hgood : ∀ {p n a}, good p n a → good' p n (f a))
    (hlabels : ∀ a, labels' (f a) = b.labels :: labels a) : Yields good' labels' b (r.map f) b' where
  step := (freshLabel_step hb).2.trans h.step
  isSome hquiet := by
    rw [isSome_map]
    exact h.isSome hquiet
  good c hc := by
    obtain ⟨a, ha, rfl⟩ := map_eq_some_iff.mp hc
    exact hgood (h.good a ha)
  fresh c hc := by
    obtain ⟨a, ha, rfl⟩ := map_eq_some_iff.mp hc
    rw [hlabels]
    exact (h.fresh a ha).cons h.step.keeps.labels

/-- Either the version is new enough and nothing changes, or it is reported. -/
theorem requireVersion_step (hb : b.Sane) (needed : Nat) (feature : Feature) (span : Span) :
    Ensures (requireVersion needed feature span) b fun ok b' =>
      Step b b' ∧ (ok = true → b' = b ∧ needed ≤ b.version) ∧ (ok = false → ¬b'.Quiet) := by
  unfold requireVersion
  apply ensures_get
  by_cases hversion : needed ≤ b.version
  · simp only [if_pos hversion]
    exact ensures_pure ⟨.refl hb, fun _ => ⟨rfl, hversion⟩, by simp⟩
  · simp only [if_neg hversion]
    refine ensures_bind (report_step hb span _) ?_
    rintro _ b' ⟨hstep, _, hloud⟩
    exact ensures_pure ⟨hstep, by simp, fun _ => hloud⟩

/-- What needs a version is done in it, or left out. -/
theorem Step.require {labels : α → List Nat} (h : Step b b') {needed : Nat} {feature : Feature}
    {span : Span} {f : Bool → Build (Option α)} (hfalse : f false = pure none)
    (htrue : needed ≤ b'.version → Ensures (f true) b' (Yields good labels b)) :
    Ensures (requireVersion needed feature span >>= f) b' (Yields good labels b) := by
  refine ensures_bind (requireVersion_step h.sane needed feature span) ?_
  rintro ok b'' ⟨hstep, hok, hnot⟩
  cases ok with
  | true =>
    obtain ⟨rfl, hversion⟩ := hok rfl
    exact htrue hversion
  | false =>
    rw [hfalse]
    exact ensures_pure (.none (h.trans hstep) (hnot rfl))

theorem internInt_step (hb : b.Sane) (n : UInt64) :
    Ensures (internInt n) b fun ref b' =>
      Step b b' ∧ poolValue? b'.pool ref = some (.int n) := by
  obtain ⟨hget, hprefix⟩ := Pool.Table.intern_spec n b.literals.ints
  refine ⟨Step.of_changes hb hprefix prefix_rfl .refl prefix_rfl, ?_⟩
  exact map_eq_some_iff.mpr ⟨n, hget, rfl⟩

theorem internBytes_step (hb : b.Sane) (bs : List UInt8) :
    Ensures (internBytes bs) b fun ref b' =>
      Step b b' ∧ poolValue? b'.pool ref = some (.bytes bs) := by
  obtain ⟨hget, hprefix⟩ := Pool.Table.intern_spec bs b.literals.bytes
  refine ⟨Step.of_changes hb prefix_rfl hprefix .refl prefix_rfl, ?_⟩
  exact map_eq_some_iff.mpr ⟨bs, hget, rfl⟩

end Steps

end Build

end Teal.Program
