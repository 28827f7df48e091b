import Teal.Proofs.Program.Mirror

/-! Building an expression from a sane state yields a resolved expression that mirrors its source, or
reports something fatal. The steps that take the building of their parts as an argument are described for
all parts that behave like this, so that the walk over the tree is one induction at the end. -/

namespace Teal.Program

open List

/-- What is built of an expression of the source is resolved and mirrors it. -/
structure Expr.Built (R : Reading) (tree : Tree.Expr) (p : Program) (bound : Nat) (e : Expr) : Prop where
  resolved : e.Resolved p bound
  mirrors : e.Mirrors R tree

/-- An index is a number that is known beforehand, or it is built of an expression of the source. -/
structure Index.Built (R : Reading) (tree : Tree.Expr) (p : Program) (bound : Nat) (i : Index) :
    Prop where
  exprs : ∀ e ∈ i.exprs, e.Built R tree p bound
  known : i.isDynamic = false → R.Known tree

/-- The same where computed indices are allowed from a version on. -/
structure Index.BuiltFrom (computed : Nat) (R : Reading) (tree : Tree.Expr) (p : Program) (bound : Nat)
    (i : Index) : Prop extends Index.Built R tree p bound i where
  since : i.since computed ≤ p.version

theorem FieldSource.since_le {source : FieldSource} {version : Nat}
    (hother : source.isInner = false → source.since ≤ version)
    (hinner : source.isInner = true → 5 ≤ version) : source.since ≤ version := by
  cases source with
  | itxn => exact hinner rfl
  | txn | gtxn _ | global => exact hother rfl

def ExprsBuilt (R : Reading) (trees : List Tree.Expr) (p : Program) (bound : Nat) (es : List Expr) : Prop :=
  List.Forall₂ (fun tree e => e.Built R tree p bound) trees es

section ExprsBuilt

variable {R : Reading} {trees : List Tree.Expr} {p : Program} {bound : Nat} {es : List Expr}

theorem ExprsBuilt.mirrors (h : ExprsBuilt R trees p bound es) : ∀ x ∈ trees.zip es, x.2.Mirrors R x.1 :=
  fun _ hx => ((forall₂_iff_zip.mp h).2 hx).mirrors

theorem ExprsBuilt.resolved (h : ExprsBuilt R trees p bound es) : ∀ e ∈ es, e.Resolved p bound := by
  intro e he
  obtain ⟨tree, hx⟩ := exists_mem_zip (Nat.le_of_eq h.length_eq.symm) he
  exact ((forall₂_iff_zip.mp h).2 hx).resolved

end ExprsBuilt

namespace Build

open Builder

/-- What stands before the dot of a field is resolved, with the fields that it has, and mirrors the
source. Whether fields of inner transactions can be read is checked later. -/
structure FieldOwner.Built (R : Reading) (tree : Tree.Owner) (p : Program) (bound : Nat)
    (owner : FieldOwner) : Prop where
  resolved : ∀ e ∈ owner.source.exprs, e.Resolved p bound
  mirrors : ∀ x ∈ tree.exprs.zip owner.source.exprs, x.2.Mirrors R x.1
  origin : R.Source tree owner.source
  table : owner.table = owner.source.table
  since : owner.source.isInner = false → owner.source.since ≤ p.version

abbrev ExprYields (R : Reading) (tree : Tree.Expr) : Builder → Option Expr → Builder → Prop :=
  Yields (Expr.Built R tree) Expr.labels

abbrev IndexYields (R : Reading) (tree : Tree.Expr) : Builder → Option Index → Builder → Prop :=
  Yields (Index.Built R tree) Index.labels

abbrev OwnerYields (R : Reading) (tree : Tree.Owner) : Builder → Option FieldOwner → Builder → Prop :=
  Yields (FieldOwner.Built R tree) fun owner => owner.source.labels

theorem expr_persistent (R : Reading) (tree : Tree.Expr) : Persistent (Expr.Built R tree) :=
  fun _ _ _ _ hext h => ⟨h.resolved.mono hext .refl, h.mirrors⟩

variable {b : Builder} {scope : ScopeId} {look : String → Option Symbol.Kind} {R : Reading}

variable {name : String} {n : UInt64} {e : Tree.Expr} {source : FieldSource} {p : Program}
  {bound : Nat} {α : Type} {trees : List Tree.Expr} {consts : List Builtin.ConstArg} {es : List Expr}

theorem refers_of_kindOf? (hb : b.Sane) {kind : Symbol.Kind} (h : b.scopes.kindOf? scope name = some kind) :
    ∃ x, x.kind = kind ∧ x.name = name ∧ Refers b.program x := by
  obtain ⟨x, hlookup, hkind⟩ := Scopes.exists_lookup_of_kindOf? h
  obtain ⟨hname, i, hdeclares⟩ := Scopes.declares_of_lookup hlookup
  exact ⟨x, hkind, hname, hb.refers hdeclares⟩

/-! ### Names and indices -/

theorem ident_yields (h : Sees scope look b) (span : Span) (name : String) :
    Ensures (ident scope span name) b (ExprYields (.seen look scope) (.var span name) b) := by
  obtain ⟨hb, hscope, rfl⟩ := h
  unfold ident
  apply ensures_bind_run (kindOf?_run hscope name)
  split
  · exact Step.fail (.refl hb) _ _
  · next slot hkind =>
    exact ensures_pure (.some (.refl hb)
      ⟨.ident hscope (.inl ⟨slot, hkind⟩), .var ⟨rfl, _, hkind, rfl⟩⟩ (.nil _ _))
  · next ref hkind =>
    obtain ⟨x, hxkind, _, hrefers⟩ := refers_of_kindOf? hb hkind
    rw [Refers, hxkind] at hrefers
    obtain ⟨value, hvalue⟩ := hrefers
    exact ensures_pure (.some (.refl hb)
      ⟨.ident hscope (.inr ⟨ref, value, hkind, hvalue⟩), .var ⟨rfl, _, hkind, rfl⟩⟩ (.nil _ _))
  · exact Step.fail (.refl hb) _ _
  · exact Step.fail (.refl hb) _ _

/-- Where the number of an expression is known, the expression is a literal or the name of a constant. -/
theorem known_of_constArg (h : b.scopes.kindOf? scope = look) (e : Tree.Expr)
    (he : constArg b scope e = .int n) : (Reading.seen look scope).Known e := by
  cases e with
  | int => trivial
  | group span e =>
    rw [constArg] at he
    exact known_of_constArg h e he
  | var span name =>
    rw [constArg] at he
    cases hconst : constInt? b scope name with
    | none =>
      rw [hconst] at he
      cases he
    | some m =>
      unfold constInt? at hconst
      split at hconst
      · next i hkind => exact ⟨i, h ▸ hkind⟩
      · cases hconst
  | bytes | unary | binary | call | cond | element | field | fieldAt | method => cases he
termination_by structural e

theorem index_yields (h : Sees scope look b) {build : Build (Option Expr)}
    (hbuild : Ensures build b (ExprYields (.seen look scope) e b)) :
    Ensures (index scope e build) b (IndexYields (.seen look scope) e b) := by
  unfold index
  apply ensures_bind_run (known_run h.lt e)
  split
  · next n hn =>
    obtain ⟨m, hm⟩ := Builtin.immediate?_eq_some hn
    exact ensures_pure (.some (.refl h.sane)
      ⟨by simp [Index.exprs], fun _ => known_of_constArg h.look e hm⟩ (.nil _ _))
  · refine Yields.ensures_map hbuild ?_ fun e => by rw [Index.labels]
    intro p n e' he
    exact ⟨forall_mem_singleton.mpr he, fun hconst => Bool.noConfusion hconst⟩

variable {build : Build (Option Index)} {tree : Tree.Expr}

theorem versionedIndex_yields (hb : b.Sane) (needed : Nat) (feature : Feature) (span : Span)
    (hbuild : Ensures build b (IndexYields R tree b)) :
    Ensures (versionedIndex needed feature span build) b
      (Yields (Index.BuiltFrom needed R tree) Index.labels b) := by
  unfold versionedIndex
  refine Yields.bind (.refl hb) hbuild rfl ?_
  intro i b' h
  cases i with
  | const n => exact ensures_pure (.some h.step ⟨h.good _ rfl, Nat.zero_le _⟩ (h.fresh _ rfl))
  | dynamic e =>
    refine h.step.require rfl fun hversion => ?_
    exact ensures_pure (.some h.step ⟨h.good _ rfl, hversion⟩ (h.fresh _ rfl))

theorem element_yields (h : Sees scope look b) (span : Span) (base : Ident)
    (hbuild : Ensures build b (IndexYields (.seen look scope) tree b)) :
    Ensures (element scope span base build) b
      (ExprYields (.seen look scope) (.element span base tree) b) := by
  obtain ⟨hb, hscope, rfl⟩ := h
  unfold element
  apply ensures_bind_run (kindOf?_run hscope base.text)
  split
  · next hargs =>
    refine Yields.ensures_map (versionedIndex_yields hb 5 .dynamicArgument base.span hbuild) ?_
      fun i => by rw [Expr.labels]
    intro p n i hi
    exact ⟨.arg hi.since fun e he => (hi.exprs e he).resolved,
      .element hargs hi.known fun e he => (hi.exprs e he).mirrors⟩
  all_goals exact Step.fail (.refl hb) _ _

/-- A method is called either to begin an inner transaction or to submit it. -/
theorem innerMethod_yields (h : Sees scope look b) (base method : Ident) :
    Ensures (innerMethod scope base method) b
      (Yields (fun _ _ submits => look base.text = some (.runtime .itxn) ∧
        method.text = if submits then "submit" else "begin") (fun _ => []) b) := by
  obtain ⟨hb, hscope, rfl⟩ := h
  unfold innerMethod
  apply ensures_bind_run (kindOf?_run hscope base.text)
  split
  · next hitxn =>
    split
    · next hbegin => exact ensures_pure (.some (.refl hb) ⟨hitxn, by simpa using hbegin⟩ (.nil _ _))
    · split
      · next hsubmit => exact ensures_pure (.some (.refl hb) ⟨hitxn, by simpa using hsubmit⟩ (.nil _ _))
      · exact Step.fail (.refl hb) _ _
  all_goals exact Step.fail (.refl hb) _ _

/-! ### Fields -/

theorem noFields_yields (hb : b.Sane) (hscope : scope < b.scopes.arena.size) (name : String)
    (span : Span) {owner : Tree.Owner} : Ensures (noFields scope name span) b (OwnerYields R owner b) := by
  unfold noFields
  apply ensures_bind_run (kindOf?_run hscope name)
  split <;> exact Step.fail (.refl hb) _ _

theorem runtimeOf?_eq_some {t : Scopes} {r : Runtime} (h : t.runtimeOf? scope name = some r) :
    t.kindOf? scope name = some (.runtime r) := by
  unfold Scopes.runtimeOf? at h
  split at h
  · next r' hkind =>
    cases h
    exact hkind
  · cases h

/-- A part of the machine that is named without an index. -/
theorem FieldOwner.Built.of_name {owner : Tree.Owner} (name : String)
    (horigin : R.Source owner source) (hexprs : source.exprs = [])
    (hsince : source.isInner = false → source.since = 0) :
    FieldOwner.Built R owner p bound ⟨source, name, source.table⟩ := by
  refine ⟨?_, ?_, horigin, rfl, fun hother => hsince hother ▸ Nat.zero_le _⟩
  all_goals simp [hexprs]

theorem namedOwner_yields (h : Sees scope look b) (name : Ident) :
    Ensures (namedOwner scope name) b (OwnerYields (.seen look scope) (.name name) b) := by
  obtain ⟨hb, hscope, rfl⟩ := h
  unfold namedOwner
  apply ensures_bind_run (runtimeOf?_run hscope name.text)
  split
  · next hr => exact ensures_pure (.some (.refl hb)
      (.of_name _ (.txn (runtimeOf?_eq_some hr)) rfl fun _ => rfl) (.nil _ _))
  · next hr => exact ensures_pure (.some (.refl hb)
      (.of_name _ (.global (runtimeOf?_eq_some hr)) rfl fun _ => rfl) (.nil _ _))
  · next hr => exact ensures_pure (.some (.refl hb)
      (.of_name _ (.itxn (runtimeOf?_eq_some hr)) rfl fun hother => Bool.noConfusion hother)
      (.nil _ _))
  · exact Step.fail (.refl hb) _ _
  · exact noFields_yields hb hscope _ _

theorem elementOwner_yields (h : Sees scope look b) (span : Span) (base : Ident)
    (hbuild : Ensures build b (IndexYields (.seen look scope) tree b)) :
    Ensures (elementOwner scope span base build) b
      (OwnerYields (.seen look scope) (.element span base tree) b) := by
  obtain ⟨hb, hscope, rfl⟩ := h
  unfold elementOwner
  apply ensures_bind_run (runtimeOf?_run hscope base.text)
  split
  · next hr =>
    refine Yields.ensures_map (versionedIndex_yields hb 3 .dynamicGroup span hbuild) ?_
      fun i => by rw [FieldSource.labels]
    intro p n i hi
    refine ⟨fun e he => (hi.exprs e he).resolved, ?_, .gtxn (runtimeOf?_eq_some hr) hi.known, rfl,
      fun _ => hi.since⟩
    cases i with
    | const n => exact forall_mem_nil _
    | dynamic e => exact forall_mem_singleton.mpr (hi.exprs e mem_cons_self).mirrors
  · exact noFields_yields hb hscope _ _

theorem fieldOf_yields (hb : b.Sane) (owner : FieldOwner) (name : Ident) :
    Ensures (fieldOf owner name) b
      (Yields (fun p _ field => field ∈ owner.table.fields ∧ owner.table.Knows p.version field.name ∧
        field.name = name.text) (fun _ => []) b) := by
  unfold fieldOf
  split
  · exact Step.fail (.refl hb) _ _
  · next field hfield =>
    have hname : field.name = name.text := by simpa using find?_some hfield
    refine Step.require (.refl hb) rfl fun hversion => ?_
    exact ensures_pure (.some (.refl hb)
      ⟨mem_of_find?_eq_some hfield, ⟨field, hname ▸ hfield, hversion⟩, hname⟩ (.nil _ _))

/-- What reads a field is built if the version allows to read fields of the source. -/
theorem Step.requireSource {b' : Builder} {good : Program → Nat → α → Prop} {labels : α → List Nat}
    (h : Step b b') {span : Span} {f : Bool → Build (Option α)} (hfalse : f false = pure none)
    (htrue : (source.isInner = true → 5 ≤ b'.version) → Ensures (f true) b' (Yields good labels b)) :
    Ensures (requireSource source span >>= f) b' (Yields good labels b) := by
  unfold Build.requireSource
  split
  · exact h.require hfalse fun hversion => htrue fun _ => hversion
  · next hother => exact htrue fun hinner => absurd hinner hother

variable {tree : Tree.Owner} {owner : Build (Option FieldOwner)}

theorem fieldAccess_yields (hb : b.Sane) (span : Span) (name : Ident)
    (howner : Ensures owner b (OwnerYields R tree b)) :
    Ensures (fieldAccess span name owner) b (ExprYields R (.field span tree name) b) := by
  unfold fieldAccess
  refine Yields.bind (.refl hb) howner rfl ?_
  intro owner b₁ h₁
  refine Yields.bind h₁.step (fieldOf_yields h₁.step.sane owner name) rfl ?_
  intro field b₂ h₂
  have hstep := h₁.step.trans h₂.step
  have howner := h₁.good owner rfl
  obtain ⟨hfield, hknows, hname⟩ := h₂.good field rfl
  dsimp only
  split
  · exact hstep.fail _ _
  refine hstep.requireSource rfl fun hinner => ensures_pure (.some hstep ⟨?_, ?_⟩ ?_)
  · exact .field (Builtin.fieldTable_valid owner.table field hfield) (howner.table ▸ hknows)
      (FieldSource.since_le (h₂.step.grows.version ▸ howner.since) hinner)
      fun e he => (howner.resolved e he).mono h₂.step.grows .refl
  · exact .field hname howner.origin howner.mirrors
  · rw [Expr.labels]
    exact (h₁.fresh owner rfl).mono .refl h₂.step.keeps.labels

theorem globalFields_scalar {field : Field} (h : field ∈ Field.Table.global.fields) :
    field.isArray = false := by
  have hall : ∀ f ∈ Field.Table.global.fields, f.isArray = false := by decide
  exact hall field h

theorem fieldAtAccess_yields (hb : b.Sane) (span : Span) (name : Ident) (indexSpan : Span)
    {i : Tree.Expr} (howner : Ensures owner b (OwnerYields R tree b))
    (hbuild : ∀ b', Step b b' → Ensures build b' (IndexYields R i b')) :
    Ensures (fieldAtAccess span name indexSpan owner build) b
      (ExprYields R (.fieldAt span tree name i) b) := by
  unfold fieldAtAccess
  refine Yields.bind (.refl hb) howner rfl ?_
  intro owner b₁ h₁
  refine Yields.bind h₁.step (fieldOf_yields h₁.step.sane owner name) rfl ?_
  intro field b₂ h₂
  have hstep₂ := h₁.step.trans h₂.step
  have howner := h₁.good owner rfl
  obtain ⟨hfield, hknows, hname⟩ := h₂.good field rfl
  dsimp only
  split
  · exact hstep₂.fail _ _
  next harray =>
  -- Fields of the ledger are no arrays, so the owner is not the ledger here.
  have hglobal : owner.source ≠ .global := by
    intro hsource
    rw [howner.table, hsource] at hfield
    simp [globalFields_scalar hfield] at harray
  refine Yields.bind hstep₂
    (versionedIndex_yields hstep₂.sane 5 .dynamicArray indexSpan (hbuild b₂ hstep₂)) rfl ?_
  intro i' b₃ h₃
  have hstep₃ := hstep₂.trans h₃.step
  have hlater := h₂.step.trans h₃.step
  refine hstep₃.requireSource rfl fun hinner => ?_
  simp only [Bool.not_true, Bool.false_eq_true, if_false]
  split
  · exact hstep₃.fail _ _
  next hdynamic =>
  have hindex := h₃.good i' rfl
  rw [hstep₂.length_eq] at hindex
  have hknows₃ : owner.table.Knows b₃.version field.name := h₃.step.keeps.version ▸ hknows
  refine ensures_pure (.some hstep₃ ⟨?_, ?_⟩ ?_)
  · refine .fieldAt (Builtin.fieldTable_valid owner.table field hfield) (howner.table ▸ hknows₃)
      (FieldSource.since_le (hlater.grows.version ▸ howner.since) hinner) hindex.since hglobal
      (fun hinner => by simpa [hinner] using hdynamic) ?_ fun e he => (hindex.exprs e he).resolved
    exact fun e he => (howner.resolved e he).mono hlater.grows .refl
  · exact .fieldAt hname howner.origin howner.mirrors hindex.known fun e he => (hindex.exprs e he).mirrors
  · rw [Expr.labels]
    exact ((h₁.fresh owner rfl).mono .refl h₂.step.keeps.labels).append
      (h₃.fresh i' rfl) hstep₂.keeps.labels h₃.step.keeps.labels

/-! ### Calls -/

theorem functionCall_yields (hb : b.Sane) (span : Span) {f : Nat} {name : Ident} {callee : Function}
    (hcallee : b.functions[f]? = some callee) (hname : callee.name.text = name.text)
    (hcall : R.call name.text f) {build : Build (List (Option Expr))}
    (hbuild : Ensures build b fun r b' => Yields (ExprsBuilt R trees) exprsLabels b (r.mapM id) b') :
    Ensures (functionCall span f name trees.length build) b (ExprYields R (.call span name trees) b) := by
  unfold functionCall
  apply ensures_get
  simp only [hcallee]
  split
  · exact Step.fail (.refl hb) _ _
  next hentry =>
  refine ensures_bind hbuild ?_
  intro r b₁ h₁
  split
  · exact h₁.step.fail _ _
  next hfound =>
  split
  · next hnone =>
    rw [hnone] at h₁
    exact ensures_pure h₁.absent
  next args hargs =>
  have hbuilt := h₁.good args hargs
  obtain ⟨hrun, h₂⟩ := freshLabel_step h₁.step.sane
  apply ensures_bind_run hrun
  have hfunctions : b₁.functions[f]? = some callee := by rw [h₁.step.keeps.functions, hcallee]
  refine ensures_pure (.some (h₁.step.trans h₂) ⟨?_, ?_⟩ ?_)
  · refine .call (List.getElem?_eq_some_iff.mp hcallee).1 hfunctions hname (by simpa using hentry)
      (hbuilt.length_eq.symm.trans (Decidable.not_not.mp hfound)) ?_
    exact fun e he => (hbuilt.resolved e he).mono h₂.grows .refl
  · exact .call hcall hbuilt.length_eq.symm hbuilt.mirrors
  · rw [Expr.labels]
    exact (h₁.fresh args hargs).snoc h₁.step.keeps.labels

theorem callableBuiltin_yields (hb : b.Sane) (span : Span) (name : Ident) (found : Nat) :
    Ensures (callableBuiltin span name found) b
      (Yields (fun p _ x => x ∈ Builtin.catalog ∧ x.name = name.text ∧ found = x.args.length ∧
        x.callable = true ∧ x.minVersion ≤ p.version) (fun _ => []) b) := by
  unfold callableBuiltin
  split
  · exact Step.fail (.refl hb) _ _
  next x hx =>
  split
  · exact Step.fail (.refl hb) _ _
  next hcallable =>
  refine Step.require (.refl hb) rfl fun hversion => ?_
  simp only [Bool.not_true, Bool.false_eq_true, if_false]
  split
  · exact Step.fail (.refl hb) _ _
  next hfound =>
  have hname : x.name = name.text := by simpa using find?_some hx
  exact ensures_pure (.some (.refl hb) ⟨Builtin.mem_catalog_of_find? hx, hname,
    Decidable.not_not.mp hfound, by simpa using hcallable, hversion⟩ (.nil _ _))

theorem fieldArgument_yields (hb : b.Sane) (builtin : String) (position : Nat) (e : Tree.Expr) :
    Ensures (fieldArgument builtin position e) b
      (Yields (fun _ _ const => ∃ span name, e = .var span name ∧ const = .name name) (fun _ => []) b) := by
  unfold fieldArgument
  split
  · exact ensures_pure (.some (.refl hb) ⟨_, _, rfl, rfl⟩ (.nil _ _))
  · exact Step.fail (.refl hb) _ _

/-- Where the number of an argument is known, the argument is a literal or the name of a constant. -/
def ConstsKnown (R : Reading) (es : List Tree.Expr) (consts : List Builtin.ConstArg) : Prop :=
  ∀ (i : Nat) (n : UInt64) (e : Tree.Expr),
    Builtin.constAt consts i = .int n → es[i]? = some e → R.Known e

theorem constsKnown_cons {es : List Tree.Expr} {const : Builtin.ConstArg}
    (he : ∀ n, const = .int n → R.Known e) (hes : ConstsKnown R es consts) :
    ConstsKnown R (e :: es) (const :: consts) := by
  intro i n e' hconst he'
  cases i with
  | zero =>
    cases he'
    exact he n hconst
  | succ i => exact hes i n e' hconst he'

/-- Arguments of a builtin that are built for some shapes: one for each shape that is no field, though
some of them may become part of the instruction. -/
structure ArgumentsBuilt (R : Reading) (shapes : List Builtin.ArgShape) (trees : List Tree.Expr)
    (consts : List Builtin.ConstArg) (p : Program) (bound : Nat) (es : List Expr) : Prop where
  known : ConstsKnown R trees consts
  pushed : ∃ origins, R.Pushed trees origins ∧ ExprsBuilt R origins p bound es
  length : es.length = (shapes.filter (!·.isField)).length

/-- Where only the first of three arguments is pushed, the others are known. -/
theorem ArgumentsBuilt.take_one {shapes : List Builtin.ArgShape} {m : UInt64}
    (h : ArgumentsBuilt R shapes trees consts p bound es) (htrees : trees.length = 3)
    (hes : es.length = 3) (hm : Builtin.constAt consts 1 = .int m) (hn : Builtin.constAt consts 2 = .int n) :
    ∃ origins, R.Pushed trees origins ∧ ExprsBuilt R origins p bound (es.take 1) := by
  obtain ⟨origins, hpushed, hbuilt⟩ := h.pushed
  obtain rfl := hpushed.eq_of_length (by rw [hbuilt.length_eq, hes, htrees])
  match origins, es, htrees, hes with
  | [e₀, e₁, e₂], [a₀, a₁, a₂], _, _ =>
    exact ⟨[e₀], .push (.number (h.known 1 m e₁ hm rfl) (.number (h.known 2 n e₂ hn rfl) .nil)),
      .cons (forall₂_cons.mp hbuilt).1 .nil⟩

theorem length_stackParams (x : Builtin) : x.stackParams.length = (x.args.filter (!·.isField)).length := by
  have hsnd : (x.args.mapIdx fun i shape => (i + 1, shape)).map Prod.snd = x.args := by
    apply ext_getElem?
    intro i
    simp [Function.comp_def]
  unfold Builtin.stackParams
  generalize (x.args.mapIdx fun i shape => (i + 1, shape)) = indexed at hsnd
  rw [← hsnd, filter_map, length_map]
  rfl

theorem exprsLabels_sublist {es' : List Expr} (h : es.Sublist es') :
    (exprsLabels es).Sublist (exprsLabels es') := by
  induction h with
  | slnil => exact List.Sublist.refl _
  | cons e _ ih =>
    rw [exprsLabels]
    exact ih.trans (sublist_append_right _ _)
  | cons_cons e _ ih =>
    rw [exprsLabels, exprsLabels]
    exact (List.Sublist.refl _).append ih

theorem builtinCall_yields (span : Span) {name : Ident} {x : Builtin} (hx : x ∈ Builtin.catalog)
    (hcallable : x.callable = true) (hversion : x.minVersion ≤ b.version)
    (hundeclared : R.undeclared name.text) (hcast : castTy? name.text = none)
    (hname : x.name = name.text) (htrees : trees.length = x.args.length)
    {build : Build (List Builtin.ConstArg × Option (List Expr))}
    (hbuild : Ensures build b fun r b' => Yields (ArgumentsBuilt R x.args trees r.1) exprsLabels b r.2 b') :
    Ensures (builtinCall span x build) b (ExprYields R (.call span name trees) b) := by
  unfold builtinCall
  refine ensures_bind hbuild ?_
  rintro ⟨consts, args⟩ b' h
  dsimp only at h ⊢
  cases args with
  | none => exact ensures_pure h.absent
  | some args =>
    have hargs := h.good args rfl
    have hlength := hargs.length
    rw [← length_stackParams] at hlength
    have hversion' : x.minVersion ≤ b'.version := h.step.keeps.version ▸ hversion
    apply ensures_get
    split
    · next call kept hcall =>
      obtain ⟨hagrees, hsublist⟩ := Builtin.instantiate_agrees hx hlength hcall
      obtain ⟨hcallName, hcount⟩ := Builtin.instantiate_counts hx hlength hcall
      obtain ⟨origins, hpushed, hkept⟩ : ∃ origins, R.Pushed trees origins ∧
          ExprsBuilt R origins b'.program b.functions.length kept := by
        rcases Builtin.instantiate_kept hx hlength hcall with rfl | ⟨rfl, hthree, hthree', m, n, hm, hn⟩
        · exact hargs.pushed
        · exact hargs.take_one (htrees.trans hthree') hthree hm hn
      refine ensures_pure (.some h.step ⟨?_, ?_⟩ ?_)
      · exact .builtin hagrees (Builtin.instantiate_knownIn hx hcallable hversion' hcall) hkept.resolved
      · exact .builtin hundeclared hcast (hcallName.trans hname) (hcount.trans htrees.symm) hpushed
          hkept.length_eq.symm hkept.mirrors
      · rw [Expr.labels]
        exact (h.fresh args rfl).sublist (exprsLabels_sublist hsublist)
    · exact h.step.fail _ _

/-! ### The walk over an expression -/

theorem castTy?_valid {ty : Ty} (h : castTy? name = some ty) : ty ≠ .invalid := by
  unfold castTy? at h
  split at h
  · cases h; decide
  · split at h
    · cases h; decide
    · cases h

theorem mapM_id_cons (r : Option α) (rest : List (Option α)) :
    (r :: rest).mapM id = List.cons <$> r <*> rest.mapM id := by
  rw [mapM_cons]
  cases r with
  | none => rfl
  | some a => cases rest.mapM id <;> rfl

theorem cond_yields {b₁ b₂ b₃ : Builder} {test yes no : Option Expr} {test' yes' no' : Tree.Expr}
    (hb : b.Sane) (span : Span) (htest : ExprYields R test' { b with labels := b.labels + 1 } test b₁)
    (hyes : ExprYields R yes' b₁ yes b₂) (hno : ExprYields R no' b₂ no b₃) :
    ExprYields R (.cond span test' yes' no') b (Expr.cond span b.labels <$> test <*> yes <*> no) b₃ := by
  have hparts := (htest.pair (expr_persistent R test') hyes).pair
    (fun _ _ _ _ hext h => ⟨expr_persistent R _ hext h.1, expr_persistent R _ hext h.2⟩) hno
  have heq : Expr.cond span b.labels <$> test <*> yes <*> no =
      (Prod.mk <$> (Prod.mk <$> test <*> yes) <*> no).map
        fun x => Expr.cond span b.labels x.1.1 x.1.2 x.2 := by
    cases test <;> cases yes <;> cases no <;> rfl
  rw [heq]
  refine hparts.numbered hb (fun x => Expr.cond span b.labels x.1.1 x.1.2 x.2) ?_
    fun x => by rw [Expr.labels]
  rintro p n x ⟨⟨htest, hyes⟩, hno⟩
  exact ⟨.cond htest.resolved hyes.resolved hno.resolved, .cond htest.mirrors hyes.mirrors hno.mirrors⟩

mutual

theorem expr_yields (scope : ScopeId) (e : Tree.Expr) {look : String → Option Symbol.Kind} {b : Builder}
    (h : Sees scope look b) : Ensures (expr scope e) b (ExprYields (.seen look scope) e b) := by
  cases e with
  | int span n =>
    rw [expr]
    refine ensures_bind (internInt_step h.sane n) ?_
    rintro ref b' ⟨hstep, hvalue⟩
    exact ensures_pure (.some hstep ⟨.literal hvalue, .int⟩ (.nil _ _))
  | bytes span bs =>
    rw [expr]
    refine ensures_bind (internBytes_step h.sane bs) ?_
    rintro ref b' ⟨hstep, hvalue⟩
    exact ensures_pure (.some hstep ⟨.literal hvalue, .bytes⟩ (.nil _ _))
  | var span name =>
    rw [expr]
    exact ident_yields h span name
  | unary span op e =>
    rw [expr]
    exact Yields.ensures_map (expr_yields scope e h)
      (fun he => ⟨.unary he.resolved, .unary he.mirrors⟩) fun e => by rw [Expr.labels]
  | binary span op l r =>
    rw [expr]
    refine ensures_bind (expr_yields scope l h) ?_
    intro rl b₁ h₁
    refine ensures_bind (expr_yields scope r (h.after h₁.step)) ?_
    intro rr b₂ h₂
    exact ensures_pure (h₁.map₂ (expr_persistent _ l) h₂ (Expr.binary span op)
      (fun hl hr => ⟨.binary hl.resolved hr.resolved, .binary hl.mirrors hr.mirrors⟩)
      fun l r => by rw [Expr.labels])
  | group span e =>
    rw [expr]
    exact Yields.ensures_map (expr_yields scope e h)
      (fun he => ⟨.group he.resolved, .group he.mirrors⟩) fun e => by rw [Expr.labels]
  | call span name args =>
    rw [expr]
    apply ensures_bind_run (kindOf?_run h.lt name.text)
    rw [h.look]
    split
    · next f hkind =>
      obtain ⟨x, hxkind, hxname, hrefers⟩ := refers_of_kindOf? h.sane (h.look ▸ hkind)
      rw [Refers, hxkind] at hrefers
      obtain ⟨callee, hcallee, hname⟩ := hrefers
      exact functionCall_yields h.sane span hcallee (hname.trans hxname) hkind (exprs_yields scope args h)
    · exact Step.fail (.refl h.sane) _ _
    next hnone =>
    split
    · next ty hty =>
      cases args with
      | nil => exact Step.fail (.refl h.sane) _ _
      | cons e rest =>
        cases rest with
        | nil =>
          exact Yields.ensures_map (expr_yields scope e h)
            (fun he => ⟨.cast (castTy?_valid hty) he.resolved, .cast hnone hty he.mirrors⟩)
            fun e => by rw [Expr.labels]
        | cons _ _ => exact Step.fail (.refl h.sane) _ _
    next hcast =>
    refine Yields.bind (.refl h.sane) (callableBuiltin_yields h.sane span name args.length) rfl ?_
    intro x b₁ h₁
    obtain ⟨hx, hname, hlength, hcallable, hversion⟩ := h₁.good x rfl
    exact ensures_imp (builtinCall_yields span hx hcallable hversion hnone hcast hname
      hlength (arguments_yields scope x.name 1 x.args args hlength (h.after h₁.step)))
      fun _ _ h₂ => .after h₁.step h₂
  | cond span test yes no =>
    rw [expr]
    obtain ⟨hrun, hfresh⟩ := freshLabel_step h.sane
    apply ensures_bind_run hrun
    refine ensures_bind (expr_yields scope test (h.after hfresh)) ?_
    intro rt b₁ h₁
    have hsees₁ := (h.after hfresh).after h₁.step
    refine ensures_bind (expr_yields scope yes hsees₁) ?_
    intro ry b₂ h₂
    refine ensures_bind (expr_yields scope no (hsees₁.after h₂.step)) ?_
    intro rn b₃ h₃
    exact ensures_pure (cond_yields h.sane span h₁ h₂ h₃)
  | element span base i =>
    rw [expr]
    exact element_yields h span base (index_yields h (expr_yields scope i h))
  | field span owner name =>
    rw [expr]
    exact fieldAccess_yields h.sane span name (fieldOwner_yields scope owner h)
  | fieldAt span owner name i =>
    rw [expr]
    refine fieldAtAccess_yields h.sane span name i.span (fieldOwner_yields scope owner h) ?_
    exact fun b' hstep => index_yields (h.after hstep) (expr_yields scope i (h.after hstep))
  | method span base method args =>
    rw [expr]
    exact Yields.bind (.refl h.sane) (innerMethod_yields h base method) rfl
      fun submits b' h' => h'.step.fail _ _
termination_by structural e

theorem fieldOwner_yields (scope : ScopeId) (owner : Tree.Owner) {look : String → Option Symbol.Kind}
    {b : Builder} (h : Sees scope look b) :
    Ensures (fieldOwner scope owner) b (OwnerYields (.seen look scope) owner b) := by
  cases owner with
  | name name =>
    rw [fieldOwner]
    exact namedOwner_yields h name
  | element span base i =>
    rw [fieldOwner]
    exact elementOwner_yields h span base (index_yields h (expr_yields scope i h))
termination_by structural owner

theorem exprs_yields (scope : ScopeId) (es : List Tree.Expr) {look : String → Option Symbol.Kind}
    {b : Builder} (h : Sees scope look b) :
    Ensures (exprs scope es) b fun r b' =>
      Yields (ExprsBuilt (.seen look scope) es) exprsLabels b (r.mapM id) b' := by
  cases es with
  | nil =>
    rw [exprs]
    exact ensures_pure (.some (.refl h.sane) .nil (.nil _ _))
  | cons e rest =>
    rw [exprs]
    refine ensures_bind (expr_yields scope e h) ?_
    intro r b₁ h₁
    refine ensures_bind (exprs_yields scope rest (h.after h₁.step)) ?_
    intro rs b₂ h₂
    apply ensures_pure
    rw [mapM_id_cons]
    exact h₁.map₂ (expr_persistent _ e) h₂ List.cons (fun he hes => .cons he hes) fun e rest => by rw [exprsLabels]
termination_by structural es

theorem arguments_yields (scope : ScopeId) (builtin : String) (position : Nat)
    (shapes : List Builtin.ArgShape) (es : List Tree.Expr) (hlength : es.length = shapes.length)
    {look : String → Option Symbol.Kind} {b : Builder} (h : Sees scope look b) :
    Ensures (arguments scope builtin position shapes es) b fun r b' =>
      Yields (ArgumentsBuilt (.seen look scope) shapes es r.1) exprsLabels b r.2 b' := by
  cases es with
  | nil =>
    obtain rfl : shapes = [] := eq_nil_of_length_eq_zero hlength.symm
    rw [arguments]
    · exact ensures_pure (.some (.refl h.sane)
        ⟨by simp [ConstsKnown], ⟨[], .nil, .nil⟩, rfl⟩ (.nil _ _))
    · simp
  | cons e rest =>
    cases shapes with
    | nil => cases hlength
    | cons shape shapes =>
    have hrest : rest.length = shapes.length := Nat.succ.inj hlength
    rw [arguments]
    cases hfield : shape.isField with
    | true =>
      refine ensures_bind (fieldArgument_yields h.sane builtin position e) ?_
      intro const b₁ h₁
      refine ensures_bind (arguments_yields scope builtin (position + 1) shapes rest hrest
        (h.after h₁.step)) ?_
      rintro ⟨consts, args⟩ b₂ h₂
      apply ensures_pure
      cases const with
      | none =>
        refine .none (h₁.step.trans h₂.step) fun hquiet => ?_
        simpa using h₁.isSome (h₂.step.keeps.quiet hquiet)
      | some const =>
        have hargs := Yields.after h₁.step h₂
        obtain ⟨span, name, rfl, rfl⟩ := h₁.good const rfl
        refine ⟨hargs.step, hargs.isSome, fun args hsome => ?_, hargs.fresh⟩
        obtain ⟨hknown, ⟨origins, hpushed, hbuilt⟩, hcount⟩ := hargs.good args hsome
        exact ⟨constsKnown_cons (by rintro _ ⟨⟩) hknown, ⟨origins, .field hpushed, hbuilt⟩,
          by simpa [hfield] using hcount⟩
    | false =>
      apply ensures_bind_run (known_run h.lt e)
      refine ensures_bind (expr_yields scope e h) ?_
      intro r b₁ h₁
      refine ensures_bind (arguments_yields scope builtin (position + 1) shapes rest hrest
        (h.after h₁.step)) ?_
      rintro ⟨consts, args⟩ b₂ h₂
      apply ensures_pure
      refine h₁.map₂ (expr_persistent _ e) h₂ List.cons ?_ fun e rest => by rw [exprsLabels]
      rintro p n e' es' he ⟨hknown, ⟨origins, hpushed, hbuilt⟩, hcount⟩
      exact ⟨constsKnown_cons (fun n hn => known_of_constArg h.look e hn) hknown,
        ⟨e :: origins, .push hpushed, .cons he hbuilt⟩, by simp [hfield, hcount]⟩
termination_by structural es

end

end Build

end Teal.Program
