import Teal.Proofs.Program.Build.Linked

/-! All that is built from two trees that are the same but for their places. Expressions, statements, functions
and programs are built from single steps, and the two runs take the same ones; so a property that single steps
have and that adds up is one of the whole, with the scopes and the stray breaks of the source. -/

namespace Teal

open List

namespace Program.Build

structure FieldOwner.Moved (R : Span → Span → Prop) (o o' : FieldOwner) : Prop where
  source : o.source.Moved R o'.source
  name : o.name = o'.name
  table : o.table = o'.table

end Program.Build

namespace Builtin

section Instantiate

variable {α β : Type} {V : α → β → Prop} {args : List α} {args' : List β}
  (h : Forall₂ V args args')

include h

theorem foldIndices_forall₂ (call : Call) (fallback : String) (indices : Option (UInt8 × UInt8)) :
    (foldIndices call args fallback indices).1 = (foldIndices call args' fallback indices).1 ∧
      Forall₂ V (foldIndices call args fallback indices).2 (foldIndices call args' fallback indices).2 := by
  cases indices with
  | none => exact ⟨rfl, h⟩
  | some pair => exact ⟨rfl, forall₂_take 1 h⟩

/-- A call is made in the same way whatever the arguments are. -/
theorem instantiate_forall₂ (b : Builtin) (consts : List ConstArg) (version : Nat) :
    (∃ fault, b.instantiate args consts version = .error fault ∧
      b.instantiate args' consts version = .error fault) ∨
    ∃ call kept kept', b.instantiate args consts version = .ok (call, kept) ∧
      b.instantiate args' consts version = .ok (call, kept') ∧ Forall₂ V kept kept' := by
  have hfold (fallback : String) (indices : Option (UInt8 × UInt8)) :
      ∃ call kept kept', foldIndices b.unfolded args fallback indices = (call, kept) ∧
        foldIndices b.unfolded args' fallback indices = (call, kept') ∧ Forall₂ V kept kept' := by
    obtain ⟨hcall, hkept⟩ := foldIndices_forall₂ h b.unfolded fallback indices
    exact ⟨_, _, _, rfl, Prod.ext hcall.symm rfl, hkept⟩
  unfold instantiate
  cases b.folding with
  | none => exact .inr ⟨_, _, _, rfl, rfl, h⟩
  | some folding =>
    cases folding with
    | substring =>
      obtain ⟨call, kept, kept', heq, heq', hkept⟩ := hfold "substring3" (indexPair? consts)
      dsimp only
      rw [heq, heq']
      split
      · split
        · exact .inl ⟨_, rfl, rfl⟩
        · exact .inr ⟨_, _, _, rfl, rfl, hkept⟩
      · exact .inr ⟨_, _, _, rfl, rfl, hkept⟩
    | extract =>
      dsimp only
      split
      · obtain ⟨call, kept, kept', heq, heq', hkept⟩ := hfold "extract3" none
        rw [heq, heq']
        exact .inr ⟨_, _, _, rfl, rfl, hkept⟩
      · obtain ⟨call, kept, kept', heq, heq', hkept⟩ := hfold "extract3" (indexPair? consts)
        rw [heq, heq']
        exact .inr ⟨_, _, _, rfl, rfl, hkept⟩
    | assetField =>
      dsimp only
      split
      · cases foldField b.unfolded _ version (constAt consts 0) with
        | error fault => exact .inl ⟨_, rfl, rfl⟩
        | ok call => exact .inr ⟨_, _, _, rfl, rfl, h⟩
      · exact .inl ⟨_, rfl, rfl⟩

end Instantiate

theorem foldField_newer {call folded : Call} {table : Field.Table} {v w : Nat} {const : ConstArg}
    (hvw : v ≤ w) (h : foldField call table v const = .ok folded) :
    foldField call table w const = .ok folded := by
  cases const with
  | int n => cases h
  | unknown => cases h
  | name name =>
    simp only [foldField] at h ⊢
    cases hfield : table.find? name with
    | none =>
      rw [hfield] at h
      cases h
    | some field =>
      rw [hfield] at h
      dsimp only at h ⊢
      by_cases hold : v < field.minVersion
      · rw [if_pos hold] at h
        cases h
      · rw [if_neg hold] at h
        rw [if_neg (by omega : ¬w < field.minVersion)]
        exact h

/-- A call that a version allows is folded in the same way for every newer one. -/
theorem instantiate_newer {α : Type} {b : Builtin} {args : List α} {consts : List ConstArg} {v w : Nat}
    {r : Call × List α} (hvw : v ≤ w) (h : b.instantiate args consts v = .ok r) :
    b.instantiate args consts w = .ok r := by
  unfold instantiate at h ⊢
  split
  · next hfolding =>
    rw [hfolding] at h
    exact h
  · next hfolding =>
    rw [hfolding] at h
    exact h
  · next hfolding =>
    rw [hfolding] at h
    exact h
  · next hfolding =>
    rw [hfolding] at h
    dsimp only at h
    split
    · next table rest hargs =>
      rw [hargs] at h
      dsimp only at h
      cases hfold : foldField b.unfolded table v (constAt consts 0) with
      | error fault =>
        rw [hfold] at h
        cases h
      | ok folded =>
        rw [foldField_newer hvw hfold]
        rw [hfold] at h
        exact h
    · next hargs =>
      split at h
      · next table rest hfield => exact absurd hfield (hargs table rest)
      · exact h

end Builtin

namespace Program

namespace Build

section Options

variable {α β γ δ : Type} {V : α → β → Prop} {W : γ → δ → Prop}

theorem rel_map {o : Option α} {o' : Option β} (h : Option.Rel V o o') {g : α → γ} {g' : β → δ}
    (hg : ∀ a a', V a a' → W (g a) (g' a')) : Option.Rel W (o.map g) (o'.map g') := by
  cases h with
  | none => exact .none
  | some h => exact .some (hg _ _ h)

theorem rel_seq {g : Option (α → γ)} {g' : Option (β → δ)} {o : Option α} {o' : Option β}
    (hg : Option.Rel (fun g g' => ∀ a a', V a a' → W (g a) (g' a')) g g') (h : Option.Rel V o o') :
    Option.Rel W (g <*> o) (g' <*> o') := by
  cases hg with
  | none => exact .none
  | some hg =>
    cases h with
    | none => exact .none
    | some h => exact .some (hg _ _ h)

end Options

/-! ### What the builder looks at -/

section Facts

variable {R : Span → Span → Prop}

theorem constArg_eq {b b' : Builder} (hb : b.Alike b') (scope : ScopeId) {e e' : Tree.Expr}
    (he : e.Moved R e') : constArg b scope e = constArg b' scope e' := by
  cases he with
  | var h name =>
    rw [constArg, constArg, constInt?, constInt?, Scopes.kindOf?_of_erase hb.scopes, hb.pool]
  | group h he => rw [constArg, constArg, constArg_eq hb scope he]
  | _ => rfl

theorem constArg_version (b : Builder) (version : Nat) (scope : ScopeId) :
    ∀ e : Tree.Expr, constArg (b.retarget version) scope e = constArg b scope e
  | .group _ inner => by rw [constArg, constArg, constArg_version b version scope inner]
  | .int _ _ | .bytes _ _ | .var _ _ | .unary _ _ _ | .binary _ _ _ _ | .call _ _ _ | .cond _ _ _ _
  | .element _ _ _ | .field _ _ _ | .fieldAt _ _ _ _ | .method _ _ _ _ => rfl

theorem constantValue?_version (b : Builder) (version : Nat) (e : Expr) :
    constantValue? (b.retarget version) e = constantValue? b e := by
  cases e <;> rfl

variable {α β : Type} {V : α → β → Prop}

theorem mapM_id_rel {es : List (Option α)} {es' : List (Option β)} (h : Forall₂ (Option.Rel V) es es') :
    Option.Rel (Forall₂ V) (es.mapM id) (es'.mapM id) := by
  induction h with
  | nil => exact .some .nil
  | @cons e e' es es' he _ ih =>
    rw [mapM_cons, mapM_cons]
    cases he with
    | none => exact .none
    | some he =>
      generalize (es.mapM id : Option (List α)) = r at ih ⊢
      generalize (es'.mapM id : Option (List β)) = r' at ih ⊢
      cases ih with
      | none => exact .none
      | some hes => exact .some (.cons he hes)

theorem constantValue?_eq {s s' : Builder} (hs : s.Alike s') {e e' : Expr} (he : e.Moved R e') :
    constantValue? s e = constantValue? s' e' := by
  cases he with
  | ident h name scope =>
    have hlookup := Scopes.lookup_of_erase hs.scopes scope name
    rw [constantValue?, constantValue?]
    generalize s.scopes.lookup scope name = r at hlookup ⊢
    generalize s'.scopes.lookup scope name = r' at hlookup ⊢
    cases r with
    | none =>
      cases r' with
      | none => rfl
      | some symbol => cases hlookup
    | some symbol =>
      cases r' with
      | none => cases hlookup
      | some symbol' =>
        obtain ⟨name, ty, kind, span⟩ := symbol
        obtain ⟨name', ty', kind', span'⟩ := symbol'
        cases hlookup
        cases kind <;> rfl
  | _ => rfl

/-- Lists of what some steps yield. -/
theorem forall₂_toList_append {o : Option α} {o' : Option β} (h : Option.Rel V o o') {l : List α}
    {l' : List β} (hl : Forall₂ V l l') : Forall₂ V (o.toList ++ l) (o'.toList ++ l') := by
  cases h with
  | none => exact hl
  | some h => exact .cons h hl

theorem paramTy_eq {p p' : Tree.Param} (hp : p.Moved R p') : paramTy p = paramTy p' := by
  have htype := hp.type
  unfold paramTy
  generalize p.type = type at htype ⊢
  generalize p'.type = type' at htype ⊢
  rcases type with _ | ⟨type, span⟩ <;> rcases type' with _ | ⟨type', span'⟩ <;> cases htype
  · rfl
  · cases type <;> rfl

/-- The first parameter with a type stands where it stood. -/
theorem find?_typed_rel {ps ps' : List Tree.Param} (hps : Forall₂ (Tree.Param.Moved R) ps ps') :
    Option.Rel (Tree.Param.Moved R) (ps.find? (·.type.isSome)) (ps'.find? (·.type.isSome)) := by
  induction hps with
  | nil => exact .none
  | @cons p p' ps ps' hp _ ih =>
    have hsome : p.type.isSome = p'.type.isSome := by
      rw [← Option.isSome_map (f := Prod.fst), hp.type, Option.isSome_map]
    rw [find?_cons, find?_cons, ← hsome]
    cases p.type.isSome with
    | true => exact .some hp
    | false => exact ih

/-- Modules that are the same for a function: only an entry point depends on the module it stands in, and
only on whether it is the main file, or on its name where it is not. -/
def SamePlace (f : Tree.Function) (name name' : String) (isMain isMain' : Bool) : Prop :=
  f.name.text = entryName → isMain = isMain' ∧ (isMain = false → name = name')

structure Placed where
  name : String
  isMain : Bool
  item : Tree.Item

/-- The items of modules in their order, each with the module it stands in. -/
def placed (ms : List Tree.SourceModule) : List Placed :=
  ms.flatMap fun m => m.tree.items.map (⟨m.name, m.isMain, ·⟩)

theorem mem_placed {ms : List Tree.SourceModule} {p : Placed} (h : p ∈ placed ms) :
    ∃ m ∈ ms, p.item ∈ m.tree.items ∧ p.isMain = m.isMain := by
  obtain ⟨m, hm, hp⟩ := mem_flatMap.mp h
  obtain ⟨item, hitem, rfl⟩ := mem_map.mp hp
  exact ⟨m, hm, hitem, rfl⟩

/-- The same item at another place, from a module that is the same for it. -/
structure Placed.Moved (R : Span → Span → Prop) (p p' : Placed) : Prop where
  item : p.item.Moved R p'.item
  place : ∀ span f, p.item = .function span f → SamePlace f p.name p'.name p.isMain p'.isMain

theorem placed_moved_erase (ms : List Tree.SourceModule) : Forall₂ (Placed.Moved Tree.anywhere) (placed ms)
    (placed (ms.map fun m => { m with tree := m.tree.erase })) := by
  have hplaced : placed (ms.map fun m => { m with tree := m.tree.erase }) =
      (placed ms).map fun p => { p with item := p.item.erase } := by
    simp [placed, Tree.Module.erase, flatMap_map, map_flatMap, Function.comp_def]
  rw [hplaced, forall₂_map_right_iff, forall₂_same]
  exact fun p _ => ⟨p.item.moved_erase, fun _ _ _ _ => ⟨rfl, fun _ => rfl⟩⟩

theorem modules_eq_placed (ms : List Tree.SourceModule) :
    modules ms = (placed ms).forM fun p => item p.name p.isMain p.item := by
  induction ms with
  | nil => rfl
  | cons m ms ih =>
    have hstart : modules (m :: ms) =
        m.tree.items.forM (item m.name m.isMain) >>= fun _ => modules ms := rfl
    have hitems : placed (m :: ms) = m.tree.items.map (⟨m.name, m.isMain, ·⟩) ++ placed ms := rfl
    rw [hstart, hitems, ih]
    simp only [forM_eq_forM, forM_append, forM_map]

end Facts

/-- What may be built where a tree has an expression, a statement, an index, the owner of a field, arguments or
a statement with the scope behind it. -/
abbrev ExprRel (R : Span → Span → Prop) := Option.Rel (Expr.Moved R)

abbrev StmtRel (R : Span → Span → Prop) := Option.Rel (Stmt.Moved R)

abbrev IndexRel (R : Span → Span → Prop) := Option.Rel (Index.Moved R)

abbrev OwnerRel (R : Span → Span → Prop) := Option.Rel (FieldOwner.Moved R)

abbrev ArgumentsRel (R : Span → Span → Prop) (r r' : List Builtin.ConstArg × Option (List Expr)) : Prop :=
  r.1 = r'.1 ∧ Option.Rel (Forall₂ (Expr.Moved R)) r.2 r'.2

abbrev PairRel (R : Span → Span → Prop) (r r' : Option Stmt × ScopeId) : Prop := StmtRel R r.1 r'.1 ∧ r.2 = r'.2

section Linked

variable {N : Nat → List Span → ∀ {α β : Type}, Build α → Build β → Builder → Builder → Prop}
  {R : Span → Span → Prop} (hN : Points R N)

include hN

theorem resultTypes_linked {e e' : Expr} (he : e.Moved R e') :
    Linked N 0 [] Eq (resultTypes e) (resultTypes e') := by
  refine hN.then (hN.visit _ _) fun _ => hN.get (fun b b' hb => hN.pure ?_) fun _ _ _ _ => rfl
  exact he.resultTypes_eq hb.scopes hb.functions

theorem known_linked (scope : ScopeId) {e e' : Tree.Expr} (he : e.Moved R e') :
    Linked N 0 [] Eq (known scope e) (known scope e') := by
  refine hN.then (hN.visit _ _) fun _ => hN.get (fun b b' hb => hN.pure ?_) fun b version _ _ => ?_
  · exact constArg_eq hb scope he
  · rw [constArg_version]

/-! ### Expressions -/

section Expr

variable {scope : ScopeId} {a b : Span}

theorem ident_linked (h : R a b) (name : String) :
    Linked N 0 [] (ExprRel R) (ident scope a name) (ident scope b name) := by
  refine hN.then (hN.kindOf? scope name) fun kind => ?_
  cases kind with
  | none => exact hN.fail h _ (by simp)
  | some kind =>
    cases kind with
    | «variable» slot => exact hN.pure (.some (.ident h name scope))
    | constant value => exact hN.pure (.some (.ident h name scope))
    | function index => exact hN.fail h _ (by simp)
    | runtime r => exact hN.fail h _ (by simp)

variable {e e' : Tree.Expr} {owner owner' : Build (Option FieldOwner)}

theorem index_linked (he : e.Moved R e') {m m' : Build (Option Expr)} (hm : Linked N 0 [] (ExprRel R) m m') :
    Linked N 0 [] (IndexRel R) (index scope e m) (index scope e' m') := by
  refine hN.then (known_linked hN scope he) fun const => ?_
  split
  · exact hN.pure (.some (.const _))
  · exact hN.map hm fun _ _ he => rel_map he fun _ _ he => .dynamic he

variable {m m' : Build (Option Index)} {base base' name name' : Ident}

theorem versionedIndex_linked (needed : Nat) (feature : Feature) (h : R a b) (hm : Linked N 0 [] (IndexRel R) m m') :
    Linked N 0 [] (IndexRel R) (versionedIndex needed feature a m) (versionedIndex needed feature b m') := by
  refine hN.bindSome hm (hN.pure .none) fun i i' hi => ?_
  cases hi with
  | const n => exact hN.pure (.some (.const n))
  | dynamic he =>
    refine hN.then (hN.requireVersion needed feature h) fun ok => ?_
    exact linked_ite (hN.pure (.some (.dynamic he))) (hN.pure .none)

theorem element_linked (h : R a b) (hbase : base.Moved R base') (hm : Linked N 0 [] (IndexRel R) m m') :
    Linked N 0 [] (ExprRel R) (element scope a base m) (element scope b base' m') := by
  unfold element
  rw [← hbase.text]
  refine hN.then (hN.kindOf? scope base.text) fun kind => ?_
  cases kind with
  | none => exact hN.fail hbase.span _ (by simp)
  | some kind =>
    cases kind with
    | runtime r =>
      cases r with
      | args =>
        exact hN.map (versionedIndex_linked hN 5 .dynamicArgument hbase.span hm)
          fun _ _ hi => rel_map hi fun _ _ hi => .arg h hi
      | _ => exact hN.fail hbase.span _ (by simp)
    | _ => exact hN.fail hbase.span _ (by simp)

theorem innerMethod_linked {method method' : Ident} (hbase : base.Moved R base')
    (hmethod : method.Moved R method') :
    Linked N 0 [] (Option.Rel Eq) (innerMethod scope base method) (innerMethod scope base' method') := by
  unfold innerMethod
  rw [← hbase.text, ← hmethod.text]
  refine hN.then (hN.kindOf? scope base.text) fun kind => ?_
  cases kind with
  | none => exact hN.fail hbase.span _ (by simp)
  | some kind =>
    cases kind with
    | runtime r =>
      cases r with
      | itxn =>
        refine linked_ite (hN.pure (.some rfl)) (linked_ite (hN.pure (.some rfl)) ?_)
        exact hN.fail hmethod.span _ (by simp)
      | _ => exact hN.fail hbase.span _ (by simp)
    | _ => exact hN.fail hbase.span _ (by simp)

theorem noFields_linked (name : String) (h : R a b) :
    Linked N 0 [] (OwnerRel R) (noFields scope name a) (noFields scope name b) := by
  refine hN.then (hN.kindOf? scope name) fun kind => ?_
  cases kind with
  | none => exact hN.fail h _ (by simp)
  | some kind => exact hN.fail h _ (by simp)

theorem namedOwner_linked (hname : name.Moved R name') :
    Linked N 0 [] (OwnerRel R) (namedOwner scope name) (namedOwner scope name') := by
  unfold namedOwner
  rw [← hname.text]
  refine hN.then (hN.runtimeOf? scope name.text) fun runtime => ?_
  cases runtime with
  | none => exact noFields_linked hN name.text hname.span
  | some r =>
    cases r with
    | txn => exact hN.pure (.some ⟨.txn, rfl, rfl⟩)
    | global => exact hN.pure (.some ⟨.global, rfl, rfl⟩)
    | itxn => exact hN.pure (.some ⟨.itxn, rfl, rfl⟩)
    | gtxn => exact hN.fail hname.span _ (by simp)
    | args => exact noFields_linked hN name.text hname.span

theorem elementOwner_linked (h : R a b) (hbase : base.Moved R base') (hm : Linked N 0 [] (IndexRel R) m m') :
    Linked N 0 [] (OwnerRel R) (elementOwner scope a base m) (elementOwner scope b base' m') := by
  unfold elementOwner
  rw [← hbase.text]
  refine hN.then (hN.runtimeOf? scope base.text) fun runtime => ?_
  cases runtime with
  | none => exact noFields_linked hN base.text hbase.span
  | some r =>
    cases r with
    | gtxn =>
      exact hN.map (versionedIndex_linked hN 3 .dynamicGroup h hm)
        fun _ _ hi => rel_map hi fun _ _ hi => ⟨.gtxn hi, rfl, rfl⟩
    | _ => exact noFields_linked hN base.text hbase.span

theorem fieldOf_linked {o o' : FieldOwner} (ho : o.Moved R o') (hname : name.Moved R name') :
    Linked N 0 [] (Option.Rel Eq) (fieldOf o name) (fieldOf o' name') := by
  unfold fieldOf
  rw [← hname.text, ← ho.table, ← ho.name]
  cases o.table.find? name.text with
  | none => exact hN.fail hname.span _ (by simp)
  | some field =>
    refine hN.then (hN.requireVersion field.minVersion (.field field.name) hname.span) ?_
    exact fun ok => linked_ite (hN.pure (.some rfl)) (hN.pure .none)

theorem requireSource_linked {source source' : FieldSource} (hsource : source.Moved R source')
    (h : R a b) : Linked N 0 [] Eq (requireSource source a) (requireSource source' b) := by
  unfold requireSource
  rw [← hsource.isInner_eq]
  exact linked_ite (hN.requireVersion 5 .innerFields h) (hN.pure rfl)

theorem fieldAccess_linked (h : R a b) (hname : name.Moved R name')
    (howner : Linked N 0 [] (OwnerRel R) owner owner') :
    Linked N 0 [] (ExprRel R) (fieldAccess a name owner) (fieldAccess b name' owner') := by
  refine hN.bindSome howner (hN.pure .none) fun o o' ho => ?_
  refine hN.bindSome (fieldOf_linked hN ho hname) (hN.pure .none) ?_
  rintro field _ rfl
  refine linked_ite (hN.fail hname.span _ (by simp)) ?_
  refine hN.then (requireSource_linked hN ho.source h) fun ok => ?_
  exact linked_ite (hN.pure (.some (.field h ho.source field))) (hN.pure .none)

theorem fieldAtAccess_linked (h : R a b) (hname : name.Moved R name') {c d : Span} (hindex : R c d)
    (howner : Linked N 0 [] (OwnerRel R) owner owner') (hm : Linked N 0 [] (IndexRel R) m m') :
    Linked N 0 [] (ExprRel R) (fieldAtAccess a name c owner m) (fieldAtAccess b name' d owner' m') := by
  refine hN.bindSome howner (hN.pure .none) fun o o' ho => ?_
  refine hN.bindSome (fieldOf_linked hN ho hname) (hN.pure .none) ?_
  rintro field _ rfl
  refine linked_ite (hN.fail hindex _ (by simp)) ?_
  refine hN.bindSome (versionedIndex_linked hN 5 .dynamicArray hindex hm) (hN.pure .none) ?_
  intro i i' hi
  refine hN.then (requireSource_linked hN ho.source h) fun ok => ?_
  refine linked_ite (hN.pure .none) ?_
  rw [← ho.source.isInner_eq, ← hi.isDynamic_eq]
  exact linked_ite (hN.fail h _ (by simp)) (hN.pure (.some (.fieldAt h ho.source field hi)))

theorem functionCall_linked (h : R a b) (f : Nat) (hname : name.Moved R name') (found : Nat)
    {m m' : Build (List (Option Expr))} (hm : Linked N 0 [] (Forall₂ (Option.Rel (Expr.Moved R))) m m') :
    Linked N 0 [] (ExprRel R) (functionCall a f name found m) (functionCall b f name' found m') := by
  unfold functionCall
  rw [← hname.text]
  refine hN.get (fun s s' hs => ?_) fun _ _ _ _ => rfl
  obtain ⟨hnone, hnone'⟩ | ⟨callee, callee', hsome, hsome', hcallee⟩ := getElem?_of_forall₂ hs.functions f
  · rw [hnone, hnone']
    exact hN.map (hN.breach _) fun _ _ _ => .none
  · rw [hsome, hsome']
    dsimp only
    rw [← hcallee.isEntry, ← hcallee.params]
    refine linked_ite (hN.fail hname.span _ (by simp)) ?_
    refine hN.bind hm fun args args' hargs => linked_ite (hN.fail h _ (by simp)) ?_
    have hrel := mapM_id_rel hargs
    generalize (args.mapM id : Option (List Expr)) = r at hrel ⊢
    generalize (args'.mapM id : Option (List Expr)) = r' at hrel ⊢
    cases hrel with
    | none => exact hN.pure .none
    | some hes =>
      exact hN.map hN.freshLabel fun site _ hsite =>
        hsite ▸ .some (.call h f name.text site hes)

theorem callableBuiltin_linked (h : R a b) (hname : name.Moved R name') (found : Nat) :
    Linked N 0 [] (Option.Rel Eq) (callableBuiltin a name found) (callableBuiltin b name' found) := by
  unfold callableBuiltin
  rw [← hname.text]
  cases Builtin.find? name.text with
  | none => exact hN.fail hname.span _ (by simp)
  | some builtin =>
    refine linked_ite (hN.fail hname.span _ (by simp)) ?_
    refine hN.then (hN.requireVersion _ _ hname.span) fun ok => ?_
    refine linked_ite (hN.pure .none) (linked_ite (hN.fail h _ (by simp)) ?_)
    exact hN.pure (.some rfl)

theorem fieldArgument_linked (builtin : String) (position : Nat) (he : e.Moved R e') :
    Linked N 0 [] (Option.Rel Eq) (fieldArgument builtin position e) (fieldArgument builtin position e') := by
  cases he with
  | var h name => exact hN.pure (.some rfl)
  | _ => exact hN.fail (by assumption) _ (by simp)

theorem builtinCall_linked (h : R a b) (builtin : Builtin)
    {m m' : Build (List Builtin.ConstArg × Option (List Expr))} (hm : Linked N 0 [] (ArgumentsRel R) m m') :
    Linked N 0 [] (ExprRel R) (builtinCall a builtin m) (builtinCall b builtin m') := by
  refine hN.bind hm ?_
  rintro ⟨consts, args⟩ ⟨_, args'⟩ ⟨rfl, hargs⟩
  cases hargs with
  | none => exact hN.pure .none
  | some hargs =>
    refine hN.get (fun s s' hs => ?_) fun s version hversion hquiet => ?_
    · rw [← hs.version]
      obtain ⟨fault, heq, heq'⟩ | ⟨call, kept, kept', heq, heq', hkept⟩ :=
        Builtin.instantiate_forall₂ hargs builtin consts s.version
      · rw [heq, heq']
        exact hN.fail h _ (by simp)
      · rw [heq, heq']
        exact hN.pure (.some (.builtin h call hkept))
    · rename_i args _
      cases hcall : builtin.instantiate args consts s.version with
      | error fault =>
        simp only [hcall] at hquiet
        exact absurd hquiet (not_quiet_report a _ s)
      | ok call =>
        have hnewer : builtin.instantiate args consts (s.retarget version).version = .ok call :=
          Builtin.instantiate_newer hversion hcall
        simp only [hnewer]

end Expr

mutual

theorem expr_linked (scope : ScopeId) {e e' : Tree.Expr} (he : e.Moved R e') :
    Linked N 0 [] (ExprRel R) (expr scope e) (expr scope e') := by
  cases he with
  | int h n =>
    rw [expr, expr]
    exact hN.map (hN.internInt n) fun ref _ href => href ▸ .some (.literal h _ ref)
  | bytes h bs =>
    rw [expr, expr]
    exact hN.map (hN.internBytes bs) fun ref _ href => href ▸ .some (.literal h _ ref)
  | var h name =>
    rw [expr, expr]
    exact ident_linked hN h name
  | unary h op he =>
    rw [expr, expr]
    exact hN.map (expr_linked scope he) fun _ _ he => rel_map he fun _ _ he => .unary h op he
  | binary h op hl hr =>
    rw [expr, expr]
    refine hN.bind (expr_linked scope hl) fun l l' hl => ?_
    refine hN.map (expr_linked scope hr) fun r r' hr => ?_
    exact rel_seq (rel_map hl fun _ _ hl _ _ hr => .binary h op hl hr) hr
  | group h he =>
    rw [expr, expr]
    exact hN.map (expr_linked scope he) fun _ _ he => rel_map he fun _ _ he => .group h he
  | @call a b h name name' hname args args' hargs =>
    rw [expr, expr, ← hname.text, ← hargs.length_eq]
    refine hN.then (hN.kindOf? scope name.text) fun kind => ?_
    cases kind with
    | some kind =>
      cases kind with
      | function f => exact functionCall_linked hN h f hname args.length (exprs_linked scope hargs)
      | _ => exact hN.fail hname.span _ (by simp)
    | none =>
      dsimp only
      cases castTy? name.text with
      | some ty =>
        cases hargs with
        | nil => exact hN.fail h _ (by simp)
        | cons he hrest =>
          cases hrest with
          | nil =>
            exact hN.map (expr_linked scope he)
              fun _ _ he => rel_map he fun _ _ he => .cast h ty he
          | cons he' hrest =>
            simp only [length_cons, hrest.length_eq]
            exact hN.fail h _ (by simp)
      | none =>
        refine hN.bindSome (callableBuiltin_linked hN h hname args.length)
          (hN.pure .none) ?_
        rintro builtin _ rfl
        exact builtinCall_linked hN h builtin (arguments_linked scope _ 1 _ hargs)
  | cond h htest hyes hno =>
    rw [expr, expr]
    refine hN.then hN.freshLabel fun label => ?_
    refine hN.bind (expr_linked scope htest) fun test test' htest => ?_
    refine hN.bind (expr_linked scope hyes) fun yes yes' hyes => ?_
    refine hN.map (expr_linked scope hno) fun no no' hno => ?_
    refine rel_seq (rel_seq (rel_map htest ?_) hyes) hno
    exact fun _ _ htest _ _ hyes _ _ hno => .cond h label htest hyes hno
  | element h hbase hi =>
    rw [expr, expr]
    exact element_linked hN h hbase (index_linked hN hi (expr_linked scope hi))
  | field h howner hname =>
    rw [expr, expr]
    exact fieldAccess_linked hN h hname (fieldOwner_linked scope howner)
  | fieldAt h howner hname hi =>
    rw [expr, expr]
    exact fieldAtAccess_linked hN h hname hi.span (fieldOwner_linked scope howner)
      (index_linked hN hi (expr_linked scope hi))
  | method h hbase hmethod hargs =>
    rw [expr, expr, ← hbase.text, ← hmethod.text]
    refine hN.bindSome (innerMethod_linked hN hbase hmethod) (hN.pure .none) ?_
    exact fun _ _ _ => hN.fail h _ (by simp)

theorem fieldOwner_linked (scope : ScopeId) {owner owner' : Tree.Owner} (howner : owner.Moved R owner') :
    Linked N 0 [] (OwnerRel R) (fieldOwner scope owner) (fieldOwner scope owner') := by
  cases howner with
  | name hname =>
    rw [fieldOwner, fieldOwner]
    exact namedOwner_linked hN hname
  | element h hbase hi =>
    rw [fieldOwner, fieldOwner]
    exact elementOwner_linked hN h hbase (index_linked hN hi (expr_linked scope hi))

theorem exprs_linked (scope : ScopeId) {es es' : List Tree.Expr} (hes : Forall₂ (Tree.Expr.Moved R) es es') :
    Linked N 0 [] (Forall₂ (Option.Rel (Expr.Moved R))) (exprs scope es) (exprs scope es') := by
  cases hes with
  | nil => exact hN.pure .nil
  | cons he hes =>
    rw [exprs, exprs]
    refine hN.bind (expr_linked scope he) fun e e' he => ?_
    exact hN.map (exprs_linked scope hes) fun _ _ hes => .cons he hes

theorem arguments_linked (scope : ScopeId) (builtin : String) (position : Nat)
    (shapes : List Builtin.ArgShape) {es es' : List Tree.Expr} (hes : Forall₂ (Tree.Expr.Moved R) es es') :
    Linked N 0 [] (ArgumentsRel R) (arguments scope builtin position shapes es)
      (arguments scope builtin position shapes es') := by
  cases hes with
  | nil => cases shapes <;> exact hN.pure ⟨rfl, .some .nil⟩
  | cons he hes =>
    cases shapes with
    | nil => exact hN.pure ⟨rfl, .some .nil⟩
    | cons shape shapes =>
      rw [arguments, arguments]
      refine linked_ite ?_ ?_
      · refine hN.bind (fieldArgument_linked hN builtin position he) fun const const' hconst => ?_
        refine hN.map (arguments_linked scope builtin (position + 1) shapes hes) ?_
        rintro ⟨consts, args⟩ ⟨_, args'⟩ ⟨rfl, hargs⟩
        cases hconst with
        | none => exact ⟨rfl, .none⟩
        | some hconst => exact ⟨hconst ▸ rfl, hargs⟩
      · refine hN.then (known_linked hN scope he) fun const => ?_
        refine hN.bind (expr_linked scope he) fun e e' he => ?_
        refine hN.map (arguments_linked scope builtin (position + 1) shapes hes) ?_
        rintro ⟨consts, args⟩ ⟨_, args'⟩ ⟨rfl, hargs⟩
        exact ⟨rfl, rel_seq (rel_map he fun _ _ he _ _ hargs => .cons he hargs) hargs⟩

end

/-! ### Declarations and assignments -/

section Stmt

variable {scope : ScopeId} {a b : Span} {names names' : List Ident} {c d : Span} {value value' : Tree.Expr}

theorem bindNames_linked (scope : ScopeId) (hnames : Forall₂ (Ident.Moved R) names names')
    (tys : List Ty) (ok : Bool) :
    Linked N 0 [] Eq (bindNames scope names tys ok) (bindNames scope names' tys ok) := by
  induction hnames generalizing tys ok with
  | nil => exact hN.pure rfl
  | cons hname _ ih =>
    rw [bindNames, bindNames]
    exact hN.then (hN.declareVariable scope hname _) fun declared =>
      ih tys.tail (ok && declared)

theorem requireCount_linked (values names : Nat) (h : R a b) :
    Linked N 0 [] Eq (requireCount values names a) (requireCount values names b) :=
  linked_ite (hN.pure rfl) (hN.map (hN.report h rfl rfl (by simp)) fun _ _ _ => rfl)

section Bind

variable (h : R a b) (hnames : Forall₂ (Ident.Moved R) names names') (hvalueSpan : R c d)
  {value value' : Option Expr} (hvalue : Option.Rel (Expr.Moved R) value value')

include h hnames hvalueSpan hvalue

theorem bindVariables_linked :
    Linked N 0 [] (StmtRel R) (bindVariables a scope names c value)
      (bindVariables b scope names' d value') := by
  unfold bindVariables
  rw [← hnames.length_eq]
  refine hN.reportIf h (fun _ => rfl) ?_ (by simp)
  cases hvalue with
  | none => exact hN.map (bindNames_linked hN scope hnames [] false) fun _ _ _ => .none
  | @some e e' he =>
    have hbind (tys : List Ty) (ok : Bool) : Linked N 0 [] (StmtRel R)
        (bindNames scope names tys ok >>= fun bound => if bound = true
          then pure (some (Stmt.varDecl a scope names e)) else pure none)
        (bindNames scope names' tys ok >>= fun bound => if bound = true
          then pure (some (Stmt.varDecl b scope names' e')) else pure none) := by
      refine hN.then (bindNames_linked hN scope hnames tys ok) fun bound => ?_
      exact linked_ite (hN.pure (.some (.varDecl h scope hnames he))) (hN.pure .none)
    refine hN.then (resultTypes_linked hN he) fun tys => linked_ite ?_ (hbind tys false)
    exact hN.then (requireCount_linked hN _ _ hvalueSpan) fun ok => hbind tys ok

theorem bindConstant_linked :
    Linked N 0 [] (StmtRel R) (bindConstant a scope names c value)
      (bindConstant b scope names' d value') := by
  unfold bindConstant
  cases hnames with
  | nil => exact hN.fail h _ (by simp)
  | @cons name name' rest rest' hname hrest =>
    cases hrest with
    | cons hother hrest =>
      simp only [length_cons, hrest.length_eq]
      exact hN.fail h _ (by simp)
    | nil =>
      cases hvalue with
      | none => exact hN.map (hN.declare scope hname _ _) fun _ _ _ => .none
      | @some e e' he =>
        refine hN.then (hN.visit _ _) fun _ => hN.get (fun s s' hs => ?_) fun s version _ _ => ?_
        · rw [← constantValue?_eq hs he, ← hname.text]
          cases constantValue? s e with
          | none =>
            refine hN.then (hN.report hvalueSpan rfl rfl (by simp)) fun _ => ?_
            exact hN.map (hN.declare scope hname _ _) fun _ _ _ => .none
          | some found =>
            refine hN.then (hN.declare scope hname _ _) fun ok => ?_
            refine linked_ite (hN.pure .none) (linked_ite (hN.pure .none) ?_)
            exact hN.pure (.some (.constDecl h hname he))
        · rw [constantValue?_version]

end Bind

theorem declaration_linked (scope : ScopeId) (h : R a b) {decl decl' : Tree.Decl}
    (hdecl : decl.Moved R decl') :
    Linked N 1 [] (PairRel R) (declaration scope a decl) (declaration scope b decl') := by
  unfold declaration
  rw [← hdecl.isConst]
  refine hN.bind (expr_linked hN scope hdecl.value) fun value value' hvalue => ?_
  refine hN.inside (k := 0) fun inner => ?_
  dsimp only
  split
  · exact hN.map (bindConstant_linked hN h hdecl.names hdecl.value.span hvalue)
      fun _ _ hstmt => ⟨hstmt, rfl⟩
  · exact hN.map (bindVariables_linked hN h hdecl.names hdecl.value.span hvalue)
      fun _ _ hstmt => ⟨hstmt, rfl⟩

theorem assignedName_linked {target target' : Tree.Target} (htarget : target.Moved R target') :
    Linked N 0 [] (Option.Rel (Ident.Moved R)) (assignedName scope target) (assignedName scope target') := by
  cases htarget with
  | var h name =>
    refine hN.then (hN.kindOf? scope name) fun kind => ?_
    cases kind with
    | none => exact hN.fail h _ (by simp)
    | some kind =>
      cases kind with
      | «variable» slot => exact hN.pure (.some ⟨rfl, h⟩)
      | _ => exact hN.fail h _ (by simp)
  | field h base hfield =>
    rw [assignedName, assignedName, ← hfield.text]
    exact hN.fail h _ (by simp)

theorem assignedNames_linked {targets targets' : List Tree.Target}
    (htargets : Forall₂ (Tree.Target.Moved R) targets targets') :
    Linked N 0 [] (Forall₂ (Option.Rel (Ident.Moved R))) (targets.mapM (assignedName scope))
      (targets'.mapM (assignedName scope)) := by
  induction htargets with
  | nil => exact hN.pure .nil
  | cons htarget _ ih =>
    rw [mapM_cons, mapM_cons]
    refine hN.bind (assignedName_linked hN htarget) fun name name' hname => ?_
    exact hN.map ih fun _ _ hnames => .cons hname hnames

variable {first first' : Tree.Target} {others others' : List Tree.Target} {name name' : Ident}

theorem assignNames_linked (h : R a b) (hfirst : first.Moved R first')
    (hothers : Forall₂ (Tree.Target.Moved R) others others')
    (hall : R (Tree.targetsSpan first others) (Tree.targetsSpan first' others'))
    (hvalue : value.Moved R value') : Linked N 0 [] (StmtRel R) (assignNames scope a first others value)
      (assignNames scope b first' others' value') := by
  have htargets : Forall₂ (Tree.Target.Moved R) (first :: others) (first' :: others') :=
    .cons hfirst hothers
  unfold assignNames
  simp only [← htargets.length_eq]
  refine hN.reportIf hall (fun _ => rfl) ?_ (by simp)
  refine hN.bind (assignedNames_linked hN htargets) fun names names' hnames => ?_
  refine hN.bindSome (expr_linked hN scope hvalue) (hN.pure .none) fun e e' he => ?_
  refine hN.then (resultTypes_linked hN he) fun tys => ?_
  have hall := mapM_id_rel hnames
  generalize (names.mapM id : Option (List Ident)) = r at hall ⊢
  generalize (names'.mapM id : Option (List Ident)) = r' at hall ⊢
  cases hall with
  | none => exact hN.pure .none
  | some hnames =>
    refine linked_ite (hN.pure .none) ?_
    refine hN.then (requireCount_linked hN _ _ he.span) fun ok => ?_
    exact linked_ite (hN.pure (.some (.assign h scope hnames he))) (hN.pure .none)

theorem settableField_linked (hname : name.Moved R name') :
    Linked N 0 [] Eq (settableField name) (settableField name') := by
  unfold settableField
  rw [← hname.text]
  cases Field.Table.txn.find? name.text with
  | none => exact hN.map (hN.report hname.span rfl rfl (by simp)) fun _ _ _ => rfl
  | some field =>
    refine linked_ite (hN.map (hN.report hname.span rfl rfl (by simp)) fun _ _ _ => rfl) ?_
    refine hN.then (hN.requireVersion _ _ hname.span) fun _ => ?_
    exact linked_ite (hN.pure rfl) (hN.pure rfl)

theorem assignField_linked (h : R a b) (htarget : R c d) (base : String) (hname : name.Moved R name')
    (hvalue : value.Moved R value') : Linked N 0 [] (StmtRel R) (assignField scope a c base name value)
      (assignField scope b d base name' value') := by
  refine hN.then (hN.runtimeOf? scope base) fun runtime => ?_
  refine hN.bind (expr_linked hN scope hvalue) fun e e' he => ?_
  refine linked_ite (hN.fail htarget _ (by simp)) ?_
  refine hN.then (settableField_linked hN hname) fun field => ?_
  cases field with
  | none => exact hN.pure .none
  | some field =>
    refine hN.then (hN.requireVersion _ _ htarget) fun _ => ?_
    exact linked_ite (hN.pure .none)
      (hN.pure (rel_map he fun _ _ he => .setField h field he))

theorem assignment_linked (h : R a b) (hfirst : first.Moved R first')
    (hothers : Forall₂ (Tree.Target.Moved R) others others')
    (hall : R (Tree.targetsSpan first others) (Tree.targetsSpan first' others'))
    (hvalue : value.Moved R value') : Linked N 0 [] (StmtRel R) (assignment scope a first others value)
      (assignment scope b first' others' value') := by
  have hnames : Linked N 0 [] (StmtRel R) (assignNames scope a first others value)
      (assignNames scope b first' others' value') := assignNames_linked hN h hfirst hothers hall hvalue
  cases hfirst with
  | var htarget name => exact hnames
  | field htarget base hfield =>
    cases hothers with
    | nil => exact assignField_linked hN h htarget base hfield hvalue
    | cons hother hothers => exact hnames

theorem methodCall_linked (h : R a b) (hcall : R c d) {base base' method method' : Ident}
    (hbase : base.Moved R base') (hmethod : method.Moved R method') (found : Nat) :
    Linked N 0 [] (StmtRel R) (methodCall scope a c base method found)
      (methodCall scope b d base' method' found) := by
  refine hN.bindSome (innerMethod_linked hN hbase hmethod) (hN.pure .none) ?_
  rintro submits _ rfl
  rw [← hbase.text, ← hmethod.text]
  refine linked_ite (hN.fail hcall _ (by simp)) ?_
  refine hN.then (hN.requireVersion _ _ hcall) fun _ => ?_
  refine linked_ite (hN.pure .none) (hN.pure (.some ?_))
  cases submits
  · exact .innerBegin h
  · exact .innerSubmit h

theorem exprStmt_linked (h : R a b) {e e' : Tree.Expr} (he : e.Moved R e') :
    Linked N 0 [] (StmtRel R) (exprStmt scope a e) (exprStmt scope b e') := by
  have hexpr : Linked N 0 [] (StmtRel R)
      (expr scope e >>= fun e => pure (e.map (.expr a)))
      (expr scope e' >>= fun e => pure (e.map (.expr b))) :=
    hN.map (expr_linked hN scope he) fun _ _ he => rel_map he fun _ _ he => .expr h he
  cases he with
  | method hcall hbase hmethod hargs =>
    rw [exprStmt, exprStmt, ← hargs.length_eq]
    exact methodCall_linked hN h hcall hbase hmethod _
  | _ => exact hexpr

end Stmt

/-- Before the first block of a statement stands its test. -/
theorem tested_linked (scope : ScopeId) {test test' : Tree.Expr} (htest : test.Moved R test') {α β : Type}
    {V : α → β → Prop} {k : Nat} {spans : List Span} {f : Nat → Option Expr → ScopeId → Build α}
    {f' : Nat → Option Expr → ScopeId → Build β}
    (hf : ∀ label e e' inner, ExprRel R e e' → Linked N k spans V (f label e inner) (f' label e' inner)) :
    Linked N (1 + k) spans V
      (do
        let label ← freshLabel
        let e ← expr scope test
        f label e (← openScope .block scope))
      (do
        let label ← freshLabel
        let e ← expr scope test'
        f' label e (← openScope .block scope)) := by
  refine hN.then hN.freshLabel fun label => hN.bind (expr_linked hN scope htest) fun e e' he => ?_
  exact hN.inside fun inner => hf label e e' inner he

mutual

theorem stmt_linked (depth : Nat) (scope : ScopeId) {s s' : Tree.Stmt} (hs : s.Moved R s') :
    Linked N s.opened (Tree.strays (s.breaks depth)) (PairRel R) (stmt depth scope s)
      (stmt depth scope s') := by
  cases hs with
  | decl h hd => rw [stmt, stmt]; exact declaration_linked hN scope h hd
  | assign h hfirst hothers hall hvalue =>
    rw [stmt, stmt]
    exact hN.map (assignment_linked hN h hfirst hothers hall hvalue) fun _ _ h => ⟨h, rfl⟩
  | ret h hvalue =>
    rw [stmt, stmt]
    exact hN.map (expr_linked hN scope hvalue) fun _ _ he => ⟨rel_map he fun _ _ he => .ret h he, rfl⟩
  | error h => rw [stmt, stmt]; exact hN.pure ⟨.some (.error h), rfl⟩
  | breakLoop h =>
    rw [stmt, stmt]
    cases depth with
    | zero => exact hN.map (hN.stray h) fun _ _ h => ⟨h, rfl⟩
    | succ depth => exact hN.pure ⟨.some (.breakLoop h), rfl⟩
  | ifThen h htest c d hyes =>
    rw [stmt, stmt]
    refine tested_linked hN scope htest fun label _ _ inner htest => ?_
    exact hN.map (block_linked depth inner hyes)
      fun _ _ hyes => ⟨rel_map htest fun _ _ htest => .ifThen h label htest hyes, rfl⟩
  | ifElse h htest c d e f hyes hno =>
    rw [stmt, stmt, Tree.Stmt.opened, Tree.Stmt.breaks, Tree.strays_append, Nat.add_assoc]
    refine tested_linked hN scope htest fun label _ _ inner htest => ?_
    refine hN.add (block_linked depth inner hyes) fun yes yes' hyes => hN.inside fun inner => ?_
    exact hN.map (block_linked depth inner hno)
      fun _ _ hno => ⟨rel_map htest fun _ _ htest => .ifElse h label htest hyes hno, rfl⟩
  | loop h htest c d hbody =>
    rw [stmt, stmt]
    refine tested_linked hN scope htest fun label _ _ inner htest => ?_
    exact hN.map (block_linked (depth + 1) inner hbody)
      fun _ _ hbody => ⟨rel_map htest fun _ _ htest => .loop h label htest hbody, rfl⟩
  | expr h hvalue =>
    rw [stmt, stmt]
    exact hN.map (exprStmt_linked hN h hvalue) fun _ _ h => ⟨h, rfl⟩
termination_by sizeOf s

theorem block_linked (depth : Nat) (scope : ScopeId) {stmts stmts' : List Tree.Stmt}
    (hstmts : Forall₂ (Tree.Stmt.Moved R) stmts stmts') :
    Linked N (Tree.blockOpened stmts) (Tree.strays (Tree.blockBreaks depth stmts)) (Forall₂ (Stmt.Moved R))
      (block depth scope stmts) (block depth scope stmts') := by
  cases hstmts with
  | nil => exact hN.pure .nil
  | cons hs hrest =>
    rw [block, block, Tree.blockOpened, Tree.blockBreaks, Tree.strays_append]
    refine hN.add (stmt_linked depth scope hs) ?_
    rintro ⟨built, after⟩ ⟨built', _⟩ ⟨hbuilt, rfl⟩
    exact hN.map (block_linked depth after hrest) fun _ _ hrest => forall₂_toList_append hbuilt hrest
termination_by sizeOf stmts

end

/-! ### Functions and programs -/

section Item

variable {scope : ScopeId} {a b : Span} {ps ps' : List Tree.Param}

theorem parameters_linked (isEntry : Bool) (scope : ScopeId) (hps : Forall₂ (Tree.Param.Moved R) ps ps') (i : Nat) :
    Linked N 0 [] (Forall₂ (ParamMoved R)) (parameters isEntry scope i ps) (parameters isEntry scope i ps') := by
  induction hps generalizing i with
  | nil => exact hN.pure .nil
  | cons hp _ ih =>
    rw [parameters, parameters, declareParam, declareParam, paramTy_eq hp]
    refine hN.then (linked_ite (hN.declare scope hp.name _ _) (hN.declareVariable scope hp.name _)) fun _ => ?_
    exact hN.map (ih (i + 1)) fun _ _ hps => .cons ⟨hp.name, rfl⟩ hps

variable {f f' : Tree.Function} (hf : f.Moved R f') {name name' : String} {isMain isMain' : Bool}

include hf

theorem checkEntry_linked (hmain : isMain = isMain') (hname : isMain = false → name = name') :
    Linked N 0 [] Eq (checkEntry f name isMain) (checkEntry f' name' isMain') := by
  have hlast : Linked N 0 [] Eq (do if (← get).entry.isSome then report f.name.span .entryTwice)
      (do if (← get).entry.isSome then report f'.name.span .entryTwice) := by
    refine hN.get (fun s s' hs => ?_) fun _ _ _ _ => rfl
    rw [← hs.entry]
    exact linked_ite (hN.report hf.name.span rfl rfl (by simp)) (hN.pure rfl)
  unfold checkEntry
  rw [← hmain, ← hf.inline, ← hf.params.length_eq]
  refine hN.reportIf hf.name.span (fun h => ?_) ?_ (by simp)
  · rw [hname (by simpa using h)]
  refine hN.reportIf hf.name.span (fun _ => rfl) (hN.reportIf hf.name.span (fun _ => rfl) ?_ (by simp)) (by simp)
  have htyped := find?_typed_rel hf.params
  generalize f.params.find? (·.type.isSome) = r at htyped ⊢
  generalize f'.params.find? (·.type.isSome) = r' at htyped ⊢
  cases htyped with
  | none => exact hlast
  | some hp =>
    dsimp only
    rw [← hp.name.text]
    exact hN.then (hN.report hp.name.span rfl rfl (by simp)) fun _ => hlast

theorem checkFunction_linked (hplace : SamePlace f name name' isMain isMain') :
    Linked N 0 [] Eq (checkFunction f name isMain) (checkFunction f' name' isMain') := by
  unfold checkFunction
  rw [← hf.name.text, ← hf.inline]
  refine hN.reportIf hf.name.span (fun _ => rfl) (hN.reportIf hf.name.span (fun _ => rfl) ?_ (by simp)) (by simp)
  split
  case isTrue h =>
    obtain ⟨hmain, hname⟩ := hplace (by simpa using h)
    exact checkEntry_linked hN hf hmain hname
  case isFalse =>
    refine linked_ite ?_ (hN.pure rfl)
    exact hN.map (hN.requireVersion _ _ hf.name.span) fun _ _ _ => rfl

omit hf in
theorem addFunction_linked {built built' : Function} (hbuilt : built.Moved R built')
    (hmain : built.isEntry = true → isMain = isMain') :
    Linked N 1 [] Eq (addFunction built isMain) (addFunction built' isMain') := by
  -- The state is read and written back as a whole; only its functions are other ones then.
  have hstart (built : Function) (isMain : Bool) : addFunction built isMain = (do
      let b ← get
      modify fun b => { b with functions := b.functions ++ [built] }
      let after ← openScope .decl b.tip
      let _ ← declare after built.name built.returnTy (.function b.functions.length)
      modify fun u => { u with
        tip := after
        entry := if built.isEntry && isMain then u.entry.or (some b.functions.length) else u.entry }) := rfl
  rw [hstart, hstart]
  refine hN.get (fun s s' hs => ?_) fun _ _ _ _ => rfl
  rw [← hs.functions.length_eq, ← hbuilt.returnTy, ← hbuilt.isEntry, ← hs.tip]
  have hpush : Linked N 0 [] Eq (modify fun b => { b with functions := b.functions ++ [built] } : Build Unit)
      (modify fun b => { b with functions := b.functions ++ [built'] } : Build Unit) := fun u u' hu =>
    ⟨rfl, { hu with functions := rel_append hu.functions (.cons hbuilt.alike .nil) },
      hN.of_function hbuilt u u'⟩
  refine hN.then hpush fun _ => hN.inside (k := 0) fun after => ?_
  refine hN.then (hN.declare after hbuilt.name _ _) fun _ => hN.change (fun u u' hu => ?_)
    (fun _ => ⟨rfl, rfl, rfl, rfl, rfl, fun _ => rfl⟩) (fun _ => ⟨rfl, rfl, rfl, rfl, rfl, fun _ => rfl⟩)
  refine ⟨rfl, { hu with tip := rfl, entry := ?_ }⟩
  have hentry := hu.entry
  dsimp only
  cases hisEntry : built.isEntry with
  | true => rw [hmain hisEntry, hentry]
  | false => exact hentry

theorem function_linked (hplace : SamePlace f name name' isMain isMain') :
    Linked N (1 + (Tree.blockOpened f.body.stmts + 1)) (Tree.strays (Tree.blockBreaks 0 f.body.stmts)) Eq
      (function a f name isMain) (function b f' name' isMain') := by
  unfold function
  refine hN.then (checkFunction_linked hN hf hplace) fun _ => hN.get (fun s s' hs => ?_) fun _ _ _ _ => rfl
  rw [← hs.tip, ← hf.name.text, ← append_nil (Tree.strays _)]
  refine hN.inside fun scope => ?_
  refine hN.bind (parameters_linked hN _ scope hf.params 0) fun params params' hparams => ?_
  refine hN.add (block_linked hN 0 scope hf.body) fun body body' hbody => ?_
  refine hN.then (hN.visit _ _) fun _ => hN.get (fun u u' hu => ?_) fun _ _ _ _ => rfl
  rw [← blockFirstReturn?_eq hu.scopes hu.functions hbody]
  refine addFunction_linked hN ⟨hf.name, hf.inline, rfl, hparams, rfl, hbody, rfl⟩ fun hentry => ?_
  exact (hplace (by simpa using hentry)).1

omit hf in
theorem item_linked {i i' : Tree.Item} (hi : i.Moved R i')
    (hplace : ∀ span f, i = .function span f → SamePlace f name name' isMain isMain') :
    Linked N i.opened (Tree.strays i.breaks) Eq (item name isMain i) (item name' isMain' i') := by
  cases hi with
  | decl h hd =>
    refine hN.get (fun s s' hs => ?_) fun _ _ _ _ => rfl
    rw [← hs.tip]
    refine hN.add (k := 0) (declaration_linked hN s.tip h hd) ?_
    rintro ⟨stmt, after⟩ ⟨stmt', _⟩ ⟨hstmt, rfl⟩
    have hstmts := forall₂_toList_append hstmt .nil
    rw [append_nil, append_nil] at hstmts
    exact fun u u' hu => ⟨rfl, { hu with tip := rfl }, hN.of_globals after hstmts u u'⟩
  | function h hf => exact function_linked hN hf (hplace _ _ rfl)

end Item

section Program

theorem machineName_linked (r : Runtime) : Linked N 0 [] Eq (machineName r) (machineName r) := by
  refine hN.look (fun b b' hb => ?_) fun _ _ _ _ => rfl
  have houtcome := Scopes.declare_of_erase hb.scopes Scopes.root (Eq.refl (Ident.text ⟨r.text, .nowhere⟩))
    .unknown (.runtime r)
  generalize hr : Scopes.declare Scopes.root ⟨r.text, .nowhere⟩ .unknown (.runtime r) b.scopes = o at houtcome ⊢
  generalize Scopes.declare Scopes.root ⟨r.text, .nowhere⟩ .unknown (.runtime r) b'.scopes = o' at houtcome ⊢
  cases houtcome with
  | ok h =>
    refine hN.setScopes hb h ?_
    obtain ⟨_, rfl⟩ := Scopes.declare_eq_ok hr
    exact Scopes.insert_size _
  | error h => exact hN.breach _ b b' hb

theorem program_linked {ms ms' : List Tree.SourceModule}
    (h : Forall₂ (Placed.Moved R) (placed ms) (placed ms')) :
    Linked N (1 + (placed ms).foldr (·.item.opened + ·) 0)
      ((placed ms).flatMap fun p => Tree.strays p.item.breaks) Eq (program ms) (program ms') := by
  refine hN.then (machineName_linked hN .global) fun _ => hN.then (machineName_linked hN .itxn) fun _ => ?_
  refine hN.inside fun tip => ?_
  refine hN.then (hN.change (fun _ _ hb => ⟨rfl, { hb with tip := rfl }⟩)
    (fun _ => ⟨rfl, rfl, rfl, rfl, rfl, fun _ => rfl⟩) (fun _ => ⟨rfl, rfl, rfl, rfl, rfl, fun _ => rfl⟩)) fun _ => ?_
  rw [modules_eq_placed, modules_eq_placed]
  exact hN.forM (fun _ _ hp => item_linked hN hp.item hp.place) h

end Program

end Linked

end Build

end Program

end Teal
