import Teal.Proofs.Scope.Hiding

/-! When a declaration is refused, and what it changes. Both are told from the bindings that the scopes
above hold: a name is refused if its block holds it, if its nearest binding is not a variable, or if it
needs a slot and none is left. A refused declaration changes nothing. One that is accepted adds its
symbol to one scope, and this is seen under its name, from the scope itself and from those inside of it
whose way up to it meets no other binding; nothing else is seen differently from anywhere. -/

namespace Teal.Scopes

open List

def Names (s : Scopes) (id : ScopeId) (name : String) : Prop := ∃ x, s.Declares id x ∧ x.name = name

/-- Going to parents, one comes from a scope to another, and no scope on the way before it holds the
name. -/
inductive Sees (s : Scopes) (name : String) : ScopeId → ScopeId → Prop
  | here (id : ScopeId) : Sees s name id id
  | up {inner middle outer : ScopeId} (hfree : ¬s.Names inner name)
      (hparent : s.parent? inner = some middle) (hrest : Sees s name middle outer) :
      Sees s name inner outer

def Nearest (s : Scopes) (name : String) (id : ScopeId) (x : Symbol) : Prop :=
  ∃ home, s.Sees name id home ∧ s.Declares home x ∧ x.name = name

/-- A name is held by a scope, or by one above it that is reached through declarations alone: at the
latest by the scope of its block. -/
def Taken (s : Scopes) (id : ScopeId) (name : String) : Prop :=
  s.Names id name ∨ ∃ outer, s.SharesBlock id outer ∧ s.Names outer name

/-- Why a symbol may not be added to a scope. -/
inductive Refuses (s : Scopes) (id : ScopeId) (symbol : Symbol) : Fault → Prop
  | taken {x : Symbol} (htaken : s.Taken id symbol.name) (hx : s.Nearest symbol.name id x) :
      Refuses s id symbol (.alreadyDeclared symbol.name x.span)
  | hidden {x : Symbol} (hfree : ¬s.Taken id symbol.name) (hx : s.Nearest symbol.name id x)
      (hkind : x.kind.isVariable = false) :
      Refuses s id symbol (.immutable symbol.name x.kind x.span)
  | full (hfree : ¬s.Taken id symbol.name)
      (hhides : ∀ x, s.Nearest symbol.name id x → x.kind.isVariable = true)
      (hkind : symbol.kind.isVariable = true) (hused : s.used = maxSlots) :
      Refuses s id symbol .outOfSlots

def Operation.symbol? (s : Scopes) : Operation → Option Symbol
  | .newBlock _ | .newDecl _ => none
  | .declareVariable _ name ty => some ⟨name.text, ty, .variable s.used, name.span⟩
  | .declareConstant _ name ty value => some ⟨name.text, ty, .constant value, name.span⟩
  | .declareFunction _ name index returnTy => some ⟨name.text, returnTy, .function index, name.span⟩
  | .declareRuntime _ name runtime => some ⟨name.text, .unknown, .runtime runtime, name.span⟩

/-! ### The nearest binding -/

section Nearest

variable {s t : Scopes} {id inner outer : ScopeId} {name : String} {x y : Symbol}

theorem Declares.names (h : s.Declares id x) : s.Names id x.name := ⟨x, h, rfl⟩

/-- What is seen above depends on the parents and on the scopes that hold the name alone. -/
theorem Sees.imp (hparents : ∀ i, t.parent? i = s.parent? i)
    (hnames : ∀ i, t.Names i name → s.Names i name) (h : s.Sees name inner outer) :
    t.Sees name inner outer := by
  induction h with
  | here id => exact .here id
  | up hfree hparent _ ih =>
    exact .up (fun hbound => hfree (hnames _ hbound)) ((hparents _).trans hparent) ih

/-- A scope that does not hold a name sees under it what its parent sees. -/
theorem lookup_parent (hs : s.Valid) (hfree : ¬s.Names inner name)
    (hparent : s.parent? inner = some outer) : s.lookup inner name = s.lookup outer name := by
  obtain ⟨scope, hscope, hsome⟩ := Option.bind_eq_some_iff.mp hparent
  exact (lookup_cases hscope hsome (hs.parents hparent).1 name).resolve_left hfree

theorem lookup_of_root (hfree : ¬s.Names id name) (hparent : s.parent? id = none) :
    s.lookup id name = none := by
  cases hscope : s.arena[id]? with
  | none => rw [lookup, Scopes.path, hscope, findSome?_nil]
  | some scope =>
    rw [parent?_of_get hscope] at hparent
    cases hfind : scope.find? name with
    | none => simp [lookup, Scopes.path, hscope, hparent, hfind]
    | some x =>
      have hname : x.name = name := by simpa using find?_some hfind
      exact absurd ⟨x, ⟨scope, hscope, mem_of_find?_eq_some hfind⟩, hname⟩ hfree

theorem Sees.lookup_eq (hs : s.Valid) (h : s.Sees name inner outer) :
    s.lookup inner name = s.lookup outer name := by
  induction h with
  | here => rfl
  | up hfree hparent _ ih => exact (lookup_parent hs hfree hparent).trans ih

/-- What is looked up is the nearest binding. -/
theorem lookup_eq_some_iff (hs : s.Valid) : s.lookup id name = some x ↔ s.Nearest name id x := by
  constructor
  · intro h
    induction id using Nat.strongRecOn with
    | ind id ih =>
      by_cases hbound : s.Names id name
      · obtain ⟨y, hy, rfl⟩ := hbound
        obtain rfl : x = y := Option.some.inj (h.symm.trans (lookup_of_declares hs hy))
        exact ⟨id, .here id, hy, rfl⟩
      · cases hparent : s.parent? id with
        | none =>
          rw [lookup_of_root hbound hparent] at h
          cases h
        | some parent =>
          rw [lookup_parent hs hbound hparent] at h
          obtain ⟨home, hsees, hx⟩ := ih parent (hs.parents hparent).1 h
          exact ⟨home, .up hbound hparent hsees, hx⟩
  · rintro ⟨home, hsees, hx, rfl⟩
    rw [hsees.lookup_eq hs]
    exact lookup_of_declares hs hx

end Nearest

/-! ### Refusals -/

section Permits

variable {s : Scopes} {id : ScopeId} {name : String} {x : Symbol}

theorem ownBlock_isPrefix (path : List Scope) : ownBlock path <+: path := by
  induction path with
  | nil => exact nil_prefix
  | cons scope rest ih =>
    rw [ownBlock]
    cases scope.kind with
    | block => exact cons_prefix_cons.mpr ⟨rfl, nil_prefix⟩
    | decl => exact cons_prefix_cons.mpr ⟨rfl, ih⟩

/-- What a block holds under a name is the nearest binding. -/
theorem lookup_of_ownBlock (h : (ownBlock (s.path id)).findSome? (·.find? name) = some x) :
    s.lookup id name = some x :=
  (ownBlock_isPrefix _).findSome?_eq_some h

/-- Names that a scope shares with its parent's block are those of the parent's block. -/
theorem Taken.of_parent {parent : ScopeId} {scope : Scope} (hscope : s.arena[id]? = some scope)
    (hkind : scope.kind = .decl) (hparent : scope.parent = some parent) (h : s.Taken parent name) :
    s.Taken id name := by
  rcases h with hbound | ⟨outer, hshares, hbound⟩
  · exact .inr ⟨parent, .parent hscope hkind hparent, hbound⟩
  · exact .inr ⟨outer, .further hscope hkind hparent hshares, hbound⟩

theorem taken_of_ownBlock (hs : s.Valid)
    (h : (ownBlock (s.path id)).findSome? (·.find? name) = some x) : s.Taken id name := by
  induction id using Nat.strongRecOn with
  | ind id ih =>
    cases hscope : s.arena[id]? with
    | none =>
      rw [Scopes.path, hscope] at h
      cases h
    | some scope =>
      cases hfind : scope.find? name with
      | some y =>
        have hname : y.name = name := by simpa using find?_some hfind
        exact .inl ⟨y, ⟨scope, hscope, mem_of_find?_eq_some hfind⟩, hname⟩
      | none =>
        cases hkind : scope.kind with
        | block =>
          rw [Scopes.path, hscope] at h
          simp [ownBlock, hkind, hfind] at h
        | decl =>
          cases hparent : scope.parent with
          | none =>
            rw [Scopes.path, hscope] at h
            simp [ownBlock, hkind, hparent, hfind] at h
          | some parent =>
            have hlt := hs.parent_lt hscope hparent
            rw [path_eq_cons hscope hparent hlt, ownBlock, hkind, findSome?_cons, hfind] at h
            exact (ih parent hlt h).of_parent hscope hkind hparent

theorem not_taken_of_ownBlock (hs : s.Valid)
    (h : (ownBlock (s.path id)).findSome? (·.find? name) = none) : ¬s.Taken id name := by
  rintro (⟨y, hy, hname⟩ | ⟨outer, hshares, y, hy, hname⟩)
  · exact find?_ownBlock h y hy hname
  · exact ne_of_ownBlock hs hshares hy h hname

/-- A name may be declared just if its block does not hold it and its nearest binding is a variable, if it
has one. -/
theorem permits_eq_ok_iff (hs : s.Valid) : s.permits id name = .ok () ↔
    ¬s.Taken id name ∧ ∀ x, s.Nearest name id x → x.kind.isVariable = true := by
  constructor
  · intro h
    refine ⟨not_taken_of_ownBlock hs (ownBlock_of_permits h), fun x hx => ?_⟩
    exact (fresh_of_permits h).2 x ((lookup_eq_some_iff hs).mpr hx)
  · rintro ⟨hfree, hhides⟩
    unfold permits
    split
    · next x hown => exact absurd (taken_of_ownBlock hs hown) hfree
    · split
      · rfl
      · next x hx => rw [if_pos (hhides x ((lookup_eq_some_iff hs).mp hx))]

theorem permits_eq_error_iff (hs : s.Valid) {fault : Fault} : s.permits id name = .error fault ↔
    (∃ x, s.Taken id name ∧ s.Nearest name id x ∧ fault = .alreadyDeclared name x.span) ∨
    ∃ x, ¬s.Taken id name ∧ s.Nearest name id x ∧ x.kind.isVariable = false ∧
      fault = .immutable name x.kind x.span := by
  have huniq : ∀ {x y}, s.lookup id name = some x → s.Nearest name id y → x = y := fun hx hy =>
    Option.some.inj (hx.symm.trans ((lookup_eq_some_iff hs).mpr hy))
  constructor
  · intro h
    unfold permits at h
    split at h
    · next x hown =>
      cases h
      exact .inl ⟨x, taken_of_ownBlock hs hown, (lookup_eq_some_iff hs).mp (lookup_of_ownBlock hown), rfl⟩
    · next hown =>
      split at h
      · cases h
      · next x hx =>
        split at h
        · cases h
        · next hkind =>
          cases h
          exact .inr ⟨x, not_taken_of_ownBlock hs hown, (lookup_eq_some_iff hs).mp hx,
            Bool.eq_false_iff.mpr hkind, rfl⟩
  · intro h
    unfold permits
    split
    · next y hown =>
      rcases h with ⟨x, _, hx, rfl⟩ | ⟨x, hfree, _⟩
      · rw [huniq (lookup_of_ownBlock hown) hx]
      · exact absurd (taken_of_ownBlock hs hown) hfree
    · next hown =>
      rcases h with ⟨x, htaken, _⟩ | ⟨x, _, hx, hkind, rfl⟩
      · exact absurd htaken (not_taken_of_ownBlock hs hown)
      · rw [(lookup_eq_some_iff hs).mpr hx]
        simp [hkind]

end Permits

/-! ### What a declaration does -/

/-- A tree is another with one more symbol in one of its scopes. -/
structure Adds (s : Scopes) (id : ScopeId) (symbol : Symbol) (t : Scopes) : Prop where
  parents : ∀ i, t.parent? i = s.parent? i
  declares : ∀ i x, t.Declares i x ↔ s.Declares i x ∨ i = id ∧ x = symbol

section Apply

variable {s t : Scopes} {op : Operation} {symbol : Symbol}

theorem Adds.of_arena {id : ScopeId} (hid : id < s.arena.size)
    (harena : t.arena = (s.insert id symbol).arena) : s.Adds id symbol t where
  parents i := by
    have hinsert : (s.insert id symbol).parent? i = s.parent? i := parent?_insert symbol i
    rw [← hinsert, parent?, harena, ← parent?]
  declares i x := by
    rw [← declares_insert symbol hid, Declares, Declares, harena]

/-- The ways in which declaring a variable can end. -/
theorem declareVariable_cases (s : Scopes) (id : ScopeId) (name : Ident) (ty : Ty) :
    (∃ fault, s.permits id name.text = .error fault ∧
      s.declareVariable id name ty = .error fault) ∨
    (s.permits id name.text = .ok () ∧ ¬s.used < maxSlots ∧
      s.declareVariable id name ty = .error .outOfSlots) ∨
    s.permits id name.text = .ok () ∧ s.used < maxSlots ∧
      s.declareVariable id name ty =
        .ok (s.used, { s.insert id ⟨name.text, ty, .variable s.used, name.span⟩ with
          used := s.used + 1 }) := by
  unfold declareVariable
  cases s.permits id name.text with
  | error fault => exact .inl ⟨fault, rfl, rfl⟩
  | ok u =>
    by_cases hused : s.used < maxSlots
    · exact .inr (.inr ⟨rfl, hused, if_pos hused⟩)
    · exact .inr (.inl ⟨rfl, hused, if_neg hused⟩)

/-- The ways in which declaring a name that needs no slot can end. -/
theorem Operation.declared_cases (s : Scopes) (id : ScopeId) (name : Ident) (ty : Ty) (kind : Symbol.Kind) :
    (∃ fault, s.permits id name.text = .error fault ∧
      declared s id name ty kind = (.refused fault, s)) ∨
    s.permits id name.text = .ok () ∧
      declared s id name ty kind = (.declared, s.insert id ⟨name.text, ty, kind, name.span⟩) := by
  unfold declared declare
  cases s.permits id name.text with
  | error fault => exact .inl ⟨fault, rfl, rfl⟩
  | ok u => exact .inr ⟨rfl, rfl⟩

/-- The ways in which a declaration can end: the scopes refuse the name, no slot is left, or the symbol
is added. -/
theorem Operation.apply_cases (hop : op.symbol? s = some symbol) :
    (∃ fault, s.permits op.scope symbol.name = .error fault ∧ op.apply s = (.refused fault, s)) ∨
    (s.permits op.scope symbol.name = .ok () ∧ symbol.kind.isVariable = true ∧ ¬s.used < maxSlots ∧
      op.apply s = (.refused .outOfSlots, s)) ∨
    s.permits op.scope symbol.name = .ok () ∧ (symbol.kind.isVariable = true → s.used < maxSlots) ∧
      ∃ answer t, op.apply s = (answer, t) ∧ (∀ fault, answer ≠ .refused fault) ∧
        t.arena = (s.insert op.scope symbol).arena := by
  have hplain : ∀ id name ty kind, kind.isVariable = false →
      (∃ fault, s.permits id name.text = .error fault ∧
        declared s id name ty kind = (.refused fault, s)) ∨
      s.permits id name.text = .ok () ∧ (kind.isVariable = true → s.used < maxSlots) ∧
        ∃ answer t, declared s id name ty kind = (answer, t) ∧ (∀ fault, answer ≠ .refused fault) ∧
          t.arena = (s.insert id ⟨name.text, ty, kind, name.span⟩).arena := by
    intro id name ty kind hkind
    refine (declared_cases s id name ty kind).imp_right fun h => ⟨h.1, ?_, _, _, h.2, by simp, rfl⟩
    exact fun hvariable => absurd hvariable (by rw [hkind]; decide)
  cases op with
  | newBlock | newDecl => cases hop
  | declareVariable id name ty =>
    cases hop
    rw [apply]
    rcases declareVariable_cases s id name ty with ⟨fault, hpermits, heq⟩ | ⟨hpermits, hused, heq⟩ |
      ⟨hpermits, hused, heq⟩
    · exact .inl ⟨fault, hpermits, by rw [heq]⟩
    · exact .inr (.inl ⟨hpermits, rfl, hused, by rw [heq]⟩)
    · rw [heq]
      exact .inr (.inr ⟨hpermits, fun _ => hused, _, _, rfl, by simp, rfl⟩)
  | declareConstant id name ty value =>
    cases hop
    exact (hplain id name ty (.constant value) rfl).imp_right .inr
  | declareFunction id name index returnTy =>
    cases hop
    exact (hplain id name returnTy (.function index) rfl).imp_right .inr
  | declareRuntime id name runtime =>
    cases hop
    exact (hplain id name .unknown (.runtime runtime) rfl).imp_right .inr

theorem Operation.apply_refused_iff (hs : s.Valid) (hop : op.symbol? s = some symbol) {fault : Fault} :
    (op.apply s).1 = .refused fault ↔ s.Refuses op.scope symbol fault := by
  rcases apply_cases hop with ⟨found, hpermits, heq⟩ | ⟨hpermits, hkind, hused, heq⟩ |
    ⟨hpermits, hused, answer, t, heq, hne, _⟩
  · rw [heq]
    constructor
    · rintro ⟨⟩
      rcases (permits_eq_error_iff hs).mp hpermits with ⟨x, htaken, hx, rfl⟩ |
        ⟨x, hfree, hx, hkind, rfl⟩
      · exact .taken htaken hx
      · exact .hidden hfree hx hkind
    · intro h
      have hfault : s.permits op.scope symbol.name = .error fault := by
        cases h with
        | taken htaken hx => exact (permits_eq_error_iff hs).mpr (.inl ⟨_, htaken, hx, rfl⟩)
        | hidden hfree hx hkind =>
          exact (permits_eq_error_iff hs).mpr (.inr ⟨_, hfree, hx, hkind, rfl⟩)
        | full hfree hhides =>
          rw [(permits_eq_ok_iff hs).mpr ⟨hfree, hhides⟩] at hpermits
          cases hpermits
      rw [Except.error.inj (hpermits.symm.trans hfault)]
  · obtain ⟨hfree, hhides⟩ := (permits_eq_ok_iff hs).mp hpermits
    rw [heq]
    constructor
    · rintro ⟨⟩
      exact .full hfree hhides hkind (Nat.le_antisymm hs.used_le (Nat.not_lt.mp hused))
    · intro h
      cases h with
      | taken htaken => exact absurd htaken hfree
      | hidden _ hx hother => exact absurd (hhides _ hx) (by rw [hother]; decide)
      | full => rfl
  · obtain ⟨hfree, hhides⟩ := (permits_eq_ok_iff hs).mp hpermits
    rw [heq]
    refine ⟨fun h => absurd h (hne fault), fun h => ?_⟩
    cases h with
    | taken htaken => exact absurd htaken hfree
    | hidden _ hx hother => exact absurd (hhides _ hx) (by rw [hother]; decide)
    | full _ _ hkind hfull => exact absurd (hused hkind) (hfull ▸ Nat.lt_irrefl _)

/-- A symbol is refused for one of three reasons. -/
theorem exists_refuses_iff {id : ScopeId} (hs : s.Valid) : (∃ fault, s.Refuses id symbol fault) ↔
    s.Taken id symbol.name ∨ (∃ x, s.Nearest symbol.name id x ∧ x.kind.isVariable = false) ∨
      symbol.kind.isVariable = true ∧ s.used = maxSlots := by
  constructor
  · rintro ⟨_, htaken | ⟨_, hx, hkind⟩ | ⟨_, _, hkind, hused⟩⟩
    · exact .inl htaken
    · exact .inr (.inl ⟨_, hx, hkind⟩)
    · exact .inr (.inr ⟨hkind, hused⟩)
  · intro h
    by_cases hpermits : s.permits id symbol.name = .ok ()
    · obtain ⟨hfree, hhides⟩ := (permits_eq_ok_iff hs).mp hpermits
      rcases h with htaken | ⟨x, hx, hkind⟩ | ⟨hkind, hused⟩
      · exact absurd htaken hfree
      · exact absurd (hhides x hx) (by rw [hkind]; decide)
      · exact ⟨_, .full hfree hhides hkind hused⟩
    · cases heq : s.permits id symbol.name with
      | ok u => exact absurd heq hpermits
      | error fault =>
        rcases (permits_eq_error_iff hs).mp heq with ⟨x, htaken, hx, rfl⟩ | ⟨x, hfree, hx, hkind, rfl⟩
        · exact ⟨_, .taken htaken hx⟩
        · exact ⟨_, .hidden hfree hx hkind⟩

/-- The symbol of a declaration is none of the variables before it: if it is a variable, its slot is the
next. -/
theorem Operation.symbol?_ne (hs : s.Valid) (hop : op.symbol? s = some symbol) {id : ScopeId}
    {x : Symbol} (hx : s.Declares id x) (hvariable : x.kind.isVariable = true) : x ≠ symbol := by
  rintro rfl
  cases op with
  | newBlock | newDecl => cases hop
  | declareVariable id' name ty =>
    cases hop
    exact Nat.lt_irrefl _ (hs.slot_lt hx rfl)
  | declareConstant | declareFunction | declareRuntime =>
    cases hop
    cases hvariable

end Apply

/-! ### What is seen after it -/

section Adds

variable {s t : Scopes} {id i home : ScopeId} {symbol : Symbol} {name : String}

variable (h : s.Adds id symbol t)

include h

theorem Adds.names_of_ne (hname : name ≠ symbol.name) : t.Names i name ↔ s.Names i name := by
  constructor
  · rintro ⟨x, hx, rfl⟩
    rcases (h.declares i x).mp hx with hx | ⟨_, rfl⟩
    · exact hx.names
    · exact absurd rfl hname
  · rintro ⟨x, hx, rfl⟩
    exact ((h.declares i x).mpr (.inl hx)).names

theorem Adds.names_of_ne_scope (hi : i ≠ id) : t.Names i name ↔ s.Names i name := by
  constructor
  · rintro ⟨x, hx, rfl⟩
    exact (((h.declares i x).mp hx).resolve_right fun heq => hi heq.1).names
  · rintro ⟨x, hx, rfl⟩
    exact ((h.declares i x).mpr (.inl hx)).names

theorem Adds.names_of_names (hnames : s.Names i name) : t.Names i name := by
  obtain ⟨x, hx, rfl⟩ := hnames
  exact ((h.declares i x).mpr (.inl hx)).names

/-- Other names are seen as before. -/
theorem Adds.nearest_of_ne (hname : name ≠ symbol.name) {x : Symbol} :
    t.Nearest name i x ↔ s.Nearest name i x := by
  constructor
  · rintro ⟨home, hsees, hx, rfl⟩
    refine ⟨home, hsees.imp (fun i => (h.parents i).symm) fun _ => (h.names_of_ne hname).mpr, ?_, rfl⟩
    exact ((h.declares home x).mp hx).resolve_right fun heq => hname (congrArg Symbol.name heq.2)
  · rintro ⟨home, hsees, hx, rfl⟩
    exact ⟨home, hsees.imp h.parents fun _ => (h.names_of_ne hname).mp,
      (h.declares home x).mpr (.inl hx), rfl⟩

/-- From where the scope is seen, the symbol is. -/
theorem Adds.nearest_of_sees (hsees : s.Sees symbol.name i id) : t.Nearest symbol.name i symbol := by
  refine ⟨id, ?_, (h.declares id symbol).mpr (.inr ⟨rfl, rfl⟩), rfl⟩
  induction hsees with
  | here => exact .here _
  | @up inner _ outer hfree hparent _ ih =>
    by_cases hinner : inner = outer
    · exact hinner ▸ .here _
    · exact .up (fun hbound => hfree ((h.names_of_ne_scope hinner).mp hbound))
        ((h.parents _).trans hparent) (ih h)

/-- From where the scope is not seen, nothing is seen differently. -/
theorem Adds.nearest_of_not_sees (hnot : ¬s.Sees name i id) {x : Symbol} :
    t.Nearest name i x ↔ s.Nearest name i x := by
  constructor
  · rintro ⟨home, hsees, hx, rfl⟩
    have hold := hsees.imp (fun i => (h.parents i).symm) fun _ => h.names_of_names
    refine ⟨home, hold, ((h.declares home x).mp hx).resolve_right ?_, rfl⟩
    rintro ⟨rfl, _⟩
    exact hnot hold
  · rintro ⟨home, hsees, hx, rfl⟩
    refine ⟨home, ?_, (h.declares home x).mpr (.inl hx), rfl⟩
    -- No scope on the way is the one that was written to.
    clear hx
    induction hsees with
    | here => exact .here _
    | @up inner _ _ hfree hparent _ ih =>
      have hinner : inner ≠ id := by
        rintro rfl
        exact hnot (.here _)
      exact .up (fun hbound => hfree ((h.names_of_ne_scope hinner).mp hbound))
        ((h.parents _).trans hparent) (ih fun hrest => hnot (.up hfree hparent hrest))

omit h

theorem lookup_eq_of_nearest_iff (hs : s.Valid) (ht : t.Valid)
    (h : ∀ x, t.Nearest name i x ↔ s.Nearest name i x) : t.lookup i name = s.lookup i name :=
  Option.ext fun x => ((lookup_eq_some_iff ht).trans (h x)).trans (lookup_eq_some_iff hs).symm

end Adds

end Teal.Scopes

namespace Teal

open Scopes

/-- A declaration in a scope of any tree that can arise is refused just for the reasons above, in their
order, and then changes nothing; otherwise it changes what is seen under its name, and just from the
scopes that see the scope it is made in. -/
theorem declaration_outcome {ops : List Operation} {answers : List Answer} {s : Scopes}
    (hrun : Scopes.run? .initial ops = some (answers, s)) {op : Operation} {symbol : Symbol}
    (hop : op.symbol? s = some symbol) (hscope : op.scope < s.arena.size) :
    (∀ fault, (op.apply s).1 = .refused fault ↔ s.Refuses op.scope symbol fault) ∧
    ((∃ fault, (op.apply s).1 = .refused fault) ↔ s.Taken op.scope symbol.name ∨
      (∃ x, s.Nearest symbol.name op.scope x ∧ x.kind.isVariable = false) ∨
      symbol.kind.isVariable = true ∧ s.used = maxSlots) ∧
    (∀ fault, (op.apply s).1 = .refused fault → (op.apply s).2 = s) ∧
    ((∀ fault, (op.apply s).1 ≠ .refused fault) → ∀ id,
      (∀ name, name ≠ symbol.name → (op.apply s).2.lookup id name = s.lookup id name) ∧
      ((op.apply s).2.lookup id symbol.name ≠ s.lookup id symbol.name ↔
        s.Sees symbol.name id op.scope) ∧
      (s.Sees symbol.name id op.scope → (op.apply s).2.lookup id symbol.name = some symbol)) := by
  have hs := (run?_advances Valid.initial hrun).1
  have ht := (Operation.apply_advances hs hscope).valid
  refine ⟨fun fault => Operation.apply_refused_iff hs hop, ?_, ?_, ?_⟩
  · simp only [Operation.apply_refused_iff hs hop]
    exact exists_refuses_iff hs
  · intro fault hfault
    rcases Operation.apply_cases hop with ⟨_, _, heq⟩ | ⟨_, _, _, heq⟩ | ⟨_, _, answer, t, heq, hne, _⟩
    · rw [heq]
    · rw [heq]
    · rw [heq] at hfault
      exact absurd hfault (hne fault)
  · intro hok id
    rcases Operation.apply_cases hop with ⟨fault, _, heq⟩ | ⟨_, _, _, heq⟩ |
      ⟨hpermits, _, answer, t, heq, hne, harena⟩
    · exact absurd (congrArg Prod.fst heq) (hok fault)
    · exact absurd (congrArg Prod.fst heq) (hok .outOfSlots)
    · rw [heq] at ht ⊢
      have hadds : s.Adds op.scope symbol t := .of_arena hscope harena
      have hseen : s.Sees symbol.name id op.scope → t.lookup id symbol.name = some symbol :=
        fun hsees => (lookup_eq_some_iff ht).mpr (hadds.nearest_of_sees hsees)
      refine ⟨fun name hname => ?_, ⟨fun hne => ?_, fun hsees heq => ?_⟩, hseen⟩
      · exact lookup_eq_of_nearest_iff hs ht fun x => hadds.nearest_of_ne hname
      · by_contra hnot
        exact hne (lookup_eq_of_nearest_iff hs ht fun x => hadds.nearest_of_not_sees hnot)
      · have hold : s.lookup op.scope symbol.name = some symbol := by
          rw [← hsees.lookup_eq hs, ← heq, hseen hsees]
        obtain ⟨home, _, hdeclares, _⟩ := (lookup_eq_some_iff hs).mp hold
        exact Operation.symbol?_ne hs hop hdeclares ((fresh_of_permits hpermits).2 _ hold) rfl

namespace Sample

/-- A variable, two blocks behind it and one block further in. -/
def nesting : List Operation :=
  [.newDecl 0, .declareVariable 1 ⟨"a", ⟨0, 4, 5⟩⟩ .integer, .newBlock 1, .newBlock 2, .newBlock 1]

def nested : Scopes :=
  ⟨#[⟨none, .block, [], 0⟩, ⟨some 0, .decl, [⟨"a", .integer, .variable 0, ⟨0, 4, 5⟩⟩], 0⟩,
    ⟨some 1, .block, [], 1⟩, ⟨some 2, .block, [], 1⟩, ⟨some 1, .block, [], 1⟩], 1⟩

def shadow : Operation := .declareVariable 2 ⟨"a", ⟨0, 14, 15⟩⟩ .bytes

def clash : Operation := .declareConstant 1 ⟨"a", ⟨0, 24, 25⟩⟩ .integer (.int 0)

end Sample

/-- A variable that is declared again in a block is seen from the block inside of it and not from the one
beside it; a constant is refused where the variable stands. -/
theorem declaration_outcome_sample :
    Scopes.run? .initial Sample.nesting =
      some ([.opened 1, .slot 0, .opened 2, .opened 3, .opened 4], Sample.nested) ∧
    (Sample.shadow.apply Sample.nested).2.lookup 3 "a" =
      some ⟨"a", .bytes, .variable 1, ⟨0, 14, 15⟩⟩ ∧
    (Sample.shadow.apply Sample.nested).2.lookup 4 "a" = Sample.nested.lookup 4 "a" ∧
    Sample.nested.Refuses 1 ⟨"a", .integer, .constant (.int 0), ⟨0, 24, 25⟩⟩
      (.alreadyDeclared "a" ⟨0, 4, 5⟩) ∧
    (Sample.clash.apply Sample.nested).2 = Sample.nested := by
  obtain ⟨hrun, hslot, hrefused⟩ : Scopes.run? .initial Sample.nesting =
        some ([.opened 1, .slot 0, .opened 2, .opened 3, .opened 4], Sample.nested) ∧
      (Sample.shadow.apply Sample.nested).1 = .slot 1 ∧
      (Sample.clash.apply Sample.nested).1 = .refused (.alreadyDeclared "a" ⟨0, 4, 5⟩) := by
    decide +kernel
  have hsymbol : Sample.shadow.symbol? Sample.nested =
      some ⟨"a", .bytes, .variable 1, ⟨0, 14, 15⟩⟩ := rfl
  have hother : Sample.clash.symbol? Sample.nested =
      some ⟨"a", .integer, .constant (.int 0), ⟨0, 24, 25⟩⟩ := rfl
  have hshadow := (declaration_outcome hrun hsymbol (by decide)).2.2.2
    (fun fault => by rw [hslot]; simp)
  have hclash := declaration_outcome hrun hother (by decide)
  have hinside : Sample.nested.Sees "a" 3 2 := by
    refine .up (fun hnames => ?_) rfl (.here 2)
    exact absurd (mem_namesOf.mpr hnames) (by decide)
  refine ⟨hrun, (hshadow 3).2.2 hinside, ?_, (hclash.1 _).mp hrefused, hclash.2.2.1 _ hrefused⟩
  by_contra hne
  cases (hshadow 4).2.1.mp hne with
  | up _ hparent hrest =>
    obtain rfl := Option.some.inj hparent
    cases hrest with
    | up hnames => exact hnames (mem_namesOf.mp (by decide))

end Teal
