import Mathlib.Data.List.Nodup
import Teal.Proofs.Scope.Slots

/-! What a declaration may hide. When a name is declared it is compared with its nearest binding alone, and
nothing is compared again when a scope gets a name after scopes were opened inside of it. A tree is
*clear* if no name of it hides one that cannot be assigned and no block holds a name twice; it stays so
under declarations that are permitted in the scope that was opened last, which has no scope inside. -/

namespace Teal.Scopes

open List

/-- Going to parents, one comes from a scope to another and leaves only scopes of the kinds given. -/
inductive Climbs (s : Scopes) (leaves : Scope.Kind → Prop) : ScopeId → ScopeId → Prop
  | parent {inner outer : ScopeId} {scope : Scope} (hscope : s.arena[inner]? = some scope)
      (hkind : leaves scope.kind) (hparent : scope.parent = some outer) : Climbs s leaves inner outer
  | further {inner middle outer : ScopeId} {scope : Scope} (hscope : s.arena[inner]? = some scope)
      (hkind : leaves scope.kind) (hparent : scope.parent = some middle)
      (hrest : Climbs s leaves middle outer) : Climbs s leaves inner outer

/-- A scope is a strict ancestor of another. -/
def Inside (s : Scopes) : ScopeId → ScopeId → Prop := s.Climbs fun _ => True

/-- A scope is a strict ancestor of another and belongs to the same block: only declarations lie
between. -/
def SharesBlock (s : Scopes) : ScopeId → ScopeId → Prop := s.Climbs (· = .decl)

/-- No name hides one that cannot be assigned, and no name hides one of the same block. -/
structure Clear (s : Scopes) : Prop where
  assigned : ∀ {inner outer x y}, s.Inside inner outer → s.Declares inner x → s.Declares outer y →
    x.name = y.name → y.kind.isVariable = true
  apart : ∀ {inner outer x y}, s.SharesBlock inner outer → s.Declares inner x → s.Declares outer y →
    x.name ≠ y.name

section Climbs

variable {s t : Scopes} {leaves : Scope.Kind → Prop} {inner outer : ScopeId}

theorem parent?_of_get {id : ScopeId} {scope : Scope} (h : s.arena[id]? = some scope) :
    s.parent? id = scope.parent := by
  rw [parent?, h]
  rfl

theorem Valid.parent_lt (hs : s.Valid) {id parent : ScopeId} {scope : Scope}
    (hscope : s.arena[id]? = some scope) (hparent : scope.parent = some parent) : parent < id :=
  (hs.parents ((parent?_of_get hscope).trans hparent)).1

theorem Climbs.lt (hs : s.Valid) (h : s.Climbs leaves inner outer) : outer < inner := by
  induction h with
  | parent hscope _ hparent => exact hs.parent_lt hscope hparent
  | further hscope _ hparent _ ih => exact Nat.lt_trans ih (hs.parent_lt hscope hparent)

/-- The way up from a scope depends on the kinds and parents of the scopes before it alone. -/
theorem Climbs.transfer {n : Nat} (ht : t.Valid)
    (hsame : ∀ i scope, i < n → t.arena[i]? = some scope →
      ∃ scope', s.arena[i]? = some scope' ∧ scope'.kind = scope.kind ∧ scope'.parent = scope.parent)
    (h : t.Climbs leaves inner outer) (hinner : inner < n) : s.Climbs leaves inner outer := by
  induction h with
  | parent hscope hkind hparent =>
    obtain ⟨scope', hscope', hkind', hparent'⟩ := hsame _ _ hinner hscope
    exact .parent hscope' (hkind' ▸ hkind) (hparent'.trans hparent)
  | further hscope hkind hparent _ ih =>
    obtain ⟨scope', hscope', hkind', hparent'⟩ := hsame _ _ hinner hscope
    have hlt := ht.parent_lt hscope hparent
    exact .further hscope' (hkind' ▸ hkind) (hparent'.trans hparent) (ih (Nat.lt_trans hlt hinner))

end Climbs

/-! ### What a permitted name hides -/

section Permitted

variable {s : Scopes} {id inner outer : ScopeId} {name : String} {x y : Symbol}

variable {scope : Scope} {parent : ScopeId}

theorem path_eq_cons (hscope : s.arena[id]? = some scope) (hparent : scope.parent = some parent)
    (hlt : parent < id) : s.path id = scope :: s.path parent := by
  rw [Scopes.path, hscope]
  simp only [hparent, if_pos hlt]

/-- What a scope finds under the name of one of its symbols is that symbol. -/
theorem eq_of_find? (honce : (s.namesOf id).Nodup) (hscope : s.arena[id]? = some scope)
    (hy : s.Declares id y) (hfind : scope.find? y.name = some x) : x = y := by
  obtain ⟨scope', hscope', hmem⟩ := hy
  rw [hscope, Option.some.injEq] at hscope'
  subst hscope'
  rw [namesOf, hscope, Option.map_some, Option.getD_some] at honce
  have hname : x.name = y.name := by simpa using find?_some hfind
  exact inj_on_of_nodup_map honce (mem_of_find?_eq_some hfind) hmem hname

/-- A scope that holds a symbol finds one under its name. -/
theorem find?_ne_none (hscope : s.arena[id]? = some scope) (hy : s.Declares id y) :
    scope.find? y.name ≠ none := by
  obtain ⟨scope', hscope', hmem⟩ := hy
  rw [hscope, Option.some.injEq] at hscope'
  subst hscope'
  intro hnone
  simpa using find?_eq_none.mp hnone y hmem

/-- A scope that holds a symbol sees it under its name. -/
theorem lookup_of_declares (hs : s.Valid) (hx : s.Declares id x) : s.lookup id x.name = some x := by
  obtain ⟨scope, hscope, hmem⟩ := hx
  have hx : s.Declares id x := ⟨scope, hscope, hmem⟩
  cases hfind : scope.find? x.name with
  | none => exact absurd hfind (find?_ne_none hscope hx)
  | some y =>
    rw [lookup, Scopes.path, hscope, findSome?_cons, hfind]
    exact congrArg some (eq_of_find? (hs.names id) hscope hx hfind)

/-- A scope holds a name itself, or it sees under it what its parent sees. -/
theorem lookup_cases (hscope : s.arena[id]? = some scope) (hparent : scope.parent = some parent)
    (hlt : parent < id) (name : String) :
    (∃ x, s.Declares id x ∧ x.name = name) ∨ s.lookup id name = s.lookup parent name := by
  rw [lookup, path_eq_cons hscope hparent hlt, findSome?_cons]
  cases hfind : scope.find? name with
  | some x =>
    have hname : x.name = name := by simpa using find?_some hfind
    exact .inl ⟨x, ⟨scope, hscope, mem_of_find?_eq_some hfind⟩, hname⟩
  | none => exact .inr rfl

/-- If what is seen under a name can be assigned, so can be all that it hides. -/
theorem Clear.isVariable_of_lookup (h : s.Clear) (hs : s.Valid) (hinside : s.Inside inner outer)
    (hy : s.Declares outer y) (hlookup : ∀ x, s.lookup inner y.name = some x → x.kind.isVariable = true) :
    y.kind.isVariable = true := by
  induction hinside with
  | parent hscope hkind hparent =>
    have hlt := hs.parent_lt hscope hparent
    rcases lookup_cases hscope hparent hlt y.name with ⟨x, hx, hname⟩ | heq
    · exact h.assigned (.parent hscope hkind hparent) hx hy hname
    · exact hlookup y (heq ▸ lookup_of_declares hs hy)
  | further hscope hkind hparent hrest ih =>
    have hlt := hs.parent_lt hscope hparent
    rcases lookup_cases hscope hparent hlt y.name with ⟨x, hx, hname⟩ | heq
    · exact h.assigned (.further hscope hkind hparent hrest) hx hy hname
    · exact ih hy (heq ▸ hlookup)

/-- A name that the block of a scope does not hold is held by no scope of the block. -/
theorem ne_of_ownBlock (hs : s.Valid) (hshares : s.SharesBlock inner outer) (hy : s.Declares outer y)
    (hown : (ownBlock (s.path inner)).findSome? (·.find? name) = none) : y.name ≠ name := by
  have hup : ∀ {inner middle : ScopeId} {scope : Scope}, s.arena[inner]? = some scope →
      scope.kind = .decl → scope.parent = some middle →
      (ownBlock (s.path inner)).findSome? (·.find? name) = none →
      (ownBlock (s.path middle)).findSome? (·.find? name) = none := by
    intro inner middle scope hscope hkind hparent hown
    have hlt := hs.parent_lt hscope hparent
    rw [path_eq_cons hscope hparent hlt, ownBlock, hkind, findSome?_cons] at hown
    cases hfind : scope.find? name with
    | none =>
      rw [hfind] at hown
      exact hown
    | some x =>
      rw [hfind] at hown
      cases hown
  induction hshares with
  | parent hscope hkind hparent =>
    exact find?_ownBlock (hup hscope hkind hparent hown) y hy
  | further hscope hkind hparent _ ih => exact ih hy (hup hscope hkind hparent hown)

theorem ownBlock_of_permits (h : s.permits id name = .ok ()) :
    (ownBlock (s.path id)).findSome? (·.find? name) = none := by
  unfold permits at h
  split at h
  · cases h
  · next hown => exact hown

end Permitted

/-! ### What keeps a tree clear -/

namespace Clear

variable {s t : Scopes} {id parent : ScopeId} {symbol : Symbol}

theorem openScope (h : s.Clear) (hs : s.Valid) (kind : Scope.Kind) (hparent : parent < s.arena.size) :
    (s.openScope kind parent).2.Clear := by
  have hdeclares : ∀ {i x}, (s.openScope kind parent).2.Declares i x → s.Declares i x :=
    fun hx => (declares_openScope s kind parent _ _).mp hx
  -- The new scope holds nothing, so every way that matters starts from an old one.
  have hclimbs : ∀ {leaves i j x}, (s.openScope kind parent).2.Climbs leaves i j →
      s.Declares i x → s.Climbs leaves i j := fun hclimb hx =>
    hclimb.transfer (hs.openScope kind hparent) (fun i scope hi hscope =>
      ⟨scope, (openScope_agree s kind parent i hi) ▸ hscope, rfl, rfl⟩) hx.lt_size
  refine ⟨?_, ?_⟩
  · intro i j x y hinside hx hy
    exact h.assigned (hclimbs hinside (hdeclares hx)) (hdeclares hx) (hdeclares hy)
  · intro i j x y hshares hx hy
    exact h.apart (hclimbs hshares (hdeclares hx)) (hdeclares hx) (hdeclares hy)

/-- A permitted name may be written into the scope that was opened last. -/
theorem insert (h : s.Clear) (hs : s.Valid) (ht : t.Valid)
    (harena : t.arena = (s.insert id symbol).arena) (hlast : id + 1 = s.arena.size)
    (hpermits : s.permits id symbol.name = .ok ()) : t.Clear := by
  have hid : id < s.arena.size := hlast ▸ Nat.lt_succ_self id
  have hdeclares : ∀ {i x}, t.Declares i x → s.Declares i x ∨ i = id ∧ x = symbol := by
    rintro i x ⟨scope, hscope, hmem⟩
    exact (declares_insert symbol hid i x).mp ⟨scope, harena ▸ hscope, hmem⟩
  have hclimbs : ∀ {leaves i j}, t.Climbs leaves i j → s.Climbs leaves i j := by
    intro leaves i j hclimb
    refine hclimb.transfer (n := i + 1) ht ?_ (Nat.lt_succ_self i)
    intro k scope _ hscope
    rw [harena] at hscope
    by_cases hk : k = id
    · subst hk
      rw [insert_get symbol (Array.getElem?_eq_getElem hid)] at hscope
      cases hscope
      exact ⟨s.arena[k], Array.getElem?_eq_getElem hid, rfl, rfl⟩
    · exact ⟨scope, (insert_get_of_ne symbol hk) ▸ hscope, rfl, rfl⟩
  -- No scope is inside of the last one, so what is hidden was declared before.
  have houter : ∀ {leaves i j x y}, s.Climbs leaves i j → t.Declares i x → t.Declares j y →
      s.Declares j y := by
    intro leaves i j x y hclimb hx hy
    have hi := hx.lt_size
    rw [harena, insert_size] at hi
    have hle : i ≤ id := Nat.le_of_lt_succ (Nat.lt_of_lt_of_eq hi hlast.symm)
    exact (hdeclares hy).resolve_right fun heq => Nat.not_lt.mpr hle (heq.1 ▸ hclimb.lt hs)
  refine ⟨?_, ?_⟩
  · intro i j x y hinside hx hy hname
    have hinside' : s.Inside i j := hclimbs hinside
    have hy' := houter hinside' hx hy
    rcases hdeclares hx with hx' | ⟨rfl, rfl⟩
    · exact h.assigned hinside' hx' hy' hname
    · exact h.isVariable_of_lookup hs hinside' hy' (hname ▸ (fresh_of_permits hpermits).2)
  · intro i j x y hshares hx hy
    have hshares' : s.SharesBlock i j := hclimbs hshares
    have hy' := houter hshares' hx hy
    rcases hdeclares hx with hx' | ⟨rfl, rfl⟩
    · exact h.apart hshares' hx' hy'
    · exact (ne_of_ownBlock hs hshares' hy' (ownBlock_of_permits hpermits)).symm

end Clear

end Teal.Scopes
