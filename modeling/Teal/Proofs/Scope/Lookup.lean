import Teal.Scope

/-! Lookups in a growing tree of scopes. A scope has its parent at a smaller index, so what is seen from
it depends on the scopes up to it alone: adding scopes behind it, or names to them, changes nothing. -/

namespace Teal.Scopes

open List

/-- The first `n` scopes of two trees are the same. -/
def AgreeBelow (n : Nat) (s t : Scopes) : Prop := ∀ i, i < n → t.arena[i]? = s.arena[i]?

namespace AgreeBelow

variable {n : Nat} {s t u : Scopes}

theorem refl (n : Nat) (s : Scopes) : AgreeBelow n s s := fun _ _ => rfl

theorem trans (h : AgreeBelow n s t) (h' : AgreeBelow n t u) : AgreeBelow n s u :=
  fun i hi => (h' i hi).trans (h i hi)

theorem mono {m : Nat} (hle : m ≤ n) (h : AgreeBelow n s t) : AgreeBelow m s t :=
  fun i hi => h i (Nat.lt_of_lt_of_le hi hle)

variable (h : AgreeBelow n s t)

include h

theorem path {id : ScopeId} (hid : id < n) : t.path id = s.path id := by
  induction id using Nat.strongRecOn with
  | ind id ih =>
    rw [Scopes.path, Scopes.path, h id hid]
    cases s.arena[id]? with
    | none => rfl
    | some scope =>
      cases hparent : scope.parent with
      | none => simp [hparent]
      | some parent =>
        by_cases hlt : parent < id
        · simp [hparent, hlt, ih parent hlt (Nat.lt_trans hlt hid)]
        · simp [hparent, hlt]

theorem lookup {id : ScopeId} (hid : id < n) (name : String) : t.lookup id name = s.lookup id name := by
  rw [Scopes.lookup, Scopes.lookup, h.path hid]

theorem kindOf? {id : ScopeId} (hid : id < n) (name : String) : t.kindOf? id name = s.kindOf? id name := by
  rw [Scopes.kindOf?, Scopes.kindOf?, h.lookup hid]

theorem tyOf {id : ScopeId} (hid : id < n) (name : String) : t.tyOf id name = s.tyOf id name := by
  rw [Scopes.tyOf, Scopes.tyOf, h.lookup hid]

end AgreeBelow

def Declares (s : Scopes) (id : ScopeId) (symbol : Symbol) : Prop :=
  ∃ scope, s.arena[id]? = some scope ∧ symbol ∈ scope.symbols

variable {s t : Scopes} {id : ScopeId} {name : String}

theorem AgreeBelow.declares_iff {n : Nat} (h : AgreeBelow n s t) (hid : id < n) (symbol : Symbol)
    : t.Declares id symbol ↔ s.Declares id symbol := by
  rw [Declares, Declares, h id hid]

theorem Declares.lt_size {symbol : Symbol} (h : s.Declares id symbol) : id < s.arena.size := by
  obtain ⟨scope, hscope, _⟩ := h
  exact (Array.getElem?_eq_some_iff.mp hscope).1

theorem exists_of_mem_path {scope : Scope} (h : scope ∈ s.path id) :
    ∃ i, i ≤ id ∧ s.arena[i]? = some scope := by
  induction id using Nat.strongRecOn with
  | ind id ih =>
    rw [Scopes.path] at h
    cases hscope : s.arena[id]? with
    | none => simp [hscope] at h
    | some first =>
      rw [hscope] at h
      rcases mem_cons.mp h with rfl | hrest
      · exact ⟨id, .refl, hscope⟩
      · cases hparent : first.parent with
        | none => simp [hparent] at hrest
        | some parent =>
          by_cases hlt : parent < id
          · simp only [hparent, if_pos hlt] at hrest
            obtain ⟨i, hi, hmem⟩ := ih parent hlt hrest
            exact ⟨i, Nat.le_trans hi (Nat.le_of_lt hlt), hmem⟩
          · simp [hparent, hlt] at hrest

/-- A symbol that is found has the name it was looked up with, and a scope of the tree holds it. -/
theorem declares_of_lookup {symbol : Symbol} (h : s.lookup id name = some symbol)
    : symbol.name = name ∧ ∃ i, s.Declares i symbol := by
  obtain ⟨scope, hscope, hfind⟩ := exists_of_findSome?_eq_some h
  obtain ⟨i, _, hi⟩ := exists_of_mem_path hscope
  refine ⟨?_, i, scope, hi, mem_of_find?_eq_some hfind⟩
  have hname := find?_some hfind
  simpa using hname

theorem exists_lookup_of_kindOf? {kind : Symbol.Kind} (h : s.kindOf? id name = some kind) :
    ∃ symbol, s.lookup id name = some symbol ∧ symbol.kind = kind := by
  rw [kindOf?, Option.map_eq_some_iff] at h
  exact h

/-! ### Opening a scope -/

section Open

variable (s : Scopes) (kind : Scope.Kind) (parent : ScopeId)

@[simp] theorem openScope_size :
    (s.openScope kind parent).2.arena.size = s.arena.size + 1 := by
  simp [openScope]

theorem openScope_agree : AgreeBelow s.arena.size s (s.openScope kind parent).2 := by
  intro i hi
  simp only [openScope]
  rw [Array.getElem?_push, if_neg (Nat.ne_of_lt hi)]

theorem openScope_get : (s.openScope kind parent).2.arena[s.arena.size]? =
    some ⟨some parent, kind, [], s.used⟩ := by
  simp [openScope]

theorem declares_openScope (id : ScopeId) (symbol : Symbol) :
    (s.openScope kind parent).2.Declares id symbol ↔ s.Declares id symbol := by
  constructor
  · rintro ⟨scope, hscope, hmem⟩
    have hid : id < s.arena.size + 1 := by
      rw [← openScope_size s kind parent]
      exact (Array.getElem?_eq_some_iff.mp hscope).1
    rcases Nat.lt_succ_iff_lt_or_eq.mp hid with hlt | rfl
    · rw [openScope_agree s kind parent id hlt] at hscope
      exact ⟨scope, hscope, hmem⟩
    · rw [openScope_get] at hscope
      cases hscope
      cases hmem
  · intro h
    exact ((openScope_agree s kind parent).declares_iff h.lt_size symbol).mpr h

end Open

/-! ### Adding a symbol -/

section Insert

variable {s : Scopes} {id : ScopeId} (symbol : Symbol)

@[simp] theorem insert_size : (s.insert id symbol).arena.size = s.arena.size := by
  simp [insert]

theorem insert_agree : AgreeBelow id s (s.insert id symbol) := by
  intro i hi
  simp only [insert]
  rw [Array.getElem?_modify, if_neg (Nat.ne_of_gt hi)]

theorem insert_get {scope : Scope} (h : s.arena[id]? = some scope) :
    (s.insert id symbol).arena[id]? = some { scope with symbols := scope.symbols ++ [symbol] } := by
  simp only [insert]
  rw [Array.getElem?_modify, if_pos rfl, h]
  rfl

theorem insert_get_of_ne {i : ScopeId} (h : i ≠ id) : (s.insert id symbol).arena[i]? = s.arena[i]? := by
  simp only [insert]
  rw [Array.getElem?_modify, if_neg (Ne.symm h)]

theorem declares_insert (hid : id < s.arena.size) (i : ScopeId) (x : Symbol) :
    (s.insert id symbol).Declares i x ↔ s.Declares i x ∨ i = id ∧ x = symbol := by
  obtain ⟨scope, hscope⟩ : ∃ scope, s.arena[id]? = some scope :=
    ⟨s.arena[id], Array.getElem?_eq_getElem hid⟩
  by_cases hi : i = id
  · subst hi
    simp [Declares, insert_get symbol hscope, hscope]
  · simp [Declares, insert_get_of_ne symbol hi, hi]

end Insert

/-! ### Declaring a name -/

theorem find?_ownBlock (h : (ownBlock (s.path id)).findSome? (·.find? name) = none) :
    ∀ x, s.Declares id x → x.name ≠ name := by
  rintro x ⟨scope, hscope, hx⟩ rfl
  have hmem : scope ∈ ownBlock (s.path id) := by
    rw [Scopes.path, hscope]
    cases hkind : scope.kind <;> simp [ownBlock, hkind]
  have hnone : scope.find? x.name = none := findSome?_eq_none_iff.mp h scope hmem
  rw [Scope.find?, find?_eq_none] at hnone
  simpa using hnone x hx

theorem ownBlock_subset (path : List Scope) : ownBlock path ⊆ path := by
  induction path with
  | nil => simp [ownBlock]
  | cons scope rest ih =>
    intro x hx
    rw [ownBlock] at hx
    split at hx
    · rw [mem_singleton.mp hx]
      exact mem_cons_self
    · rcases mem_cons.mp hx with rfl | hx
      · exact mem_cons_self
      · exact mem_cons_of_mem _ (ih hx)

/-- A name may be declared only where the scope does not hold it, and where nothing but a variable is
hidden by it. -/
theorem fresh_of_permits (h : s.permits id name = .ok ()) :
    (∀ x, s.Declares id x → x.name ≠ name) ∧
      ∀ x, s.lookup id name = some x → x.kind.isVariable = true := by
  unfold permits at h
  split at h
  · cases h
  · next hown =>
    refine ⟨find?_ownBlock hown, ?_⟩
    intro x hx
    rw [hx] at h
    by_cases hvariable : x.kind.isVariable = true
    · exact hvariable
    · simp [hvariable] at h

theorem declare_eq_ok {name : Ident} {ty : Ty} {kind : Symbol.Kind} (h : s.declare id name ty kind = .ok t) :
    s.permits id name.text = .ok () ∧ t = s.insert id ⟨name.text, ty, kind, name.span⟩ := by
  unfold declare at h
  cases hpermits : s.permits id name.text with
  | error f => rw [hpermits] at h; cases h
  | ok u =>
    rw [hpermits] at h
    cases h
    exact ⟨rfl, rfl⟩

theorem declareVariable_eq_ok {name : Ident} {ty : Ty} {slot : Nat}
    (h : s.declareVariable id name ty = .ok (slot, t)) :
    s.permits id name.text = .ok () ∧ s.used < maxSlots ∧ slot = s.used ∧
      t = { s.insert id ⟨name.text, ty, .variable s.used, name.span⟩ with used := s.used + 1 } := by
  unfold declareVariable at h
  cases hpermits : s.permits id name.text with
  | error f => rw [hpermits] at h; cases h
  | ok u =>
    rw [hpermits] at h
    by_cases hused : s.used < maxSlots
    · simp only [if_pos hused] at h
      cases h
      exact ⟨rfl, hused, rfl, rfl⟩
    · simp only [if_neg hused] at h
      cases h

/-- A name that is declared nowhere may be declared everywhere. -/
theorem permits_of_undeclared (h : ∀ i x, s.Declares i x → x.name ≠ name) : s.permits id name = .ok () := by
  have hscope : ∀ scope ∈ s.path id, scope.find? name = none := by
    intro scope hmem
    obtain ⟨i, _, hi⟩ := exists_of_mem_path hmem
    rw [Scope.find?, find?_eq_none]
    intro x hx
    simpa using h i x ⟨scope, hi, hx⟩
  have hlookup : s.lookup id name = none := findSome?_eq_none_iff.mpr hscope
  have hown : (ownBlock (s.path id)).findSome? (·.find? name) = none := by
    rw [findSome?_eq_none_iff]
    exact fun scope hmem => hscope scope (ownBlock_subset _ hmem)
  rw [permits, hown, hlookup]

theorem not_declares_initial (id : ScopeId) (symbol : Symbol) : ¬Scopes.initial.Declares id symbol := by
  rintro ⟨scope, hscope, hmem⟩
  cases id with
  | zero =>
    cases hscope
    cases hmem
  | succ id => simp [Scopes.initial] at hscope

end Teal.Scopes
