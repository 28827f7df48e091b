import Teal.Proofs.Semantics.Eval

/-! Cells and slots. A variable that is seen under a name from a scope has one cell and one slot, and no
slot serves two cells, so that what is written to a cell and to its slot never shows up elsewhere. -/

namespace Teal.Scopes

/-- The nearest symbol of a name is the one in the nearest scope that declares it. -/
theorem lookup_eq_home? (s : Scopes) (name : String) (id : ScopeId) :
    s.lookup id name = (s.home? id name).bind fun home => s.arena[home]?.bind (·.find? name) := by
  induction id using Nat.strongRecOn with
  | ind id ih =>
    rw [lookup, path, home?]
    cases hscope : s.arena[id]? with
    | none => rfl
    | some scope =>
      cases hfind : scope.find? name with
      | some x => simp [hfind, hscope]
      | none =>
        cases hparent : scope.parent with
        | none => simp [hfind, hparent]
        | some parent =>
          by_cases hlt : parent < id
          · have hup := ih parent hlt
            rw [lookup] at hup
            simp [hfind, hparent, hlt, hup]
          · simp [hfind, hparent, hlt]

end Teal.Scopes

namespace Teal.Semantics

variable {p : Program} {Env : Type}

def Holds (p : Program) (cell : Cell) (slot : Nat) : Prop :=
  ∃ scope x, p.scopes.arena[cell.1]? = some scope ∧ scope.find? cell.2 = some x ∧
    x.kind = .variable slot

variable {cell : Cell} {slot k : Nat}

theorem Holds.declares (h : Holds p cell slot) :
    ∃ x, p.scopes.Declares cell.1 x ∧ x.name = cell.2 ∧ x.kind = .variable slot := by
  obtain ⟨scope, x, hscope, hfind, hkind⟩ := h
  rw [Scope.find?] at hfind
  have hname := List.find?_some hfind
  exact ⟨x, ⟨scope, hscope, List.mem_of_find?_eq_some hfind⟩, eq_of_beq hname, hkind⟩

theorem Holds.slot_inj {k' : Nat} (h : Holds p cell k) (h' : Holds p cell k') : k = k' := by
  obtain ⟨scope, x, hscope, hfind, hkind⟩ := h
  obtain ⟨scope', x', hscope', hfind', hkind'⟩ := h'
  cases hscope.symm.trans hscope'
  cases hfind.symm.trans hfind'
  exact Symbol.Kind.variable.inj (hkind.symm.trans hkind')

/-- No slot serves two cells. -/
theorem Holds.cell_inj (hp : p.scopes.Valid) {cell' : Cell} (h : Holds p cell k) (h' : Holds p cell' k)
    : cell = cell' := by
  obtain ⟨x, hx, hname, hkind⟩ := h.declares
  obtain ⟨x', hx', hname', hkind'⟩ := h'.declares
  obtain ⟨hscope, rfl⟩ := hp.slot_unique hx hx' hkind hkind'
  exact Prod.ext hscope (hname.symm.trans hname')

theorem Holds.slot_lt (hp : p.scopes.Valid) (h : Holds p cell k) : k < Scopes.maxSlots := by
  obtain ⟨x, hx, _, hkind⟩ := h.declares
  exact Nat.lt_of_lt_of_le (hp.slot_lt hx hkind) hp.used_le

/-- A name that stands for a variable has a cell, and the cell has the slot of the variable. -/
theorem exists_cell {scope : ScopeId} {name : String}
    (h : p.scopes.kindOf? scope name = some (.variable slot)) :
    ∃ cell, cell? p scope name = some cell ∧ Holds p cell slot := by
  obtain ⟨x, hlookup, hkind⟩ := Scopes.exists_lookup_of_kindOf? h
  rw [Scopes.lookup_eq_home?, Option.bind_eq_some_iff] at hlookup
  obtain ⟨home, hhome, hfind⟩ := hlookup
  obtain ⟨found, hfound, hfind⟩ := Option.bind_eq_some_iff.mp hfind
  refine ⟨(home, name), ?_, found, x, hfound, hfind, hkind⟩
  rw [cell?, h, hhome]
  rfl

def Agree (p : Program) (cells : Cell → Value) (slots : Nat → Value) : Prop :=
  ∀ cell slot, Holds p cell slot → cells cell = slots slot

theorem Agree.update (hp : p.scopes.Valid) {cells : Cell → Value} {slots : Nat → Value}
    (h : Agree p cells slots) (hcell : Holds p cell slot) (v : Value) :
    Agree p (update cells cell v) (update slots slot v) := by
  intro cell' slot' hholds
  unfold Semantics.update
  by_cases heq : cell' = cell
  · subst heq
    rw [if_pos rfl, if_pos (hholds.slot_inj hcell)]
  · rw [if_neg heq, if_neg]
    · exact h cell' slot' hholds
    · rintro rfl
      exact heq (hholds.cell_inj hp hcell)

end Teal.Semantics
