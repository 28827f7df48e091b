import Teal.Proofs.Tree.Shape
import Teal.Scope

/-! Scopes without places. The place of a declared name is kept only to be told in a note, so what is found
in scopes, and whether a name may be declared, does not depend on places. -/

namespace Teal

open List

def Symbol.erase (s : Symbol) : Symbol := { s with span := .nowhere }

def Scope.erase (s : Scope) : Scope := { s with symbols := s.symbols.map Symbol.erase }

theorem Scope.find?_erase (s : Scope) (name : String) :
    s.erase.find? name = (s.find? name).map Symbol.erase := by
  rw [Scope.find?, Scope.erase, find?_map]
  rfl

namespace Scopes

def erase (s : Scopes) : Scopes := ⟨s.arena.map Scope.erase, s.used⟩

/-- The fault without the place of the declaration before. -/
def Fault.erase : Fault → Fault
  | .alreadyDeclared name _ => .alreadyDeclared name .nowhere
  | .immutable name kind _ => .immutable name kind .nowhere
  | .outOfSlots => .outOfSlots

variable (s : Scopes)

theorem size_erase : s.erase.arena.size = s.arena.size := Array.size_map

variable (id : ScopeId)

theorem path_erase : s.erase.path id = (s.path id).map Scope.erase := by
  induction id using Nat.strongRecOn with
  | ind id ih =>
    rw [path, path]
    simp only [erase, Array.getElem?_map]
    cases hscope : s.arena[id]? with
    | none => rfl
    | some scope =>
      simp only [Option.map_some, map_cons, Scope.erase]
      cases hparent : scope.parent with
      | none => rfl
      | some parent =>
        by_cases hless : parent < id
        · simp only [if_pos hless]
          exact congrArg _ (ih parent hless)
        · simp only [if_neg hless]
          rfl

theorem ownBlock_map_erase (scopes : List Scope) :
    ownBlock (scopes.map Scope.erase) = (ownBlock scopes).map Scope.erase := by
  induction scopes with
  | nil => rfl
  | cons scope scopes ih =>
    cases hkind : scope.kind with
    | block => simp only [map_cons, ownBlock, Scope.erase, hkind, map_nil]
    | decl => simp only [map_cons, ownBlock, Scope.erase, hkind, ← ih]

theorem findSome?_map_erase (scopes : List Scope) (name : String) :
    (scopes.map Scope.erase).findSome? (·.find? name) =
      (scopes.findSome? (·.find? name)).map Symbol.erase := by
  induction scopes with
  | nil => rfl
  | cons scope scopes ih =>
    rw [map_cons, findSome?_cons, findSome?_cons, Scope.find?_erase, ih]
    cases scope.find? name <;> rfl

theorem lookup_erase (name : String) : s.erase.lookup id name = (s.lookup id name).map Symbol.erase := by
  rw [lookup, lookup, path_erase, findSome?_map_erase]

theorem permits_erase (name : String) :
    s.erase.permits id name = (s.permits id name).mapError Fault.erase := by
  rw [permits, permits, path_erase, ownBlock_map_erase, findSome?_map_erase, lookup_erase]
  cases (ownBlock (s.path id)).findSome? (·.find? name) with
  | some previous => rfl
  | none =>
    cases s.lookup id name with
    | none => rfl
    | some previous =>
      simp only [Option.map_none, Option.map_some, Symbol.erase]
      split <;> rfl

theorem insert_erase (symbol : Symbol) : (s.insert id symbol).erase = s.erase.insert id symbol.erase := by
  have harena : (s.arena.modify id fun sc => { sc with symbols := sc.symbols ++ [symbol] }).map Scope.erase =
      (s.arena.map Scope.erase).modify id fun sc => { sc with symbols := sc.symbols ++ [symbol.erase] } := by
    apply Array.ext_getElem?
    intro i
    rw [Array.getElem?_map, Array.getElem?_modify, Array.getElem?_modify, Array.getElem?_map]
    by_cases hi : id = i
    · rw [if_pos hi, if_pos hi]
      cases s.arena[i]? with
      | none => rfl
      | some scope => simp only [Option.map_some, Scope.erase, map_append, map_singleton]
    · rw [if_neg hi, if_neg hi]
  exact congrArg (Scopes.mk · s.used) harena

/-! ### The same scopes but for places -/

/-- Two outcomes that are the same but for places. -/
inductive SameOutcome {α β : Type} (V : α → β → Prop) : Except Fault α → Except Fault β → Prop
  | ok {a : α} {b : β} (h : V a b) : SameOutcome V (.ok a) (.ok b)
  | error {f g : Fault} (h : f.erase = g.erase) : SameOutcome V (.error f) (.error g)

theorem SameOutcome.bind {α β γ δ : Type} {V : α → β → Prop} {W : γ → δ → Prop} {x : Except Fault α}
    {y : Except Fault β} {f : α → Except Fault γ} {g : β → Except Fault δ} (h : SameOutcome V x y)
    (hf : ∀ a b, V a b → SameOutcome W (f a) (g b)) : SameOutcome W (x >>= f) (y >>= g) := by
  cases h with
  | ok hab => exact hf _ _ hab
  | error hfault => exact .error hfault

section Same

variable {s t : Scopes} (h : s.erase = t.erase)

include h

theorem size_eq_of_erase : s.arena.size = t.arena.size := by
  rw [← size_erase, h, size_erase]

theorem used_eq_of_erase : s.used = t.used := by
  have hused : s.erase.used = t.erase.used := congrArg Scopes.used h
  exact hused

variable (id : ScopeId)

variable (name : String)

theorem lookup_of_erase : (s.lookup id name).map Symbol.erase = (t.lookup id name).map Symbol.erase := by
  rw [← lookup_erase, h, lookup_erase]

theorem kindOf?_of_erase : s.kindOf? id name = t.kindOf? id name := by
  have hlookup := congrArg (Option.map Symbol.kind) (lookup_of_erase h id name)
  rwa [Option.map_map, Option.map_map] at hlookup

theorem runtimeOf?_of_erase : s.runtimeOf? id name = t.runtimeOf? id name := by
  rw [runtimeOf?, runtimeOf?, kindOf?_of_erase h]

theorem tyOf_of_erase : s.tyOf id name = t.tyOf id name := by
  have hlookup := congrArg (Option.map Symbol.ty) (lookup_of_erase h id name)
  rw [Option.map_map, Option.map_map] at hlookup
  exact congrArg (·.getD .invalid) hlookup

theorem openScope_of_erase (kind : Scope.Kind) (parent : ScopeId) :
    (s.openScope kind parent).1 = (t.openScope kind parent).1 ∧
      (s.openScope kind parent).2.erase = (t.openScope kind parent).2.erase := by
  refine ⟨size_eq_of_erase h, ?_⟩
  have harena : s.arena.map Scope.erase = t.arena.map Scope.erase := congrArg Scopes.arena h
  simp only [openScope, erase, Array.map_push, harena, used_eq_of_erase h]

theorem permits_of_erase : SameOutcome (fun _ _ => True) (s.permits id name) (t.permits id name) := by
  have hpermits : (s.permits id name).mapError Fault.erase = (t.permits id name).mapError Fault.erase := by
    rw [← permits_erase, h, permits_erase]
  cases hs : s.permits id name with
  | error f =>
    cases ht : t.permits id name with
    | error g =>
      rw [hs, ht] at hpermits
      exact .error (Except.error.inj hpermits)
    | ok _ =>
      rw [hs, ht] at hpermits
      cases hpermits
  | ok _ =>
    cases ht : t.permits id name with
    | error g =>
      rw [hs, ht] at hpermits
      cases hpermits
    | ok _ => exact .ok trivial

theorem declare_of_erase {name name' : Ident} (hname : name.text = name'.text) (ty : Ty)
    (kind : Symbol.Kind) :
    SameOutcome (fun s t => s.erase = t.erase) (s.declare id name ty kind) (t.declare id name' ty kind) := by
  rw [declare, declare, ← hname]
  refine (permits_of_erase h id name.text).bind fun _ _ _ => .ok ?_
  rw [insert_erase, insert_erase, h]
  rfl

theorem declareVariable_of_erase {name name' : Ident} (hname : name.text = name'.text) (ty : Ty) :
    SameOutcome (fun r u => r.1 = u.1 ∧ r.2.erase = u.2.erase) (s.declareVariable id name ty)
      (t.declareVariable id name' ty) := by
  rw [declareVariable, declareVariable, ← hname, ← used_eq_of_erase h]
  refine (permits_of_erase h id name.text).bind fun _ _ _ => ?_
  split
  · refine .ok ⟨rfl, ?_⟩
    have hinsert : (s.insert id ⟨name.text, ty, .variable s.used, name.span⟩).erase =
        (t.insert id ⟨name.text, ty, .variable s.used, name'.span⟩).erase := by
      rw [insert_erase, insert_erase, h]
      rfl
    exact congrArg (fun u : Scopes => { u with used := s.used + 1 }) hinsert
  · exact .error rfl

end Same

end Scopes

end Teal
