import Teal.Proofs.Program.Mirror

/-! What is seen from the scopes of a program. The variables that are seen from a scope are all those that
were declared before it, in the same block or around it, and so are the functions. A function is called
only where everything is seen that its body sees, apart from its own parameters. -/

namespace Teal

open List

namespace Scopes

variable {s : Scopes} {kind : Scope.Kind} {parent inner scope : ScopeId} {symbols : List Symbol}
  {slot : Nat}

/-- A variable that is declared in a scope or around it lies in the slot. -/
def Bound (s : Scopes) (scope : ScopeId) (slot : Nat) : Prop :=
  ∃ around ∈ s.path scope, ∃ x ∈ around.symbols, x.kind = .variable slot

theorem bound_of_kindOf? {name : String} (h : s.kindOf? scope name = some (.variable slot)) :
    s.Bound scope slot := by
  rw [kindOf?, Option.map_eq_some_iff] at h
  obtain ⟨x, hlookup, hkind⟩ := h
  obtain ⟨around, haround, hfind⟩ := exists_of_findSome?_eq_some hlookup
  exact ⟨around, haround, x, mem_of_find?_eq_some hfind, hkind⟩

variable (h : s.Opens kind parent inner symbols)

include h

theorem Opens.bound_iff :
    s.Bound inner slot ↔ (∃ x ∈ symbols, x.kind = .variable slot) ∨ s.Bound parent slot := by
  obtain ⟨base, hpath⟩ := h.path
  simp [Bound, hpath]

theorem Opens.bound (hbound : s.Bound parent slot) : s.Bound inner slot :=
  h.bound_iff.mpr (.inr hbound)

/-- The symbols of an open scope have the kinds that their names are found with. -/
theorem Opens.kindOf?_mem {x : Symbol} (hx : x ∈ symbols) : s.kindOf? inner x.name = some x.kind := by
  rw [kindOf?, h.lookup_mem hx]
  rfl

/-- Functions are seen from an open scope that holds none just as from its parent. -/
theorem Opens.kindOf?_function (hnone : ∀ x ∈ symbols, ∀ f, x.kind ≠ .function f) {name : String} {f : Nat}
    (hkind : s.kindOf? inner name = some (.function f)) : s.kindOf? parent name = some (.function f) := by
  rcases h.lookup_cases name with ⟨x, hx, rfl, _⟩ | hsame
  · rw [h.kindOf?_mem hx] at hkind
    exact absurd (Option.some.inj hkind) (hnone x hx f)
  · rw [kindOf?, ← hsame]
    exact hkind

end Scopes

namespace Program

open Scopes (Bound)

variable {s : Scopes} {functions : List Function} {scope : ScopeId}

/-- The functions that are seen from a scope are among those of a list, and all variables that such a
function sees, its own parameters apart, are seen from the scope as well. -/
def Sighted (s : Scopes) (functions : List Function) (scope : ScopeId) : Prop :=
  ∀ ⦃name : String⦄ ⦃f : Nat⦄, s.kindOf? scope name = some (.function f) →
    ∃ (callee : Function) (tip : ScopeId) (isKind : Symbol.Kind → Bool),
      functions[f]? = some callee ∧
      s.Holds .block tip callee.scope (callee.params.map (·.1)) isKind ∧
      ∀ slot, s.Bound tip slot → s.Bound scope slot

namespace Sighted

variable {kind : Scope.Kind} {inner : ScopeId}

variable (h : Sighted s functions scope)

include h

theorem opens {symbols : List Symbol}
    (hopens : s.Opens kind scope inner symbols) (hnone : ∀ x ∈ symbols, ∀ f, x.kind ≠ .function f) :
    Sighted s functions inner := by
  intro name f hkind
  obtain ⟨callee, tip, isKind, hcallee, hholds, hbound⟩ := h (hopens.kindOf?_function hnone hkind)
  exact ⟨callee, tip, isKind, hcallee, hholds, fun slot hslot => hopens.bound (hbound slot hslot)⟩

theorem holds {names : List Ident} {isKind : Symbol.Kind → Bool}
    (hholds : s.Holds kind scope inner names isKind) (hnone : ∀ f, isKind (.function f) = false) :
    Sighted s functions inner := by
  obtain ⟨symbols, hopens, _, hkinds⟩ := hholds
  refine h.opens hopens fun x hx f hf => ?_
  have hkind := hkinds x hx
  rw [hf, hnone] at hkind
  cases hkind

theorem append (more : List Function) : Sighted s (functions ++ more) scope := by
  intro name f hkind
  obtain ⟨callee, tip, isKind, hcallee, hrest⟩ := h hkind
  refine ⟨callee, tip, isKind, ?_, hrest⟩
  rw [getElem?_append_left (List.getElem?_eq_some_iff.mp hcallee).1]
  exact hcallee

end Sighted

/-- The body of a function sees functions of a list only. What the body of the entry point sees is seen
from `tip`. -/
structure Function.Sighted (s : Scopes) (functions : List Function) (tip : ScopeId) (f : Function) :
    Prop where
  body : ∃ trees, BlockMirrors s (f.scope + 1) f.scope trees f.body
  sighted : Program.Sighted s functions f.scope
  entry : f.isEntry = true → ∀ slot, s.Bound f.scope slot → s.Bound tip slot

variable {tip : ScopeId}

/-- Before any item there are names of the machine only. -/
theorem isRuntime_startPath (h : s.path tip = startPath) {around : Scope} {x : Symbol}
    (haround : around ∈ s.path tip) (hx : x ∈ around.symbols) : x.kind.isRuntime = true := by
  rw [h] at haround
  simp only [startPath, mem_cons, not_mem_nil, or_false] at haround
  rcases haround with rfl | rfl
  · cases hx
  · simp only [mem_cons, not_mem_nil, or_false] at hx
    rcases hx with rfl | rfl <;> rfl

theorem not_bound_startPath (h : s.path tip = startPath) (slot : Nat) : ¬ s.Bound tip slot := by
  rintro ⟨around, haround, x, hx, hvariable⟩
  have hruntime := isRuntime_startPath h haround hx
  rw [hvariable] at hruntime
  cases hruntime

theorem sighted_startPath (h : s.path tip = startPath) : Sighted s [] tip := by
  intro name f hkind
  rw [Scopes.kindOf?, Option.map_eq_some_iff] at hkind
  obtain ⟨x, hlookup, hfunction⟩ := hkind
  obtain ⟨around, haround, hfind⟩ := exists_of_findSome?_eq_some hlookup
  have hruntime := isRuntime_startPath h haround (mem_of_find?_eq_some hfind)
  rw [hfunction] at hruntime
  cases hruntime

/-- What is seen behind the items and from the bodies of all functions. The induction is over the items:
each opens a scope below that of the items before it. -/
theorem ItemsMirror.sighted {items : List Tree.Item} {globals : List Stmt}
    (h : ItemsMirror s items tip globals functions) :
    Sighted s functions tip ∧ ∀ f ∈ functions, f.Sighted s functions tip := by
  induction h with
  | start hstart => exact ⟨sighted_startPath hstart, nofun⟩
  | decl _ hdecl ih =>
    obtain ⟨names, isKind, hholds, hnone⟩ := hdecl.holds
    refine ⟨ih.1.holds hholds hnone, fun f hf => ?_⟩
    obtain ⟨symbols, hopens, _⟩ := hholds
    obtain ⟨hbody, hsighted, hentry⟩ := ih.2 f hf
    exact ⟨hbody, hsighted, fun hisEntry slot hslot => hopens.bound (hentry hisEntry slot hslot)⟩
  | @function items tip globals functions span tree f _ hfunction hopens ih =>
    have hnone : ∀ g, (if f.isEntry = true then Symbol.Kind.isRuntime else Symbol.Kind.isVariable)
        (.function g) = false := by
      intro g
      split <;> rfl
    refine ⟨fun name g hkind => ?_, fun g hg => ?_⟩
    · rcases hopens.lookup_cases name with ⟨x, hx, rfl, _⟩ | hsame
      · rw [hopens.kindOf?_mem hx, mem_singleton.mp hx] at hkind
        cases hkind
        refine ⟨f, tip, _, ?_, hfunction.holds, fun slot hslot => hopens.bound hslot⟩
        rw [getElem?_append_right .refl, Nat.sub_self]
        rfl
      · rw [Scopes.kindOf?, hsame] at hkind
        obtain ⟨callee, tip', isKind, hcallee, hholds, hbound⟩ := ih.1.append [f] hkind
        exact ⟨callee, tip', isKind, hcallee, hholds,
          fun slot hslot => hopens.bound (hbound slot hslot)⟩
    · rcases mem_append.mp hg with hg | hg
      · obtain ⟨hbody, hsighted, hentry⟩ := ih.2 g hg
        exact ⟨hbody, hsighted.append [f],
          fun hisEntry slot hslot => hopens.bound (hentry hisEntry slot hslot)⟩
      · rw [mem_singleton.mp hg]
        refine ⟨⟨_, hfunction.body⟩, (ih.1.holds hfunction.holds hnone).append [f], ?_⟩
        -- The parameters of the entry point are no variables.
        intro hisEntry slot hslot
        obtain ⟨symbols, hsymbols, _, hkinds⟩ := hfunction.holds
        rcases hsymbols.bound_iff.mp hslot with ⟨x, hx, hvariable⟩ | hslot
        · have hkind := hkinds x hx
          rw [hvariable, if_pos hisEntry] at hkind
          cases hkind
        · exact hopens.bound hslot

end Program

end Teal
