import Teal.Proofs.Semantics.Order

/-! Slots are stored to before they are loaded. All paths through a program are in order, so in every run
a load of a slot comes behind a store to it, whatever the operations compute and wherever the variable in
the slot was declared: as a global, as a parameter or in the middle of a block. -/

namespace Teal.Semantics

open Assembly

variable {Env : Type} {p : Program} {I : Interp Env} {lines : List Line} {s t : State Env}

/-- Every load of a slot comes behind a store to it. -/
def LoadsInitialised (done : List Line) : Prop :=
  ∀ ⦃before slot after⦄, done = before ++ .load slot :: after → .store slot ∈ before

/-- Along a path in order, slots that are loaded were stored to, on the path or before it. -/
theorem Safe.stored_before {n : Nat} {K : Nat → Prop} (h : Safe p lines n K s.code s.calls)
    {before after : List Line} {slot : Nat}
    (heq : executed I lines n s = before ++ .load slot :: after) : K slot ∨ .store slot ∈ before := by
  induction n generalizing s K before with
  | zero => cases before <;> cases heq
  | succ n ih =>
    rcases executed_cases I lines n s with hnone | ⟨line, rest, t, hcode, hstep, hexecuted⟩
    · rw [hnone] at heq
      cases before <;> cases heq
    · rw [hexecuted] at heq
      cases before with
      | nil =>
        obtain ⟨rfl, _⟩ := List.cons.inj heq
        exact .inl (h.1.load hcode)
      | cons first before =>
        obtain ⟨rfl, hrest⟩ := List.cons.inj heq
        rcases ih (h.2 (goes_of_step hstep)) hrest with (hslot | hstore) | hbefore
        · exact .inl hslot
        · rw [hcode] at hstore
          cases hstore
          exact .inr List.mem_cons_self
        · exact .inr (List.mem_cons_of_mem _ hbefore)

end Teal.Semantics

namespace Teal

open Semantics

/-- In every run of what is built and checked without a fatal report, each slot that is loaded was stored
to before. -/
theorem emit_loadsInitialised {ms : List Tree.SourceModule} {version : Nat} {p : Program}
    {ds : List Diagnostic} (hbuilt : Program.ofModules ms version = (some p, ds))
    (hds : ∀ d ∈ ds, d.isFatal = false) (htypes : ∀ d ∈ p.typeFaults, d.isFatal = false) :
    ∃ lines, p.emit = .ok lines ∧
      ∀ (Env : Type) (I : Interp Env) (env : Env) (n : Nat),
        LoadsInitialised (executed I lines n (start lines env)) := by
  have hp := sound_of_ofModules hbuilt hds htypes
  obtain ⟨lines, hlines, hcode⟩ := Assembly.emit_code hp
  obtain ⟨tip, hitems⟩ := Program.itemsMirror_of_ofModules hbuilt hds
  refine ⟨lines, hlines, fun Env I env n before slot after heq => ?_⟩
  have hsafe := safe_of_programCode hp hcode hitems n
  exact (Safe.stored_before (s := start lines env) hsafe heq).resolve_left id

/-- The sample loads its global in a body that is expanded inside of a subroutine. -/
theorem emit_loadsInitialised_sample :
    Program.ofModules Sample.modules 5 = (some Sample.program, []) ∧
      Sample.program.typeFaults = [] ∧
      ∃ lines, Sample.program.emit = .ok lines ∧
        .load 0 ∈ executed Sample.counting lines 30 (start lines 0) ∧
        ∀ (Env : Type) (I : Interp Env) (env : Env) (n : Nat),
          LoadsInitialised (executed I lines n (start lines env)) := by
  obtain ⟨lines, hlines, hloads⟩ := emit_loadsInitialised Sample.ofModules_modules (by simp)
    (by simp [Sample.typeFaults_program])
  exact ⟨Sample.ofModules_modules, Sample.typeFaults_program, lines, hlines,
    Sample.mem_executed hlines _ (by simp), hloads⟩

end Teal
