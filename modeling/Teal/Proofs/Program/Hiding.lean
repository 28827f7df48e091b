import Teal.Proofs.Program.Outline

/-! The tree of scopes is clear when a program is built, also where faults are reported. Every name is
written into the scope that was opened last: the names of a declaration before anything follows it, the
parameters of a function before its body, a function after all of its scopes. Everything else leaves the
scopes there are as they were. -/

namespace Teal

/-- For all modules and versions, whatever is reported: in the tree of scopes that building leaves, no
scope holds a name that one of its strict ancestors holds as a constant, a function or a name of the
machine, and on no way up through one block a name is held twice. A program that is built has this
tree. -/
theorem program_hides_only_variables (ms : List Tree.SourceModule) (version : Nat) :
    let s := ((Program.Build.program ms).run (.initial version)).2.scopes
    (∀ inner outer x y, s.Inside inner outer → s.Declares inner x → s.Declares outer y →
      y.kind.isVariable = false → x.name ≠ y.name) ∧
    (∀ id, (s.namesOf id).Nodup) ∧
    (∀ inner outer x y, s.SharesBlock inner outer → s.Declares inner x → s.Declares outer y →
      x.name ≠ y.name) ∧
    ∀ p ds, Program.ofModules ms version = (some p, ds) → p.scopes = s := by
  intro s
  have hsane := (Program.Build.program_inv ms version : Program.Builder.Inv _ _ _).sane
  have hclear : s.Clear := hsane.clear
  refine ⟨?_, hsane.valid.names, fun _ _ _ _ => hclear.apart, ?_⟩
  · intro inner outer x y hinside hx hy hkind hname
    have hvariable := hclear.assigned hinside hx hy hname
    rw [hkind] at hvariable
    cases hvariable
  · intro p ds hbuilt
    obtain ⟨b, _, rfl, _, _, rfl⟩ := Program.builder_of_ofModules hbuilt
    rfl

namespace Sample

/-- A function declares a variable and a constant of the module again. -/
def redeclared : List Tree.SourceModule :=
  [⟨"main", 0, ⟨[],
    [.decl (spot 0) ⟨true, [ident "limit"], int 2⟩, .decl (spot 1) ⟨false, [ident "x"], int 5⟩,
      .function (spot 2) ⟨false, ident "logic", [param "txn", param "gtxn", param "args"], ⟨spot 3,
        [.decl (spot 4) ⟨false, [ident "x"], int 1⟩, .decl (spot 5) ⟨false, [ident "limit"], int 3⟩,
          .ret (spot 6) (var "x")]⟩⟩]⟩, true⟩]

/-- The names of each scope with its parent, and whether they can be assigned. -/
def outlineOf (s : Scopes) : List (Option ScopeId × List (String × Bool)) :=
  s.arena.toList.map fun scope => (scope.parent, scope.symbols.map fun x => (x.name, x.kind.isVariable))

end Sample

/-- The variable is hidden inside of the function, and the scope that was opened for the constant stays
empty. -/
theorem program_hides_only_variables_sample :
    let s := ((Program.Build.program Sample.redeclared).run (.initial 5)).2.scopes
    Sample.outlineOf s =
      [(none, [("global", false), ("itxn", false)]), (some 0, []), (some 1, [("limit", false)]),
        (some 2, [("x", true)]), (some 3, [("txn", false), ("gtxn", false), ("args", false)]),
        (some 4, [("x", true)]), (some 5, []), (some 3, [("logic", false)])] ∧
    ∀ inner outer x y, s.Inside inner outer → s.Declares inner x → s.Declares outer y →
      y.kind.isVariable = false → x.name ≠ y.name :=
  ⟨by decide +kernel, (program_hides_only_variables Sample.redeclared 5).1⟩

end Teal
