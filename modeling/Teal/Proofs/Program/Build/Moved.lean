import Teal.Proofs.Program.Build.Traversal

/-! Building does not depend on places. Two runs on trees that are the same but for their places come to
programs that are the same but for places, and report the same faults. Each fault is reported at a place of the
tree that is built, so places that stand in a relation lead to reports whose places stand in that relation. -/

namespace Teal

open List

namespace Diagnostic

/-- The note says at which bytes something else stands. -/
def quotesPlace (note : String) : Bool :=
  "previous declaration at byte ".toList.isPrefixOf note.toList

def plainNotes (d : Diagnostic) : List String := d.notes.filter (!quotesPlace ·)

/-- The same semantic fault at another place. Notes that quote places are left out. -/
structure Moved (R : Span → Span → Prop) (d d' : Diagnostic) : Prop where
  kind : d.kind = .semantic
  kind' : d'.kind = .semantic
  severity : d.severity = d'.severity
  message : d.message = d'.message
  help : d.help = d'.help
  notes : d.plainNotes = d'.plainNotes
  span : R d.span d'.span

end Diagnostic

/-- What the builder notes on a fault is where a name was declared before. -/
theorem Program.Fault.plainNotes_toDiagnostic (f : Program.Fault) (span : Span) :
    (f.toDiagnostic span).plainNotes = [] := by
  refine filter_eq_nil_iff.mpr fun note hnote => ?_
  have hquotes : Diagnostic.quotesPlace note = true := by
    change note ∈ f.notes at hnote
    unfold Program.Fault.notes at hnote
    split at hnote
    · split at hnote
      · split at hnote
        · cases hnote
        · cases mem_singleton.mp hnote
          rw [Diagnostic.quotesPlace, isPrefixOf_iff_prefix, String.append_assoc,
            String.append_assoc, String.toList_append]
          exact prefix_append _ _
      · cases hnote
    · cases hnote
  rw [hquotes]
  decide

namespace Program

/-- What was built and what was reported is the same but for places. -/
structure Builder.Moved (R : Span → Span → Prop) (b b' : Builder) : Prop where
  functions : Forall₂ (Function.Moved R) b.functions b'.functions
  globals : Forall₂ (Stmt.Moved R) b.globals b'.globals
  diagnostics : Forall₂ (Diagnostic.Moved R) b.diagnostics b'.diagnostics

section Points

variable {R : Span → Span → Prop} {b b' : Builder}

theorem Builder.Moved.report (h : b.Moved R b') {x y : Span} (hspan : R x y) {f g : Fault}
    (hmessage : f.message = g.message) (hhelp : f.help? = g.help?) :
    ((Build.report x f).run b).2.Moved R ((Build.report y g).run b').2 :=
  { h with diagnostics := rel_append h.diagnostics (.cons
    ⟨rfl, rfl, rfl, hmessage, hhelp, by rw [f.plainNotes_toDiagnostic, g.plainNotes_toDiagnostic], hspan⟩ .nil) }

theorem Build.moved_points (R : Span → Span → Prop) :
    Points R fun _ _ _ _ m m' b b' => b.Moved R b' → (m.run b).2.Moved R (m'.run b').2 where
  of_pure _ _ _ _ h := h
  of_bind hm hf h := hf (hm h)
  of_look _ hf := hf
  of_change {_ _ g g' _ b b'} hg hg' h := by
    change (g b).2.Moved R (g' b').2
    constructor
    · rw [hg.functions, hg'.functions]
      exact h.functions
    · rw [hg.globals, hg'.globals]
      exact h.globals
    · rw [hg.diagnostics, hg'.diagnostics]
      exact h.diagnostics
  of_report hspan _ _ hmessage hhelp _ _ _ h := h.report hspan hmessage hhelp
  of_stray hspan _ _ h := h.report hspan rfl rfl
  of_globals _ _ _ hstmts _ _ h := { h with globals := rel_append h.globals hstmts }
  of_function hbuilt _ _ h := { h with functions := rel_append h.functions (.cons hbuilt .nil) }

end Points

def mainFile (ms : List Tree.SourceModule) : UInt16 := ((ms.find? (·.isMain)).map (·.file)).getD 0

/-- Modules with the same items but for their places give programs that are the same but for places, and the
same reports at places of those items, or at the beginning of the main file. -/
theorem ofModules_moved {R : Span → Span → Prop} {ms ms' : List Tree.SourceModule}
    (h : Forall₂ (Build.Placed.Moved R) (Build.placed ms) (Build.placed ms'))
    (hmain : R (.fileStart (mainFile ms)) (.fileStart (mainFile ms'))) (version : Nat) :
    Option.Rel (Program.Moved R) (ofModules ms version).1 (ofModules ms' version).1 ∧
      Forall₂ (Diagnostic.Moved R) (ofModules ms version).2 (ofModules ms' version).2 := by
  obtain ⟨-, hb, hmoved⟩ := Build.program_linked (Build.moved_points R) h _ _ (.refl (.initial version))
  replace hmoved := hmoved ⟨.nil, .nil, .nil⟩
  unfold ofModules
  generalize (Build.program ms).run (Builder.initial version) = r at hb hmoved ⊢
  generalize (Build.program ms').run (Builder.initial version) = r' at hb hmoved ⊢
  obtain ⟨_, b⟩ := r
  obtain ⟨_, b'⟩ := r'
  dsimp only at hb hmoved ⊢
  rw [← hb.entry]
  -- Only the report of a missing entry point has a place of its own, the beginning of the main file.
  cases b.entry with
  | some entry =>
    exact ⟨.some ⟨hb.version, hb.pool, hb.scopes, hmoved.globals, hmoved.functions, rfl⟩, hmoved.diagnostics⟩
  | none =>
    exact ⟨.none, rel_append hmoved.diagnostics (.cons ⟨rfl, rfl, rfl, rfl, rfl, rfl, hmain⟩ .nil)⟩

end Program

end Teal
