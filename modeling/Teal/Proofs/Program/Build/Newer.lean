import Teal.Proofs.Program.Build.Item

/-! Building for a newer version. The version is only ever compared with the first one that has a
feature, and a feature that is missing is reported. So a step that reports nothing fatal does the same
for every newer version. -/

namespace Teal.Program

def retarget (p : Program) (version : Nat) : Program := { p with version := version }

section Retarget

variable (p : Program) (version : Nat)

@[simp] theorem retarget_pool : (p.retarget version).pool = p.pool := rfl

@[simp] theorem retarget_scopes : (p.retarget version).scopes = p.scopes := rfl

@[simp] theorem retarget_globals : (p.retarget version).globals = p.globals := rfl

@[simp] theorem retarget_functions : (p.retarget version).functions = p.functions := rfl

@[simp] theorem retarget_entry : (p.retarget version).entry = p.entry := rfl

end Retarget

namespace Build

open Builder

/-- Where a step reports nothing fatal, it does the same for a newer version. It keeps the version, and
takes back nothing that was reported. -/
structure Lifts {α : Type} (m : Build α) (b : Builder) : Prop where
  version : (m.run b).2.version = b.version
  quiet : (m.run b).2.Quiet → b.Quiet
  newer : ∀ version, b.version ≤ version → (m.run b).2.Quiet →
    m.run (b.retarget version) = ((m.run b).1, (m.run b).2.retarget version)

section Rules

variable {α β : Type} {b : Builder}

theorem lifts_bind {m : Build α} {f : α → Build β} (hm : Lifts m b) (hf : Lifts (f (m.run b).1) (m.run b).2) :
    Lifts (m >>= f) b where
  version := hf.version.trans hm.version
  quiet h := hm.quiet (hf.quiet h)
  newer version hversion h := by
    have hfirst := hm.newer version hversion (hf.quiet h)
    have hrest := hf.newer version (hm.version.symm ▸ hversion) h
    calc (m >>= f).run (b.retarget version)
        = (f (m.run (b.retarget version)).1).run (m.run (b.retarget version)).2 := rfl
      _ = (f (m.run b).1).run ((m.run b).2.retarget version) := by rw [hfirst]
      _ = _ := hrest

/-- As long as nothing fatal is reported, a newer version makes no difference to what follows. -/
theorem lifts_look {f : Builder → Build β}
    (hnewer : ∀ version, b.version ≤ version → ((f b).run b).2.Quiet → f (b.retarget version) = f b)
    (hf : Lifts (f b) b) : Lifts (get >>= f) b where
  version := hf.version
  quiet := hf.quiet
  newer version hversion hquiet := by
    calc (get >>= f).run (b.retarget version)
        = (f (b.retarget version)).run (b.retarget version) := rfl
      _ = (f b).run (b.retarget version) := by rw [hnewer version hversion hquiet]
      _ = _ := hf.newer version hversion hquiet

theorem report_lifts (span : Span) (f : Fault) (b : Builder) : Lifts (report span f) b where
  version := rfl
  quiet h d hd := h d (List.mem_append_left _ hd)
  newer _ _ hquiet := absurd hquiet (not_quiet_report span f b)

end Rules

theorem lifts_points : Points Tree.anywhere fun _ _ _ _ m _ b _ => Lifts m b where
  of_pure _ _ _ _ := ⟨rfl, fun h => h, fun _ _ _ => rfl⟩
  of_bind := lifts_bind
  of_look := lifts_look
  of_change hg _ := ⟨hg.version, fun h d hd => h d (hg.diagnostics.symm ▸ hd), fun version _ _ => hg.newer version⟩
  of_report _ _ _ _ _ _ _ _ := report_lifts _ _ _
  of_stray _ _ _ := report_lifts _ _ _
  of_globals _ _ _ _ _ _ := ⟨rfl, fun h => h, fun _ _ _ => rfl⟩
  of_function _ _ _ := ⟨rfl, fun h => h, fun _ _ _ => rfl⟩

end Build

end Teal.Program

namespace Teal.Program

/-- What is built for a version without a fatal report is built in the same way for every newer one. -/
theorem ofModules_newer {ms : List Tree.SourceModule} {v w : Nat} {p : Program} {ds : List Diagnostic}
    (hvw : v ≤ w) (h : ofModules ms v = (some p, ds)) (hds : ∀ d ∈ ds, d.isFatal = false) :
    ofModules ms w = (some (p.retarget w), ds) := by
  obtain ⟨b, entry, hb, hentry, rfl, rfl⟩ := builder_of_ofModules h
  subst hb
  obtain ⟨-, -, hlifts⟩ := Build.program_linked Build.lifts_points (Build.placed_moved_erase ms) _ _
    (.refl (.initial v))
  have hnewer := hlifts.newer w hvw hds
  change (Build.program ms).run (.initial w) = _ at hnewer
  generalize (Build.program ms).run (.initial v) = r at *
  simp only [ofModules, hnewer, Builder.retarget, hentry]
  simp only [Builder.program, Builder.pool, retarget, hentry, Option.getD_some]

end Teal.Program
