import Teal.Proofs.Assembly.Moved
import Teal.Proofs.Program.Outline
import Teal.Proofs.Program.Typing.Moved

/-! Imports are textual inclusion. A list of modules that ends with the main file is built, checked and
emitted like the main file alone with the items of all modules in it, whatever the places, the numbers of files
and the names of modules are. Both are compared with one module that has the same items without places. -/

namespace Teal

open List

/-- What a finding says, and whether it stops the compilation. -/
def Diagnostic.gist (d : Diagnostic) : String × Bool := (d.message, d.isFatal)

/-- What is found in the types of a program, and its assembly. -/
def Program.outcome (p : Program) :
    List (String × Bool) × Except Assembly.Fault (List Assembly.Line) :=
  (p.typeFaults.map Diagnostic.gist, p.emit)

variable {R : Span → Span → Prop} {ds ds' : List Diagnostic}

theorem Diagnostic.Moved.gist_eq {d d' : Diagnostic} (h : d.Moved R d') : d.gist = d'.gist := by
  rw [gist, gist, isFatal, isFatal, h.message, h.severity, h.kind, h.kind']

theorem Program.outcome_eq_of_moved {p p' : Program} (h : p.Moved R p') : p.outcome = p'.outcome := by
  rw [outcome, outcome, emit_eq_of_moved h, map_eq_of_forall₂ (typeFaults_moved h) fun _ _ hd => hd.gist_eq]

theorem messages_eq_of_gist (h : ds.map Diagnostic.gist = ds'.map Diagnostic.gist) :
    ds.map (·.message) = ds'.map (·.message) := by
  have hfirst (ds : List Diagnostic) : ds.map (·.message) = (ds.map Diagnostic.gist).map (·.1) := by
    rw [map_map]
    rfl
  rw [hfirst, hfirst, h]

/-! ### Compilations that look the same -/

section View

variable {β : Type} {view : Diagnostic → β} (hview : ∀ d d', view d = view d' → d.isFatal = d'.isFatal)

include hview

theorem any_isFatal_eq_of_view {ds ds' : List Diagnostic} (h : ds.map view = ds'.map view) :
    ds.any (·.isFatal) = ds'.any (·.isFatal) := by
  induction ds generalizing ds' with
  | nil =>
    cases ds' with
    | nil => rfl
    | cons d' ds' => cases h
  | cons d ds ih =>
    cases ds' with
    | nil => cases h
    | cons d' ds' =>
      rw [map_cons, map_cons, List.cons.injEq] at h
      rw [any_cons, any_cons, hview d d' h.1, ih h.2]

/-- Where the steps agree on how what they find looks, and on the assembly, so does a compilation. -/
theorem Loaded.compile_eq_of_view {l l' : Loaded} {version : Nat} (emit : Bool)
    (hloading : l.diagnostics.map view = l'.diagnostics.map view)
    (hbuilding : (Program.ofModules l.modules version).2.map view =
      (Program.ofModules l'.modules version).2.map view)
    (hprogram : Option.Rel (fun p p' => p.typeFaults.map view = p'.typeFaults.map view ∧ p.emit = p'.emit)
      (Program.ofModules l.modules version).1 (Program.ofModules l'.modules version).1) :
    (l.compile version emit).assembly = (l'.compile version emit).assembly ∧
      (l.compile version emit).diagnostics.map view = (l'.compile version emit).diagnostics.map view := by
  have happend {as bs as' bs' : List Diagnostic} (ha : as.map view = as'.map view)
      (hb : bs.map view = bs'.map view) : (as ++ bs).map view = (as' ++ bs').map view := by
    rw [map_append, map_append, ha, hb]
  have hloading := happend hloading (rfl : (versionFaults version).map view = _)
  unfold Loaded.compile
  dsimp only
  rw [any_isFatal_eq_of_view hview hloading]
  generalize Program.ofModules l.modules version = r at hbuilding hprogram ⊢
  generalize Program.ofModules l'.modules version = r' at hbuilding hprogram ⊢
  obtain ⟨built, ds⟩ := r
  obtain ⟨built', ds'⟩ := r'
  have hbuilding := happend hloading hbuilding
  split
  · exact ⟨rfl, hloading⟩
  · cases hprogram with
    | none => exact ⟨rfl, hbuilding⟩
    | some hp =>
      have hchecking := happend hbuilding hp.1
      dsimp only
      rw [any_isFatal_eq_of_view hview hbuilding, any_isFatal_eq_of_view hview hchecking, hp.2]
      split
      · exact ⟨rfl, hbuilding⟩
      · split
        · exact ⟨rfl, hchecking⟩
        · exact ⟨rfl, hchecking⟩

end View

theorem isFatal_eq_of_gist (d d' : Diagnostic) (h : d.gist = d'.gist) : d.isFatal = d'.isFatal :=
  congrArg Prod.snd h

theorem any_isFatal_eq_of_gist (h : ds.map Diagnostic.gist = ds'.map Diagnostic.gist) :
    ds.any (·.isFatal) = ds'.any (·.isFatal) :=
  any_isFatal_eq_of_view isFatal_eq_of_gist h

/-- Where the steps agree on what they find and on the assembly, so does a compilation. -/
theorem Loaded.compile_eq_of_gist {l l' : Loaded} {version : Nat} (emit : Bool)
    (hloading : l.diagnostics.map Diagnostic.gist = l'.diagnostics.map Diagnostic.gist)
    (hbuilding : (Program.ofModules l.modules version).2.map Diagnostic.gist =
      (Program.ofModules l'.modules version).2.map Diagnostic.gist)
    (hprogram : (Program.ofModules l.modules version).1.map Program.outcome =
      (Program.ofModules l'.modules version).1.map Program.outcome) :
    (l.compile version emit).assembly = (l'.compile version emit).assembly ∧
      (l.compile version emit).diagnostics.map Diagnostic.gist =
        (l'.compile version emit).diagnostics.map Diagnostic.gist := by
  refine Loaded.compile_eq_of_view isFatal_eq_of_gist emit hloading hbuilding ?_
  cases hbuilt : (Program.ofModules l.modules version).1 with
  | none =>
    rw [hbuilt] at hprogram
    rw [Option.map_eq_none_iff.mp hprogram.symm]
    exact .none
  | some p =>
    rw [hbuilt] at hprogram
    obtain ⟨p', hbuilt', houtcome⟩ := Option.map_eq_some_iff.mp hprogram.symm
    rw [hbuilt']
    exact .some (Prod.mk.inj houtcome.symm)

namespace Program

open Build

def DefinesNoEntry (m : Tree.SourceModule) : Prop :=
  ∀ span f, Tree.Item.function span f ∈ m.tree.items → f.name.text ≠ entryName

def bare (items : List Tree.Item) : Tree.SourceModule := ⟨"", 0, ⟨[], items⟩, true⟩

theorem items_placed (ms : List Tree.SourceModule) : (placed ms).map (·.item) = items ms := by
  have hitem (m : Tree.SourceModule) :
      (m.tree.items.map (⟨m.name, m.isMain, ·⟩)).map Placed.item = m.tree.items := by
    rw [map_map]
    exact map_id _
  rw [placed, items, map_flatMap]
  simp only [hitem]

variable {ms : List Tree.SourceModule}

/-- Where all entry points stand in main files, modules have the items of one main file but for places. -/
theorem placed_moved_bare (h : ∀ m ∈ ms, m.isMain = true ∨ DefinesNoEntry m) :
    List.Forall₂ (Placed.Moved Tree.anywhere) (placed ms)
      (placed [bare ((items ms).map Tree.Item.erase)]) := by
  have hbare : placed [bare ((items ms).map Tree.Item.erase)] =
      (placed ms).map fun p => ⟨"", true, p.item.erase⟩ := by
    rw [← items_placed, placed, flatMap_singleton, bare, map_map, map_map]
    rfl
  rw [hbare, forall₂_map_right_iff, forall₂_same]
  intro p hp
  refine ⟨p.item.moved_erase, fun span f hf hname => ?_⟩
  obtain ⟨m, hm, hitem, hmain⟩ := mem_placed hp
  have htrue : m.isMain = true := (h m hm).resolve_right fun hnone =>
    hnone span f (hf ▸ hitem) hname
  rw [hmain, htrue]
  exact ⟨rfl, by simp⟩

theorem ofModules_bare (h : ∀ m ∈ ms, m.isMain = true ∨ DefinesNoEntry m) (version : Nat) :
    (ofModules ms version).2.map Diagnostic.gist =
        (ofModules [bare ((items ms).map Tree.Item.erase)] version).2.map Diagnostic.gist ∧
      (ofModules ms version).1.map outcome =
        (ofModules [bare ((items ms).map Tree.Item.erase)] version).1.map outcome := by
  obtain ⟨hprogram, hds⟩ := ofModules_moved (placed_moved_bare h) trivial version
  refine ⟨map_eq_of_forall₂ hds fun _ _ hd => hd.gist_eq, ?_⟩
  generalize (ofModules ms version).1 = built at hprogram ⊢
  generalize (ofModules [bare ((items ms).map Tree.Item.erase)] version).1 = built' at hprogram ⊢
  cases hprogram with
  | none => rfl
  | some hp => rw [Option.map_some, Option.map_some, outcome_eq_of_moved hp]

end Program

/-- **Imports are textual inclusion.** Imported modules without an entry point, followed by the main file, give
the same assembly and the same findings in the same order as one main file with the items of them all. This
holds of building, of checking types and of emitting on their own, and of a compilation, in which each of them
is done only if nothing was found wrong before. -/
theorem compile_eq_of_inclusion (imported : List Tree.SourceModule) (main single : Tree.SourceModule)
    (himported : ∀ m ∈ imported, m.isMain = false ∧ Program.DefinesNoEntry m) (hmain : main.isMain = true)
    (hsingle : single.isMain = true)
    (hitems : single.tree.items.map Tree.Item.erase =
      (Program.items (imported ++ [main])).map Tree.Item.erase) (version : Nat) :
    (Program.ofModules (imported ++ [main]) version).2.map Diagnostic.gist =
        (Program.ofModules [single] version).2.map Diagnostic.gist ∧
      (Program.ofModules (imported ++ [main]) version).1.map Program.outcome =
        (Program.ofModules [single] version).1.map Program.outcome ∧
      ∀ (many one : Loaded) (emit : Bool), many.modules = imported ++ [main] → one.modules = [single] →
        many.diagnostics = one.diagnostics →
        (many.compile version emit).assembly = (one.compile version emit).assembly ∧
          (many.compile version emit).hasErrors = (one.compile version emit).hasErrors ∧
          (many.compile version emit).diagnostics.map (·.message) =
            (one.compile version emit).diagnostics.map (·.message) := by
  have hmany : ∀ m ∈ imported ++ [main], m.isMain = true ∨ Program.DefinesNoEntry m := by
    intro m hm
    rcases mem_append.mp hm with hm | hm
    · exact .inr (himported m hm).2
    · rw [mem_singleton.mp hm]
      exact .inl hmain
  have hone : ∀ m ∈ [single], m.isMain = true ∨ Program.DefinesNoEntry m := by
    intro m hm
    rw [mem_singleton.mp hm]
    exact .inl hsingle
  have hsame : (Program.items [single]).map Tree.Item.erase =
      (Program.items (imported ++ [main])).map Tree.Item.erase := by
    rw [← hitems, Program.items, flatMap_singleton]
  obtain ⟨hmanyFindings, hmanyProgram⟩ := Program.ofModules_bare hmany version
  obtain ⟨honeFindings, honeProgram⟩ := Program.ofModules_bare hone version
  rw [hsame] at honeFindings honeProgram
  have hfindings := hmanyFindings.trans honeFindings.symm
  have hprogram := hmanyProgram.trans honeProgram.symm
  refine ⟨hfindings, hprogram, fun many one emit hmodules hmodules' hds => ?_⟩
  rw [← hmodules, ← hmodules'] at hfindings hprogram
  obtain ⟨hassembly, hgist⟩ := Loaded.compile_eq_of_gist emit (congrArg _ hds) hfindings hprogram
  exact ⟨hassembly, any_isFatal_eq_of_gist hgist, messages_eq_of_gist hgist⟩

/-- The two modules in one file, at no place in particular. -/
def Sample.joined : Tree.SourceModule :=
  ⟨"joined", 7, ⟨[], (Program.items Sample.shadowed).map Tree.Item.erase⟩, true⟩

/-- The library of the two modules has no entry point, and the main file with both of their items is compiled
in the same way. -/
theorem compile_eq_of_inclusion_sample :
    (∀ m ∈ Sample.shadowed.dropLast, m.isMain = false ∧ Program.DefinesNoEntry m) ∧
      (Program.ofModules Sample.shadowed 5).1.map Program.outcome =
        (Program.ofModules [Sample.joined] 5).1.map Program.outcome := by
  have himported : ∀ m ∈ Sample.shadowed.dropLast, m.isMain = false ∧ Program.DefinesNoEntry m := by
    intro m hm
    cases mem_singleton.mp hm
    refine ⟨rfl, fun span f hf => ?_⟩
    simp only [mem_cons, reduceCtorEq, Tree.Item.function.injEq, not_mem_nil, or_false, false_or] at hf
    rw [hf.2]
    decide
  obtain ⟨-, houtcome, -⟩ := compile_eq_of_inclusion Sample.shadowed.dropLast
    (Sample.shadowed.getLast (by decide)) Sample.joined himported rfl rfl rfl 5
  exact ⟨himported, houtcome⟩

end Teal
