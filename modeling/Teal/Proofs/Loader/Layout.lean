import Teal.Loader
import Teal.Proofs.Program.Build.Moved
import Teal.Proofs.Tree.Parser.Within

/-! Loading does not depend on layout. Texts with the same lexemes are read in the same way: into trees that
are the same but for places, in one file, or to the same findings. Two loaders that start with such texts go
in parallel whatever their modules come from. They ask for the same modules in the same order, so all effects
of the monad they work in are the same; this is said by one computation that yields the results of both. -/

namespace Teal

open List

/-! ### Two computations with the same effects -/

/-- One computation yields the results of two others at once, and these stand in a relation. -/
def Coupled {m : Type → Type} [Functor m] {α β : Type} (V : α → β → Prop) (x : m α) (y : m β) : Prop :=
  ∃ z : m { r : α × β // V r.1 r.2 }, (·.1.1) <$> z = x ∧ (·.1.2) <$> z = y

section Coupled

variable {m : Type → Type} [Monad m] [LawfulMonad m] {α β γ δ : Type} {V : α → β → Prop}
  {W : γ → δ → Prop} {x : m α} {y : m β}

theorem coupled_pure {a : α} {b : β} (h : V a b) : Coupled V (pure a : m α) (pure b) :=
  ⟨pure ⟨(a, b), h⟩, map_pure _ _, map_pure _ _⟩

theorem coupled_refl (x : m α) : Coupled Eq x x := by
  refine ⟨(fun a => ⟨(a, a), rfl⟩) <$> x, ?_, ?_⟩
  · rw [Functor.map_map]
    exact id_map x
  · rw [Functor.map_map]
    exact id_map x

theorem coupled_bind {f : α → m γ} {g : β → m δ} (h : Coupled V x y)
    (hf : ∀ a b, V a b → Coupled W (f a) (g b)) : Coupled W (x >>= f) (y >>= g) := by
  obtain ⟨z, rfl, rfl⟩ := h
  choose next hfirst hsecond using fun r : { r : α × β // V r.1 r.2 } => hf r.1.1 r.1.2 r.2
  refine ⟨z >>= next, ?_, ?_⟩
  · rw [map_bind, bind_map_left]
    exact bind_congr hfirst
  · rw [map_bind, bind_map_left]
    exact bind_congr hsecond

/-- What is the same of related results is the same of the computations. -/
theorem Coupled.map_eq {f : α → γ} {g : β → γ} (h : Coupled V x y) (heq : ∀ a b, V a b → f a = g b) :
    f <$> x = g <$> y := by
  obtain ⟨z, rfl, rfl⟩ := h
  rw [Functor.map_map, Functor.map_map]
  exact map_congr fun r => heq r.1.1 r.1.2 r.2

end Coupled

/-! ### Findings without places -/

/-- The finding without its place in the file, and without notes that quote places. -/
def Diagnostic.unplaced (d : Diagnostic) : Diagnostic :=
  { d with span := .fileStart d.span.file, notes := d.plainNotes }

def SameFile (a b : Span) : Prop := a.file = b.file

theorem Diagnostic.Moved.unplaced_eq {d d' : Diagnostic} (h : d.Moved SameFile d') :
    d.unplaced = d'.unplaced := by
  have hspan : d.span.file = d'.span.file := h.span
  rw [unplaced, unplaced, h.kind, h.kind', h.severity, h.message, h.help, h.notes, hspan]

theorem Parser.SameFinding.unplaced_eq {d e : Diagnostic} (h : SameFinding d e)
    (hfile : d.span.file = e.span.file) : d.unplaced = e.unplaced := by
  cases h with
  | fault f a b =>
    have hspan : a.file = b.file := hfile
    simp [Diagnostic.unplaced, Diagnostic.plainNotes, Parser.Fault.toDiagnostic, Diagnostic.syntactic, hspan]
  | remark message a b =>
    have hspan : a.file = b.file := hfile
    simp [Diagnostic.unplaced, Diagnostic.plainNotes, Diagnostic.ambiguity, hspan]

theorem Provider.Fault.unplaced_eq (f : Provider.Fault) {a b : Span} (h : SameFile a b) :
    (f.toDiagnostic a).unplaced = (f.toDiagnostic b).unplaced := by
  have hspan : a.file = b.file := h
  simp [Diagnostic.unplaced, Diagnostic.plainNotes, toDiagnostic, Diagnostic.semantic, hspan]

/-! ### Reading a text -/

namespace Tree.Parsed

/-- Two texts of one file are read in the same way, but for places. -/
inductive SameReading : Except (List Diagnostic) Parsed → Except (List Diagnostic) Parsed → Prop
  | error {ds ds' : List Diagnostic} (h : ds.map Diagnostic.unplaced = ds'.map Diagnostic.unplaced) :
      SameReading (.error ds) (.error ds')
  | ok {p p' : Parsed}
      (hnotes : p.notes.map Diagnostic.unplaced = p'.notes.map Diagnostic.unplaced)
      (himports : Forall₂ (fun i i' => i.1 = i'.1 ∧ SameFile i.2 i'.2) p.module.imports
        p'.module.imports)
      (hitems : Forall₂ (Item.Moved SameFile) p.module.items p'.module.items) :
      SameReading (.ok p) (.ok p')

variable {file : FileId} {text text' : String}

theorem ofText_eq_of_run (h : (scan file text).diagnostics = []) {r : Tree.Module × Parser.State}
    (hr : Parser.file.run (.start (scan file text).tokens (scan file text).finish) = r) :
    ofText file text =
      if r.2.diagnostics.any (·.isFatal) then .error r.2.diagnostics else .ok ⟨r.1, r.2.diagnostics⟩ := by
  subst hr
  simp only [ofText, h, any_nil, Bool.false_eq_true, if_false]
  rfl

theorem sameReading_of_lexemes (htext : (scan file text).diagnostics = [])
    (htext' : (scan file text').diagnostics = [])
    (hlexemes : (scan file text).tokens.map Token.lexeme = (scan file text').tokens.map Token.lexeme) :
    SameReading (ofText file text) (ofText file text') := by
  have hfile (text : String) : ∀ t ∈ (scan file text).tokens, t.span.file = file :=
    fun t ht => ((inText_of_mem_scan file text).1 t ht).1
  have hfinish (text : String) : (scan file text).finish.file = file := (inText_of_mem_scan file text).2.2.1
  let P : Span → Span → Prop := fun a b => a.file = file ∧ b.file = file
  have hstart : Forall₂ (Parser.TokenMoved P) (scan file text).tokens (scan file text').tokens :=
    (Parser.forall₂_of_map_eq hlexemes (hfile text) (hfile text')).imp fun _ _ ht => ⟨ht.1, ht.2⟩
  have hR : ∀ ⦃a b⦄, P a b → SameFile a b := fun _ _ h => h.1.trans h.2.symm
  obtain ⟨hmodule, hstate⟩ := Parser.fileWithin_inStep (fun _ _ _ _ h _ => h) hR Parser.maxNesting _ _
    (.start hstart ⟨hfinish text, hfinish text'⟩)
  change (Parser.file.run _).2.Moved _ (Parser.file.run _).2 at hstate
  change Parser.ModuleMoved _ _ (Parser.file.run _).1 (Parser.file.run _).1 at hmodule
  rw [ofText_eq_of_run htext rfl, ofText_eq_of_run htext' rfl, ← hstate.any_isFatal]
  have hfindings := map_eq_of_forall₂ hstate.diagnostics fun _ _ hd => hd.same.unplaced_eq (hR hd.span)
  split
  · exact .error hfindings
  · exact .ok hfindings (hmodule.imports.imp fun _ _ hi => ⟨hi.1, hR hi.2⟩) hmodule.items

/-- Whatever number they are read under, two texts are read in the same way. -/
def SameLayout (text text' : String) : Prop :=
  ∀ file, SameReading (ofText file text) (ofText file text')

theorem scan_diagnostics_eq_nil (h : (scan file text).diagnostics = []) (file' : FileId) :
    (scan file' text).diagnostics = [] := by
  have hmap := (Scan.map_run file file' 0 text.toList 0).2
  rw [← scan, h, map_nil] at hmap
  exact map_eq_nil_iff.mp hmap.symm

theorem sameLayout_of_lexemes (htext : (scan 0 text).diagnostics = [])
    (htext' : (scan 0 text').diagnostics = [])
    (hlexemes : (scan 0 text).tokens.map Token.lexeme = (scan 0 text').tokens.map Token.lexeme) :
    SameLayout text text' := by
  intro file
  refine sameReading_of_lexemes (scan_diagnostics_eq_nil htext file)
    (scan_diagnostics_eq_nil htext' file) ?_
  calc (scan file text).tokens.map Token.lexeme
      = (scan 0 text).tokens.map Token.lexeme := (Scan.map_run file 0 0 text.toList 0).1
    _ = (scan 0 text').tokens.map Token.lexeme := hlexemes
    _ = (scan file text').tokens.map Token.lexeme := (Scan.map_run 0 file 0 text'.toList 0).1

theorem sameLayout_refl (text : String) : SameLayout text text := by
  intro file
  cases hparsed : ofText file text with
  | error ds => exact .error rfl
  | ok parsed =>
    obtain ⟨-, hitems⟩ := module_inText (R := SameFile) hparsed fun _ _ => rfl
    exact .ok rfl (forall₂_same.mpr fun _ _ => ⟨rfl, rfl⟩) (forall₂_same.mpr hitems)

end Tree.Parsed

/-! ### Loading -/

structure Tree.SourceModule.Moved (m m' : Tree.SourceModule) : Prop where
  name : m.name = m'.name
  file : m.file = m'.file
  isMain : m.isMain = m'.isMain
  imports : m.tree.imports.map Prod.fst = m'.tree.imports.map Prod.fst
  items : Forall₂ (Tree.Item.Moved SameFile) m.tree.items m'.tree.items

/-- What was loaded is the same but for places, and for the texts of files. -/
structure Loaded.Alike (l l' : Loaded) : Prop where
  modules : Forall₂ Tree.SourceModule.Moved l.modules l'.modules
  names : l.sources.files.map (·.name) = l'.sources.files.map (·.name)
  diagnostics : l.diagnostics.map Diagnostic.unplaced = l'.diagnostics.map Diagnostic.unplaced

namespace Loader

structure State.Alike (s t : State) : Prop extends s.toLoaded.Alike t.toLoaded where
  closed : s.closed = t.closed

variable {m : Type → Type} [Monad m] [LawfulMonad m]

/-- From states that are alike, two loaders have the same effects and lead to related results and to states
that are alike. -/
def Parallel {α β : Type} (V : α → β → Prop) (p : Load m α) (q : Load m β) : Prop :=
  ∀ s t, s.Alike t → Coupled (fun r r' => V r.1 r'.1 ∧ r.2.Alike r'.2) (p.run s) (q.run t)

section Rules

variable {α β γ δ : Type} {V : α → β → Prop} {W : γ → δ → Prop} {p : Load m α} {q : Load m β}

theorem parallel_bind {f : α → Load m γ} {g : β → Load m δ} (h : Parallel V p q)
    (hf : ∀ a b, V a b → Parallel W (f a) (g b)) : Parallel W (p >>= f) (q >>= g) := by
  intro s t hst
  rw [StateT.run_bind, StateT.run_bind]
  exact coupled_bind (h s t hst) fun r r' hr => hf r.1 r'.1 hr.1 r.2 r'.2 hr.2

theorem parallel_modify {f g : State → State} (h : ∀ s t, s.Alike t → (f s).Alike (g t)) :
    Parallel Eq (modify f : Load m Unit) (modify g) :=
  fun s t hst => coupled_pure ⟨rfl, h s t hst⟩

theorem parallel_pure {a : α} {b : β} (h : V a b) : Parallel V (pure a : Load m α) (pure b) :=
  fun _ _ hst => coupled_pure ⟨h, hst⟩

theorem parallel_get : Parallel State.Alike (get : Load m State) get :=
  fun _ _ hst => coupled_pure ⟨hst, hst⟩

/-- What both loaders ask for outside is the same. -/
theorem parallel_lift (x : m α) : Parallel Eq (liftM x : Load m α) (liftM x) := by
  intro s t hst
  refine coupled_bind (coupled_refl x) ?_
  rintro a _ rfl
  exact coupled_pure ⟨rfl, hst⟩

theorem parallel_forM {V : α → β → Prop} {f : α → Load m Unit} {g : β → Load m Unit}
    (hf : ∀ a b, V a b → Parallel Eq (f a) (g b)) {as : List α} {bs : List β}
    (h : Forall₂ V as bs) : Parallel Eq (as.forM f) (bs.forM g) := by
  induction h with
  | nil => exact parallel_pure rfl
  | cons h _ ih => exact parallel_bind (hf _ _ h) fun _ _ _ => ih

end Rules

section Steps

theorem addDiagnostics_parallel {ds es : List Diagnostic}
    (h : ds.map Diagnostic.unplaced = es.map Diagnostic.unplaced) :
    Parallel Eq (addDiagnostics ds : Load m Unit) (addDiagnostics es) :=
  parallel_modify fun s t hst => { hst with
    diagnostics := by
      refine map_append.trans (.trans ?_ map_append.symm)
      exact congrArg₂ (· ++ ·) hst.diagnostics h }

theorem addSource_parallel {source source' : Provided} (h : source.name = source'.name) :
    Parallel Eq (addSource source : Load m FileId) (addSource source') := by
  refine fun s t hst => coupled_pure ⟨?_, { hst with names := ?_ }⟩
  · have hsize := congrArg Array.size hst.names
    rw [Array.size_map, Array.size_map] at hsize
    exact congrArg UInt16.ofNat hsize
  · change (s.sources.files.push _).map _ = (t.sources.files.push _).map _
    rw [Array.map_push, Array.map_push]
    exact congrArg₂ Array.push hst.names h

theorem addModule_parallel {a b : Tree.SourceModule} (h : a.Moved b) :
    Parallel Eq (addModule a : Load m Unit) (addModule b) :=
  parallel_modify fun s t hst => { hst with
    modules := by
      rw [State.toLoaded, State.toLoaded, State.modules, State.modules, Array.toList_push, Array.toList_push]
      exact rel_append hst.modules (.cons h .nil) }

theorem finish_parallel (key : String) : Parallel Eq (finish key : Load m Unit) (finish key) :=
  parallel_modify fun _ _ hst => { hst with closed := by rw [hst.closed] }

end Steps

/-- Loaders that start with texts of the same lexemes go in parallel. -/
theorem loadModule_parallel (provider : Provider m) (extension : String) (room : Nat) :
    ∀ (importers : List String) (key name : String) {text text' : String} (isMain : Bool),
      Tree.Parsed.SameLayout text text' →
      Parallel Eq (loadModule provider extension room importers ⟨key, name, text⟩ isMain)
        (loadModule provider extension room importers ⟨key, name, text'⟩ isMain) := by
  induction room with
  | zero => exact fun _ _ _ _ _ _ _ => parallel_pure rfl
  | succ room ih =>
    intro importers key name text text' isMain htext
    rw [loadModule, loadModule]
    refine parallel_bind (addSource_parallel rfl) ?_
    rintro file _ rfl
    have hreading := htext file
    dsimp only
    generalize Tree.Parsed.ofText file text = r at hreading ⊢
    generalize Tree.Parsed.ofText file text' = r' at hreading ⊢
    cases hreading with
    | error hds =>
      exact parallel_bind (addDiagnostics_parallel hds) fun _ _ _ => finish_parallel key
    | ok hnotes himports hitems =>
      refine parallel_bind (addDiagnostics_parallel hnotes) fun _ _ _ => ?_
      refine parallel_bind (parallel_forM ?_ himports) fun _ _ _ => ?_
      · rintro ⟨i, span⟩ ⟨_, span'⟩ ⟨rfl, hspan⟩
        refine parallel_bind (parallel_lift _) ?_
        rintro located _ rfl
        have hfault (fault : Provider.Fault) : Parallel Eq
            (addDiagnostics [fault.toDiagnostic span] : Load m Unit)
            (addDiagnostics [fault.toDiagnostic span']) := by
          refine addDiagnostics_parallel ?_
          rw [map_singleton, map_singleton, fault.unplaced_eq hspan]
        cases located with
        | error fault => exact hfault fault
        | ok found =>
          dsimp only
          split
          · exact hfault _
          · refine parallel_bind parallel_get fun s t hst => ?_
            rw [hst.closed]
            split
            · exact ih _ found.key found.name false (Tree.Parsed.sameLayout_refl found.text)
            · exact parallel_pure rfl
      · have hnames := map_eq_of_forall₂ himports fun _ _ hi => hi.1
        exact parallel_bind (addModule_parallel ⟨rfl, rfl, rfl, hnames, hitems⟩) fun _ _ _ =>
          finish_parallel key

theorem collect_coupled (provider : Provider m) (extension name : String) {text text' : String}
    (htext : Tree.Parsed.SameLayout text text') :
    Coupled Loaded.Alike (collect provider extension name text) (collect provider extension name text') := by
  refine coupled_bind (coupled_refl (provider.mainKey name)) ?_
  rintro key _ rfl
  refine coupled_bind (coupled_refl provider.capacity) ?_
  rintro capacity _ rfl
  have hstart : State.start.Alike .start := ⟨⟨.nil, rfl, rfl⟩, rfl⟩
  refine coupled_bind (loadModule_parallel provider extension _ [] key name true htext _ _ hstart) ?_
  intro r r' hr
  exact coupled_pure hr.2.toAlike

end Loader

end Teal
