import Teal.Proofs.Compile.Spans
import Teal.Proofs.FileTree

/-! Loading from a tree of files. Nothing that the loader asks changes the tree, so it does what a loader does
whose modules are the answers from this one tree, and what is known of such loaders applies. Each file it
loads is of the library or stands in the tree as it was read, and it is parsed unless something is found
wrong. -/

namespace Teal

open FileTree

/-- The answers of a provider from one tree. -/
def Provider.frozen (provider : Provider (StateM FileTree)) (t : FileTree) : Provider Id where
  mainKey name := ((provider.mainKey name).run t).1
  load path importer := ((provider.load path importer).run t).1
  capacity := (provider.capacity.run t).1

structure Provider.Still (provider : Provider (StateM FileTree)) (t : FileTree) : Prop where
  mainKey : ∀ name, ((provider.mainKey name).run t).2 = t
  load : ∀ path importer, ((provider.load path importer).run t).2 = t
  capacity : (provider.capacity.run t).2 = t

theorem Tree.Parsed.any_isFatal_of_error {file : FileId} {text : String} {ds : List Diagnostic}
    (h : ofText file text = .error ds) : ds.any (·.isFatal) = true := by
  simp only [ofText, ofTokens] at h
  split at h
  · cases h
    assumption
  · split at h
    · cases h
      assumption
    · cases h

namespace Loader

/-- A loader leaves a tree as it is and does what another loader does. -/
def Mirrors {α : Type} (t : FileTree) (x : Load (StateM FileTree) α) (y : Load Id α) : Prop :=
  ∀ s : State, (x.run s).run t = (y.run s, t)

section Mirrors

variable {α β : Type} {t : FileTree} {x : Load (StateM FileTree) α} {y : Load Id α}
  {f : α → Load (StateM FileTree) β} {g : α → Load Id β}

theorem mirrors_pure (a : α) : Mirrors t (pure a) (pure a) := fun _ => rfl

theorem mirrors_bind (hx : Mirrors t x y) (hf : ∀ a, Mirrors t (f a) (g a)) :
    Mirrors t (x >>= f) (y >>= g) := by
  intro s
  rw [StateT.run_bind, StateT.run_bind, hx s]
  exact hf _ _

theorem mirrors_forM {f : α → Load (StateM FileTree) Unit} {g : α → Load Id Unit}
    (hf : ∀ a, Mirrors t (f a) (g a)) (l : List α) : Mirrors t (l.forM f) (l.forM g) := by
  induction l with
  | nil => exact mirrors_pure ()
  | cons a l ih => exact mirrors_bind (hf a) fun _ => ih

/-- What is asked outside, with the answer from the tree. -/
theorem mirrors_lift {x : StateM FileTree α} {y : Id α} (h : x.run t = (y, t)) :
    Mirrors t (liftM x) (liftM y) := by
  intro s
  have hrun : ((liftM x : Load (StateM FileTree) α).run s).run t = (((x.run t).1, s), (x.run t).2) := rfl
  rw [hrun, h]
  rfl

variable {provider : Provider (StateM FileTree)} (hstill : provider.Still t)

include hstill

theorem locate_still (extension importer : String) (i : Tree.Import) :
    (locate provider extension importer i).run t = (locate (provider.frozen t) extension importer i, t) := by
  unfold locate
  split
  · rfl
  · split
    · exact Prod.ext rfl (hstill.load _ _)
    · rfl

theorem loadModule_mirrors (extension : String) (room : Nat) :
    ∀ (importers : List String) (source : Provided) (isMain : Bool),
      Mirrors t (loadModule provider extension room importers source isMain)
        (loadModule (provider.frozen t) extension room importers source isMain) := by
  induction room with
  | zero => exact fun _ _ _ => mirrors_pure ()
  | succ room ih =>
    intro importers source isMain
    rw [loadModule, loadModule]
    refine mirrors_bind (fun _ => rfl) fun file => ?_
    dsimp only
    cases Tree.Parsed.ofText file source.text with
    | error ds => exact mirrors_bind (fun _ => rfl) fun _ => fun _ => rfl
    | ok parsed =>
      refine mirrors_bind (fun _ => rfl) fun _ => ?_
      refine mirrors_bind (mirrors_forM (fun i => ?_) _) fun _ => mirrors_bind (fun _ => rfl) fun _ _ => rfl
      refine mirrors_bind (mirrors_lift (locate_still hstill extension source.key i.1)) fun located => ?_
      cases located with
      | error fault => exact fun _ => rfl
      | ok found =>
        dsimp only
        split
        · exact fun _ => rfl
        · refine mirrors_bind (fun _ => rfl) fun s => ?_
          split
          · exact ih _ found false
          · exact mirrors_pure ()

theorem collect_still (extension name text : String) :
    (collect provider extension name text).run t = ((collect (provider.frozen t) extension name text).run, t) := by
  have hkey : (provider.mainKey name).run t = ((provider.frozen t).mainKey name, t) :=
    Prod.ext rfl (hstill.mainKey name)
  have hcapacity : provider.capacity.run t = ((provider.frozen t).capacity, t) :=
    Prod.ext rfl hstill.capacity
  rw [collect, run_bind_eq hkey, run_bind_eq hcapacity]
  exact run_bind_eq (loadModule_mirrors hstill extension _ _ _ _ _)

end Mirrors

end Loader

/-! ### What is loaded -/

/-- All files are of one sort, and each of them is parsed unless something was found wrong. -/
structure Loaded.Sound (Known : SourceFile → Prop) (l : Loaded) : Prop where
  known : ∀ f ∈ l.sources.files, Known f
  parsed : l.diagnostics.any (·.isFatal) = true ∨
    ∀ f ∈ l.sources.files, ∃ file parsed, Tree.Parsed.ofText file f.text = .ok parsed

namespace Loader

def State.Sound (Known : SourceFile → Prop) (s : State) : Prop := s.toLoaded.Sound Known

namespace State.Sound

variable {Known : SourceFile → Prop} {s : State}

theorem start : State.start.Sound Known :=
  ⟨fun f hf => absurd hf (Array.not_mem_empty f), .inr fun f hf => absurd hf (Array.not_mem_empty f)⟩

variable (h : s.Sound Known)

include h

theorem tell (ds : List Diagnostic) : (s.tell ds).Sound Known := by
  refine ⟨h.known, h.parsed.imp_left fun hfatal => List.any_append.trans ?_⟩
  exact Bool.or_eq_true_iff.mpr (.inl hfatal)

theorem known_withSource {source : Provided} (hsource : Known ⟨source.name, source.text⟩) :
    ∀ f ∈ (s.withSource source).sources.files, Known f := by
  intro f hf
  rcases Array.mem_push.mp hf with hf | rfl
  · exact h.known f hf
  · exact hsource

theorem read {source : Provided} (hsource : Known ⟨source.name, source.text⟩)
    {file : FileId} {parsed : Tree.Parsed} (hparsed : Tree.Parsed.ofText file source.text = .ok parsed) :
    (s.withSource source).Sound Known := by
  refine ⟨h.known_withSource hsource, h.parsed.imp_right fun hall f hf => ?_⟩
  rcases Array.mem_push.mp hf with hf | rfl
  · exact hall f hf
  · exact ⟨file, parsed, hparsed⟩

theorem unread {source : Provided} (hsource : Known ⟨source.name, source.text⟩)
    {file : FileId} {ds : List Diagnostic} (hparsed : Tree.Parsed.ofText file source.text = .error ds) :
    ((s.withSource source).tell ds).Sound Known := by
  refine ⟨h.known_withSource hsource, .inl (List.any_append.trans ?_)⟩
  exact Bool.or_eq_true_iff.mpr (.inr (Tree.Parsed.any_isFatal_of_error hparsed))

end State.Sound

theorem sound_follows (Known : SourceFile → Prop) :
    Follows (fun source => Known ⟨source.name, source.text⟩) fun s t => s.Sound Known → t.Sound Known where
  refl _ h := h
  trans hst htu h := htu (hst h)
  tell hst _ h := (hst h).tell _
  ends hsource hends h := by
    cases hends with
    | unread ds hparsed => exact h.unread hsource hparsed
    | read parsed t hparsed ht =>
      have hread := ht (h.read hsource hparsed)
      exact ⟨hread.known, hread.parsed⟩

section Sound

variable {Known : SourceFile → Prop} {provider : Provider Id} {extension : String}
  (hlibrary : ∀ name text, Library.find? name = some text → Known ⟨name, text⟩)
  (hprovider : ∀ path key found, provider.load path key = .ok found → Known ⟨found.name, found.text⟩)

include hlibrary hprovider

theorem known_of_locate {key : String} {i : Tree.Import} {found : Provided}
    (h : locate provider extension key i = .ok found) : Known ⟨found.name, found.text⟩ := by
  unfold locate at h
  split at h
  · cases hfind : Library.find? i.name with
    | none =>
      rw [hfind] at h
      cases h
    | some text =>
      rw [hfind] at h
      cases h
      exact hlibrary i.name text hfind
  · split at h
    · exact hprovider _ _ found h
    · cases h

theorem load_sound (name text : String) (hmain : Known ⟨name, text⟩) :
    (collect provider extension name text).run.Sound Known :=
  loadModule_follows (sound_follows Known)
    (fun _ _ _ hlocated => known_of_locate hlibrary hprovider hlocated)
    (provider.capacity.run + Library.modules.length + 1) [] ⟨provider.mainKey name, name, text⟩ true hmain .start
    .start

end Sound

end Loader

/-! ### Modules in the files of a tree -/

/-- A source stands at a place of a tree, to which a path of its name leads. -/
def FileTree.HoldsAt (t : FileTree) (f : SourceFile) (place : List String) : Prop :=
  ∃ path : Path, path.text = f.name ∧ t.resolve path = .ok place ∧
    t.node? place = some (.file (Text.utf8 f.text.toList))

/-- A source is of the library, or stands in a tree. -/
def FileTree.Provides (t : FileTree) (f : SourceFile) : Prop :=
  Library.find? f.name = some f.text ∨ ∃ place, t.HoldsAt f place

namespace Provider

variable (t : FileTree) (searchPaths : List Path)

theorem answers_firstFile (paths : List Path) :
    t.Answers (firstFile FileTree.system paths) fun _ => True := by
  induction paths with
  | nil => exact answers_pure trivial
  | cons p rest ih =>
    refine answers_bind (answers_get _) fun found _ => ?_
    split
    · exact answers_pure trivial
    · exact ih

theorem answers_load (path : Path) (importer : String) :
    t.Answers ((files FileTree.system searchPaths).load path importer)
      fun r => ∀ found, r = .ok found → ∃ place, t.HoldsAt ⟨found.name, found.text⟩ place := by
  refine answers_bind (answers_firstFile t _) fun found _ => ?_
  cases found with
  | none => exact answers_pure nofun
  | some p =>
    refine answers_bind (answers_get (·.read p)) fun r hr => ?_
    cases r with
    | error fault => exact answers_pure nofun
    | ok text =>
      refine answers_bind (answers_get _) fun key _ => answers_pure ?_
      rintro _ ⟨⟩
      obtain ⟨place, hresolve, hnode⟩ := read_eq_ok hr.symm
      exact ⟨place, p, rfl, hresolve, hnode⟩

theorem still_files : (files FileTree.system searchPaths).Still t where
  mainKey _ := rfl
  load path importer := by
    obtain ⟨r, hrun, -⟩ := answers_load t searchPaths path importer
    rw [hrun]
  capacity := rfl

end Provider

/-- Assembly is that of a program, and is emitted only if nothing was found wrong on loading. -/
theorem Loaded.compile_eq_assembly {l : Loaded} {version : Nat} {emit : Bool} {lines : List Assembly.Line}
    (h : (l.compile version emit).assembly = some lines) :
    l.diagnostics.any (·.isFatal) = false ∧ ∃ program : Program, program.emit = .ok lines := by
  unfold Loaded.compile at h
  dsimp only at h
  split at h
  · cases h
  · next hfatal =>
    rw [List.any_append, Bool.or_eq_true, not_or] at hfatal
    refine ⟨Bool.eq_false_iff.mpr hfatal.1, ?_⟩
    split at h
    · cases h
    · next program ds hbuilt =>
      split at h
      · cases h
      · split at h
        · cases h
        · refine ⟨program, ?_⟩
          cases hemit : program.emit with
          | error fault =>
            rw [hemit] at h
            cases h
          | ok lines' =>
            rw [hemit] at h
            exact congrArg Except.ok (Option.some.inj h)

/-- What is compiled comes from a tree: the sources are a main file and others, of the library or in the
tree. If there is assembly, it is that of a program and all sources are parsed. -/
structure Compilation.ReadFrom (t : FileTree) (main : SourceFile) (c : Compilation) : Prop where
  main : main ∈ c.sources.files
  provided : ∀ f ∈ c.sources.files, t.Provides f
  parsed : ∀ lines, c.assembly = some lines →
    ∀ f ∈ c.sources.files, ∃ file parsed, Tree.Parsed.ofText file f.text = .ok parsed
  emitted : ∀ lines, c.assembly = some lines → ∃ program : Program, program.emit = .ok lines

theorem Loader.mem_sources_load (provider : Provider Id) (extension name text : String) :
    ⟨name, text⟩ ∈ (collect provider extension name text).run.sources.files := by
  obtain ⟨s, hs, hgrounded⟩ := load_grounded provider extension name text
  obtain ⟨i, hi, -⟩ := hgrounded.base 0 ⟨name, text⟩ (Sources.holds_add .empty _)
  rw [← hs]
  exact Array.mem_of_getElem? hi

/-- A compilation leaves the tree as it is. -/
theorem answers_compileText {t : FileTree} {name text : String} {place : List String}
    (hmain : t.HoldsAt ⟨name, text⟩ place) {options : Options}
    (hextension : options.extension = Loader.Bundle.extension) (emit : Bool) :
    t.Answers (compileText FileTree.system options emit text name)
      fun r => ∃ c, r = some c ∧ c.ReadFrom t ⟨name, text⟩ := by
  have hload := Loader.collect_still (Provider.still_files t options.searchPaths) options.extension name text
  have hsound : (Loader.collect ((Provider.files FileTree.system options.searchPaths).frozen t) options.extension name
      text).run.Sound t.Provides := by
    refine Loader.load_sound (fun _ _ hfind => .inl hfind) (fun path key found hfound => ?_) name text
      (.inr ⟨place, hmain⟩)
    obtain ⟨r, hrun, hr⟩ := Provider.answers_load t options.searchPaths path key
    exact .inr (hr found ((congrArg Prod.fst hrun).symm.trans hfound))
  have hmem := Loader.mem_sources_load ((Provider.files FileTree.system options.searchPaths).frozen t)
    options.extension name text
  generalize (Loader.collect ((Provider.files FileTree.system options.searchPaths).frozen t) options.extension
    name text).run = l at hload hsound hmem
  have hloaded : (load (.files FileTree.system options.searchPaths) options.extension name text).run t =
      (some l, t) := by
    rw [load, run_bind_eq hload, hextension, Loader.refuses_extension]
    rfl
  refine ⟨_, run_bind_eq hloaded, _, rfl, ?_, ?_, fun lines hlines => ?_, fun lines hlines => ?_⟩
  · rw [Loaded.sources_compile]
    exact hmem
  · rw [Loaded.sources_compile]
    exact hsound.known
  · rw [Loaded.sources_compile]
    refine hsound.parsed.resolve_left ?_
    rw [(Loaded.compile_eq_assembly hlines).1]
    exact Bool.false_ne_true
  · exact (Loaded.compile_eq_assembly hlines).2

end Teal
