import Teal.Compile
import Teal.Proofs.Loader.Walk
import Teal.Proofs.Program.Typing.Moved
import Teal.Proofs.Tree.Parser.Within

/-! Every diagnostic points into its own file. What is wrong with a text is found at a place in it, and the
loader keeps each file under the number with which it was parsed. Modules of many files are built and checked
together, but what is found then is found at a place of one of their trees. Numbers of files start over after
65536 files; up to there each of them stands for one file. Offsets start over after 2³² bytes; up to there each
of them stands for one place. -/

namespace Teal

open List Tree.Parsed

/-- A file has a number. The number tells its position only as long as numbers do not start over. -/
def Sources.Holds (sources : Sources) (file : FileId) (f : SourceFile) : Prop :=
  ∃ i, sources.files[i]? = some f ∧ file = UInt16.ofNat i

namespace Sources

variable {sources : Sources} {file : FileId} {f g : SourceFile}

theorem Holds.add (h : sources.Holds file f) : (sources.add g).2.Holds file f := by
  obtain ⟨i, hi, rfl⟩ := h
  refine ⟨i, ?_, rfl⟩
  obtain ⟨hlt, hget⟩ := Array.getElem?_eq_some_iff.mp hi
  rw [Sources.add, Array.getElem?_push_lt hlt, hget]

theorem holds_add (sources : Sources) (f : SourceFile) :
    (sources.add f).2.Holds (UInt16.ofNat sources.files.size) f :=
  ⟨sources.files.size, Array.getElem?_push_size, rfl⟩

theorem Holds.get? (h : sources.Holds file f) (hsize : sources.files.size ≤ 65536) :
    sources.get? file = some f := by
  obtain ⟨i, hi, rfl⟩ := h
  have hlt : i < 65536 := Nat.lt_of_lt_of_le (Array.getElem?_eq_some_iff.mp hi).1 hsize
  rw [Sources.get?, UInt16.toNat_ofNat_of_lt' hlt, hi]

end Sources

/-- A diagnostic points into a file, and if it is about syntax it was found in the text of that file. -/
def Diagnostic.PointsInto (d : Diagnostic) (f : SourceFile) : Prop :=
  (f.text.utf8ByteSize < UInt32.size → d.span.LiesIn f.text) ∧
    (d.kind ≠ .semantic → d ∈ Tree.Parsed.findings (Tree.Parsed.ofText d.span.file f.text))

def Diagnostic.Grounded (sources : Sources) (d : Diagnostic) : Prop :=
  ∃ f, sources.Holds d.span.file f ∧ d.PointsInto f

variable {sources : Sources} {d : Diagnostic} {f : SourceFile}

theorem grounded_of_semantic (hkind : d.kind = .semantic) (hfile : sources.Holds d.span.file f)
    (hspan : f.text.utf8ByteSize < UInt32.size → d.span.LiesIn f.text) : d.Grounded sources :=
  ⟨f, hfile, hspan, fun hne => absurd hkind hne⟩

theorem pointsInto_of_mem_findings {file : FileId}
    (h : d ∈ Tree.Parsed.findings (Tree.Parsed.ofText file f.text)) :
    d.span.file = file ∧ d.PointsInto f := by
  obtain ⟨rfl, hspan⟩ := findings_inText file f.text d h
  exact ⟨rfl, hspan, fun _ => h⟩

namespace Loader

/-! ### What the loader keeps -/

def Keeps {α : Type} (I : State → Prop) (p : Load Id α) : Prop := ∀ s, I s → I (p.run s).2

section Rules

variable {α β : Type} {I : State → Prop} {p : Load Id α} {f : α → Load Id β}

theorem keeps_bind (hp : Keeps I p) (hf : ∀ a, Keeps I (f a)) : Keeps I (p >>= f) :=
  fun s hs => hf _ _ (hp s hs)

/-- An answer from outside is known. -/
theorem keeps_lift {y : Id α} (h : Keeps I (f y)) : Keeps I (liftM y >>= f) := h

theorem keeps_forM {l : List α} {step : α → Load Id Unit} (h : ∀ a ∈ l, Keeps I (step a)) :
    Keeps I (l.forM step) := by
  induction l with
  | nil => exact fun _ hs => hs
  | cons a l ih =>
    exact keeps_bind (h a mem_cons_self) fun _ => ih fun b hb => h b (mem_cons_of_mem a hb)

end Rules

/-- How the loader ends with a file: it says why there is no module, or goes through the imports and adds it. -/
inductive Ends (R : State → State → Prop) (s : State) (source : Provided) (isMain : Bool) : State → Prop where
  | unread (ds : List Diagnostic) (hparsed : Tree.Parsed.ofText s.nextFile source.text = .error ds) :
      Ends R s source isMain (((s.withSource source).tell ds).close source.key)
  | read (parsed : Tree.Parsed) (t : State) (hparsed : Tree.Parsed.ofText s.nextFile source.text = .ok parsed)
      (ht : R (s.withSource source) t) :
      Ends R s source isMain
        ((t.withModule ⟨source.name, s.nextFile, parsed.module, isMain⟩).close source.key)

/-- A relation between states that holds whatever the loader does, with files that are known. -/
structure Follows (Known : Provided → Prop) (R : State → State → Prop) : Prop where
  refl : ∀ s, R s s
  trans : ∀ {s t u}, R s t → R t u → R s u
  tell : ∀ {s t : State} {source : Provided} {ds}, R (s.withSource source) t →
    (∀ d ∈ ds, d.span.file = s.nextFile ∧ d.PointsInto ⟨source.name, source.text⟩) →
      R (s.withSource source) (t.tell ds)
  ends : ∀ {s t source isMain}, Known source → Ends R s source isMain t → R s t

section Follows

variable {provider : Provider Id} {extension : String} {Known : Provided → Prop} {R : State → State → Prop}
  (h : Follows Known R) (hlocate : ∀ key i found, locate provider extension key i = .ok found → Known found)

include h hlocate

section Step

variable {room : Nat} (hload : ∀ importers source isMain, Known source → ∀ s,
  R s ((loadModule provider extension room importers source isMain).run s).2)

include hload

theorem enter_follows {s : State} {source : Provided} {i : Tree.Import × Span}
    (hi : Tree.Parsed.InText s.nextFile source.text i.2) (waiting : List String) (key : String) :
    Keeps (R (s.withSource source)) (enter provider extension room waiting key i) := by
  have hfault (fault : Provider.Fault) :
      Keeps (R (s.withSource source)) (addDiagnostics [fault.toDiagnostic i.2]) := by
    refine fun t ht => h.tell ht fun d hd => ?_
    cases mem_singleton.mp hd
    exact ⟨hi.1, hi.2, fun hne => absurd rfl hne⟩
  refine keeps_lift ?_
  cases hlocated : locate provider extension key i.1 with
  | error fault => exact hfault fault
  | ok found =>
    dsimp only
    split
    · exact hfault _
    · refine keeps_bind (fun _ ht => ht) fun _ => ?_
      split
      · exact fun t ht => h.trans ht (hload waiting found false (hlocate key i.1 found hlocated) t)
      · exact fun _ ht => ht

theorem loadModule_ends (importers : List String) (source : Provided) (isMain : Bool) (s : State) :
    Ends R s source isMain ((loadModule provider extension (room + 1) importers source isMain).run s).2 := by
  rw [run_loadModule_succ, read]
  cases hparsed : Tree.Parsed.ofText s.nextFile source.text with
  | error ds => exact .unread ds hparsed
  | ok parsed =>
    obtain ⟨himports, -⟩ := module_inText (R := Tree.anywhere) hparsed fun _ _ => trivial
    have hnotes : Keeps (R (s.withSource source)) (addDiagnostics parsed.notes) := by
      refine fun t ht => h.tell ht fun d hd => pointsInto_of_mem_findings ?_
      rw [hparsed]
      exact hd
    have hwalk := keeps_bind hnotes fun _ => keeps_forM fun i hi =>
      enter_follows h hlocate hload (himports i hi) (importers ++ [source.key]) source.key
    exact .read parsed _ hparsed (hwalk _ (h.refl _))

end Step

/-- Whatever modules come from, the loader does what a relation allows. -/
theorem loadModule_follows (room : Nat) (importers : List String) (source : Provided) (isMain : Bool)
    (hsource : Known source) (s : State) :
    R s ((loadModule provider extension room importers source isMain).run s).2 := by
  induction room generalizing importers source isMain s with
  | zero => exact h.refl s
  | succ room ih => exact h.ends hsource (loadModule_ends h hlocate ih importers source isMain s)

theorem load_ends (name text : String) : ∃ s : State, s.toLoaded = (collect provider extension name text).run ∧
    Ends R .start ⟨provider.mainKey name, name, text⟩ true s :=
  ⟨_, rfl, loadModule_ends h hlocate (loadModule_follows h hlocate _) [] _ true .start⟩

end Follows

/-- A module was parsed from the text of the file that has its number. -/
def ReadFrom (sources : Sources) (m : Tree.SourceModule) : Prop :=
  ∃ f parsed, sources.Holds m.file f ∧ Tree.Parsed.ofText m.file f.text = .ok parsed ∧
    m.tree = parsed.module

/-- All that was loaded comes from the files of a state, among which there are some given ones. -/
structure State.Grounded (base : Sources) (s : State) : Prop where
  base : ∀ file f, base.Holds file f → s.sources.Holds file f
  modules : ∀ m ∈ s.modules, ReadFrom s.sources m
  diagnostics : ∀ d ∈ s.diagnostics, d.Grounded s.sources

namespace State.Grounded

variable {base : Sources} {s : State}

theorem start : State.start.Grounded .empty := ⟨fun _ _ h => h, nofun, nofun⟩

variable (h : s.Grounded base)

include h

theorem self : s.Grounded s.sources := ⟨fun _ _ hheld => hheld, h.modules, h.diagnostics⟩

theorem withSource (source : Provided) : (s.withSource source).Grounded base where
  base file f hheld := (h.base file f hheld).add
  modules m hm := by
    obtain ⟨f, parsed, hfile, hparsed⟩ := h.modules m hm
    exact ⟨f, parsed, hfile.add, hparsed⟩
  diagnostics d hd := by
    obtain ⟨f, hfile, hpoints⟩ := h.diagnostics d hd
    exact ⟨f, hfile.add, hpoints⟩

theorem tell {ds : List Diagnostic} (hds : ∀ d ∈ ds, d.Grounded s.sources) : (s.tell ds).Grounded base :=
  ⟨h.base, h.modules, forall_mem_append.mpr ⟨h.diagnostics, hds⟩⟩

theorem withModule {m : Tree.SourceModule} (hm : ReadFrom s.sources m) : (s.withModule m).Grounded base := by
  refine ⟨h.base, ?_, h.diagnostics⟩
  rw [s.modules_withModule]
  exact forall_mem_append.mpr ⟨h.modules, fun _ hn => mem_singleton.mp hn ▸ hm⟩

end State.Grounded

def KeepsGround (s t : State) : Prop := ∀ base, s.Grounded base → t.Grounded base

theorem State.Grounded.ends {base : Sources} {s t : State} {source : Provided} {isMain : Bool}
    (h : s.Grounded base) (hends : Ends KeepsGround s source isMain t) :
    t.Grounded base ∧ t.Grounded (s.withSource source).sources := by
  have hsource := h.withSource source
  have hfile := Sources.holds_add s.sources ⟨source.name, source.text⟩
  cases hends with
  | unread ds hparsed =>
    have hfindings : ∀ d ∈ ds, d.Grounded (s.withSource source).sources := by
      intro d hd
      have hd : d ∈ Tree.Parsed.findings (Tree.Parsed.ofText s.nextFile source.text) := by
        rw [hparsed]
        exact hd
      obtain ⟨hspan, hpoints⟩ := pointsInto_of_mem_findings (f := ⟨source.name, source.text⟩) hd
      exact ⟨_, hspan ▸ hfile, hpoints⟩
    exact ⟨{ hsource.tell hfindings with }, { hsource.self.tell hfindings with }⟩
  | read parsed t hparsed ht =>
    have hself := ht _ hsource.self
    have hmodule : ReadFrom t.sources ⟨source.name, s.nextFile, parsed.module, isMain⟩ :=
      ⟨_, parsed, hself.base _ _ hfile, hparsed, rfl⟩
    exact ⟨{ (ht _ hsource).withModule hmodule with }, { hself.withModule hmodule with }⟩

theorem keepsGround_follows : Follows (fun _ => True) KeepsGround where
  refl _ _ h := h
  trans hst htu base h := htu base (hst base h)
  tell hst hds base h := by
    refine (hst base h).tell fun d hd => ?_
    obtain ⟨hspan, hpoints⟩ := hds d hd
    exact ⟨_, hspan ▸ (hst _ h.self).base _ _ (Sources.holds_add _ _), hpoints⟩
  ends _ hends _ h := (h.ends hends).1

theorem mem_load {provider : Provider Id} {extension name text : String} {l : Loaded}
    (h : l ∈ (load provider extension name text).run) : (collect provider extension name text).run = l := by
  change (if _ then none else some _) = some l at h
  split at h
  · cases h
  · exact Option.some.inj h

theorem load_grounded (provider : Provider Id) (extension name text : String) :
    ∃ s : State, s.toLoaded = (collect provider extension name text).run ∧
      s.Grounded (Sources.empty.add ⟨name, text⟩).2 := by
  obtain ⟨s, hs, hends⟩ := load_ends keepsGround_follows (fun _ _ _ _ => trivial) name text
  exact ⟨s, hs, (State.Grounded.start.ends hends).2⟩

end Loader

/-! ### What a compilation finds -/

theorem Loaded.sources_compile (l : Loaded) (version : Nat) (emit : Bool) :
    (l.compile version emit).sources = l.sources := by
  unfold Loaded.compile
  dsimp only
  split
  · rfl
  · split
    · rfl
    · split
      · rfl
      · split <;> rfl

/-- Each step of a compilation adds what it finds. -/
theorem Loaded.mem_diagnostics_compile {l : Loaded} {version : Nat} {emit : Bool}
    (h : d ∈ (l.compile version emit).diagnostics) :
    d ∈ l.diagnostics ∨ d ∈ versionFaults version ∨ d ∈ (Program.ofModules l.modules version).2 ∨
      ∃ p, (Program.ofModules l.modules version).1 = some p ∧ d ∈ p.typeFaults := by
  unfold Loaded.compile at h
  dsimp only at h
  generalize Program.ofModules l.modules version = built at h ⊢
  split at h
  · simp only [mem_append] at h
    tauto
  · split at h
    · simp only [mem_append] at h
      tauto
    · next p ds =>
        have hchecking : d ∈ l.diagnostics ++ versionFaults version ++ ds ++ p.typeFaults := by
          split at h
          · exact mem_append_left _ h
          · split at h <;> exact h
        simp only [mem_append] at hchecking
        rcases hchecking with ((h | h) | h) | h
        · exact .inl h
        · exact .inr (.inl h)
        · exact .inr (.inr (.inl h))
        · exact .inr (.inr (.inr ⟨p, rfl, h⟩))

/-- The place is in one of some files. As a relation it is used between a tree and itself. -/
def InSources (sources : Sources) (a _ : Span) : Prop :=
  ∃ f, sources.Holds a.file f ∧ (f.text.utf8ByteSize < UInt32.size → a.LiesIn f.text)

section Building

variable {sources : Sources} {ms : List Tree.SourceModule} (h : ∀ m ∈ ms, Loader.ReadFrom sources m)

include h

theorem placed_moved_inSources : List.Forall₂ (Program.Build.Placed.Moved (InSources sources))
    (Program.Build.placed ms) (Program.Build.placed ms) := by
  refine forall₂_same.mpr fun p hp => ?_
  obtain ⟨m, hm, hitem, -⟩ := Program.Build.mem_placed hp
  obtain ⟨f, parsed, hfile, hparsed, htree⟩ := h m hm
  rw [htree] at hitem
  obtain ⟨-, hitems⟩ := module_inText (R := InSources sources) hparsed
    fun a ha => ⟨f, ha.1.symm ▸ hfile, ha.2⟩
  exact ⟨hitems p.item hitem, fun _ _ _ _ => ⟨rfl, fun _ => rfl⟩⟩

theorem mainFile_inSources {f : SourceFile} (hfirst : sources.Holds 0 f) :
    InSources sources (.fileStart (Program.mainFile ms)) (.fileStart (Program.mainFile ms)) := by
  have hheld : ∃ f, sources.Holds (Program.mainFile ms) f := by
    rw [Program.mainFile]
    cases hfind : ms.find? (·.isMain) with
    | none => exact ⟨f, hfirst⟩
    | some m =>
      obtain ⟨g, -, hfile, -⟩ := h m (mem_of_find?_eq_some hfind)
      exact ⟨g, hfile⟩
  obtain ⟨g, hfile⟩ := hheld
  exact ⟨g, hfile, fun _ => Span.liesIn_fileStart _ _⟩

/-- What is found while modules are built and checked is found in one of their files. -/
theorem grounded_of_build {f : SourceFile} (hfirst : sources.Holds 0 f) (version : Nat) :
    (∀ d ∈ (Program.ofModules ms version).2, d.Grounded sources) ∧
      ∀ p, (Program.ofModules ms version).1 = some p → ∀ d ∈ p.typeFaults, d.Grounded sources := by
  have hgrounded {d : Diagnostic} (hd : d.Moved (InSources sources) d) : d.Grounded sources := by
    obtain ⟨g, hfile, hspan⟩ := hd.span
    exact grounded_of_semantic hd.kind hfile hspan
  obtain ⟨hprogram, hds⟩ := Program.ofModules_moved (placed_moved_inSources h)
    (mainFile_inSources h hfirst) version
  refine ⟨fun d hd => hgrounded (forall₂_same.mp hds d hd), fun p hp d hd => ?_⟩
  rw [hp] at hprogram
  cases hprogram with
  | some hprogram => exact hgrounded (forall₂_same.mp (Program.typeFaults_moved hprogram) d hd)

end Building

theorem versionFaults_grounded (hfirst : sources.Holds 0 f) (version : Nat) :
    ∀ d ∈ versionFaults version, d.Grounded sources := by
  intro d hd
  unfold versionFaults at hd
  split at hd
  · cases hd
  · cases mem_singleton.mp hd
    exact grounded_of_semantic rfl hfirst fun _ => Span.liesIn_fileStart _ _

/-- **Every diagnostic points into its own file.** What is found in a text carries the number of its file. If
at most 65536 files are loaded, every diagnostic of a compilation, whatever step found it, carries the number
of a file that is known by it. Its place lies in the text of that file if the text is shorter than 2³² bytes,
and one that is about syntax was found in that text. -/
theorem compile_points :
    (∀ (file : FileId) (text : String),
      ∀ d ∈ Tree.Parsed.findings (Tree.Parsed.ofText file text), d.span.file = file) ∧
    ∀ (provider : Provider Id) (options : Options) (emit : Bool) (text name : String),
      ∀ c ∈ (compile provider options emit text name).run, c.sources.files.size ≤ 65536 →
      ∀ d ∈ c.diagnostics,
        ∃ f, c.sources.get? d.span.file = some f ∧
          (f.text.utf8ByteSize < UInt32.size → d.span.LiesIn f.text) ∧
          (d.kind ≠ .semantic → d ∈ Tree.Parsed.findings (Tree.Parsed.ofText d.span.file f.text)) := by
  refine ⟨fun file text d hd => (findings_inText file text d hd).1, ?_⟩
  intro provider options emit text name c hc hsize d hd
  obtain ⟨l, hl, rfl⟩ := Option.map_eq_some_iff.mp hc
  obtain ⟨s, hs, hgrounded⟩ := Loader.load_grounded provider options.extension name text
  obtain rfl := hs.trans (Loader.mem_load hl)
  rw [Loaded.sources_compile] at hsize ⊢
  have hfirst : s.sources.Holds 0 ⟨name, text⟩ := hgrounded.base _ _ (Sources.holds_add .empty _)
  obtain ⟨hbuilding, hchecking⟩ := grounded_of_build hgrounded.modules hfirst options.version
  have hd : d.Grounded s.sources := by
    rcases Loaded.mem_diagnostics_compile hd with hd | hd | hd | ⟨p, hp, hd⟩
    · exact hgrounded.diagnostics d hd
    · exact versionFaults_grounded hfirst options.version d hd
    · exact hbuilding d hd
    · exact hchecking p hp d hd
  obtain ⟨f, hfile, hpoints⟩ := hd
  exact ⟨f, hfile.get? hsize, hpoints⟩

/-- A main file that imports a module with a semicolon in place of an expression, behind a character of two
bytes, and one that is not there. -/
def Sample.broken : Id (Option Compilation) :=
  compile (.memory [("a.tl", "// é\nlet x = ;")]) .default true "import a; import b;" "main.tl"

/-- The fault in the module is reported under its number, and there it lies in its text. -/
theorem compile_points_sample :
    ∃ c ∈ Sample.broken.run, c.sources.files.size ≤ 65536 ∧ ∃ d ∈ c.diagnostics, d.span.file = 1 ∧
      ∃ f, c.sources.get? 1 = some f ∧ d.span.LiesIn f.text := by
  have hbroken : Sample.broken.run.any (fun c => c.sources.files.size ≤ 65536 &&
      c.diagnostics.any (·.span.file == 1) &&
      (c.sources.get? 1).all (·.text.utf8ByteSize < UInt32.size)) = true := by decide +kernel
  obtain ⟨c, hc, hbroken⟩ := Option.any_eq_true _ _ |>.mp hbroken
  simp only [Bool.and_eq_true, decide_eq_true_eq, any_eq_true] at hbroken
  obtain ⟨⟨hsize, d, hd, hfile⟩, hsmall⟩ := hbroken
  obtain ⟨f, hget, hlies, -⟩ := compile_points.2 _ _ _ _ _ c hc hsize d hd
  rw [eq_of_beq hfile] at hget
  rw [hget] at hsmall
  exact ⟨c, hc, hsize, d, hd, eq_of_beq hfile, f, hget, hlies (of_decide_eq_true hsmall)⟩

end Teal
