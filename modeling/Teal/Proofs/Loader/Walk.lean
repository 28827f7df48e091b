import Mathlib.Data.List.Nodup
import Mathlib.Data.List.Perm.Subperm
import Mathlib.Data.List.TakeWhile
import Teal.Proofs.Loader.Graph

/-!
The walk of the loader over the modules that a main file leads to. The modules that wait for another
one are a chain of imports, so a module is never entered twice and the room of the walk is never used
up. Modules are finished after those they import; only an import of a module that waits is left open,
and that is reported as a cycle.
-/

namespace Teal

open List hiding get

/-- A diagnostic says that there is a cycle of imports. -/
def Diagnostic.ReportsCycle (d : Diagnostic) : Prop :=
  ∃ chain span, d = (Provider.Fault.cycle chain).toDiagnostic span

theorem Diagnostic.not_reportsCycle {d : Diagnostic} (h : d.help = none) : ¬d.ReportsCycle := by
  rintro ⟨chain, span, rfl⟩
  cases h

namespace Loader

/-- Every element stands behind all those that it leads to. -/
def Ordered {α : Type} (r : α → α → Prop) (l : List α) : Prop :=
  ∀ before a after, l = before ++ a :: after → ∀ c, r a c → c ∈ before

section Order

variable {α : Type} {r : α → α → Prop} {l : List α}

theorem Ordered.snoc {a : α} (h : Ordered r l) (ha : ∀ c, r a c → c ∈ l) : Ordered r (l ++ [a]) := by
  intro before x after heq c hc
  rcases eq_nil_or_concat after with rfl | ⟨rest, last, rfl⟩
  · obtain ⟨rfl, hx⟩ := append_inj' heq rfl
    cases hx
    exact ha c hc
  · have hsplit : l ++ [a] = (before ++ x :: rest) ++ [last] := by
      rw [heq, concat_eq_append, append_assoc, cons_append]
    exact h before x rest (append_inj' hsplit rfl).1 c hc

theorem Ordered.trans {before after : List α} {a c : α} (h : Ordered r (before ++ a :: after))
    (hc : Relation.TransGen r a c) : c ∈ before := by
  induction hc with
  | single hstep => exact h before a after rfl _ hstep
  | tail _ hstep ih =>
    obtain ⟨front, back, rfl⟩ := append_of_mem ih
    have hmem := h front _ (back ++ a :: after) (by simp) _ hstep
    exact mem_append_left _ hmem

theorem Ordered.closed {a c : α} (h : Ordered r l) (ha : a ∈ l) (hc : r a c) : c ∈ l := by
  obtain ⟨before, after, rfl⟩ := append_of_mem ha
  exact mem_append_left _ (h before a after rfl c hc)

theorem Ordered.irrefl {a : α} (h : Ordered r l) (hl : l.Nodup) (ha : a ∈ l) : ¬Relation.TransGen r a a := by
  intro hcycle
  obtain ⟨before, after, rfl⟩ := append_of_mem ha
  exact (nodup_append.mp hl).2.2 a (h.trans hcycle) a mem_cons_self rfl

/-- None leads to one that stands behind it. -/
theorem Ordered.pairwise (h : Ordered r l) (hl : l.Nodup) :
    l.Pairwise fun a c => ¬Relation.TransGen r a c := by
  rw [pairwise_iff_getElem]
  intro i j hi hj hij hstep
  have hsplit : l = l.take i ++ l[i] :: l.drop (i + 1) := by
    rw [getElem_cons_drop, take_append_drop]
  have hmem : l[j] ∈ l.take i := Ordered.trans (hsplit ▸ h) hstep
  obtain ⟨k, hk, heq⟩ := mem_take_iff_getElem.mp hmem
  have hkj : k = j := (getElem_inj hl).mp heq
  omega

end Order

namespace State

def tell (s : State) (ds : List Diagnostic) : State := { s with diagnostics := s.diagnostics ++ ds }

def withSource (s : State) (source : Provided) : State :=
  { s with sources := (s.sources.add ⟨source.name, source.text⟩).2 }

def nextFile (s : State) : FileId := UInt16.ofNat s.sources.files.size

def close (s : State) (key : String) : State := { s with closed := s.closed.enter key }

def withModule (s : State) (module : Tree.SourceModule) : State :=
  { s with collected := s.collected.push module }

theorem finished_close (s : State) (key : String) : (s.close key).finished = s.finished ++ [key] :=
  Array.toList_push

theorem modules_withModule (s : State) (module : Tree.SourceModule) :
    (s.withModule module).modules = s.modules ++ [module] :=
  Array.toList_push

theorem contains_closed (s : State) (key : String) : s.closed.contains key = s.finished.contains key :=
  s.closed.agrees key

def Quiet (s : State) : Prop := ∀ d ∈ s.diagnostics, ¬d.ReportsCycle

end State

namespace Bundle

/-- The state after a module was loaded, with its imports. -/
def after (b : Bundle) (room : Nat) (importers : List String) (source : Provided) (isMain : Bool)
    (s : State) : State :=
  ((loadModule (.memory b.files) extension room importers source isMain).run s).2

/-- The state after an import at a place, from what was found for it. -/
def afterFound (b : Bundle) (room : Nat) (waiting : List String) (s : State) (span : Span) :
    Except Provider.Fault Provided → State
  | .error fault => s.tell [fault.toDiagnostic span]
  | .ok found =>
    if found.key ∈ waiting then
      s.tell [(Provider.Fault.cycle
        (waiting.dropWhile (· != found.key) ++ [found.key])).toDiagnostic span]
    else if found.key ∈ s.finished then s
    else b.after room waiting found false s

def afterImport (b : Bundle) (room : Nat) (waiting : List String) (key : String) (s : State)
    (i : Tree.Import × Span) : State :=
  b.afterFound room waiting s i.2 (locate (.memory b.files) extension key i.1).run

/-- The state after a text, from what was read from it. -/
def afterParsed (b : Bundle) (room : Nat) (importers : List String) (source : Provided)
    (isMain : Bool) (file : FileId) (s : State) : Except (List Diagnostic) Tree.Parsed → State
  | .error ds => s.tell ds
  | .ok parsed =>
    (parsed.module.imports.foldl (b.afterImport room (importers ++ [source.key]) source.key)
      (s.tell parsed.notes)).withModule ⟨source.name, file, parsed.module, isMain⟩

end Bundle

variable {b : Bundle} {room : Nat} {waiting importers : List String} {key : String}
  {source : Provided} {s : State}

variable {α : Type} {finished : List String} {parsed : Tree.Parsed}

theorem run_forM {σ : Type} (f : α → StateT σ Id Unit) (l : List α) (s : σ) :
    ((l.forM f).run s).2 = l.foldl (fun s a => ((f a).run s).2) s := by
  induction l generalizing s with
  | nil => rfl
  | cons a l ih => exact ih _

/-- What the loader does about an import at a place, when modules wait. -/
def enter (provider : Provider Id) (extension : String) (room : Nat) (waiting : List String) (key : String)
    (i : Tree.Import × Span) : Load Id Unit := do
  match ← locate (m := Id) provider extension key i.1 with
  | .error fault => addDiagnostics [fault.toDiagnostic i.2]
  | .ok found =>
    if waiting.contains found.key then
      let chain := waiting.dropWhile (· != found.key) ++ [found.key]
      addDiagnostics [(Provider.Fault.cycle chain).toDiagnostic i.2]
    else if !(← get).closed.contains found.key then
      loadModule provider extension room waiting found false

/-- What the loader does with a file that has a number. -/
def read (provider : Provider Id) (extension : String) (room : Nat) (importers : List String) (source : Provided)
    (isMain : Bool) (file : FileId) : Load Id Unit := do
  match Tree.Parsed.ofText file source.text with
  | .error ds => addDiagnostics ds
  | .ok parsed =>
    addDiagnostics parsed.notes
    parsed.module.imports.forM (enter provider extension room (importers ++ [source.key]) source.key)
    addModule ⟨source.name, file, parsed.module, isMain⟩
  finish source.key

theorem run_loadModule_succ (provider : Provider Id) (extension : String) (room : Nat) (importers : List String)
    (source : Provided) (isMain : Bool) (s : State) :
    (loadModule provider extension (room + 1) importers source isMain).run s =
      (read provider extension room importers source isMain s.nextFile).run (s.withSource source) :=
  rfl

theorem run_enter (i : Tree.Import × Span) :
    ((enter (.memory b.files) Bundle.extension room waiting key i).run s).2 =
      b.afterImport room waiting key s i := by
  rw [Bundle.afterImport, enter, StateT.run_bind]
  have hlift : (liftM (locate (m := Id) (.memory b.files) Bundle.extension key i.1) :
      Load Id (Except Provider.Fault Provided)).run s =
      ((locate (.memory b.files) Bundle.extension key i.1).run, s) := rfl
  rw [hlift]
  dsimp only [bind, StateT.run]
  cases (locate (.memory b.files) Bundle.extension key i.1).run with
  | error fault => rfl
  | ok found =>
    simp only [Bundle.afterFound, contains_iff_mem]
    split
    · rfl
    · by_cases hfinished : found.key ∈ s.finished
      · have hskip : (!s.closed.contains found.key) = false := by simp [s.contains_closed, hfinished]
        rw [if_pos hfinished]
        dsimp only [StateT.bind, get, getThe, MonadStateOf.get, StateT.get, pure, bind]
        rw [hskip]
        rfl
      · have henter : (!s.closed.contains found.key) = true := by simp [s.contains_closed, hfinished]
        rw [if_neg hfinished]
        dsimp only [StateT.bind, get, getThe, MonadStateOf.get, StateT.get, pure, bind]
        rw [henter]
        rfl

theorem after_succ (isMain : Bool) :
    b.after (room + 1) importers source isMain s =
      (b.afterParsed room importers source isMain s.nextFile (s.withSource source)
        (Tree.Parsed.ofText s.nextFile source.text)).close source.key := by
  rw [Bundle.after, run_loadModule_succ, read]
  cases hparsed : Tree.Parsed.ofText s.nextFile source.text with
  | error ds => rfl
  | ok parsed =>
    have hloop : ((parsed.module.imports.forM
        (enter (.memory b.files) Bundle.extension room (importers ++ [source.key]) source.key)).run
          ((s.withSource source).tell parsed.notes)).2 =
        parsed.module.imports.foldl (b.afterImport room (importers ++ [source.key]) source.key)
          ((s.withSource source).tell parsed.notes) := by
      rw [run_forM]
      simp only [run_enter]
    rw [Bundle.afterParsed, ← hloop]
    rfl

inductive Handles (b : Bundle) (room : Nat) (waiting : List String) (key : String)
    (i : Tree.Import × Span) (s : State) : State → Prop where
  | missing (fault : Provider.Fault) (hfault : fault.help? = none)
      (hnone : ∀ found, ¬b.Finds key i.1 found) :
      Handles b room waiting key i s (s.tell [fault.toDiagnostic i.2])
  | cyclic (found : Provided) (hfound : b.Finds key i.1 found) (hwaiting : found.key ∈ waiting) :
      Handles b room waiting key i s
        (s.tell [(Provider.Fault.cycle
          (waiting.dropWhile (· != found.key) ++ [found.key])).toDiagnostic i.2])
  | done (found : Provided) (hfound : b.Finds key i.1 found) (hfinished : found.key ∈ s.finished) :
      Handles b room waiting key i s s
  | fresh (found : Provided) (hfound : b.Finds key i.1 found) (hwaiting : found.key ∉ waiting)
      (hfinished : found.key ∉ s.finished) :
      Handles b room waiting key i s (b.after room waiting found false s)

theorem help?_of_locate {i : Tree.Import} {fault : Provider.Fault}
    (h : (locate (.memory b.files) Bundle.extension key i).run = .error fault) : fault.help? = none := by
  unfold locate at h
  split at h
  · split at h <;> cases h
    rfl
  · rw [toPath?_eq] at h
    simp only [Provider.memory] at h
    split at h <;> cases h
    rfl

theorem afterImport_handles (i : Tree.Import × Span) :
    Handles b room waiting key i s (b.afterImport room waiting key s i) := by
  rw [Bundle.afterImport]
  cases hlocate : (locate (.memory b.files) Bundle.extension key i.1).run with
  | error fault =>
    refine .missing fault (help?_of_locate hlocate) fun found hfound => ?_
    cases hlocate.symm.trans hfound
  | ok found =>
    simp only [Bundle.afterFound]
    split
    case isTrue hwaiting => exact .cyclic found hlocate hwaiting
    case isFalse hwaiting =>
      split
      case isTrue hfinished => exact .done found hlocate hfinished
      case isFalse hfinished => exact .fresh found hlocate hwaiting hfinished

/-! ### The modules that wait -/

theorem nodup_snoc {l : List α} {a : α} (h : l.Nodup) (ha : a ∉ l) : (l ++ [a]).Nodup :=
  nodup_append_comm.mp (nodup_cons.mpr ⟨ha, h⟩)

/-- Modules that wait for another one, from the main file on. -/
structure Trail (b : Bundle) (waiting : List String) : Prop where
  nodup : waiting.Nodup
  follows : waiting.IsChain b.Imports
  reachable : ∀ key ∈ waiting, b.Reachable key
  known : waiting ⊆ b.keys
  main : b.name ∈ waiting

theorem trail_start (b : Bundle) : Trail b [b.name] where
  nodup := nodup_singleton _
  follows := isChain_singleton _
  reachable _ hkey := mem_singleton.mp hkey ▸ Relation.ReflTransGen.refl
  known _ hkey := mem_singleton.mp hkey ▸ mem_cons_self
  main := mem_cons_self

variable {other : String} {modules : List Tree.SourceModule} {t : State} {file : FileId}

theorem Trail.snoc (h : Trail b (importers ++ [key])) (himports : b.Imports key other)
    (hknown : other ∈ b.keys) (hnew : other ∉ importers ++ [key]) :
    Trail b (importers ++ [key] ++ [other]) where
  nodup := nodup_snoc h.nodup hnew
  follows := by
    refine h.follows.append (isChain_singleton other) fun x hx y hy => ?_
    rw [getLast?_concat, Option.mem_some] at hx
    cases hx
    cases hy
    exact himports
  reachable x hx := by
    rcases mem_append.mp hx with hx | hx
    · exact h.reachable x hx
    · cases mem_singleton.mp hx
      exact (h.reachable key (by simp)).tail himports
  known := append_subset.mpr ⟨h.known, cons_subset.mpr ⟨hknown, nil_subset _⟩⟩
  main := mem_append_left _ h.main

theorem length_le_of_nodup (hnodup : waiting.Nodup) (hknown : waiting ⊆ b.keys) :
    waiting.length ≤ b.keys.length :=
  (hnodup.subperm hknown).length_le

/-- A chain of imports that ends where it starts. -/
structure IsCycle (b : Bundle) (chain : List String) : Prop where
  closed : ∃ key middle, chain = key :: middle ++ [key]
  follows : chain.IsChain b.Imports
  reachable : ∀ key ∈ chain, b.Reachable key

theorem Trail.isCycle (h : Trail b (importers ++ [key])) (himports : b.Imports key other)
    (hwaits : other ∈ importers ++ [key]) :
    IsCycle b ((importers ++ [key]).dropWhile (· != other) ++ [other]) := by
  have hsuffix := dropWhile_suffix (l := importers ++ [key]) (· != other)
  have hne : (importers ++ [key]).dropWhile (· != other) ≠ [] := by
    rw [ne_eq, dropWhile_eq_nil_iff]
    intro hall
    exact absurd (hall other hwaits) (by simp)
  obtain ⟨first, middle, hcut⟩ := exists_cons_of_ne_nil hne
  have hfirst : first = other := by
    have hhead := head_dropWhile_not (· != other) hne
    simpa [hcut] using hhead
  refine ⟨⟨other, middle, by rw [hcut, hfirst]⟩, ?_, ?_⟩
  · refine (h.follows.suffix hsuffix).append (isChain_singleton other) fun x hx y hy => ?_
    have hx : [x] <:+ importers ++ [key] :=
      (singleton_suffix_iff_getLast?_eq_some.mpr hx).trans hsuffix
    rw [singleton_suffix_iff_getLast?_eq_some, getLast?_concat] at hx
    cases hx
    cases hy
    exact himports
  · intro x hx
    rcases mem_append.mp hx with hx | hx
    · exact h.reachable x (hsuffix.subset hx)
    · exact mem_singleton.mp hx ▸ h.reachable other hwaits

/-- The room of the walk does not matter once there is one place for each key. -/
theorem after_room {room' : Nat} {isMain : Bool} (hnodup : (importers ++ [source.key]).Nodup)
    (hknown : importers ++ [source.key] ⊆ b.keys) (hroom : b.keys.length ≤ room + importers.length)
    (hroom' : b.keys.length ≤ room' + importers.length) :
    b.after room importers source isMain s = b.after room' importers source isMain s := by
  have hlength := length_le_of_nodup hnodup hknown
  rw [length_append, length_singleton] at hlength
  induction room generalizing room' importers source isMain s with
  | zero => omega
  | succ room ih =>
    obtain ⟨room', rfl⟩ : ∃ n, room' = n + 1 := Nat.exists_eq_add_one.mpr (by omega)
    have himport : b.afterImport room (importers ++ [source.key]) source.key =
        b.afterImport room' (importers ++ [source.key]) source.key := by
      funext s i
      simp only [Bundle.afterImport]
      cases hlocate : (locate (.memory b.files) Bundle.extension source.key i.1).run with
      | error fault => rfl
      | ok found =>
        simp only [Bundle.afterFound]
        split
        · rfl
        · rename_i hnew
          have hfound : b.Finds source.key i.1 found := hlocate
          have hnodup' := nodup_snoc hnodup hnew
          have hknown' :=
            append_subset.mpr ⟨hknown, cons_subset.mpr ⟨hfound.mem_keys, nil_subset _⟩⟩
          have hlength' := length_le_of_nodup hnodup' hknown'
          have hwaiting : (importers ++ [source.key]).length = importers.length + 1 := by simp
          rw [length_append, length_singleton] at hlength'
          have hsame : b.after room (importers ++ [source.key]) found false s =
              b.after room' (importers ++ [source.key]) found false s :=
            ih hnodup' hknown' (by omega) (by omega) hlength'
          rw [hsame]
    rw [after_succ, after_succ]
    cases Tree.Parsed.ofText s.nextFile source.text with
    | error ds => rfl
    | ok parsed => simp only [Bundle.afterParsed, himport]

/-! ### What is true all along -/

/-- The modules among the finished keys are those that can be read, in the same order. -/
structure Listed (b : Bundle) (modules : List Tree.SourceModule) (finished : List String) : Prop where
  names : (modules.map (·.name)).Sublist finished
  parses : ∀ key ∈ finished, key ∈ modules.map (·.name) ↔ b.Parses key
  trees : ∀ m ∈ modules, ∃ parsed, b.Reads m.name m.file parsed ∧ m.tree = parsed.module
  main : ∀ m ∈ modules, m.isMain = true ↔ m.name = b.name

theorem Listed.unread (h : Listed b modules finished) (hnew : key ∉ finished) (hread : ¬b.Parses key) :
    Listed b modules (finished ++ [key]) where
  names := h.names.trans (sublist_append_left _ _)
  parses k hk := by
    rcases mem_append.mp hk with hk | hk
    · exact h.parses k hk
    · cases mem_singleton.mp hk
      exact iff_of_false (fun hmem => hnew (h.names.subset hmem)) hread
  trees := h.trees
  main := h.main

theorem Listed.read {module : Tree.SourceModule} (h : Listed b modules finished)
    (hread : b.Reads module.name module.file parsed) (htree : module.tree = parsed.module)
    (hmain : module.isMain = true ↔ module.name = b.name) :
    Listed b (modules ++ [module]) (finished ++ [module.name]) where
  names := by
    rw [map_append]
    exact h.names.append (List.Sublist.refl _)
  parses k hk := by
    have hsame : k ∈ [module.name] → b.Parses k := fun hin =>
      ⟨module.file, parsed, mem_singleton.mp hin ▸ hread⟩
    rw [map_append, mem_append]
    rcases mem_append.mp hk with hk | hk
    · exact ⟨fun hin => hin.elim (h.parses k hk).mp hsame, fun hp => .inl ((h.parses k hk).mpr hp)⟩
    · exact iff_of_true (.inr hk) (hsame hk)
  trees m hm := by
    rcases mem_append.mp hm with hm | hm
    · exact h.trees m hm
    · cases mem_singleton.mp hm
      exact ⟨parsed, hread, htree⟩
  main m hm := by
    rcases mem_append.mp hm with hm | hm
    · exact h.main m hm
    · cases mem_singleton.mp hm
      exact hmain

structure Tracks (b : Bundle) (s : State) : Prop where
  nodup : s.finished.Nodup
  reachable : ∀ key ∈ s.finished, b.Reachable key
  listed : Listed b s.modules s.finished
  cycles : ∀ d ∈ s.diagnostics, d.ReportsCycle →
    ∃ chain span, d = (Provider.Fault.cycle chain).toDiagnostic span ∧ IsCycle b chain
  ordered : s.Quiet → Ordered b.Imports s.finished

namespace Tracks

theorem start : Tracks b .start where
  nodup := nodup_nil
  reachable := nofun
  listed := ⟨.slnil, nofun, nofun, nofun⟩
  cycles := nofun
  ordered _ := by
    intro before a after heq
    exact absurd heq.symm (append_ne_nil_of_right_ne_nil _ (cons_ne_nil _ _))

variable (h : Tracks b s)

include h

theorem withSource (source : Provided) : Tracks b (s.withSource source) :=
  ⟨h.nodup, h.reachable, h.listed, h.cycles, h.ordered⟩

theorem tell {ds : List Diagnostic}
    (hds : ∀ d ∈ ds, d.ReportsCycle →
      ∃ chain span, d = (Provider.Fault.cycle chain).toDiagnostic span ∧ IsCycle b chain) :
    Tracks b (s.tell ds) where
  nodup := h.nodup
  reachable := h.reachable
  listed := h.listed
  cycles d hd := (mem_append.mp hd).elim (h.cycles d) (hds d)
  ordered hquiet := h.ordered fun d hd => hquiet d (mem_append_left _ hd)

/-- What is found in a text is no cycle. -/
theorem findings (file : FileId) (text : String) :
    Tracks b (s.tell (Tree.Parsed.findings (Tree.Parsed.ofText file text))) := by
  refine h.tell fun d hd hcycle => ?_
  obtain ⟨chain, span, rfl⟩ := hcycle
  exact absurd rfl (Tree.Parsed.kind_ne_of_mem_ofText file text _ hd)

theorem closeUnread (hnew : key ∉ s.finished) (hreach : b.Reachable key)
    (hread : ¬b.Parses key) : Tracks b (s.close key) := by
  refine ⟨?_, ?_, ?_, h.cycles, fun hquiet => ?_⟩
  all_goals rw [s.finished_close]
  · exact nodup_snoc h.nodup hnew
  · exact forall_mem_append.mpr ⟨h.reachable, fun k hk => mem_singleton.mp hk ▸ hreach⟩
  · exact h.listed.unread hnew hread
  · refine (h.ordered hquiet).snoc fun _ himports => ?_
    obtain ⟨file, parsed, hreads, -⟩ := himports
    exact absurd ⟨file, parsed, hreads⟩ hread

theorem closeRead {parsed : Tree.Parsed} (module : Tree.SourceModule)
    (hnew : module.name ∉ s.finished) (hreach : b.Reachable module.name)
    (hread : b.Reads module.name module.file parsed) (htree : module.tree = parsed.module)
    (hmain : module.isMain = true ↔ module.name = b.name)
    (himports : s.Quiet → ∀ other, b.Imports module.name other → other ∈ s.finished) :
    Tracks b ((s.withModule module).close module.name) := by
  refine ⟨?_, ?_, ?_, h.cycles, fun hquiet => ?_⟩
  all_goals rw [State.finished_close]
  · exact nodup_snoc h.nodup hnew
  · exact forall_mem_append.mpr ⟨h.reachable, fun k hk => mem_singleton.mp hk ▸ hreach⟩
  · exact s.modules_withModule module ▸ h.listed.read hread htree hmain
  · exact (h.ordered hquiet).snoc (himports hquiet)

end Tracks

structure Moves (b : Bundle) (waiting : List String) (s t : State) : Prop where
  tracks : Tracks b t
  finished : s.finished <+: t.finished
  diagnostics : s.diagnostics <+: t.diagnostics
  waits : ∀ key ∈ waiting, key ∉ t.finished

theorem Moves.trans {u : State} (h : Moves b waiting s t) (h' : Moves b waiting t u) : Moves b waiting s u :=
  ⟨h'.tracks, h.finished.trans h'.finished, h.diagnostics.trans h'.diagnostics, h'.waits⟩

theorem Moves.quiet (h : Moves b waiting s t) (ht : t.Quiet) : s.Quiet :=
  fun d hd => ht d (h.diagnostics.subset hd)

/-- Loading a module that is not finished, with others waiting for it. -/
def LoadsWith (b : Bundle) (room : Nat) (importers : List String) : Prop :=
  ∀ (source : Provided) (isMain : Bool) (s : State), Trail b (importers ++ [source.key]) →
    source.name = source.key → b.text? source.key = some source.text →
    (isMain = true ↔ source.key = b.name) → Tracks b s →
    (∀ key ∈ importers ++ [source.key], key ∉ s.finished) →
    Moves b importers s (b.after room importers source isMain s) ∧
      source.key ∈ (b.after room importers source isMain s).finished ∧
      (b.Parses source.key →
        ((b.after room importers source isMain s).modules.map (·.name)).getLast? = some source.key)

theorem afterImport_moves {i : Tree.Import × Span} (hload : LoadsWith b room (importers ++ [key]))
    (htrail : Trail b (importers ++ [key])) (hread : b.Reads key file parsed)
    (hi : i ∈ parsed.module.imports) (hs : Tracks b s) (hwaits : ∀ k ∈ importers ++ [key], k ∉ s.finished) :
    Moves b (importers ++ [key]) s (b.afterImport room (importers ++ [key]) key s i) ∧
      ((b.afterImport room (importers ++ [key]) key s i).Quiet → ∀ found, b.Finds key i.1 found →
        found.key ∈ (b.afterImport room (importers ++ [key]) key s i).finished) := by
  have himports {found : Provided} (hfound : b.Finds key i.1 found) : b.Imports key found.key :=
    ⟨file, parsed, hread, i, hi, found, hfound, rfl⟩
  have hunique {found other : Provided} (hfound : b.Finds key i.1 found)
      (hother : b.Finds key i.1 other) : other = found := by
    cases hfound.symm.trans hother
    rfl
  generalize hafter : b.afterImport room (importers ++ [key]) key s i = t
  have hhandles := hafter ▸ afterImport_handles i
  cases hhandles with
  | missing fault hfault hnone =>
    refine ⟨⟨hs.tell ?_, prefix_refl _, prefix_append _ _, hwaits⟩,
      fun _ found hfound => absurd hfound (hnone found)⟩
    intro d hd hcycle
    cases mem_singleton.mp hd
    exact absurd hcycle (Diagnostic.not_reportsCycle hfault)
  | cyclic found hfound hwaiting =>
    refine ⟨⟨hs.tell ?_, prefix_refl _, prefix_append _ _, hwaits⟩, fun hquiet => ?_⟩
    · intro d hd _
      exact ⟨_, _, mem_singleton.mp hd, htrail.isCycle (himports hfound) hwaiting⟩
    · exact absurd ⟨_, _, rfl⟩ (hquiet _ (mem_append_right _ mem_cons_self))
  | done found hfound hfinished =>
    refine ⟨⟨hs, prefix_refl _, prefix_refl _, hwaits⟩, fun _ other hother => ?_⟩
    exact hunique hfound hother ▸ hfinished
  | fresh found hfound hnew hfinished =>
    have hne : found.key ≠ b.name := fun heq => hnew (heq ▸ htrail.main)
    have hwaits' : ∀ k ∈ importers ++ [key] ++ [found.key], k ∉ s.finished := fun k hk =>
      (mem_append.mp hk).elim (hwaits k) fun hk => mem_singleton.mp hk ▸ hfinished
    obtain ⟨hmoves, hdone, -⟩ := hload found false s
      (htrail.snoc (himports hfound) hfound.mem_keys hnew) hfound.spec.1 (hfound.text? hne)
      (iff_of_false Bool.false_ne_true hne) hs hwaits'
    exact ⟨hmoves, fun _ other hother => hunique hfound hother ▸ hdone⟩

theorem afterImports_moves {l : List (Tree.Import × Span)}
    (hload : LoadsWith b room (importers ++ [key])) (htrail : Trail b (importers ++ [key]))
    (hread : b.Reads key file parsed) (hl : l ⊆ parsed.module.imports) (hs : Tracks b s)
    (hwaits : ∀ k ∈ importers ++ [key], k ∉ s.finished) :
    Moves b (importers ++ [key]) s (l.foldl (b.afterImport room (importers ++ [key]) key) s) ∧
      ((l.foldl (b.afterImport room (importers ++ [key]) key) s).Quiet →
        ∀ i ∈ l, ∀ found, b.Finds key i.1 found →
          found.key ∈ (l.foldl (b.afterImport room (importers ++ [key]) key) s).finished) := by
  induction l generalizing s with
  | nil => exact ⟨⟨hs, prefix_refl _, prefix_refl _, hwaits⟩, nofun⟩
  | cons i l ih =>
    obtain ⟨hi, hl⟩ := cons_subset.mp hl
    obtain ⟨hfirst, hfound⟩ := afterImport_moves hload htrail hread hi hs hwaits
    obtain ⟨hrest, hothers⟩ := ih hl hfirst.tracks hfirst.waits
    rw [foldl_cons]
    refine ⟨hfirst.trans hrest, fun hquiet j hj found hj' => ?_⟩
    rcases mem_cons.mp hj with rfl | hj
    · exact hrest.finished.subset (hfound (hrest.quiet hquiet) found hj')
    · exact hothers hquiet j hj found hj'

theorem Trail.waits_close (h : Trail b (importers ++ [key]))
    (hwaits : ∀ k ∈ importers ++ [key], k ∉ finished) : ∀ k ∈ importers, k ∉ finished ++ [key] := by
  intro k hk hin
  rcases mem_append.mp hin with hin | hin
  · exact hwaits k (mem_append_left _ hk) hin
  · exact (nodup_append.mp h.nodup).2.2 k hk key mem_cons_self (mem_singleton.mp hin)

/-- There is room for all modules that can wait, so what is loaded is loaded in full. -/
theorem loadsWith (hroom : b.keys.length ≤ room + importers.length) : LoadsWith b room importers := by
  -- On the room: one level less of it is one more module that waits, and those that wait are different
  -- keys, so without room there would be more of them than keys.
  induction room generalizing importers with
  | zero =>
    intro source isMain s htrail
    have hlength := length_le_of_nodup htrail.nodup htrail.known
    rw [length_append, length_singleton] at hlength
    omega
  | succ room ih =>
    rintro ⟨key, name, text⟩ isMain s htrail hname htext hmain hs hwaits
    obtain rfl : name = key := hname
    have hkey : name ∈ importers ++ [name] := by simp
    have hreach := htrail.reachable _ hkey
    have hfound := (hs.withSource ⟨name, name, text⟩).findings s.nextFile text
    rw [after_succ]
    cases hparsed : Tree.Parsed.ofText s.nextFile text with
    | error ds =>
      rw [hparsed] at hfound
      have hread := Bundle.not_parses htext hparsed
      have hclosed := hfound.closeUnread (hwaits _ hkey) hreach hread
      refine ⟨⟨hclosed, ?_, prefix_append _ _, ?_⟩, ?_, fun h => absurd h hread⟩
      all_goals rw [State.finished_close]
      · exact prefix_append _ _
      · exact htrail.waits_close hwaits
      · exact mem_append_right _ mem_cons_self
    | ok parsed =>
      rw [hparsed] at hfound
      have hread : b.Reads name s.nextFile parsed := ⟨text, htext, hparsed⟩
      have hload : LoadsWith b room (importers ++ [name]) :=
        ih (by rw [length_append, length_singleton]; omega)
      obtain ⟨hmoves, hfinds⟩ :=
        afterImports_moves hload htrail hread (List.Subset.refl _) hfound hwaits
      have hclosed := hmoves.tracks.closeRead ⟨name, s.nextFile, parsed.module, isMain⟩
        (hmoves.waits _ hkey) hreach hread rfl hmain fun hquiet other himports => by
          obtain ⟨i, hi, found, hfound, rfl⟩ := hread.exists_import himports
          exact hfinds hquiet i hi found hfound
      refine ⟨⟨hclosed, ?_, (prefix_append _ _).trans hmoves.diagnostics, ?_⟩, ?_, fun _ => ?_⟩
      · rw [State.finished_close]
        exact hmoves.finished.trans (prefix_append _ _)
      · rw [State.finished_close]
        exact htrail.waits_close hmoves.waits
      · rw [State.finished_close]
        exact mem_append_right _ mem_cons_self
      · refine (congrArg (fun ms => (ms.map (·.name)).getLast?) (State.modules_withModule _ _)).trans ?_
        rw [map_append]
        exact getLast?_concat

/-! ### What is loaded -/

theorem Bundle.length_keys (b : Bundle) : b.keys.length = b.files.length + Library.modules.length + 1 := by
  rw [Bundle.keys, length_cons, length_append, length_map, length_map, Nat.add_comm Library.modules.length]

/-- The state in which the walk ends. -/
theorem exists_tracks (b : Bundle) :
    ∃ s : State, s.toLoaded = b.loaded ∧ Tracks b s ∧ b.name ∈ s.finished ∧
      (b.Parses b.name → (s.modules.map (·.name)).getLast? = some b.name) := by
  have hload : LoadsWith b (b.files.length + Library.modules.length + 1) [] :=
    loadsWith b.length_keys.le
  obtain ⟨hmoves, hdone, hlast⟩ := hload ⟨b.name, b.name, b.text⟩ true .start (trail_start b) rfl
    (if_pos rfl) (iff_of_true rfl rfl) Tracks.start nofun
  exact ⟨_, rfl, hmoves.tracks, hdone, hlast⟩

/-- All that the main file leads to is finished if there is no cycle. -/
theorem Tracks.mem_finished_iff (h : Tracks b s) (hquiet : s.Quiet) (hmain : b.name ∈ s.finished) :
    key ∈ s.finished ↔ b.Reachable key := by
  refine ⟨h.reachable key, fun hreach => ?_⟩
  induction hreach with
  | refl => exact hmain
  | tail _ hstep ih => exact (h.ordered hquiet).closed ih hstep

/-- Modules are the ones that the main file leads to and that can be read, each once and behind those
that it imports, with the main file at the end. -/
structure Collects (b : Bundle) (modules : List Tree.SourceModule) : Prop where
  nodup : (modules.map (·.name)).Nodup
  exact : ∀ key, key ∈ modules.map (·.name) ↔ b.Reachable key ∧ b.Parses key
  trees : ∀ m ∈ modules, ∃ parsed, b.Reads m.name m.file parsed ∧ m.tree = parsed.module
  main : ∀ m ∈ modules, m.isMain = true ↔ m.name = b.name
  last : b.Parses b.name → (modules.map (·.name)).getLast? = some b.name
  behind : ∀ key ∈ modules.map (·.name), ∀ other ∈ modules.map (·.name),
    Relation.TransGen b.Imports key other →
      (modules.map (·.name)).idxOf other < (modules.map (·.name)).idxOf key

theorem idxOf_lt_of_pairwise {r : String → String → Prop} {l : List String} {a c : String}
    (h : l.Pairwise fun a c => ¬r a c) (ha : a ∈ l) (hc : c ∈ l) (hne : a ≠ c) (hr : r a c) :
    l.idxOf c < l.idxOf a := by
  have ha' := idxOf_lt_length_iff.mpr ha
  have hc' := idxOf_lt_length_iff.mpr hc
  rcases Nat.lt_trichotomy (l.idxOf c) (l.idxOf a) with hlt | heq | hgt
  · exact hlt
  · exact absurd ((idxOf_inj ha).mp heq.symm) hne
  · have hnot := pairwise_iff_getElem.mp h _ _ ha' hc' hgt
    rw [getElem_idxOf, getElem_idxOf] at hnot
    exact absurd hr hnot

theorem Tracks.collects (h : Tracks b s) (hquiet : s.Quiet) (hmain : b.name ∈ s.finished)
    (hlast : b.Parses b.name → (s.modules.map (·.name)).getLast? = some b.name) :
    Collects b s.modules where
  nodup := h.nodup.sublist h.listed.names
  exact key := by
    rw [← h.mem_finished_iff hquiet hmain]
    constructor
    · intro hkey
      have hfinished := h.listed.names.subset hkey
      exact ⟨hfinished, (h.listed.parses key hfinished).mp hkey⟩
    · rintro ⟨hfinished, hparses⟩
      exact (h.listed.parses key hfinished).mpr hparses
  trees := h.listed.trees
  main := h.listed.main
  last := hlast
  behind key hkey other hother himports := by
    have hpairwise := ((h.ordered hquiet).pairwise h.nodup).sublist h.listed.names
    refine idxOf_lt_of_pairwise hpairwise hkey hother ?_ himports
    rintro rfl
    exact (h.ordered hquiet).irrefl h.nodup (h.listed.names.subset hkey) himports

/-- The walk ends, as more room than there are keys changes nothing. With no cycle, what is loaded is
all that the main file leads to. -/
theorem loaded_collects (b : Bundle) :
    (∀ room, b.files.length + Library.modules.length + 1 ≤ room →
      ((loadModule (.memory b.files) Bundle.extension room [] ⟨b.name, b.name, b.text⟩ true).run
        .start).2.toLoaded = b.loaded) ∧
    ((∀ d ∈ b.loaded.diagnostics, ¬d.ReportsCycle) → Collects b b.loaded.modules) := by
  constructor
  · intro room hroom
    have htrail := trail_start b
    have hsame : b.after room [] ⟨b.name, b.name, b.text⟩ true .start =
        b.after (b.files.length + Library.modules.length + 1) [] ⟨b.name, b.name, b.text⟩ true .start :=
      after_room htrail.nodup htrail.known (b.length_keys.trans_le hroom) b.length_keys.le
    exact congrArg State.toLoaded hsame
  · intro hquiet
    obtain ⟨s, hs, htracks, hmain, hlast⟩ := exists_tracks b
    rw [← hs] at hquiet ⊢
    exact htracks.collects hquiet hmain hlast

/-- Two modules that import a third one, and imports of what is not there. -/
def Sample.shared : Bundle where
  files := [("a.tl", "import c;"), ("b.tl", "import c;"), ("c.tl", "import stdlib.none;")]
  name := "main.tl"
  text := "import a; import b; import d;"

theorem loaded_collects_sample :
    (∀ d ∈ Sample.shared.loaded.diagnostics, ¬d.ReportsCycle) ∧
      Collects Sample.shared Sample.shared.loaded.modules := by
  have hhelp : Sample.shared.loaded.diagnostics.all (·.help.isNone) = true := by decide +kernel
  have hquiet : ∀ d ∈ Sample.shared.loaded.diagnostics, ¬d.ReportsCycle := fun d hd =>
    Diagnostic.not_reportsCycle (Option.isNone_iff_eq_none.mp (all_eq_true.mp hhelp d hd))
  exact ⟨hquiet, (loaded_collects Sample.shared).2 hquiet⟩

theorem transGen_of_isChain {r : α → α → Prop} {middle : List α} {a c : α}
    (h : (a :: middle ++ [c]).IsChain r) : Relation.TransGen r a c := by
  induction middle generalizing a with
  | nil => exact .single (isChain_pair.mp h)
  | cons next middle ih =>
    obtain ⟨hstep, hrest⟩ := isChain_cons_cons.mp h
    exact .head hstep (ih hrest)

/-- A cycle is reported exactly if the main file leads to one, and what is reported is one. -/
theorem loaded_reportsCycle_iff (b : Bundle) :
    ((∃ d ∈ b.loaded.diagnostics, d.ReportsCycle) ↔
      ∃ key, b.Reachable key ∧ Relation.TransGen b.Imports key key) ∧
    ∀ d ∈ b.loaded.diagnostics, d.ReportsCycle →
      ∃ chain span, d = (Provider.Fault.cycle chain).toDiagnostic span ∧ IsCycle b chain := by
  obtain ⟨s, hs, htracks, hmain, -⟩ := exists_tracks b
  rw [← hs]
  refine ⟨⟨?_, ?_⟩, htracks.cycles⟩
  · rintro ⟨d, hd, hreports⟩
    obtain ⟨chain, span, -, ⟨key, middle, rfl⟩, hfollows, hreach⟩ := htracks.cycles d hd hreports
    exact ⟨key, hreach key (by simp), transGen_of_isChain hfollows⟩
  · rintro ⟨key, hreach, hcycle⟩
    by_contra hnone
    have hquiet : s.Quiet := fun d hd hreports => hnone ⟨d, hd, hreports⟩
    have hfinished := (htracks.mem_finished_iff hquiet hmain).mpr hreach
    exact (htracks.ordered hquiet).irrefl htracks.nodup hfinished hcycle

def Sample.mutual : Bundle where
  files := [("a.tl", "import main;"), ("main.tl", "")]
  name := "main.tl"
  text := "import a;"

theorem loaded_reportsCycle_iff_sample :
    ∃ key, Sample.mutual.Reachable key ∧ Relation.TransGen Sample.mutual.Imports key key := by
  have hreported : (Provider.Fault.cycle ["main.tl", "a.tl", "main.tl"]).toDiagnostic
      ⟨1, 0, 12⟩ ∈ Sample.mutual.loaded.diagnostics := by decide +kernel
  exact (loaded_reportsCycle_iff Sample.mutual).1.mp ⟨_, hreported, _, _, rfl⟩

end Loader

end Teal
