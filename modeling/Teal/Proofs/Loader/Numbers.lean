import Teal.Proofs.Compile.Spans

/-! The numbers of files. A file is added behind those that are there, so its position is its own; its number is
what is left of the position in sixteen bits. Two files have one number if their positions differ by a multiple of
65536, and the number then leads to the first file that has it. The loader reads each module from a file of its
own. -/

namespace Teal

open List Sources

namespace Sources

variable {sources : Sources}

theorem ofNat_eq_ofNat_iff {i j : Nat} : UInt16.ofNat i = UInt16.ofNat j ↔ i % 65536 = j % 65536 := by
  rw [← UInt16.toNat_inj, UInt16.toNat_ofNat', UInt16.toNat_ofNat']

/-- Files are added one after another. The numbers that they are known by are kept. -/
def addAll (sources : Sources) : List SourceFile → List FileId × Sources
  | [] => ([], sources)
  | f :: files =>
    let (number, sources) := sources.add f
    let (numbers, sources) := sources.addAll files
    (number :: numbers, sources)

variable (files : List SourceFile)

theorem addAll_files : (sources.addAll files).2.files.toList = sources.files.toList ++ files := by
  induction files generalizing sources with
  | nil => simp [addAll]
  | cons f files ih => simp [addAll, add, ih]

/-- The number of a file is left from its position. -/
theorem addAll_number {i : Nat} (hi : i < files.length) :
    (sources.addAll files).1[i]? = some (UInt16.ofNat (sources.files.size + i)) := by
  induction files generalizing sources i with
  | nil => exact absurd hi (Nat.not_lt_zero i)
  | cons f files ih =>
    cases i with
    | zero => rfl
    | succ i =>
      have hrest := @ih (sources.add f).2 i (Nat.lt_of_succ_lt_succ hi)
      rw [add, Array.size_push, Nat.add_right_comm] at hrest
      exact hrest

theorem length_addAll : (sources.addAll files).1.length = files.length := by
  induction files generalizing sources with
  | nil => rfl
  | cons f files ih => simp [addAll, ih]

/-- A number leads to the first of the files that have it, also when more files were added. -/
theorem get?_addAll (files later : List SourceFile) {i : Nat} (hi : i < files.length) :
    (empty.addAll (files ++ later)).2.get? (UInt16.ofNat i) = files[i % 65536]? := by
  have hmod : i % 65536 < files.length := Nat.lt_of_le_of_lt (Nat.mod_le i 65536) hi
  rw [get?, UInt16.toNat_ofNat', ← Array.getElem?_toList, addAll_files]
  exact getElem?_append_left hmod

end Sources

namespace Loader

/-- A module was read from the file at a position. -/
structure ReadAt (sources : Sources) (i : Nat) (m : Tree.SourceModule) : Prop where
  number : m.file = UInt16.ofNat i
  source : ∃ f parsed, sources.files[i]? = some f ∧ f.name = m.name ∧
    Tree.Parsed.ofText m.file f.text = .ok parsed ∧ parsed.module = m.tree

def Marked (m : Tree.SourceModule) : Prop :=
  (∀ i ∈ m.tree.imports, i.2.file = m.file) ∧
    ∀ item ∈ m.tree.items, item.Moved (fun a _ => a.file = m.file) item

variable {sources : Sources} {m : Tree.SourceModule}

theorem ReadAt.marked {i : Nat} (h : ReadAt sources i m) : Marked m := by
  obtain ⟨f, parsed, -, -, hparsed, htree⟩ := h.source
  obtain ⟨himports, hitems⟩ := Tree.Parsed.module_inText (R := fun a _ => a.file = m.file) hparsed
    fun a ha => ha.1
  rw [Marked, ← htree]
  exact ⟨fun i hi => (himports i hi).1, hitems⟩

theorem ReadAt.extend {sources' : Sources} {i : Nat} (h : ReadAt sources i m)
    (hfiles : sources.files.toList <+: sources'.files.toList) : ReadAt sources' i m := by
  obtain ⟨rest, hrest⟩ := hfiles
  obtain ⟨f, parsed, hf, hread⟩ := h.source
  refine ⟨h.number, f, parsed, ?_, hread⟩
  have hlt := (Array.getElem?_eq_some_iff.mp hf).1
  rw [← Array.getElem?_toList, ← hrest, getElem?_append_left hlt, Array.getElem?_toList, hf]

/-- Modules were read from files at distinct positions, from a given one on. -/
def Apart (sources : Sources) (first : Nat) (ms : List Tree.SourceModule) : Prop :=
  ∃ positions : List Nat, positions.Nodup ∧ (∀ i ∈ positions, first ≤ i ∧ i < sources.files.size) ∧
    List.Forall₂ (ReadAt sources) positions ms

theorem Apart.nil (sources : Sources) (first : Nat) : Apart sources first [] :=
  ⟨[], nodup_nil, by simp, .nil⟩

/-- Modules that are read later are read from files behind those of the earlier ones. -/
theorem Apart.append {sources' : Sources} {first : Nat} {ms added : List Tree.SourceModule}
    (h : Apart sources first ms) (hfiles : sources.files.toList <+: sources'.files.toList)
    (hfirst : first ≤ sources.files.size) (hadded : Apart sources' sources.files.size added) :
    Apart sources' first (ms ++ added) := by
  obtain ⟨positions, hnodup, hrange, hread⟩ := h
  obtain ⟨positions', hnodup', hrange', hread'⟩ := hadded
  have hsize : sources.files.size ≤ sources'.files.size := by simpa using hfiles.length_le
  refine ⟨positions ++ positions', nodup_append.mpr ⟨hnodup, hnodup', fun i hi j hj => ?_⟩, fun i hi => ?_,
    rel_append (hread.imp fun _ _ hm => hm.extend hfiles) hread'⟩
  · have hlt := (hrange i hi).2
    have hle := (hrange' j hj).1
    omega
  · rcases mem_append.mp hi with hi | hi
    · have hboth := hrange i hi
      omega
    · have hboth := hrange' i hi
      omega

/-- The file of a module stands before those of the modules that were read since it was added. -/
theorem Apart.snoc {first : Nat} {ms : List Tree.SourceModule} (h : Apart sources (first + 1) ms)
    (hm : ReadAt sources first m) : Apart sources first (ms ++ [m]) := by
  obtain ⟨positions, hnodup, hrange, hread⟩ := h
  obtain ⟨f, parsed, hf, -⟩ := hm.source
  have hlt := (Array.getElem?_eq_some_iff.mp hf).1
  refine ⟨positions ++ [first], nodup_snoc hnodup fun hmem => ?_, fun i hi => ?_,
    rel_append hread (.cons hm .nil)⟩
  · have hboth := hrange first hmem
    omega
  · rcases mem_append.mp hi with hi | hi
    · have hboth := hrange i hi
      omega
    · cases mem_singleton.mp hi
      exact ⟨.refl, hlt⟩

/-- Files were added, and the modules that were added were read from them. -/
structure Grows (s t : State) : Prop where
  files : s.sources.files.toList <+: t.sources.files.toList
  modules : ∃ added, t.modules = s.modules ++ added ∧ Apart t.sources s.sources.files.size added

theorem grows_withSource (s : State) (source : Provided) :
    s.sources.files.toList <+: (s.withSource source).sources.files.toList :=
  ⟨[⟨source.name, source.text⟩], Array.toList_push.symm⟩

theorem grows_follows : Follows (fun _ => True) Grows where
  refl s := ⟨prefix_rfl, [], (append_nil _).symm, .nil _ _⟩
  trans := by
    rintro s t u ⟨hst, added, hmodules, hadded⟩ ⟨htu, added', hmodules', hadded'⟩
    have hsize : s.sources.files.size ≤ t.sources.files.size := by simpa using hst.length_le
    refine ⟨hst.trans htu, added ++ added', ?_, hadded.append htu hsize hadded'⟩
    rw [hmodules', hmodules, append_assoc]
  tell hst _ := ⟨hst.files, hst.modules⟩
  ends := by
    intro s t source isMain _ hends
    cases hends with
    | unread ds hparsed => exact ⟨grows_withSource s source, [], (append_nil _).symm, .nil _ _⟩
    | read parsed t hparsed ht =>
      obtain ⟨hfiles, added, hmodules, hadded⟩ := ht
      have hm : ReadAt (s.withSource source).sources s.sources.files.size
          ⟨source.name, s.nextFile, parsed.module, isMain⟩ :=
        ⟨rfl, ⟨source.name, source.text⟩, parsed, Array.getElem?_push_size, rfl, hparsed, rfl⟩
      have hsize : (s.withSource source).sources.files.size = s.sources.files.size + 1 := Array.size_push _
      rw [hsize] at hadded
      refine ⟨(grows_withSource s source).trans hfiles, _, ?_, hadded.snoc (hm.extend hfiles)⟩
      rw [← append_assoc]
      exact (t.modules_withModule _).trans (congrArg (· ++ _) hmodules)

theorem load_grows (provider : Provider Id) (extension name text : String) : ∃ s : State,
    s.toLoaded = (collect provider extension name text).run ∧ Grows .start s := by
  obtain ⟨s, hs, hends⟩ := load_ends grows_follows (fun _ _ _ _ => trivial) name text
  exact ⟨s, hs, grows_follows.ends trivial hends⟩

end Loader

open Loader in
/-- Each module was read from a file at a position of its own, and all its places carry the number of that file.
Two modules have one number just if their positions are the same in sixteen bits. -/
def Loaded.Numbered (l : Loaded) : Prop :=
  ∃ positions : List Nat, positions.Nodup ∧
    List.Forall₂ (fun i m => ReadAt l.sources i m ∧ Marked m) positions l.modules ∧
    ∀ p ∈ positions.zip l.modules, ∀ q ∈ positions.zip l.modules,
      p.2.file = q.2.file ↔ p.1 % 65536 = q.1 % 65536

theorem load_numbered (provider : Provider Id) (extension name text : String) :
    (Loader.collect provider extension name text).run.Numbered := by
  obtain ⟨s, hs, -, added, hmodules, positions, hnodup, -, hread⟩ := Loader.load_grows provider extension name text
  rw [← hs]
  have hall : s.toLoaded.modules = added := hmodules
  rw [Loaded.Numbered, hall]
  refine ⟨positions, hnodup, hread.imp fun _ _ hm => ⟨hm, hm.marked⟩, fun p hp q hq => ?_⟩
  have hp := ((forall₂_iff_zip.mp hread).2 hp).number
  have hq := ((forall₂_iff_zip.mp hread).2 hq).number
  rw [hp, hq, ofNat_eq_ofNat_iff]

/-- Numbers of files start over after 65536 files. -/
theorem files_numbered (files later : List SourceFile) (provider : Provider Id) (extension name text : String) :
    (∀ i j : Nat, i < files.length → j < files.length →
      ((Sources.empty.addAll files).1[i]? = (Sources.empty.addAll files).1[j]? ↔ i % 65536 = j % 65536)) ∧
    (∀ (i : Nat) (number : FileId), (Sources.empty.addAll files).1[i]? = some number →
      (Sources.empty.addAll (files ++ later)).2.get? number = files[i % 65536]?) ∧
    ∀ l ∈ (load provider extension name text).run, l.Numbered := by
  refine ⟨fun i j hi hj => ?_, fun i number hnumber => ?_, fun l hl => ?_⟩
  · rw [addAll_number files hi, addAll_number files hj, Option.some_inj, ofNat_eq_ofNat_iff]
    simp [Sources.empty]
  · have hi : i < files.length := by
      rw [← length_addAll]
      exact (List.getElem?_eq_some_iff.mp hnumber).1
    rw [addAll_number files hi] at hnumber
    cases hnumber
    simpa [Sources.empty] using get?_addAll files later hi
  · exact Loader.mem_load hl ▸ load_numbered provider extension name text

/-- Files of which the last one gets the number of the first one. -/
def Sample.manyFiles : List SourceFile := List.replicate 65536 ⟨"a", ""⟩ ++ [⟨"b", ""⟩]

theorem files_numbered_pair :
    ((Sources.empty.addAll [⟨"a", ""⟩, ⟨"b", ""⟩]).1[0]? = (Sources.empty.addAll [⟨"a", ""⟩, ⟨"b", ""⟩]).1[1]? ↔
      0 % 65536 = 1 % 65536) ∧
    (Sources.empty.addAll [⟨"a", ""⟩, ⟨"b", ""⟩, ⟨"c", ""⟩]).2.get? 1 = some ⟨"b", ""⟩ ∧
    ∀ l ∈ (load (.memory []) ".tl" "a" "import b;").run, l.Numbered := by
  obtain ⟨hsame, hget, hloaded⟩ :=
    files_numbered [⟨"a", ""⟩, ⟨"b", ""⟩] [⟨"c", ""⟩] (.memory []) ".tl" "a" "import b;"
  exact ⟨hsame 0 1 (by decide) (by decide), hget 1 1 rfl, hloaded⟩

/-- The last of 65537 files has the number of the first one, and is not what the number leads to. -/
theorem files_numbered_again :
    (Sources.empty.addAll Sample.manyFiles).1[0]? = some 0 ∧
      (Sources.empty.addAll Sample.manyFiles).1[65536]? = some 0 ∧
      (Sources.empty.addAll Sample.manyFiles).2.get? 0 ≠ Sample.manyFiles[65536]? := by
  have hlength : Sample.manyFiles.length = 65537 := by
    rw [Sample.manyFiles, length_append, length_replicate, length_singleton]
  refine ⟨addAll_number _ (by omega), addAll_number _ (by omega), ?_⟩
  have hfirst : Sample.manyFiles[0]? = some ⟨"a", ""⟩ := by
    rw [Sample.manyFiles, getElem?_append_left (by rw [length_replicate]; decide),
      getElem?_replicate, if_pos (by decide)]
  have hlast : Sample.manyFiles[65536]? = some ⟨"b", ""⟩ := by
    rw [Sample.manyFiles, getElem?_append_right (by rw [length_replicate]), length_replicate]
    rfl
  have hget := get?_addAll Sample.manyFiles [] (i := 0) (by omega)
  rw [append_nil, Nat.zero_mod, hfirst] at hget
  rw [hlast]
  intro hsame
  exact absurd (hget.symm.trans hsame) (by decide)

end Teal
