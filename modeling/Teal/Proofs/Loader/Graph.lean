import Mathlib.Data.List.Chain
import Mathlib.Logic.Relation
import Teal.Loader
import Teal.Proofs.Tree.Parser.Places

/-!
The graph of the modules that a main file leads to. Its nodes are keys and an edge is an import that
is found, so what stands behind a key must not depend on who imports it. A key of the library is the
key of no file in memory: a path gets the extension or keeps one that it has, and what then still reads
like a module of the library would have been taken from there.
-/

namespace Teal

open List

namespace Text

theorem splitOn_ne_nil (sep : Char) (cs : List Char) : splitOn sep cs ≠ [] := by
  cases cs with
  | nil => simp [splitOn]
  | cons c cs =>
    simp only [splitOn]
    split
    · simp
    · split <;> simp

theorem intercalate_splitOn (sep : Char) (cs : List Char) : [sep].intercalate (splitOn sep cs) = cs := by
  induction cs with
  | nil => simp [splitOn]
  | cons c cs ih =>
    obtain ⟨part, parts, hparts⟩ := exists_cons_of_ne_nil (splitOn_ne_nil sep cs)
    simp only [splitOn, hparts] at ih ⊢
    split
    case isTrue h =>
      rw [eq_of_beq h, intercalate_cons_cons, ih]
      rfl
    case isFalse =>
      cases parts with
      | nil => simpa using ih
      | cons next rest =>
        rw [intercalate_cons_cons] at ih ⊢
        rw [← ih]
        rfl

end Text

namespace Path

theorem text_ofText (text : String) : (ofText text).text = text := by
  have hjoin : String.intercalate "/" ((Text.splitOn '/' text.toList).map String.ofList) = text := by
    rw [← String.toList_inj, String.toList_intercalate, map_map]
    have hid : String.toList ∘ String.ofList = id := funext fun cs => String.toList_ofList
    rw [hid, map_id]
    exact Text.intercalate_splitOn '/' text.toList
  unfold ofText Path.text
  split
  case h_1 first rest heq =>
    rw [heq, String.intercalate_cons_cons] at hjoin
    exact hjoin
  case h_2 segments heq =>
    exact (String.empty_append).trans hjoin

/-- A path that gets an extension ends with it, unless it names no file. -/
theorem withExtension_cases (ext : Extension) (hext : ext.text ≠ "") (p : Path) :
    p.fileName? = none ∧ p.withExtension ext = p ∨
      ∃ start, (p.withExtension ext).text = start ++ ("." ++ ext.text) := by
  unfold withExtension
  split
  case h_1 h => exact .inl ⟨h, rfl⟩
  case h_2 name h =>
    refine .inr ?_
    simp only [beq_iff_eq, hext, if_false, text]
    by_cases hnil : p.trimmed.dropLast = []
    · exact ⟨(if p.rooted then "/" else "") ++ (splitName name).1,
        by rw [hnil, nil_append, String.intercalate_singleton, String.append_assoc, String.append_assoc]⟩
    · rw [String.intercalate_append_of_ne_nil hnil (cons_ne_nil _ _), String.intercalate_singleton]
      exact ⟨(if p.rooted then "/" else "") ++ ("/".intercalate p.trimmed.dropLast ++ "/" ++
        (splitName name).1), by simp only [String.append_assoc]⟩

end Path

namespace Library

/-- What no path with the extension of the language can be: the names of the library have no separator,
name a file as paths and end otherwise. -/
theorem names_apart : ∀ name ∈ modules.map Prod.fst,
    owns name = true ∧ '/' ∉ name.toList ∧ (Path.ofText name).fileName? ≠ none ∧
      ¬['.', 't', 'l'] <:+ name.toList := by
  decide +kernel

theorem mem_of_find? {name text : String} (h : find? name = some text) : name ∈ modules.map Prod.fst := by
  rw [find?, List.lookup_eq_some_iff] at h
  obtain ⟨before, after, heq, _⟩ := h
  rw [heq]
  simp

end Library

namespace Loader

/-- A main file with its name, and the files in memory that it may import. -/
structure Bundle where
  files : List (String × String)
  name : String
  text : String

namespace Bundle

/-- The extension of imports that have none. -/
def extension : String := ".tl"

def loaded (b : Bundle) : Loaded := (collect (.memory b.files) extension b.name b.text).run

/-- The text behind a key: the main file, a module of the library or a file. -/
def text? (b : Bundle) (key : String) : Option String :=
  if key = b.name then some b.text else (Library.find? key).or (b.files.lookup key)

/-- What is read from the text behind a key, as a file of a given number. -/
def Reads (b : Bundle) (key : String) (file : FileId) (parsed : Tree.Parsed) : Prop :=
  ∃ text, b.text? key = some text ∧ Tree.Parsed.ofText file text = .ok parsed

def Parses (b : Bundle) (key : String) : Prop := ∃ file parsed, b.Reads key file parsed

def Finds (b : Bundle) (key : String) (i : Tree.Import) (found : Provided) : Prop :=
  (locate (Provider.memory b.files) extension key i).run = .ok found

/-- A module that can be read imports another. -/
def Imports (b : Bundle) (key other : String) : Prop :=
  ∃ file parsed, b.Reads key file parsed ∧
    ∃ i ∈ parsed.module.imports, ∃ found, b.Finds key i.1 found ∧ found.key = other

/-- A module that the main file leads to. -/
def Reachable (b : Bundle) : String → Prop := Relation.ReflTransGen b.Imports b.name

def keys (b : Bundle) : List String :=
  b.name :: (Library.modules.map Prod.fst ++ b.files.map Prod.fst)

end Bundle

/-- Where there is a separator in a path it is in its key. -/
theorem key_eq_of_noSeparator {text : String}
    (h : '/' ∉ text.toList.map fun c => if c == '\\' then '/' else c) :
    (text.toList.map fun c => if c == '\\' then '/' else c) = text.toList := by
  refine (map_congr_left fun c hc => ?_).trans (map_id _)
  split
  case isTrue hslash =>
    refine absurd ?_ h
    exact mem_map.mpr ⟨c, hc, if_pos hslash⟩
  case isFalse => rfl

def tl : Path.Extension := ⟨"tl", by decide⟩

theorem toPath?_eq (i : Tree.Import) : i.toPath? Bundle.extension =
    some (if i.takesExtension then i.written.withExtension tl else i.written) := by
  have hext : Path.Extension.ofText? (String.ofList (Bundle.extension.toList.dropWhile (· == '.'))) = some tl := by
    cbv
  rw [Tree.Import.toPath?, hext]
  split <;> rfl

/-- The extension of the language is never refused. -/
theorem refuses_extension (l : Loaded) : l.refuses Bundle.extension = false := by
  simp [Loaded.refuses, toPath?_eq]

/-- The extension of a bundle is never refused. -/
theorem Bundle.load_eq (b : Bundle) :
    (load (.memory b.files) Bundle.extension b.name b.text).run = some b.loaded := by
  change (if b.loaded.refuses Bundle.extension then none else some b.loaded) = _
  rw [refuses_extension, if_neg Bool.false_ne_true]

/-- A path that an import outside of the library stands for does not read like a module of it. -/
theorem toPath?_ne_library {i : Tree.Import} {path : Path} (h : Library.owns i.name = false)
    (hpath : i.toPath? Bundle.extension = some path) : path.text ∉ Library.modules.map Prod.fst := by
  intro hmem
  obtain ⟨howns, -, hfile, hend⟩ := Library.names_apart _ hmem
  -- With the extension it ends otherwise; what names no file cannot be a name of the library.
  rw [toPath?_eq, Option.some.injEq] at hpath
  obtain ⟨text, hwritten⟩ : ∃ text, i.written = Path.ofText text := by cases i <;> exact ⟨_, rfl⟩
  split at hpath
  · rcases Path.withExtension_cases tl (by decide) i.written with ⟨hnone, hsame⟩ | ⟨s, hs⟩
    · rw [← hpath, hsame, hwritten, Path.text_ofText, ← hwritten] at hfile
      exact hfile hnone
    · rw [← hpath, hs] at hend
      exact hend ⟨s.toList, by rw [String.toList_append]; rfl⟩
  · next htakes =>
    cases i with
    | dotted => exact htakes rfl
    | path text =>
      rw [← hpath, Tree.Import.written, Path.text_ofText] at howns
      exact Bool.noConfusion (h.symm.trans howns)

theorem Bundle.Finds.spec {b : Bundle} {key : String} {i : Tree.Import} {found : Provided}
    (h : b.Finds key i found) :
    found.name = found.key ∧
      (Library.find? found.key).or (b.files.lookup found.key) = some found.text := by
  unfold Finds locate at h
  by_cases howns : Library.owns i.name = true
  · rw [if_pos howns] at h
    cases hfind : Library.find? i.name with
    | none =>
      rw [hfind] at h
      cases h
    | some text =>
      rw [hfind] at h
      cases h
      exact ⟨rfl, by rw [hfind]; rfl⟩
  · rw [if_neg howns] at h
    obtain ⟨path, hsome⟩ : ∃ path, i.toPath? Bundle.extension = some path := ⟨_, toPath?_eq i⟩
    have hpath := toPath?_ne_library (Bool.eq_false_iff.mpr howns) hsome
    rw [hsome] at h
    simp only [Provider.memory, Provider.getElem?_table] at h
    split at h
    case h_2 => cases h
    case h_1 text hlookup =>
      cases h
      refine ⟨rfl, ?_⟩
      cases hfind : Library.find?
          (String.ofList (path.text.toList.map fun c => if c == '\\' then '/' else c)) with
      | none => exact hlookup
      | some other =>
        have hmem := Library.mem_of_find? hfind
        obtain ⟨-, hslash, -⟩ := Library.names_apart _ hmem
        rw [String.toList_ofList] at hslash
        rw [key_eq_of_noSeparator hslash, String.ofList_toList] at hmem
        exact absurd hmem hpath

namespace Bundle

variable {b : Bundle} {key other : String}

variable {i : Tree.Import} {found : Provided} {file : FileId} {parsed : Tree.Parsed}

theorem Finds.text? (h : b.Finds key i found) (hmain : found.key ≠ b.name) :
    b.text? found.key = some found.text := by
  rw [Bundle.text?, if_neg hmain]
  exact h.spec.2

theorem Finds.mem_keys (h : b.Finds key i found) : found.key ∈ b.keys := by
  refine mem_cons_of_mem _ (mem_append.mpr ?_)
  rcases Option.or_eq_some_iff.mp h.spec.2 with hlibrary | ⟨-, hfile⟩
  · exact .inl (Library.mem_of_find? hlibrary)
  · obtain ⟨before, after, heq, -⟩ := List.lookup_eq_some_iff.mp hfile
    exact .inr (mem_map.mpr ⟨_, heq ▸ mem_append_right _ mem_cons_self, rfl⟩)

/-- Imports do not depend on the number that a file has. -/
theorem Reads.imports_eq {file' : FileId} {parsed' : Tree.Parsed} (h : b.Reads key file parsed)
    (h' : b.Reads key file' parsed') :
    parsed.module.imports.map Prod.fst = parsed'.module.imports.map Prod.fst := by
  obtain ⟨text, htext, hparsed⟩ := h
  obtain ⟨text', htext', hparsed'⟩ := h'
  cases htext.symm.trans htext'
  have hshape := Tree.Parsed.ofText_shape file file' text
  rw [hparsed, hparsed'] at hshape
  have himports := congrArg (fun m => m.imports.map Prod.fst) (Option.some.inj hshape)
  simp only [Tree.Module.erase, map_map] at himports
  exact himports

theorem Reads.exists_import (h : b.Reads key file parsed) (himports : b.Imports key other) :
    ∃ i ∈ parsed.module.imports, ∃ found, b.Finds key i.1 found ∧ found.key = other := by
  obtain ⟨file', parsed', hreads, i, hi, hfound⟩ := himports
  have hmem : i.1 ∈ parsed.module.imports.map Prod.fst :=
    h.imports_eq hreads ▸ mem_map_of_mem hi
  obtain ⟨j, hj, hji⟩ := mem_map.mp hmem
  exact ⟨j, hj, hji ▸ hfound⟩

theorem not_parses {text : String} {ds : List Diagnostic} (htext : b.text? key = some text)
    (h : Tree.Parsed.ofText file text = .error ds) : ¬b.Parses key := by
  rintro ⟨file', parsed, text', htext', hparsed⟩
  cases htext.symm.trans htext'
  have hshape := Tree.Parsed.ofText_shape file file' text
  rw [h, hparsed] at hshape
  cases hshape

end Bundle

end Loader

end Teal
