import Mathlib.Data.List.DropRight
import Mathlib.Data.List.Forall2
import Teal.Project

/-! Project files read back. A file is a row of lines, each of which is blank, starts a section or sets a
key; blanks may stand around everything that counts. Whatever the order of the lines, reading yields for
each key that is known in a section the value that was set last there, and nothing else of the file. So
values that were set once are read as they were meant, also if they hold characters that mean something
elsewhere in a line. -/

namespace Teal

open List Text

namespace Text

theorem splitOn_eq (sep : Char) (cs : List Char) : splitOn sep cs = cs.splitOn sep := by
  induction cs with
  | nil => rfl
  | cons c cs ih =>
    rw [splitOn, ih, splitOn_eq_splitOnP, splitOn_eq_splitOnP, splitOnP_cons_eq_if_modifyHead]
    obtain ⟨part, parts, hparts⟩ := exists_cons_of_ne_nil (splitOnP_ne_nil (· == sep) cs)
    rw [hparts]
    rfl

/-- No end of a text has a property. -/
def Solid (p : Char → Bool) (cs : List Char) : Prop :=
  (∀ c ∈ cs.head?, p c = false) ∧ ∀ c ∈ cs.getLast?, p c = false

variable {p : Char → Bool} {c : Char} {back core : List Char}

/-- Behind the last character without the property everything goes, and nothing before it. -/
theorem rdropWhile_append_cons (hc : p c = false) (cs ds : List Char) :
    (cs ++ c :: ds).rdropWhile p = cs ++ c :: ds.rdropWhile p := by
  induction ds using List.reverseRecOn with
  | nil => exact rdropWhile_concat_neg p cs c (by simp [hc])
  | append_singleton ds d ih =>
    rw [← cons_append, ← append_assoc]
    cases hd : p d with
    | true => rw [rdropWhile_concat_pos p _ d hd, rdropWhile_concat_pos p _ d hd, ih]
    | false =>
      rw [rdropWhile_concat_neg p _ d (by simp [hd]), rdropWhile_concat_neg p _ d (by simp [hd])]
      simp

theorem rdropWhile_solid {cs : List Char} (hcs : ∀ c ∈ cs.getLast?, p c = false)
    (hback : ∀ c ∈ back, p c = true) : (cs ++ back).rdropWhile p = cs := by
  have hnil : back.rdropWhile p = [] := rdropWhile_eq_nil_iff.mpr hback
  rcases eq_nil_or_concat cs with rfl | ⟨init, last, rfl⟩
  · exact hnil
  · rw [concat_eq_append, append_assoc, singleton_append,
      rdropWhile_append_cons (hcs last (by simp)), hnil]

theorem trimBy_append (hcore : Solid p core) {front : List Char} (hfront : ∀ c ∈ front, p c = true)
    (hback : ∀ c ∈ back, p c = true) : trimBy p (front ++ (core ++ back)) = core := by
  rw [trimBy, dropWhile_append_of_pos hfront]
  cases core with
  | nil =>
    rw [nil_append, dropWhile_eq_nil_iff.mpr hback]
    rfl
  | cons c cs =>
    rw [cons_append, dropWhile_cons_of_neg (by simp [hcore.1 c rfl])]
    exact rdropWhile_solid hcore.2 hback

theorem trimBy_self (hcore : Solid p core) : trimBy p core = core := by
  simpa using trimBy_append hcore (forall_mem_nil _) (forall_mem_nil _)

theorem trimBy_concat (hc : p c = true) (cs : List Char) : trimBy p (cs ++ [c]) = trimBy p cs := by
  rw [trimBy, trimBy, dropWhile_append]
  split
  · next h => simp [List.isEmpty_iff.mp h, hc]
  · rw [reverse_append, reverse_singleton, singleton_append, dropWhile_cons_of_pos hc]

end Text

namespace Project

open Text (Solid)

/-! ### Lines -/

def Padding (cs : List Char) : Prop := ∀ c ∈ cs, isBlank c = true ∧ c ≠ '\n'

def Padded (core text : List Char) : Prop :=
  ∃ front back, Padding front ∧ Padding back ∧ text = front ++ (core ++ back)

/-- A text that is told from blanks around it and fits in a line. -/
def Plain (cs : List Char) : Prop := Solid isBlank cs ∧ '\n' ∉ cs

/-- The characters of keys that stand without quotes. -/
def bareChars : List Char :=
  "abcdefghijklmnopqrstuvwxyzABCDEFGHIJKLMNOPQRSTUVWXYZ0123456789-_".toList

def Bare (key : List Char) : Prop := key ≠ [] ∧ ∀ c ∈ key, c ∈ bareChars

-- Only the characters of the text are tried, not all that there are.
instance : DecidablePred Padding := fun cs => cs.decidableBAll _

instance (p : Char → Bool) : DecidablePred (Solid p) := fun _ =>
  @instDecidableAnd _ _ (Option.decidableForallMem _) (Option.decidableForallMem _)

instance : DecidablePred Plain := fun _ => instDecidableAnd

instance : DecidablePred Bare := fun key => @instDecidableAnd _ _ _ (key.decidableBAll _)

/-- How a line may be written. Behind the sign of a comment and behind a key there may be anything. -/
inductive Line.Written : Line → List Char → Prop
  | blank {text} (h : Padding text) : Written .blank text
  | comment {front rest} (hfront : Padding front) (hrest : '\n' ∉ rest) :
      Written .blank (front ++ '#' :: rest)
  | heading {name inner text} (hname : Plain name) (hinner : Padded name inner)
      (h : Padded ('[' :: (inner ++ [']'])) text) : Written (.heading name) text
  | setting {key value left right} (hkey : Bare key) (hvalue : Plain value) (hleft : Padded key left)
      (hright : Padded value right) : Written (.setting key value) (left ++ '=' :: right)

variable {cs core text key value line : List Char} {c : Char} {title : String} {s : Setting}

theorem Padding.blank (h : Padding cs) : ∀ c ∈ cs, isBlank c = true :=
  fun c hc => (h c hc).1

theorem Padding.notMem (h : Padding cs) (hc : isBlank c = false) :
    c ∉ cs := fun hmem => by simp [(h c hmem).1] at hc

theorem Padding.oneLine (h : Padding cs) : '\n' ∉ cs := fun hmem => (h _ hmem).2 rfl

theorem Padded.oneLine (h : Padded core text) (hcore : '\n' ∉ core) : '\n' ∉ text := by
  obtain ⟨front, back, hfront, hback, rfl⟩ := h
  simp [hfront.oneLine, hcore, hback.oneLine]

theorem Padded.trim (h : Padded core text) (hcore : Solid isBlank core) : trim text = core := by
  obtain ⟨front, back, hfront, hback, rfl⟩ := h
  exact trimBy_append hcore hfront.blank hback.blank

theorem Padded.padding (h : Padding text) : Padded [] text :=
  ⟨text, [], h, forall_mem_nil _, by simp⟩

theorem bareChars_plain : ∀ c ∈ bareChars,
    (!isBlank c && c != '\n' && c != '#' && c != '[' && c != '=' && c != '"') = true :=
  all_eq_true.mp (by decide)

theorem Bare.plain (h : Bare key) (hc : c ∈ key) :
    isBlank c = false ∧ c ≠ '\n' ∧ c ≠ '#' ∧ c ≠ '[' ∧ c ≠ '=' ∧ c ≠ '"' := by
  have hplain := bareChars_plain c (h.2 c hc)
  simpa [and_assoc] using hplain

theorem Bare.solid (h : Bare key) : Solid isBlank key :=
  ⟨fun _ hc => (h.plain (mem_of_mem_head? hc)).1, fun _ hc => (h.plain (mem_of_getLast? hc)).1⟩

theorem Bare.unquote (h : Bare key) : unquote key = key := by
  have hends : Solid (· == '"') key :=
    ⟨fun _ hc => by simpa using (h.plain (mem_of_mem_head? hc)).2.2.2.2.2,
      fun _ hc => by simpa using (h.plain (mem_of_getLast? hc)).2.2.2.2.2⟩
  exact trimBy_self hends

theorem Line.Written.oneLine {line : Line} (h : line.Written text) : '\n' ∉ text := by
  cases h with
  | blank h => exact h.oneLine
  | comment hfront hrest => simp [hfront.oneLine, hrest]
  | heading hname hinner h => exact h.oneLine (by simpa using hinner.oneLine hname.2)
  | setting hkey hvalue hleft hright =>
    simp [hleft.oneLine fun h => (hkey.plain h).2.1 rfl, hright.oneLine hvalue.2]

theorem solid_of_ends {d : Char} (hc : isBlank c = false) (hd : isBlank d = false) :
    Solid isBlank (c :: (cs ++ [d])) := by
  refine ⟨fun x hx => ?_, fun x hx => ?_⟩
  · cases hx
    exact hc
  · rw [← cons_append, getLast?_concat] at hx
    cases hx
    exact hd

theorem bracketed?_brackets (inner : List Char) : bracketed? ('[' :: (inner ++ [']'])) = some inner := by
  simp [bracketed?]

/-- What stands before the sign of a setting, and what is left of the line behind it. -/
theorem trim_setting {left right : List Char} (hkey : Bare key) (hvalue : Plain value)
    (hleft : Padded key left) (hright : Padded value right) : ∃ gap rest, Padding gap ∧
      trim (left ++ '=' :: right) = key ++ (gap ++ '=' :: rest) ∧ trim rest = value := by
  obtain ⟨front, gap, hfront, hgap, rfl⟩ := hleft
  obtain ⟨front', back, hfront', hback, rfl⟩ := hright
  obtain ⟨k, ks, rfl⟩ := exists_cons_of_ne_nil hkey.1
  refine ⟨gap, (front' ++ (value ++ back)).rdropWhile isBlank, hgap, ?_, ?_⟩
  · have hhead : ¬isBlank k = true := by simp [hkey.solid.1 k rfl]
    rw [trim, trimBy, append_assoc, append_assoc, dropWhile_append_of_pos hfront.blank, cons_append,
      dropWhile_cons_of_neg hhead, ← cons_append, ← append_assoc]
    exact (rdropWhile_append_cons (by decide) _ _).trans (append_assoc _ _ _)
  · cases value with
    | nil =>
      have hnil : (front' ++ ([] ++ back)).rdropWhile isBlank = [] :=
        rdropWhile_eq_nil_iff.mpr (forall_mem_append.mpr ⟨hfront'.blank, hback.blank⟩)
      rw [hnil]
      rfl
    | cons v vs =>
      rw [← append_assoc, rdropWhile_solid (by simpa using hvalue.1.2) hback.blank]
      simpa using Padded.trim ⟨front', [], hfront', forall_mem_nil _, rfl⟩ hvalue.1

/-- A line that is neither empty nor a comment starts a section or sets a key, if anything. -/
theorem Line.ofText_cons (htrim : trim text = c :: line) (hc : c ≠ '#') :
    Line.ofText text = (bracketed? (c :: line)).elim
      (if (c :: line).contains '=' then
        .setting (unquote (trim ((c :: line).takeWhile (· != '='))))
          (trim ((c :: line).dropWhile (· != '=')).tail) else .blank) fun name => .heading (trim name) := by
  simp only [Line.ofText, htrim]
  split
  · next h => cases h
  · next h => exact absurd (List.cons.inj h).1 hc
  · cases bracketed? (c :: line) <;> rfl

theorem bracketed?_eq_none (hc : c ≠ '[') : bracketed? (c :: line) = none := by
  unfold bracketed?
  split
  · next h => exact absurd (List.cons.inj h).1 hc
  · rfl

/-- A written line is read as it was meant. -/
theorem Line.Written.ofText_eq {line : Line} (h : line.Written text) : Line.ofText text = line := by
  cases h with
  | blank h =>
    have htrim : trim text = [] := (Padded.padding h).trim ⟨by simp, by simp⟩
    rw [Line.ofText, htrim]
  | @comment front rest hfront hrest =>
    have htrim : trim (front ++ '#' :: rest) = '#' :: rest.rdropWhile isBlank := by
      rw [trim, trimBy, dropWhile_append_of_pos hfront.blank]
      exact rdropWhile_append_cons (by decide) [] rest
    rw [Line.ofText, htrim]
    rfl
  | @heading name inner _ hname hinner h =>
    have htrim := h.trim (solid_of_ends rfl rfl)
    rw [Line.ofText_cons htrim (by decide), bracketed?_brackets, Option.elim, hinner.trim hname.1]
  | @setting key value left right hkey hvalue hleft hright =>
    obtain ⟨gap, rest, hgap, htrim, hrest⟩ := trim_setting hkey hvalue hleft hright
    obtain ⟨k, ks, rfl⟩ := exists_cons_of_ne_nil hkey.1
    have hbefore : ∀ c ∈ k :: ks ++ gap, (c != '=') = true := by
      intro c hc
      rcases mem_append.mp hc with hc | hc
      · simpa using (hkey.plain hc).2.2.2.2.1
      · exact bne_iff_ne.mpr fun heq => hgap.notMem (c := '=') (by decide) (heq ▸ hc)
    have hfirst := hkey.plain mem_cons_self
    have hline : k :: (ks ++ (gap ++ '=' :: rest)) = k :: ks ++ gap ++ '=' :: rest := by simp
    rw [cons_append] at htrim
    rw [Line.ofText_cons htrim hfirst.2.2.1, bracketed?_eq_none hfirst.2.2.2.1, Option.elim, hline,
      if_pos (by simp), takeWhile_append_of_pos hbefore, dropWhile_append_of_pos hbefore]
    have hkeyText : trim (k :: ks ++ gap) = k :: ks := by
      exact Padded.trim ⟨[], gap, forall_mem_nil _, hgap, rfl⟩ hkey.solid
    rw [takeWhile_cons_of_neg (by simp), append_nil, hkeyText, hkey.unquote,
      dropWhile_cons_of_neg (by simp), tail_cons, hrest]

/-! ### Settings -/

structure Setting where
  title : List Char
  key : List Char
  value : List Char

/-- The keys that lines set, if a section has been started before them. -/
def settings : (title : List Char) → List Line → List Setting
  | _, [] => []
  | title, .blank :: rest => settings title rest
  | _, .heading name :: rest => settings name rest
  | title, .setting key value :: rest => ⟨title, key, value⟩ :: settings title rest

/-- The values that a key is set to in the sections of a title, in their order. -/
def valuesOf (title key : String) (ss : List Setting) : List (List Char) :=
  (ss.filter fun s => s.title = title.toList ∧ s.key = key.toList).map (·.value)

theorem valuesOf_append (title key : String) (ss ss' : List Setting) :
    valuesOf title key (ss ++ ss') = valuesOf title key ss ++ valuesOf title key ss' := by
  simp [valuesOf]

theorem valuesOf_self {key : String} (htitle : String.ofList s.title = title)
    (hkey : String.ofList s.key = key) : valuesOf title key [s] = [s.value] := by
  simp [valuesOf, ← htitle, ← hkey]

theorem valuesOf_other {key : String} (h : ¬(String.ofList s.title = title ∧ String.ofList s.key = key)) :
    valuesOf title key [s] = [] := by
  have hne : ¬(s.title = title.toList ∧ s.key = key.toList) := fun ⟨htitle, hkey⟩ =>
    h ⟨by simp [htitle], by simp [hkey]⟩
  simp [valuesOf, hne]

/-- The project of which each key is set to the last of its values. -/
def ofSettings (root : Path) (ss : List Setting) : Project where
  name := ((valuesOf "project" "name" ss).getLast?.map fun v => String.ofList (unquote v)).getD ""
  entry := (valuesOf "project" "entry" ss).getLast?.map fun v =>
    root.join (.ofText (String.ofList (unquote v)))
  version := (valuesOf "project" "version" ss).getLast?.bind fun v => version? (unquote v)
  modulePaths := ((valuesOf "modules" "paths" ss).getLast?.map fun v =>
    (textList v).map fun t => root.join (.ofText t)).getD []
  root := root

/-- The versions that are set are ones that can be compiled for. -/
def Versioned (ss : List Setting) : Prop :=
  ∀ v ∈ valuesOf "project" "version" ss, (version? (unquote v)).isSome = true

/-- A key that is set gets a new last value, and nothing else changes. -/
theorem Draft.set_eq {root : Path} {ss : List Setting} {title : List Char}
    (hversion : Versioned [⟨title, key, value⟩]) : Draft.set ⟨title, ofSettings root ss⟩ key value =
      .ok ⟨title, ofSettings root (ss ++ [⟨title, key, value⟩])⟩ := by
  have hself : ∀ {t k : String}, String.ofList title = t → String.ofList key = k →
      (valuesOf t k (ss ++ [⟨title, key, value⟩])).getLast? = some value := by
    intro t k ht hk
    rw [valuesOf_append, valuesOf_self ht hk, getLast?_concat]
  have hother : ∀ {t k : String}, ¬(String.ofList title = t ∧ String.ofList key = k) →
      valuesOf t k (ss ++ [⟨title, key, value⟩]) = valuesOf t k ss := by
    intro t k hne
    rw [valuesOf_append, valuesOf_other hne, append_nil]
  unfold Draft.set
  dsimp only
  split
  · next ht hk => simp [ofSettings, hself ht hk, hother, hk]
  · next ht hk => simp [ofSettings, hself ht hk, hother, hk]
  · next ht hk =>
    have hvalid := hversion value (by simp [valuesOf_self (s := ⟨title, key, value⟩) ht hk])
    obtain ⟨v, hv⟩ := Option.isSome_iff_exists.mp hvalid
    simp [ofSettings, hself ht hk, hother, hk, hv]
  · next ht hk => simp [ofSettings, hself ht hk, hother, hk]
  · next hname hentry hversion' hpaths =>
    simp only [ofSettings, hother fun h => hname h.1 h.2, hother fun h => hentry h.1 h.2,
      hother fun h => hversion' h.1 h.2, hother fun h => hpaths h.1 h.2]

/-- What written lines set is taken into account in their order. -/
theorem foldlM_line (root : Path) {lines : List Line} {texts : List (List Char)}
    (h : Forall₂ Line.Written lines texts) :
    ∀ (title : List Char) (ss : List Setting), Versioned (settings title lines) →
      ∃ title', texts.foldlM Draft.line ⟨title, ofSettings root ss⟩ =
        .ok ⟨title', ofSettings root (ss ++ settings title lines)⟩ := by
  induction h with
  | nil => exact fun _ _ _ => ⟨_, by simp [settings]; rfl⟩
  | @cons line text lines texts hline _ ih =>
    intro title ss hversions
    rw [foldlM_cons, Draft.line, hline.ofText_eq]
    cases line with
    | blank => exact ih _ _ hversions
    | heading name => exact ih _ _ hversions
    | setting key value =>
      have hsplit : settings title (.setting key value :: lines) =
          [⟨title, key, value⟩] ++ settings title lines := rfl
      rw [hsplit] at hversions ⊢
      simp only [Versioned, valuesOf_append, forall_mem_append] at hversions
      dsimp only
      rw [Draft.set_eq hversions.1, ← append_assoc]
      exact ih _ _ hversions.2

theorem Draft.line_concat (d : Draft) (cs : List Char) : d.line (cs ++ ['\r']) = d.line cs := by
  have htrim : trim (cs ++ ['\r']) = trim cs := trimBy_concat (by decide) cs
  simp only [Draft.line, Line.ofText, htrim]

/-- When a text is read line by line, it does not matter whether a carriage return stands before a line
end, nor whether a line end stands at the end. -/
theorem foldlM_lines (cs : List Char) (d : Draft) :
    (lines cs).foldlM Draft.line d = (cs.splitOn '\n').foldlM Draft.line d := by
  have hne : cs.splitOn '\n' ≠ [] := by
    rw [splitOn_eq_splitOnP]
    exact splitOnP_ne_nil _ _
  have hchomp : ∀ (parts : List (List Char)) (d : Draft), (parts.map fun part =>
      if part.getLast? = some '\r' then part.dropLast else part).foldlM Draft.line d =
        parts.foldlM Draft.line d := by
    intro parts d
    rw [foldlM_map]
    congr 1
    funext d part
    split
    · next hlast =>
      obtain ⟨init, rfl⟩ := getLast?_eq_some_iff.mp hlast
      rw [dropLast_concat, Draft.line_concat]
    · rfl
  rw [lines, splitOn_eq]
  obtain ⟨init, last, hparts⟩ : ∃ init last, cs.splitOn '\n' = init ++ [last] :=
    ⟨_, _, (dropLast_append_getLast hne).symm⟩
  rw [hparts, getLast?_concat, dropLast_concat]
  cases last with
  | nil =>
    rw [foldlM_append, hchomp]
    exact (bind_pure _).symm
  | cons c rest =>
    rw [foldlM_append, foldlM_append]
    exact congrArg (· >>= _) (hchomp init d)

/-! ### Project files -/

def quoted (text : String) : List Char := '"' :: (text.toList ++ ['"'])

/-- A list of texts in brackets, with blanks around the texts. -/
def Listed (texts : List String) (value : List Char) : Prop :=
  ∃ parts, Forall₂ (fun text part => Padded (quoted text) part) texts parts ∧
    value = '[' :: ([','].intercalate parts ++ [']'])

structure Content where
  name : String
  entry : Option String
  version : Option Nat
  paths : List String

/-- The texts can be written in quotes, and paths in a list. -/
structure Content.Valid (c : Content) : Prop where
  name_ne : c.name ≠ ""
  name : '"' ∉ c.name.toList
  entry : ∀ entry ∈ c.entry, '"' ∉ entry.toList
  version : ∀ v ∈ c.version, 2 ≤ v ∧ v ≤ 5
  paths : ∀ path ∈ c.paths, path ≠ "" ∧ '"' ∉ path.toList ∧ ',' ∉ path.toList

/-- Lines tell a content: each key is set once, in a section of its title, or not at all if there is
nothing to tell. Anything else may be set in other sections, and other keys in these. -/
structure Tells (lines : List Line) (c : Content) : Prop where
  name : valuesOf "project" "name" (settings [] lines) = [quoted c.name]
  entry : valuesOf "project" "entry" (settings [] lines) = c.entry.toList.map quoted
  version : valuesOf "project" "version" (settings [] lines) =
    c.version.toList.map fun v => (toString v).toList
  paths : ∃ value, Listed c.paths value ∧ valuesOf "modules" "paths" (settings [] lines) = [value]

theorem unquote_quoted {text : String} (h : '"' ∉ text.toList) : unquote (quoted text) = text.toList := by
  have hends : Solid (· == '"') text.toList :=
    ⟨fun c hc => beq_eq_false_iff_ne.mpr fun heq => h (heq ▸ mem_of_mem_head? hc),
      fun c hc => beq_eq_false_iff_ne.mpr fun heq => h (heq ▸ mem_of_getLast? hc)⟩
  exact trimBy_append (p := (· == '"')) hends (forall_mem_singleton.mpr rfl)
    (forall_mem_singleton.mpr rfl)

theorem textList_listed {paths : List String} (h : Listed paths value)
    (hpaths : ∀ path ∈ paths, path ≠ "" ∧ '"' ∉ path.toList ∧ ',' ∉ path.toList) :
    textList value = paths := by
  obtain ⟨parts, hparts, rfl⟩ := h
  have htrim : trim ('[' :: ([','].intercalate parts ++ [']'])) =
      '[' :: ([','].intercalate parts ++ [']']) := trimBy_self (solid_of_ends rfl rfl)
  simp only [textList, htrim, bracketed?_brackets, splitOn_eq]
  cases hparts with
  | nil => rfl
  | @cons path part paths parts hpath hparts =>
    have hread : ∀ {paths parts}, Forall₂ (fun text part => Padded (quoted text) part) paths parts →
        (∀ path ∈ paths, path ≠ "" ∧ '"' ∉ path.toList ∧ ',' ∉ path.toList) →
        parts.map (fun part => unquote (trim part)) = paths.map String.toList ∧
          ∀ part ∈ parts, ',' ∉ part := by
      intro paths parts h hpaths
      induction h with
      | nil => simp
      | cons hpart _ ih =>
        obtain ⟨hpath, hrest⟩ := forall_mem_cons.mp hpaths
        have htrim := hpart.trim (solid_of_ends rfl rfl)
        obtain ⟨front, back, hfront, hback, rfl⟩ := hpart
        obtain ⟨hmap, hcomma⟩ := ih hrest
        refine ⟨?_, forall_mem_cons.mpr ⟨?_, hcomma⟩⟩
        · rw [map_cons, map_cons, htrim, unquote_quoted hpath.2.1, hmap]
        · simp [quoted, hfront.notMem (c := ',') rfl, hback.notMem (c := ',') rfl, hpath.2.2]
    obtain ⟨hmap, hcomma⟩ := hread (.cons hpath hparts) hpaths
    rw [splitOn_intercalate ',' hcomma (by simp), hmap, filter_eq_self.mpr, map_map]
    · simp [Function.comp_def]
    · intro cs hcs
      obtain ⟨path, hmem, rfl⟩ := mem_map.mp hcs
      simpa using (hpaths path hmem).1

theorem version?_toString {v : Nat} (h : 2 ≤ v ∧ v ≤ 5) :
    version? (unquote (toString v).toList) = some v := by
  obtain rfl | rfl | rfl | rfl : v = 2 ∨ v = 3 ∨ v = 4 ∨ v = 5 := by omega
  all_goals rfl

def Content.project (c : Content) (root : Path) : Project :=
  ⟨c.name, c.entry.map fun text => root.join (.ofText text), c.version,
    c.paths.map fun text => root.join (.ofText text), root⟩

theorem ofSettings_eq_project {c : Content} (hc : c.Valid) {lines : List Line} (h : Tells lines c)
    (root : Path) : ofSettings root (settings [] lines) = c.project root := by
  obtain ⟨value, hlisted, hpaths⟩ := h.paths
  have hversion : (c.version.toList.map fun v => (toString v).toList).getLast?.bind
      (fun v => version? (unquote v)) = c.version := by
    cases hv : c.version with
    | none => rfl
    | some v => exact version?_toString (hc.version v hv)
  have hentry : (c.entry.toList.map quoted).getLast?.map
      (fun v => root.join (.ofText (String.ofList (unquote v)))) =
        c.entry.map fun text => root.join (.ofText text) := by
    cases he : c.entry with
    | none => rfl
    | some entry => simp [unquote_quoted (hc.entry entry he)]
  simp only [ofSettings, Content.project, h.name, h.entry, h.version, hpaths, hversion, hentry,
    getLast?_singleton, Option.map_some, Option.getD_some, unquote_quoted hc.name,
    textList_listed hlisted hc.paths, String.ofList_toList]

/-- Project files read back: a file whose lines tell a content, in whatever order and with whatever else
between them, is read as the project that the content describes. -/
theorem ofText_eq_project {c : Content} (hc : c.Valid) {lines : List Line} {texts : List (List Char)}
    (hwritten : Forall₂ Line.Written lines texts) (htells : Tells lines c) (root : Path) :
    ofText (String.ofList (['\n'].intercalate texts)) root = .ok (c.project root) := by
  have hne : texts ≠ [] := by
    rintro rfl
    cases hwritten
    have hname := htells.name
    cases hname
  have honeLine : ∀ text ∈ texts, '\n' ∉ text := by
    clear htells hne
    induction hwritten with
    | nil => simp
    | cons h _ ih => exact forall_mem_cons.mpr ⟨h.oneLine, ih⟩
  have hversions : Versioned (settings [] lines) := by
    intro v hv
    rw [htells.version] at hv
    obtain ⟨version, hversion, rfl⟩ := mem_map.mp hv
    rw [version?_toString (hc.version version (by simpa using hversion)), Option.isSome_some]
  obtain ⟨title, hrun⟩ := foldlM_line root hwritten [] [] hversions
  have hstart : (⟨[], ⟨"", none, none, [], root⟩⟩ : Draft) = ⟨[], ofSettings root []⟩ := rfl
  rw [ofText, String.toList_ofList, hstart, foldlM_lines, splitOn_intercalate '\n' honeLine hne, hrun,
    nil_append, ofSettings_eq_project hc htells]
  change (if (c.project root).name == "" then _ else _) = _
  rw [if_neg (by simpa [Content.project] using hc.name_ne)]
  rfl

/-- The name and a path hold signs that mean something elsewhere in a line. -/
def Sample.content : Content := ⟨"x = [y]", none, some 4, ["lib", "#a=[b]"]⟩

def Sample.lines : List Line :=
  [.heading "modules".toList, .setting "paths".toList "[\"lib\", \"#a=[b]\"]".toList, .blank,
    .heading "project".toList, .setting "version".toList "4".toList,
    .setting "name".toList "\"x = [y]\"".toList, .blank]

def Sample.texts : List (List Char) :=
  ["[ modules ]".toList, "paths = [\"lib\", \"#a=[b]\"]".toList, "# name = 2".toList,
    "[project]".toList, "version=4".toList, " name\t= \"x = [y]\"\r".toList, []]

theorem ofText_eq_project_sample : Sample.content.Valid ∧
    Forall₂ Line.Written Sample.lines Sample.texts ∧ Tells Sample.lines Sample.content ∧
    ofText (String.ofList (['\n'].intercalate Sample.texts)) (.ofText "dir") =
      .ok (Sample.content.project (.ofText "dir")) := by
  have hvalid : Sample.content.Valid := by
    constructor
    all_goals simp [Sample.content]
  have hpadded : ∀ {core : List Char} (front back : List Char), Padding (front ++ back) →
      Padded core (front ++ (core ++ back)) := fun front back h =>
    ⟨front, back, fun c hc => h c (mem_append_left _ hc),
      fun c hc => h c (mem_append_right _ hc), rfl⟩
  have hwritten : Forall₂ Line.Written Sample.lines Sample.texts := by
    refine .cons (.heading (by decide) (hpadded [' '] [' '] (by decide)) (hpadded [] [] (by decide))) ?_
    refine .cons (.setting (by decide) (by decide) (hpadded [] [' '] (by decide))
      (hpadded [' '] [] (by decide))) ?_
    refine .cons (.comment (forall_mem_nil _) (by decide)) ?_
    refine .cons (.heading (by decide) (hpadded [] [] (by decide)) (hpadded [] [] (by decide))) ?_
    refine .cons (.setting (by decide) (by decide) (hpadded [] [] (by decide))
      (hpadded [] [] (by decide))) ?_
    refine .cons (.setting (by decide) (by decide) (hpadded [' '] ['\t'] (by decide))
      (hpadded [' '] ['\r'] (by decide))) ?_
    exact .cons (.blank (by decide)) .nil
  have hlisted : Listed Sample.content.paths "[\"lib\", \"#a=[b]\"]".toList :=
    ⟨["\"lib\"".toList, " \"#a=[b]\"".toList],
      .cons (hpadded [] [] (by decide)) (.cons (hpadded [' '] [] (by decide)) .nil), rfl⟩
  have htells : Tells Sample.lines Sample.content :=
    ⟨by decide, by decide, by decide, _, hlisted, by decide⟩
  exact ⟨hvalid, hwritten, htells, ofText_eq_project hvalid hwritten htells _⟩

end Project

end Teal
