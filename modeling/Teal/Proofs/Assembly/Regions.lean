import Teal.Proofs.Assembly.Labels
import Teal.Proofs.Compile.Total

/-! Labels in the assembly of a program. No label is defined twice, every label that is jumped to or
called is defined, jumps neither enter nor leave the body of a subroutine, and there is one subroutine
for each function that is called and none for those that are inlined. -/

namespace Teal.Assembly

open List
open Program (Function blockLabels)

/-- Line `i` defines a label with a given text. -/
def DefinesAt (lines : List Line) (i : Nat) (text : String) : Prop :=
  ∃ l, lines[i]? = some (.label l) ∧ l.text = text

/-- Line `i` may go on at a label with a given text. -/
def JumpsAt (lines : List Line) (i : Nat) (text : String) : Prop :=
  ∃ l, (lines[i]? = some (.branch l) ∨ lines[i]? = some (.branchZero l)) ∧ l.text = text

/-- Line `i` calls the subroutine at a label with a given text. -/
def CallsAt (lines : List Line) (i : Nat) (text : String) : Prop :=
  ∃ l, lines[i]? = some (.call l) ∧ l.text = text

/-- Line `i` stands strictly between the first and the last label of a subroutine. -/
def InSubroutine (lines : List Line) (name : String) (i : Nat) : Prop :=
  ∃ a b, a < i ∧ i < b ∧ DefinesAt lines a ("fun_" ++ name) ∧ DefinesAt lines b ("end_" ++ name)

structure LabelDiscipline (p : Program) (lines : List Line) : Prop where
  unique : ∀ {i j text}, DefinesAt lines i text → DefinesAt lines j text → i = j
  defined : ∀ {i text}, JumpsAt lines i text ∨ CallsAt lines i text → ∃ j, DefinesAt lines j text
  /-- Jumps in the body of a subroutine stay there. -/
  inside : ∀ {name i text}, InSubroutine lines name i → JumpsAt lines i text →
    ∀ j, DefinesAt lines j text → InSubroutine lines name j
  /-- Jumps outside of all subroutines stay outside. -/
  outside : ∀ {i text}, (∀ name, ¬ InSubroutine lines name i) → JumpsAt lines i text →
    ∀ j, DefinesAt lines j text → ∀ name, ¬ InSubroutine lines name j
  /-- A function that is neither inlined nor the entry point has one subroutine. -/
  subroutine : ∀ f ∈ p.functions, f.inline = false → f.isEntry = false →
    ∃ i, DefinesAt lines i ("fun_" ++ f.name.text) ∧
      ∀ j, DefinesAt lines j ("fun_" ++ f.name.text) → j = i
  inline : ∀ f ∈ p.functions, f.inline = true → ∀ i, ¬ DefinesAt lines i ("fun_" ++ f.name.text)
  calls : ∀ {i text}, CallsAt lines i text →
    ∃ f ∈ p.functions, f.inline = false ∧ f.isEntry = false ∧ text = "fun_" ++ f.name.text

/-! ### Lines with the subroutine in whose body they stand -/

def tag (name : Option String) (ls : List Line) : List (Line × Option String) := ls.map (·, name)

theorem map_fst_tag (name : Option String) (ls : List Line) : (tag name ls).map Prod.fst = ls := by
  rw [tag, map_map]
  exact map_id _

variable {ls : List Line}

theorem mem_tag {name name' : Option String} {line : Line} :
    (line, name') ∈ tag name ls ↔ line ∈ ls ∧ name' = name := by
  rw [tag, mem_map]
  constructor
  · rintro ⟨_, hmem, heq⟩
    cases heq
    exact ⟨hmem, rfl⟩
  · rintro ⟨hmem, rfl⟩
    exact ⟨line, hmem, rfl⟩

/-- Jumps stay in the body that they stand in, and bodies stand between the labels of subroutines. -/
structure Regions (tagged : List (Line × Option String)) : Prop where
  jumps : ∀ {line : Line} {name l}, (line, name) ∈ tagged → line.jump? = some l →
    (.label l, name) ∈ tagged
  bodies : ∀ {i : Nat} {line name}, tagged[i]? = some (line, some name) → ∃ a b : Nat, a < i ∧ i < b ∧
    tagged[a]? = some (.label (.subroutine name), none) ∧
    tagged[b]? = some (.label (.subroutineEnd name), none)

theorem Regions.append {s t : List (Line × Option String)} (hs : Regions s) (ht : Regions t) :
    Regions (s ++ t) := by
  constructor
  · intro line name l hmem hjump
    rcases mem_append.mp hmem with hmem | hmem
    · exact mem_append_left _ (hs.jumps hmem hjump)
    · exact mem_append_right _ (ht.jumps hmem hjump)
  · intro i line name hi
    by_cases hlt : i < s.length
    · rw [getElem?_append_left hlt] at hi
      obtain ⟨a, b, hai, hib, ha, hb⟩ := hs.bodies hi
      refine ⟨a, b, hai, hib, ?_, ?_⟩
      · rw [getElem?_append_left (List.getElem?_eq_some_iff.mp ha).1]
        exact ha
      · rw [getElem?_append_left (List.getElem?_eq_some_iff.mp hb).1]
        exact hb
    · have hle : s.length ≤ i := Nat.le_of_not_lt hlt
      rw [getElem?_append_right hle] at hi
      obtain ⟨a, b, hai, hib, ha, hb⟩ := ht.bodies hi
      refine ⟨s.length + a, s.length + b, by omega, by omega, ?_, ?_⟩
      · rw [getElem?_append_right (Nat.le_add_right _ _), Nat.add_sub_cancel_left]
        exact ha
      · rw [getElem?_append_right (Nat.le_add_right _ _), Nat.add_sub_cancel_left]
        exact hb

theorem mem_jumps {lines : List Line} {l : Label} : l ∈ jumps lines ↔ ∃ line ∈ lines, line.jump? = some l :=
  mem_filterMap

/-- Lines outside of all subroutines. -/
theorem regions_tag_none (h : ∀ l ∈ jumps ls, l ∈ defined ls) : Regions (tag none ls) := by
  constructor
  · intro line name l hmem hjump
    obtain ⟨hline, rfl⟩ := mem_tag.mp hmem
    exact mem_tag.mpr ⟨mem_defined.mp (h l (mem_jumps.mpr ⟨line, hline, hjump⟩)), rfl⟩
  · intro i line name hi
    cases (mem_tag.mp (mem_of_getElem? hi)).2

def subroutineTags (name : String) (body : List Line) : List (Line × Option String) :=
  [(.branch (.subroutineEnd name), none), (.label (.subroutine name), none)] ++
    tag (some name) body ++ [(.label (.subroutineEnd name), none)]

theorem regions_subroutineTags {name : String} {body : List Line}
    (h : ∀ l ∈ jumps body, l ∈ defined body) : Regions (subroutineTags name body) := by
  constructor
  · intro line name' l hmem hjump
    simp only [subroutineTags, mem_append, mem_cons, not_mem_nil, or_false, Prod.mk.injEq] at hmem ⊢
    rcases hmem with ((⟨rfl, rfl⟩ | ⟨rfl, rfl⟩) | hmem) | ⟨rfl, rfl⟩
    · cases hjump
      exact .inr ⟨rfl, rfl⟩
    · cases hjump
    · obtain ⟨hline, rfl⟩ := mem_tag.mp hmem
      exact .inl (.inr (mem_tag.mpr
        ⟨mem_defined.mp (h l (mem_jumps.mpr ⟨line, hline, hjump⟩)), rfl⟩))
    · cases hjump
  · intro i line name' hi
    have hlength : (tag (some name) body).length = body.length := length_map _
    -- Only lines of the body have a name with them.
    have hbody : name' = name ∧ 1 < i ∧ i < body.length + 2 := by
      by_cases hlt : i < body.length + 2
      · rw [subroutineTags, getElem?_append_left (by simp [hlength]; omega)] at hi
        by_cases hone : 1 < i
        · rw [getElem?_append_right (by simp; omega)] at hi
          obtain ⟨_, heq⟩ := mem_tag.mp (mem_of_getElem? hi)
          exact ⟨Option.some.inj heq, hone, hlt⟩
        · rw [getElem?_append_left (by simp; omega)] at hi
          simpa using mem_of_getElem? hi
      · rw [subroutineTags, getElem?_append_right (by simp [hlength]; omega)] at hi
        simpa using mem_of_getElem? hi
    refine ⟨1, body.length + 2, hbody.2.1, hbody.2.2, ?_, ?_⟩
    · rw [hbody.1]
      rfl
    · rw [hbody.1, subroutineTags, getElem?_append_right (by simp [hlength])]
      simp [hlength]

theorem map_fst_subroutineTags (name : String) (body : List Line) :
    (subroutineTags name body).map Prod.fst =
      [.branch (.subroutineEnd name), .label (.subroutine name)] ++ body ++
        [.label (.subroutineEnd name)] := by
  rw [subroutineTags, map_append, map_append, map_fst_tag]
  rfl

/-- Subroutines one behind another, with a place in them for each function that has one. -/
theorem SubroutinesCode.exists_tags {p : Program}
    (hbodies : ∀ f ∈ p.functions, (blockLabels f.body).Nodup) {fs : List Function}
    (h : SubroutinesCode p fs ls) (hfs : ∀ f ∈ fs, f ∈ p.functions) :
    ∃ tagged, tagged.map Prod.fst = ls ∧ Regions tagged ∧ (∀ l ∈ calls ls, Callable p l) ∧
      ∀ f ∈ fs, HasSubroutine f →
        ∃ s body t, tagged = s ++ subroutineTags f.name.text body ++ t := by
  induction h with
  | nil => exact ⟨[], rfl, ⟨nofun, nofun⟩, nofun, nofun⟩
  | @skip f rest ls hskip _ ih =>
    obtain ⟨tagged, hmap, hregions, hcalls, hplaces⟩ := ih fun g hg => hfs g (mem_cons_of_mem _ hg)
    refine ⟨tagged, hmap, hregions, hcalls, fun g hg hsub => ?_⟩
    rcases mem_cons.mp hg with rfl | hg
    · rw [hsub.1, hsub.2] at hskip
      cases hskip
    · exact hplaces g hg hsub
  | @cons f rest body ls hinline hentry hbody _ ih =>
    obtain ⟨tagged, hmap, hregions, hcalls, hplaces⟩ := ih fun g hg => hfs g (mem_cons_of_mem _ hg)
    have henclosed := hbody.enclosed hbodies (by simp) (hbodies f (hfs f mem_cons_self))
    refine ⟨subroutineTags f.name.text body ++ tagged, ?_,
      (regions_subroutineTags henclosed.jumps).append hregions, ?_, fun g hg hsub => ?_⟩
    · rw [map_append, map_fst_subroutineTags, hmap]
    · intro l hl
      have hl : l ∈ calls body ∨ l ∈ calls ls := by simpa using hl
      exact hl.elim (henclosed.calls l) (hcalls l)
    · rcases mem_cons.mp hg with rfl | hg
      · exact ⟨[], body, tagged, rfl⟩
      · obtain ⟨s, body', t, rfl⟩ := hplaces g hg hsub
        exact ⟨subroutineTags f.name.text body ++ s, body', t, by simp only [append_assoc]⟩

/-! ### Programs -/

section Programs

variable {p : Program} {lines : List Line}

theorem ProgramCode.exists_tags (hp : p.WellBuilt) (h : ProgramCode p lines) :
    ∃ tagged, tagged.map Prod.fst = lines ∧ Regions tagged ∧ (∀ l ∈ calls lines, Callable p l) ∧
      ∀ f ∈ p.functions, HasSubroutine f →
        ∃ s body t, tagged = s ++ subroutineTags f.name.text body ++ t := by
  cases h with
  | @mk globals subroutines body entry hentry hglobals hsubroutines hbody =>
    have hbodies := nodup_bodyLabels hp
    have hg := hglobals.enclosed hbodies (by simp) (nodup_append.mp hp.labels).1
    have hb := hbody.enclosed hbodies (by simp) (hbodies entry (mem_of_getElem? hentry))
    obtain ⟨tagged, hmap, hregions, hcalls, hplaces⟩ :=
      hsubroutines.exists_tags hbodies fun f hf => hf
    have hjumps : jumps ([.version p.version] ++ poolLines p.pool) = [] :=
      filterMap_eq_nil_iff.mpr fun line hline => (plain_header p line hline).jump
    have hnoCalls : calls ([.version p.version] ++ poolLines p.pool) = [] :=
      filterMap_eq_nil_iff.mpr fun line hline => (plain_header p line hline).call
    generalize hheader : [.version p.version] ++ poolLines p.pool = header at hjumps hnoCalls ⊢
    have hfirst : Regions (tag none (header ++ globals)) := by
      refine regions_tag_none fun l hl => ?_
      rw [jumps_append, hjumps, nil_append] at hl
      rw [defined_append, mem_append]
      exact .inr (hg.jumps l hl)
    have hlast : Regions (tag none (body ++ [.label .programEnd])) := by
      refine regions_tag_none fun l hl => ?_
      have hl : l ∈ jumps body := by simpa using hl
      simp [hb.jumps l hl]
    refine ⟨tag none (header ++ globals) ++ tagged ++ tag none (body ++ [.label .programEnd]), ?_,
      (hfirst.append hregions).append hlast, ?_, fun f hf hsub => ?_⟩
    · simp only [map_append, map_fst_tag, hmap, append_assoc]
    · intro l hl
      simp only [calls_append, hnoCalls, nil_append, append_assoc, mem_append] at hl
      rcases hl with hl | hl | hl | hl
      · exact hg.calls l hl
      · exact hcalls l hl
      · exact hb.calls l hl
      · cases hl
    · obtain ⟨s, body', t, rfl⟩ := hplaces f hf hsub
      exact ⟨tag none (header ++ globals) ++ s, body', t ++ tag none (body ++ [.label .programEnd]),
        by simp only [append_assoc]⟩

variable {k i : Nat} {name : String} {tagged : List (Line × Option String)}

theorem getElem?_middle {α : Type} (s x t : List α) (hk : k < x.length) :
    (s ++ x ++ t)[s.length + k]? = x[k]? := by
  rw [append_assoc, getElem?_append_right (Nat.le_add_right _ _),
    Nat.add_sub_cancel_left, getElem?_append_left hk]

theorem length_subroutineTags (name : String) (body : List Line) :
    (subroutineTags name body).length = body.length + 3 := by
  simp [subroutineTags, tag]

theorem getElem?_subroutineTags_end (name : String) (body : List Line) :
    (subroutineTags name body)[body.length + 2]? = some (.label (.subroutineEnd name), none) := by
  rw [subroutineTags, getElem?_append_right (by simp [tag])]
  simp [tag]

theorem getElem?_subroutineTags_body (name : String) (body : List Line) (hk : k < body.length) :
    ∃ line, (subroutineTags name body)[k + 2]? = some (line, some name) := by
  have hbody : (subroutineTags name body)[k + 2]? = (tag (some name) body)[k]? := by
    rw [subroutineTags, getElem?_append_left (by simp [tag]; omega)]
    rfl
  refine ⟨body.get ⟨k, hk⟩, ?_⟩
  rw [hbody, tag, getElem?_map, getElem?_eq_getElem hk]
  rfl

/-- A label that starts a subroutine is that of a function. -/
theorem ProgramCode.exists_function (hp : p.WellBuilt) (h : ProgramCode p lines)
    (hi : DefinesAt lines i ("fun_" ++ name)) : ∃ f ∈ p.functions, HasSubroutine f ∧ f.name.text = name := by
  obtain ⟨l, hline, htext⟩ := hi
  have hl := mem_defined.mpr (mem_of_getElem? hline)
  obtain rfl : l = .subroutine name := Label.text_inj (h.ne_reservedEnd hp hl) nofun htext
  rcases h.defined_cases hp hl with htrail | ⟨f, hf, hsub, heq | heq⟩ | heq
  · exact absurd rfl htrail
  · exact ⟨f, hf, hsub, (Label.subroutine.inj heq).symm⟩
  · cases heq
  · cases heq

/-- The lines that stand in a subroutine are those that have its name with them. -/
theorem ProgramCode.inSubroutine_iff (hp : p.WellBuilt) (h : ProgramCode p lines)
    (hmap : tagged.map Prod.fst = lines) (hregions : Regions tagged)
    (hplaces : ∀ f ∈ p.functions, HasSubroutine f → ∃ s body t, tagged = s ++ subroutineTags f.name.text body ++ t) :
    InSubroutine lines name i ↔ ∃ line, tagged[i]? = some (line, some name) := by
  have hline : ∀ {i : Nat} {line name}, tagged[i]? = some (line, name) → lines[i]? = some line := by
    intro i line name hi
    rw [← hmap, getElem?_map, hi]
    rfl
  constructor
  · rintro ⟨a, b, hai, hib, ⟨l, ha, hstart⟩, l', hb, hend⟩
    obtain ⟨f, hf, hsub, rfl⟩ := h.exists_function hp ⟨l, ha, hstart⟩
    obtain ⟨s, body, t, rfl⟩ := hplaces f hf hsub
    have hlength := length_subroutineTags f.name.text body
    -- Both labels are defined once only, so the places are these.
    have hfirst : lines[s.length + 1]? = some (.label (.subroutine f.name.text)) :=
      hline (getElem?_middle s _ t (by omega))
    have hlast : lines[s.length + (body.length + 2)]? = some (.label (.subroutineEnd f.name.text)) :=
      hline ((getElem?_middle s _ t (by omega)).trans (getElem?_subroutineTags_end _ body))
    have ha' := (h.label_unique hp ha hfirst hstart).2
    have hb' := (h.label_unique hp hb hlast hend).2
    obtain ⟨k, rfl⟩ : ∃ k, i = s.length + (k + 2) := ⟨i - (s.length + 2), by omega⟩
    rw [getElem?_middle s _ t (by omega)]
    exact getElem?_subroutineTags_body _ body (by omega)
  · rintro ⟨line, hi⟩
    obtain ⟨a, b, hai, hib, ha, hb⟩ := hregions.bodies hi
    exact ⟨a, b, hai, hib, ⟨_, hline ha, rfl⟩, _, hline hb, rfl⟩

/-- The target of a jump stands in the same subroutine as the jump, or as it outside of all. -/
theorem Regions.exists_target (hmap : tagged.map Prod.fst = lines) (hregions : Regions tagged)
    {text : String} (h : JumpsAt lines i text) : ∃ line name j l, tagged[i]? = some (line, name) ∧
      tagged[j]? = some (.label l, name) ∧ DefinesAt lines j text := by
  subst hmap
  obtain ⟨l, hline, htext⟩ := h
  obtain ⟨line, hi, hjump⟩ : ∃ line, (tagged.map Prod.fst)[i]? = some line ∧ line.jump? = some l := by
    rcases hline with hline | hline
    · exact ⟨_, hline, rfl⟩
    · exact ⟨_, hline, rfl⟩
  rw [getElem?_map, Option.map_eq_some_iff] at hi
  obtain ⟨⟨_, name⟩, hi, rfl⟩ := hi
  obtain ⟨j, hj⟩ := mem_iff_getElem?.mp (hregions.jumps (mem_of_getElem? hi) hjump)
  refine ⟨_, name, j, l, hi, hj, l, ?_, htext⟩
  rw [getElem?_map, hj]
  rfl

theorem ProgramCode.labelDiscipline (hp : p.WellBuilt) (h : ProgramCode p lines) :
    LabelDiscipline p lines := by
  obtain ⟨tagged, hmap, hregions, hcalls, hplaces⟩ := h.exists_tags hp
  have hinside : ∀ {name i}, InSubroutine lines name i ↔
      ∃ line, tagged[i]? = some (line, some name) :=
    h.inSubroutine_iff hp hmap hregions hplaces
  have hunique : ∀ {i j text}, DefinesAt lines i text → DefinesAt lines j text → i = j := by
    rintro i j text ⟨l, hi, htext⟩ ⟨l', hj, htext'⟩
    exact (h.label_unique hp hi hj (htext.trans htext'.symm)).2
  have hcallable : ∀ {i text}, CallsAt lines i text →
      ∃ f ∈ p.functions, HasSubroutine f ∧ text = "fun_" ++ f.name.text := by
    rintro i text ⟨l, hi, rfl⟩
    obtain ⟨f, hf, hsub, rfl⟩ :=
      hcalls l (mem_filterMap.mpr ⟨_, mem_of_getElem? hi, rfl⟩)
    exact ⟨f, hf, hsub, rfl⟩
  have hstart : ∀ f ∈ p.functions, HasSubroutine f →
      ∃ i, DefinesAt lines i ("fun_" ++ f.name.text) := by
    intro f hf hsub
    obtain ⟨s, body, t, heq⟩ := hplaces f hf hsub
    refine ⟨s.length + 1, .subroutine f.name.text, ?_, rfl⟩
    rw [← hmap, getElem?_map, heq,
      getElem?_middle s _ t (by rw [length_subroutineTags]; omega)]
    rfl
  refine ⟨hunique, ?_, ?_, ?_, ?_, ?_, ?_⟩
  · intro i text hnames
    rcases hnames with hjumps | hcall
    · obtain ⟨_, _, j, _, _, _, hj⟩ := hregions.exists_target hmap hjumps
      exact ⟨j, hj⟩
    · obtain ⟨f, hf, hsub, rfl⟩ := hcallable hcall
      exact hstart f hf hsub
  · intro name i text hin hjumps j hj
    obtain ⟨line, name', j', l, hi, htarget, hj'⟩ := hregions.exists_target hmap hjumps
    obtain ⟨line', hi'⟩ := hinside.mp hin
    cases hi.symm.trans hi'
    rw [hunique hj hj']
    exact hinside.mpr ⟨_, htarget⟩
  · intro i text hout hjumps j hj name hin
    obtain ⟨line, name', j', l, hi, htarget, hj'⟩ := hregions.exists_target hmap hjumps
    obtain ⟨line', hj''⟩ := hinside.mp hin
    rw [hunique hj hj', htarget] at hj''
    cases hj''
    exact hout name (hinside.mpr ⟨line, hi⟩)
  · intro f hf hinline hentry
    obtain ⟨i, hi⟩ := hstart f hf ⟨hinline, hentry⟩
    exact ⟨i, hi, fun j hj => hunique hj hi⟩
  · intro f hf hinline i hi
    obtain ⟨g, hg, hsub, hname⟩ := h.exists_function hp hi
    obtain ⟨m, hm⟩ := mem_iff_getElem?.mp hf
    obtain ⟨n, hn⟩ := mem_iff_getElem?.mp hg
    obtain rfl := hp.names hm hn hname.symm
    cases hm.symm.trans hn
    rw [hsub.1] at hinline
    cases hinline
  · intro i text hcall
    obtain ⟨f, hf, hsub, htext⟩ := hcallable hcall
    exact ⟨f, hf, hsub.1, hsub.2, htext⟩

end Programs

end Teal.Assembly

namespace Teal

/-- What is built and checked without a fatal report is emitted with its labels in order. -/
theorem emit_labelDiscipline {ms : List Tree.SourceModule} {version : Nat} {p : Program}
    {ds : List Diagnostic} (hbuilt : Program.ofModules ms version = (some p, ds))
    (hds : ∀ d ∈ ds, d.isFatal = false) (htypes : ∀ d ∈ p.typeFaults, d.isFatal = false) :
    ∃ lines, p.emit = .ok lines ∧ Assembly.LabelDiscipline p lines := by
  have hp := sound_of_ofModules hbuilt hds htypes
  obtain ⟨lines, hlines, hcode⟩ := Assembly.emit_code hp
  exact ⟨lines, hlines, hcode.labelDiscipline hp.toWellBuilt⟩

theorem emit_labelDiscipline_sample :
    Program.ofModules Sample.modules 5 = (some Sample.program, []) ∧
      Sample.program.typeFaults = [] ∧
      ∃ lines, Sample.program.emit = .ok lines ∧
        Assembly.LabelDiscipline Sample.program lines :=
  ⟨Sample.ofModules_modules, Sample.typeFaults_program,
    emit_labelDiscipline Sample.ofModules_modules (by simp) (by simp [Sample.typeFaults_program])⟩

end Teal
