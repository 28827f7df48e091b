import Teal.Proofs.Semantics.Order

/-! Control does not run over the end of a body. Since all paths through a program are in order, the
machine comes to the end of a subroutine only when it jumps over the subroutine, to the end of a body in
place of a call only by a return of that body, and to the end of the program never. -/

namespace Teal.Semantics

open Assembly List
open Program (ItemsMirror)

variable {Env : Type} {p : Program} {I : Interp Env} {lines : List Line} {s t : State Env}

/-- One step takes the machine to the place behind a label with a given text, from whatever place. -/
def Passes (I : Interp Env) (lines : List Line) (text : String) (s t : State Env) : Prop :=
  step I lines s = .ok t ∧ ∃ l : Label, l.text = text ∧ .label l :: t.code <:+ lines

/-- How the machine gets on from a state to the ends of bodies. -/
structure ControlDiscipline (p : Program) (I : Interp Env) (lines : List Line) (s : State Env) :
    Prop where
  /-- The end of a body is not come to from the lines before it. -/
  body : ∀ {l rest}, s.code = .label l :: rest → l.isEnd = false
  programEnd : ∀ {t}, ¬ Passes I lines "end_main" s t
  subroutineEnd : ∀ {name t}, Passes I lines ("end_" ++ name) s t →
    ∃ rest, s.code = .branch (.subroutineEnd name) :: .label (.subroutine name) :: rest
  inlineEnd : ∀ {name path t}, Passes I lines ("inline_" ++ name ++ "_end" ++ pathText path) s t →
    AtReturn p lines (.inBody (.inlineEnd name) path) s.code

/-- In every state that is reached, control is at a place of the program that is in order. -/
theorem orderly_of_reach (hsafe : ∀ n, Safe p lines n (fun _ => False) lines []) {env : Env}
    (h : Reach I lines (start lines env) s) :
    (∃ K, Orderly p lines K s.code) ∧ Located lines s.code s.calls := by
  have hreached : ∀ {s t : State Env}, Reach I lines s t → Located lines s.code s.calls →
      ∀ {K : Nat → Prop}, (∀ n, Safe p lines n K s.code s.calls) →
        (∃ K, Orderly p lines K t.code) ∧ Located lines t.code t.calls := by
    intro s t hreach
    induction hreach with
    | refl => exact fun hlocated K hsafe => ⟨⟨K, (hsafe 1).1⟩, hlocated⟩
    | head hstep _ ih =>
      intro hlocated K hsafe
      have hgoes := goes_of_step hstep
      exact ih (hlocated.goes hgoes) fun n => (hsafe (n + 1)).2 hgoes
  exact hreached h (located_start lines env) hsafe

section Ends

variable {l : Label} {code : List Line}

theorem not_toEnd_programEnd : ¬ ToEnd p lines .programEnd code := by
  intro h
  cases h with
  | returns h =>
    cases h with
    | mk hlabel => cases hlabel

theorem ToEnd.exists_jumpsOver {name : String} (h : ToEnd p lines (.subroutineEnd name) code) :
    ∃ rest, code = .branch (.subroutineEnd name) :: .label (.subroutine name) :: rest := by
  cases h with
  | jumpsOver => exact ⟨_, rfl⟩
  | returns h =>
    cases h with
    | mk hlabel => cases hlabel

theorem ToEnd.atReturn {mark : Assembly.Mark} {path : List Nat} (h : ToEnd p lines (.inBody mark path) code) :
    AtReturn p lines (.inBody mark path) code := by
  cases h with
  | returns h => exact h

theorem not_toEnd_reserved (hp : p.WellBuilt) (h : ProgramCode p lines) (hplace : code <:+ lines) :
    ¬ ToEnd p lines (.subroutineEnd Program.Build.reservedName) code := by
  intro hend
  obtain ⟨rest, rfl⟩ := hend.exists_jumpsOver
  have hmem : Line.label (.subroutine Program.Build.reservedName) ∈ lines :=
    hplace.subset (mem_cons_of_mem _ mem_cons_self)
  obtain ⟨i, hi⟩ := mem_iff_getElem?.mp hmem
  obtain ⟨f, hf, _, hname⟩ := h.exists_function hp ⟨_, hi, rfl⟩
  exact hp.unreserved f hf hname

/-- The machine gets behind the end of a body from a line only that is meant to lead there. -/
theorem toEnd_of_step (hp : p.WellBuilt) (h : ProgramCode p lines) {K : Nat → Prop}
    (horderly : Orderly p lines K s.code) (hlocated : Located lines s.code s.calls)
    (hstep : step I lines s = .ok t) (hplace : .label l :: t.code <:+ lines) (hend : l.isEnd = true) :
    ToEnd p lines l s.code := by
  rcases (goes_of_step hstep).label_cases hlocated hplace with
    hcode | ⟨line, rest, l', hcode, htarget, htext⟩
  · rw [horderly.label hcode] at hend
    cases hend
  · have hl := h.ne_reservedEnd hp (mem_defined.mpr (hplace.subset mem_cons_self))
    have hl' : l' ≠ .subroutineEnd Program.Build.reservedName := by
      rintro rfl
      exact not_toEnd_reserved hp h hlocated.code (horderly.target hcode htarget rfl)
    obtain rfl := Label.text_inj hl' hl htext
    exact horderly.target hcode htarget hend

end Ends

theorem controlDiscipline_of_reach (hp : p.Sound) (h : ProgramCode p lines) {items : List Tree.Item}
    {tip : ScopeId} (hitems : ItemsMirror p.scopes items tip p.globals p.functions) {env : Env}
    (hreach : Reach I lines (start lines env) s) : ControlDiscipline p I lines s := by
  obtain ⟨⟨K, horderly⟩, hlocated⟩ := orderly_of_reach (safe_of_programCode hp h hitems) hreach
  -- A text stands for one label, so the label that is passed is known.
  have htoEnd : ∀ {t : State Env} {l : Label}, l ≠ .subroutineEnd Program.Build.reservedName →
      l.isEnd = true → Passes I lines l.text s t → ToEnd p lines l s.code := by
    rintro t l hl hend ⟨hstep, l', htext, hplace⟩
    have hl' := h.ne_reservedEnd hp.toWellBuilt (mem_defined.mpr (hplace.subset mem_cons_self))
    obtain rfl := Label.text_inj hl' hl htext
    exact toEnd_of_step hp.toWellBuilt h horderly hlocated hstep hplace hend
  have hprogramEnd : ∀ {t}, ¬ Passes I lines "end_main" s t := by
    intro t hpasses
    exact not_toEnd_programEnd (htoEnd (l := .programEnd) nofun rfl hpasses)
  refine ⟨horderly.label, hprogramEnd, ?_, ?_⟩
  · intro name t hpasses
    by_cases hname : name = Program.Build.reservedName
    · subst hname
      exact absurd hpasses hprogramEnd
    · refine (htoEnd (l := .subroutineEnd name) (fun heq => hname ?_) rfl hpasses).exists_jumpsOver
      exact Label.subroutineEnd.inj heq
  · intro name path t hpasses
    exact (htoEnd (l := .inBody (.inlineEnd name) path) nofun rfl hpasses).atReturn

end Teal.Semantics

namespace Teal

open Semantics

/-- In every run of what is built and checked without a fatal report, control does not run over the end of
a body: the end of the program is never come to, that of a subroutine by the jump before the subroutine
only, and that of a body in place of a call by the returns of that body only. A block that is said to
terminate is never gone through to its end. -/
theorem emit_controlDiscipline {ms : List Tree.SourceModule} {version : Nat} {p : Program}
    {ds : List Diagnostic} (hbuilt : Program.ofModules ms version = (some p, ds))
    (hds : ∀ d ∈ ds, d.isFatal = false) (htypes : ∀ d ∈ p.typeFaults, d.isFatal = false) :
    ∃ lines, p.emit = .ok lines ∧
      ∀ (Env : Type) (I : Interp Env),
        (∀ (env : Env) (s : State Env),
          Reach I lines (start lines env) s →
            ControlDiscipline p I lines s) ∧
        ∀ (stmts : List Program.Stmt), Program.blockTerminates stmts = true →
          ∀ (fuel : Nat) (m m' : Memory Env),
            evalBlock p I (evalCall p I fuel) fuel stmts m ≠ .ok (.next, m') := by
  have hp := sound_of_ofModules hbuilt hds htypes
  obtain ⟨lines, hlines, hcode⟩ := Assembly.emit_code hp
  obtain ⟨tip, hitems⟩ := Program.itemsMirror_of_ofModules hbuilt hds
  refine ⟨lines, hlines, fun Env I => ⟨fun env s hreach => ?_, fun stmts hterminates fuel m m' => ?_⟩⟩
  · exact controlDiscipline_of_reach hp hcode hitems hreach
  · exact evalBlock_ne_next stmts hterminates

/-- The sample jumps over a subroutine and returns from a body that is expanded inside of it. -/
theorem emit_controlDiscipline_sample :
    Program.ofModules Sample.modules 5 = (some Sample.program, []) ∧
      Sample.program.typeFaults = [] ∧
      ∃ lines, Sample.program.emit = .ok lines ∧
        .branch (.subroutineEnd "total") ∈
          executed Sample.counting lines 30 (start lines 0) ∧
        .branch (.inBody (.inlineEnd "least") [3]) ∈
          executed Sample.counting lines 30 (start lines 0) ∧
        ∀ (s : State Nat),
          Reach Sample.counting lines (start lines 0) s →
            ControlDiscipline Sample.program Sample.counting lines s := by
  obtain ⟨lines, hlines, hruns⟩ := emit_controlDiscipline Sample.ofModules_modules (by simp)
    (by simp [Sample.typeFaults_program])
  exact ⟨Sample.ofModules_modules, Sample.typeFaults_program, lines, hlines,
    Sample.mem_executed hlines _ (by simp), Sample.mem_executed hlines _ (by simp),
    (hruns Nat Sample.counting).1 0⟩

end Teal
