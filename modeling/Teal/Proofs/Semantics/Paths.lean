import Teal.Proofs.Assembly.Heights
import Teal.Proofs.Semantics.Preservation

/-! Where control may go. `Goes` forgets what the machine computes: a test may go either way and every
operation may succeed. All steps of the machine are among its steps, so that what holds along all of its
paths holds in every run, whatever the operations do. -/

namespace Teal.Assembly

/-- The label marks the end of a body: of the program, of a subroutine or of a body in place of a call. -/
def Label.isEnd : Label → Bool
  | .inBody (.inlineEnd _) _ | .subroutineEnd _ | .programEnd => true
  | _ => false

def Line.target? (line : Line) : Option Label := line.jump? <|> line.call?

end Teal.Assembly

namespace Teal.Semantics

open Assembly List

variable {Env : Type} {I : Interp Env} {lines : List Line} {s t : State Env}

/-- Control goes from a place, with pending calls, to another. -/
inductive Goes (lines : List Line) : List Line → List (List Line) → List Line → List (List Line) → Prop
  | falls {line rest calls} (hfalls : line.falls = true) (hcall : line.call? = none) :
      Goes lines (line :: rest) calls rest calls
  | jumps {line rest l after calls} (hjump : line.jump? = some l)
      (hseek : seek l.text lines = some after) : Goes lines (line :: rest) calls after calls
  | calls {l rest after calls} (hseek : seek l.text lines = some after) :
      Goes lines (.call l :: rest) calls after (rest :: calls)
  | returns {rest back calls} : Goes lines (.returnCall :: rest) (back :: calls) back calls

/-- A jump goes to the place behind a label with the text that it names. -/
theorem jump_ok {l : Label} (h : jump lines l s = .ok t) :
    seek l.text lines = some t.code ∧ t.calls = s.calls := by
  unfold jump at h
  split at h
  · next code hseek =>
    cases h
    exact ⟨hseek, rfl⟩
  · cases h

theorem push_ok {v : Option Value} (h : push v s = .ok t) : t.code = s.code ∧ t.calls = s.calls := by
  cases v with
  | none => cases h
  | some v =>
    cases h
    exact ⟨rfl, rfl⟩

theorem operate_ok {line : Line} (h : operate I line s = .ok t) : t.code = s.code ∧ t.calls = s.calls := by
  unfold operate at h
  split at h
  · split at h
    · cases h
      exact ⟨rfl, rfl⟩
    · cases h
  · cases h

theorem goes_of_move {line : Line} (h : move lines line s = .ok t) :
    Goes lines (line :: s.code) s.calls t.code t.calls := by
  obtain ⟨code, stack, slots, calls, pool, env⟩ := s
  have hjumped : ∀ {l : Label} {stack' : List Value}, line.jump? = some l →
      jump lines l ⟨code, stack', slots, calls, pool, env⟩ = .ok t →
      Goes lines (line :: code) calls t.code t.calls := by
    intro l stack' hjump hok
    obtain ⟨hseek, hcalls⟩ := jump_ok hok
    rw [hcalls]
    exact .jumps hjump hseek
  cases line with
  | version | label | intBlock | byteBlock =>
    cases h
    exact .falls rfl rfl
  | literal ref =>
    obtain ⟨hcode, hcalls⟩ := push_ok h
    rw [hcode, hcalls]
    exact .falls rfl rfl
  | load slot =>
    by_cases hslot : slot < Scopes.maxSlots
    · cases (if_pos hslot).symm.trans h
      exact .falls rfl rfl
    · cases (if_neg hslot).symm.trans h
  | store slot =>
    cases stack with
    | nil => cases h
    | cons v stack =>
      by_cases hslot : slot < Scopes.maxSlots
      · cases (if_pos hslot).symm.trans h
        exact .falls rfl rfl
      · cases (if_neg hslot).symm.trans h
  | pop =>
    cases stack with
    | nil => cases h
    | cons v stack =>
      cases h
      exact .falls rfl rfl
  | branch l => exact hjumped rfl h
  | branchZero l =>
    cases stack with
    | nil => cases h
    | cons v stack =>
      cases v with
      | bytes bs => cases h
      | int n =>
        by_cases hn : n = 0
        · exact hjumped rfl ((if_pos hn).symm.trans h)
        · cases (if_neg hn).symm.trans h
          exact .falls rfl rfl
  | call l =>
    obtain ⟨hseek, hcalls⟩ := jump_ok h
    rw [hcalls]
    exact .calls hseek
  | returnCall =>
    cases calls with
    | nil => cases h
    | cons back calls =>
      cases h
      exact .returns
  | finish => cases stack <;> cases h
  | unary | binary | builtin | field | arg | args | err | innerBegin | innerField | innerSubmit => cases h

/-- All steps of the machine go where control may go. -/
theorem goes_of_step (h : step I lines s = .ok t) : Goes lines s.code s.calls t.code t.calls := by
  obtain ⟨code, stack, slots, calls, pool, env⟩ := s
  cases code with
  | nil =>
    cases stack with
    | nil => cases h
    | cons v stack => cases stack <;> cases h
  | cons line rest =>
    by_cases hop : line.isOperation = true
    · obtain ⟨hcode, hcalls⟩ := operate_ok ((if_pos hop).symm.trans h)
      rw [hcode, hcalls]
      exact .falls (Line.falls_of_isOperation hop) (Line.plain_of_isOperation hop).call
    · exact goes_of_move ((if_neg hop).symm.trans h)

/-! ### Places -/

/-- One line only stands before a place. -/
theorem eq_of_cons_suffix {line line' : Line} {code : List Line} (h : line :: code <:+ lines)
    (h' : line' :: code <:+ lines) : line = line' := by
  have hsame : line :: code = line' :: code :=
    (suffix_of_suffix_length_le h h' .refl).eq_of_length rfl
  exact (List.cons.inj hsame).1

theorem seek_suffix {text : String} {after : List Line} (h : seek text lines = some after) :
    ∃ l : Label, l.text = text ∧ .label l :: after <:+ lines := by
  induction lines with
  | nil => cases h
  | cons line rest ih =>
    have hrest : seek text rest = some after →
        ∃ l : Label, l.text = text ∧ .label l :: after <:+ line :: rest := by
      intro hseek
      obtain ⟨l, htext, hplace⟩ := ih hseek
      exact ⟨l, htext, hplace.trans (suffix_cons _ _)⟩
    cases line with
    | label l =>
      by_cases htext : l.text = text
      · cases (if_pos htext).symm.trans h
        exact ⟨l, htext, suffix_refl _⟩
      · exact hrest ((if_neg htext).symm.trans h)
    | _ => exact hrest h

/-- Control is at a place of the program, and calls return to the places behind them. -/
structure Located (lines code : List Line) (calls : List (List Line)) : Prop where
  code : code <:+ lines
  calls : ∀ back ∈ calls, ∃ l, .call l :: back <:+ lines

section Located

variable {code code' : List Line} {calls calls' : List (List Line)}

theorem Located.goes (h : Located lines code calls) (hgoes : Goes lines code calls code' calls') :
    Located lines code' calls' := by
  cases hgoes with
  | falls => exact ⟨suffix_next h.code, h.calls⟩
  | jumps _ hseek =>
    obtain ⟨l, _, hplace⟩ := seek_suffix hseek
    exact ⟨suffix_next hplace, h.calls⟩
  | @calls l rest _ _ hseek =>
    obtain ⟨l', _, hplace⟩ := seek_suffix hseek
    refine ⟨suffix_next hplace, fun back hback => ?_⟩
    rcases mem_cons.mp hback with rfl | hback
    · exact ⟨l, h.code⟩
    · exact h.calls back hback
  | returns =>
    obtain ⟨l, hplace⟩ := h.calls _ mem_cons_self
    exact ⟨suffix_next hplace, fun back hback => h.calls back (mem_cons_of_mem _ hback)⟩

/-- Control gets behind a label by passing it or from a line that names it. -/
theorem Goes.label_cases (hgoes : Goes lines code calls code' calls') (h : Located lines code calls)
    {l : Label} (hlabel : .label l :: code' <:+ lines) :
    code = .label l :: code' ∨
      ∃ line rest l', code = line :: rest ∧ line.target? = some l' ∧ l'.text = l.text := by
  have hnamed : ∀ {text : String}, seek text lines = some code' → text = l.text := by
    intro text hseek
    obtain ⟨l', htext, hplace⟩ := seek_suffix hseek
    cases eq_of_cons_suffix hplace hlabel
    exact htext.symm
  cases hgoes with
  | falls => exact .inl (by rw [eq_of_cons_suffix h.code hlabel])
  | @jumps line rest l' _ _ hjump hseek =>
    refine .inr ⟨line, rest, l', rfl, ?_, hnamed hseek⟩
    rw [Line.target?, hjump]
    rfl
  | calls hseek => exact .inr ⟨_, _, _, rfl, rfl, hnamed hseek⟩
  | returns =>
    obtain ⟨l', hplace⟩ := h.calls _ mem_cons_self
    cases eq_of_cons_suffix hplace hlabel

end Located

theorem located_start (lines : List Line) (env : Env) :
    Located lines (start lines env).code (start lines env).calls :=
  ⟨suffix_refl _, nofun⟩

/-! ### Runs -/

/-- The lines that are executed within so many steps, in their order. -/
def executed (I : Interp Env) (lines : List Line) : Nat → State Env → List Line
  | 0, _ => []
  | n + 1, s =>
    match s.code, step I lines s with
    | line :: _, .ok t => line :: executed I lines n t
    | _, _ => []

theorem executed_cases (I : Interp Env) (lines : List Line) (n : Nat) (s : State Env) :
    executed I lines (n + 1) s = [] ∨
      ∃ line rest t, s.code = line :: rest ∧ step I lines s = .ok t ∧
        executed I lines (n + 1) s = line :: executed I lines n t := by
  rw [executed]
  split
  · next line rest t hcode hstep => exact .inr ⟨line, rest, t, hcode, hstep, rfl⟩
  · exact .inl rfl

end Teal.Semantics

namespace Teal.Sample

/-- Some of the lines that a run of the sample executes. -/
theorem mem_executed {lines : List Assembly.Line} (h : program.emit = .ok lines) :
    ∀ line ∈ [.branch (.subroutineEnd "total"), .load 0, .branch (.inBody (.inlineEnd "least") [3])],
      line ∈ Semantics.executed counting lines 30 (Semantics.start lines 0) := by
  have hexecuted : (program.emit.toOption.map fun lines =>
      [.branch (.subroutineEnd "total"), .load 0, .branch (.inBody (.inlineEnd "least") [3])].all
        (Semantics.executed counting lines 30 (Semantics.start lines 0)).contains) = some true := by
    decide +kernel
  rw [h] at hexecuted
  simpa [Except.toOption] using hexecuted

end Teal.Sample
