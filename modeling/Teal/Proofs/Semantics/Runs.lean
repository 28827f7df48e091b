import Teal.Proofs.Assembly.Labels
import Teal.Proofs.Semantics.Cells

/-! Runs of the machine beside evaluations. `Sim` says that the machine does from a state what an
evaluation does; it is built up along the steps of the evaluation. What single lines do is told for
states whose slots agree with the cells of a memory. -/

namespace Teal.Semantics

open Assembly List
open Program (poolValue?)

section Places

variable {line : Line} {ls code lines : List Line}

theorem suffix_behind (h : ls ++ code <:+ lines) : code <:+ lines := (suffix_append _ _).trans h

theorem suffix_next (h : line :: code <:+ lines) : code <:+ lines := (suffix_cons _ _).trans h

end Places

section Runs

variable {Env : Type} {I : Interp Env} {lines : List Line} {s t u : State Env}

/-- Runs of the machine, of any number of steps. -/
inductive Reach (I : Interp Env) (lines : List Line) : State Env → State Env → Prop
  | refl {s : State Env} : Reach I lines s s
  | head {s t u : State Env} (hstep : step I lines s = .ok t) (hrest : Reach I lines t u) :
      Reach I lines s u

theorem Reach.trans (h : Reach I lines s t) (h' : Reach I lines t u) : Reach I lines s u := by
  induction h with
  | refl => exact h'
  | head hstep _ ih => exact .head hstep (ih h')

theorem Reach.one (h : step I lines s = .ok t) : Reach I lines s t := .head h .refl

def Ends (I : Interp Env) (lines : List Line) (s : State Env) (outcome : Outcome Env) : Prop :=
  ∃ t, Reach I lines s t ∧ step I lines t = .error outcome

variable {outcome : Outcome Env}

theorem Ends.one (h : step I lines s = .error outcome) : Ends I lines s outcome :=
  ⟨s, .refl, h⟩

theorem Reach.ends (h : Reach I lines s t) (h' : Ends I lines t outcome) : Ends I lines s outcome := by
  obtain ⟨u, hreach, hend⟩ := h'
  exact ⟨u, h.trans hreach, hend⟩

/-- All runs that are long enough have the outcome. -/
theorem Ends.exists_run (h : Ends I lines s outcome) : ∃ n, ∀ k, n ≤ k → run I lines k s = some outcome := by
  obtain ⟨t, hreach, hend⟩ := h
  induction hreach with
  | refl =>
    refine ⟨1, fun k hk => ?_⟩
    obtain ⟨k, rfl⟩ := Nat.exists_eq_add_of_le' hk
    rw [run, hend]
  | head hstep _ ih =>
    obtain ⟨n, hn⟩ := ih hend
    refine ⟨n + 1, fun k hk => ?_⟩
    obtain ⟨k, rfl⟩ := Nat.exists_eq_add_of_le' (Nat.le_trans (Nat.le_add_left 1 n) hk)
    rw [run, hstep]
    exact hn k (Nat.le_of_succ_le_succ hk)

/-- From a state the machine does what an evaluation does: it reaches a state that fits the result, or
fails. Nothing is said where the fuel did not suffice. -/
def Sim {β : Type} (I : Interp Env) (lines : List Line) (s : State Env) (r : Except Stop β)
    (fits : β → State Env → Prop) : Prop :=
  match r with
  | .ok b => ∃ t, Reach I lines s t ∧ fits b t
  | .error .failed => Ends I lines s .failed
  | .error .outOfFuel => True

namespace Sim

variable {β γ : Type} {r : Except Stop β} {fits : β → State Env → Prop}

theorem pure {b : β} (h : fits b s) : Sim I lines s (.ok b) fits := ⟨s, .refl, h⟩

theorem reach (h : Reach I lines s t) (h' : Sim I lines t r fits) : Sim I lines s r fits := by
  cases r with
  | ok b =>
    obtain ⟨u, hreach, hfits⟩ := h'
    exact ⟨u, h.trans hreach, hfits⟩
  | error stop =>
    cases stop with
    | failed => exact h.ends h'
    | outOfFuel => trivial

theorem bind (h : Sim I lines s r fits) {f : β → Except Stop γ} {fits' : γ → State Env → Prop}
    (hf : ∀ b t, r = .ok b → fits b t → Sim I lines t (f b) fits') : Sim I lines s (r >>= f) fits' := by
  cases r with
  | ok b =>
    obtain ⟨t, hreach, hfits⟩ := h
    exact reach hreach (hf b t rfl hfits)
  | error stop =>
    cases stop with
    | failed => exact h
    | outOfFuel => trivial

/-- The machine may go on behind an evaluation. -/
theorem andThen (h : Sim I lines s r fits) {fits' : β → State Env → Prop}
    (hf : ∀ b t, r = .ok b → fits b t → ∃ u, Reach I lines t u ∧ fits' b u) : Sim I lines s r fits' := by
  have hbind : Sim I lines s (r >>= .ok) fits' := h.bind hf
  cases r <;> exact hbind

end Sim

end Runs

/-! ### Single lines -/

/-- Labels of different places have different texts. -/
def Distinct (lines : List Line) : Prop :=
  ∀ ⦃before after : List Line⦄ ⦃l : Label⦄, lines = before ++ .label l :: after →
    ∀ l' ∈ defined before, l'.text ≠ l.text

theorem seek_append {before rest : List Line} {text : String} (h : ∀ l ∈ defined before, l.text ≠ text) :
    seek text (before ++ rest) = seek text rest := by
  induction before with
  | nil => rfl
  | cons line before ih =>
    have hrest : seek text (before ++ rest) = seek text rest :=
      ih fun l hl => h l (by
        rw [defined, filterMap_cons]
        split
        · exact hl
        · exact mem_cons_of_mem _ hl)
    cases line with
    | label l =>
      rw [cons_append, seek, if_neg (h l mem_cons_self)]
      exact hrest
    | _ => exact hrest

variable {lines after : List Line} {l : Label}

theorem seek_eq (hlabels : Distinct lines) (hplace : .label l :: after <:+ lines) :
    seek l.text lines = some after := by
  obtain ⟨before, rfl⟩ := hplace
  rw [seek_append (hlabels rfl), seek, if_pos rfl]

theorem jump_eq {Env : Type} (hlabels : Distinct lines) (hplace : .label l :: after <:+ lines)
    (s : State Env) : jump lines l s = .ok { s with code := after } := by
  rw [jump, seek_eq hlabels hplace]

/-- The machine is at some code, with a stack and pending calls, and agrees with a memory. -/
def At {Env : Type} (p : Program) (m : Memory Env) (code : List Line) (stack : List Value)
    (calls : List (List Line)) (s : State Env) : Prop :=
  ∃ slots, s = ⟨code, stack, slots, calls, p.pool, m.env⟩ ∧ Agree p m.cells slots

/-- So many values are on top of the stack. -/
def Valued {Env : Type} (p : Program) (n : Nat) (code : List Line) (stack : List Value)
    (calls : List (List Line)) (r : List Value × Memory Env) (s : State Env) : Prop :=
  r.1.length = n ∧ At p r.2 code (r.1.reverse ++ stack) calls s

/-- From one place the machine gets to another and changes nothing on the way. -/
def Onward {Env : Type} (p : Program) (I : Interp Env) (lines code code' : List Line) : Prop :=
  ∀ ⦃m : Memory Env⦄ ⦃stack : List Value⦄ ⦃calls : List (List Line)⦄ ⦃s : State Env⦄,
    At p m code stack calls s → ∃ t, Reach I lines s t ∧ At p m code' stack calls t

section Lines

variable {Env : Type} {I : Interp Env} {lines : List Line} {p : Program} {m : Memory Env}
  {code : List Line} {stack : List Value} {calls : List (List Line)} {s : State Env}

variable {v : Value} {cell : Cell} {slot : Nat} {after : List Line}

theorem At.literal {ref : Pool.Ref} (h : At p m (.literal ref :: code) stack calls s)
    (hv : poolValue? p.pool ref = some v) : ∃ t, Reach I lines s t ∧ At p m code (v :: stack) calls t := by
  obtain ⟨slots, rfl, hagree⟩ := h
  refine ⟨_, .one ?_, slots, rfl, hagree⟩
  change push (poolValue? p.pool ref) _ = _
  rw [hv]
  rfl

theorem At.load (hp : p.scopes.Valid) (h : At p m (.load slot :: code) stack calls s)
    (hcell : Holds p cell slot) : ∃ t, Reach I lines s t ∧ At p m code (m.cells cell :: stack) calls t := by
  obtain ⟨slots, rfl, hagree⟩ := h
  refine ⟨_, .one ?_, slots, rfl, hagree⟩
  rw [hagree cell slot hcell]
  exact if_pos (hcell.slot_lt hp)

theorem At.store (hp : p.scopes.Valid) (h : At p m (.store slot :: code) (v :: stack) calls s)
    (hcell : Holds p cell slot) : ∃ t, Reach I lines s t ∧
      At p { m with cells := update m.cells cell v } code stack calls t := by
  obtain ⟨slots, rfl, hagree⟩ := h
  refine ⟨_, .one ?_, update slots slot v, rfl, hagree.update hp hcell v⟩
  exact if_pos (hcell.slot_lt hp)

theorem Onward.refl : Onward p I lines code code := fun _ _ _ s h => ⟨s, .refl, h⟩

theorem Onward.trans {code' code'' : List Line} (h : Onward p I lines code code')
    (h' : Onward p I lines code' code'') : Onward p I lines code code'' := by
  intro m stack calls s hs
  obtain ⟨t, hreach, ht⟩ := h hs
  obtain ⟨u, hreach', hu⟩ := h' ht
  exact ⟨u, hreach.trans hreach', hu⟩

variable {l : Label} {vs : List Value}

theorem Onward.label : Onward p I lines (.label l :: code) code := by
  rintro m stack calls s ⟨slots, rfl, hagree⟩
  exact ⟨_, .one rfl, slots, rfl, hagree⟩

theorem At.pop (h : At p m (.pop :: code) (v :: stack) calls s) :
    ∃ t, Reach I lines s t ∧ At p m code stack calls t := by
  obtain ⟨slots, rfl, hagree⟩ := h
  exact ⟨_, .one rfl, slots, rfl, hagree⟩

theorem Onward.branch (hlabels : Distinct lines) (hplace : .label l :: after <:+ lines) :
    Onward p I lines (.branch l :: code) after := by
  rintro m stack calls s ⟨slots, rfl, hagree⟩
  exact ⟨_, .one (jump_eq hlabels hplace _), slots, rfl, hagree⟩

/-- A test sends the machine on, or to a label. -/
theorem At.test (hlabels : Distinct lines) (hplace : .label l :: after <:+ lines)
    (hlength : vs.length = 1) (h : At p m (.branchZero l :: code) (vs.reverse ++ stack) calls s) :
    Sim I lines s (truth vs) fun holds t =>
      At p m (if holds = true then code else after) stack calls t := by
  obtain ⟨v, rfl⟩ := length_eq_one_iff.mp hlength
  obtain ⟨slots, rfl, hagree⟩ := h
  cases v with
  | bytes bs => exact .one rfl
  | int n =>
    by_cases hn : n = 0
    · subst hn
      exact ⟨_, .one (jump_eq hlabels hplace _), slots, rfl, hagree⟩
    · refine ⟨_, .one (if_neg hn), slots, ?_, hagree⟩
      rw [bne_iff_ne.mpr hn]
      rfl

theorem At.call (hlabels : Distinct lines) {l : Label} (hplace : .label l :: after <:+ lines)
    (h : At p m (.call l :: code) stack calls s) :
    ∃ t, Reach I lines s t ∧ At p m after stack (code :: calls) t := by
  obtain ⟨slots, rfl, hagree⟩ := h
  exact ⟨_, .one (jump_eq hlabels hplace _), slots, rfl, hagree⟩

theorem At.returnCall {back : List Line} (h : At p m (.returnCall :: code) stack (back :: calls) s) :
    ∃ t, Reach I lines s t ∧ At p m back stack calls t := by
  obtain ⟨slots, rfl, hagree⟩ := h
  exact ⟨_, .one rfl, slots, rfl, hagree⟩

/-- An operation takes its operands and leaves its results. -/
theorem At.operation {line : Line} (hop : line.isOperation = true) (hlength : vs.length = line.pops)
    (h : At p m (line :: code) (vs.reverse ++ stack) calls s) :
    Sim I lines s (applyOp I line vs m) (Valued p line.pushes code stack calls) := by
  obtain ⟨slots, rfl, hagree⟩ := h
  have hreverse : vs.reverse.length = line.pops := by rw [length_reverse, hlength]
  have htake : (vs.reverse ++ stack).take line.pops = vs.reverse := by
    rw [← hreverse, take_left]
  have hdrop : (vs.reverse ++ stack).drop line.pops = stack := by
    rw [← hreverse, drop_left]
  have henough : line.pops ≤ (vs.reverse ++ stack).length := by
    rw [length_append, hreverse]
    exact Nat.le_add_right _ _
  unfold applyOp
  cases happly : I.apply line vs m.env with
  | none =>
    refine .one ?_
    simp only [step, hop, if_true, operate, henough, htake, reverse_reverse, happly]
  | some result =>
    refine ⟨_, .one ?_, result.1.property, slots, rfl, hagree⟩
    simp only [step, hop, if_true, operate, henough, htake, hdrop, reverse_reverse, happly]

/-- Values go from the stack to the slots as they go to the cells, the last of them first. -/
theorem At.stores (hp : p.scopes.Valid) {scope : ScopeId} {names : List Ident} {slots : List Nat}
    (hslots : SlotsOf p scope names slots) (hlength : vs.length = names.length)
    (h : At p m (storeLines slots ++ code) (vs.reverse ++ stack) calls s) :
    Sim I lines s (bindNames p scope names vs m) fun m' t => At p m' code stack calls t := by
  induction names generalizing slots vs code stack with
  | nil =>
    obtain rfl : slots = [] := map_eq_nil_iff.mp hslots.symm
    obtain rfl : vs = [] := eq_nil_of_length_eq_zero hlength
    exact .pure h
  | cons name names ih =>
    cases slots with
    | nil => cases hslots
    | cons slot slots =>
      cases vs with
      | nil => cases hlength
      | cons v vs =>
        rw [SlotsOf, map_cons, map_cons, List.cons.injEq] at hslots
        obtain ⟨cell, hcell, hholds⟩ := exists_cell hslots.1
        have hcode : storeLines (slot :: slots) ++ code =
            storeLines slots ++ (.store slot :: code) := by
          simp [storeLines]
        have hstack : (v :: vs).reverse ++ stack = vs.reverse ++ (v :: stack) := by simp
        rw [hcode, hstack] at h
        rw [bindNames]
        refine (ih hslots.2 (Nat.succ.inj hlength) h).bind fun m' t _ ht => ?_
        rw [hcell]
        exact ht.store hp hholds

theorem At.pops (h : At p m (List.replicate vs.length .pop ++ code) (vs ++ stack) calls s) :
    ∃ t, Reach I lines s t ∧ At p m code stack calls t := by
  induction vs generalizing s with
  | nil => exact ⟨s, .refl, h⟩
  | cons v vs ih =>
    obtain ⟨t, hreach, ht⟩ := At.pop h
    obtain ⟨u, hreach', hu⟩ := ih ht
    exact ⟨u, hreach.trans hreach', hu⟩

end Lines

end Teal.Semantics
