import Teal.Proofs.Tree.Shape

/-! How deep blocks stand in one another. An `else if` is kept as a block of its own, at the place of the one
statement in it, while braces take more place than what they hold. So the places tell which blocks are
bare, and what a bare block counts is a parameter: with one, all blocks of a tree count, and with zero
those that have braces. -/

namespace Teal.Tree

open List

/-- Whether a block has the place of its only statement, and so no braces. -/
def isBare (span : Span) (stmts : List Stmt) : Bool := stmts.map Stmt.span == [span]

def weight (bare : Nat) (span : Span) (stmts : List Stmt) : Nat := if isBare span stmts then bare else 1

mutual

/-- Blocks of a statement that stand in one another. -/
def Stmt.nesting (bare : Nat) : Stmt → Nat
  | .ifThen _ _ _ yes => stmtsNesting bare yes + 1
  | .ifElse _ _ _ yes noSpan no =>
    max (stmtsNesting bare yes + 1) (stmtsNesting bare no + weight bare noSpan no)
  | .loop _ _ _ body => stmtsNesting bare body + 1
  | _ => 0

def stmtsNesting (bare : Nat) : List Stmt → Nat
  | [] => 0
  | s :: rest => max (s.nesting bare) (stmtsNesting bare rest)

end

mutual

/-- Whether all blocks of a statement have braces. -/
def Stmt.isBraced : Stmt → Bool
  | .ifThen _ _ _ yes => stmtsBraced yes
  | .ifElse _ _ _ yes noSpan no => stmtsBraced yes && (stmtsBraced no && !isBare noSpan no)
  | .loop _ _ _ body => stmtsBraced body
  | _ => true

def stmtsBraced : List Stmt → Bool
  | [] => true
  | s :: rest => s.isBraced && stmtsBraced rest

end

namespace Item

/-- The body of a function is a block as well. -/
def nesting (bare : Nat) : Item → Nat
  | .decl _ _ => 0
  | .function _ f => stmtsNesting bare f.body.stmts + 1

def isBraced : Item → Bool
  | .decl _ _ => true
  | .function _ f => stmtsBraced f.body.stmts

end Item

namespace Module

def nesting (bare : Nat) (m : Module) : Nat := m.items.foldr (fun i n => max (i.nesting bare) n) 0

def isBraced (m : Module) : Bool := m.items.all Item.isBraced

end Module

/-! ### Bounds -/

variable {bare n : Nat} {m : Module}

theorem stmtsNesting_le_iff {stmts : List Stmt} :
    stmtsNesting bare stmts ≤ n ↔ ∀ s ∈ stmts, s.nesting bare ≤ n := by
  induction stmts with
  | nil => simp [stmtsNesting]
  | cons s rest ih => rw [stmtsNesting, Nat.max_le, ih, forall_mem_cons]

theorem Module.nesting_le_iff : m.nesting bare ≤ n ↔ ∀ i ∈ m.items, i.nesting bare ≤ n := by
  unfold Module.nesting
  induction m.items with
  | nil => simp
  | cons i rest ih => rw [foldr_cons, Nat.max_le, ih, forall_mem_cons]

/-! ### Where all blocks have braces -/

mutual

theorem Stmt.nesting_eq_of_isBraced {s : Stmt} (h : s.isBraced = true) (bare bare' : Nat) :
    s.nesting bare = s.nesting bare' := by
  cases s with
  | ifThen span test yesSpan yes =>
    rw [Stmt.nesting, Stmt.nesting, stmtsNesting_eq_of_braced h bare bare']
  | ifElse span test yesSpan yes noSpan no =>
    simp only [Stmt.isBraced, Bool.and_eq_true, Bool.not_eq_true'] at h
    obtain ⟨hyes, hno, hbare⟩ := h
    rw [Stmt.nesting, Stmt.nesting, stmtsNesting_eq_of_braced hyes bare bare',
      stmtsNesting_eq_of_braced hno bare bare', weight, weight, hbare]
    rfl
  | loop span test bodySpan body =>
    rw [Stmt.nesting, Stmt.nesting, stmtsNesting_eq_of_braced h bare bare']
  | _ => rfl

theorem stmtsNesting_eq_of_braced {stmts : List Stmt} (h : stmtsBraced stmts = true) (bare bare' : Nat) :
    stmtsNesting bare stmts = stmtsNesting bare' stmts := by
  cases stmts with
  | nil => rfl
  | cons s rest =>
    rw [stmtsBraced, Bool.and_eq_true] at h
    rw [stmtsNesting, stmtsNesting, Stmt.nesting_eq_of_isBraced h.1 bare bare',
      stmtsNesting_eq_of_braced h.2 bare bare']

end

theorem Item.nesting_eq_of_isBraced {i : Item} (h : i.isBraced = true) (bare bare' : Nat) :
    i.nesting bare = i.nesting bare' := by
  cases i with
  | decl span d => rfl
  | function span f => exact congrArg (· + 1) (stmtsNesting_eq_of_braced h bare bare')

theorem Module.nesting_le_of_isBraced (h : m.isBraced = true) {bare' : Nat} (hle : m.nesting bare ≤ n) :
    m.nesting bare' ≤ n := by
  refine Module.nesting_le_iff.mpr fun i hi => ?_
  rw [Item.nesting_eq_of_isBraced (all_eq_true.mp h i hi) bare' bare]
  exact Module.nesting_le_iff.mp hle i hi

/-! ### Without places

Where all places are forgotten, each block with one statement looks bare. -/

theorem weight_erase_le (hbare : bare ≤ 1) (span : Span) (stmts : List Stmt) :
    weight bare .nowhere (eraseStmts stmts) ≤ weight bare span stmts := by
  unfold weight
  split
  · split
    · exact .refl
    · exact hbare
  · next hnot =>
      have hbraces : ¬isBare span stmts = true := by
        intro hspans
        obtain ⟨s, rfl, -⟩ := map_eq_singleton_iff.mp (eq_of_beq hspans)
        apply hnot
        simp only [isBare, eraseStmts, map_cons, map_nil, Stmt.span_erase, beq_self_eq_true]
      exact Nat.le_of_eq (if_neg hbraces).symm

mutual

theorem Stmt.nesting_erase_le {bare : Nat} (hbare : bare ≤ 1) (s : Stmt) :
    s.erase.nesting bare ≤ s.nesting bare := by
  cases s with
  | ifThen span test yesSpan yes => exact Nat.succ_le_succ (stmtsNesting_erase_le hbare yes)
  | ifElse span test yesSpan yes noSpan no =>
    have hyes := stmtsNesting_erase_le hbare yes
    have hno := stmtsNesting_erase_le hbare no
    have hweight := weight_erase_le hbare noSpan no
    simp only [Stmt.erase, Stmt.nesting]
    omega
  | loop span test bodySpan body => exact Nat.succ_le_succ (stmtsNesting_erase_le hbare body)
  | _ => exact .refl

theorem stmtsNesting_erase_le {bare : Nat} (hbare : bare ≤ 1) (stmts : List Stmt) :
    stmtsNesting bare (eraseStmts stmts) ≤ stmtsNesting bare stmts := by
  cases stmts with
  | nil => exact .refl
  | cons s rest =>
    have hs := Stmt.nesting_erase_le hbare s
    have hrest := stmtsNesting_erase_le hbare rest
    simp only [eraseStmts, stmtsNesting]
    omega

end

theorem Item.nesting_erase_le (hbare : bare ≤ 1) (i : Item) : i.erase.nesting bare ≤ i.nesting bare := by
  cases i with
  | decl span d => exact .refl
  | function span f =>
    have hbody := stmtsNesting_erase_le hbare f.body.stmts
    rw [eraseStmts_eq_map] at hbody
    exact Nat.succ_le_succ hbody

theorem Module.nesting_erase_le (hbare : bare ≤ 1) (m : Module) : m.erase.nesting bare ≤ m.nesting bare := by
  refine Module.nesting_le_iff.mpr fun i hi => ?_
  obtain ⟨j, hj, rfl⟩ := mem_map.mp hi
  exact Nat.le_trans (Item.nesting_erase_le hbare j) (Module.nesting_le_iff.mp .refl j hj)

end Teal.Tree
