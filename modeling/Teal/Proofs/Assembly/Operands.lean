import Teal.Proofs.Pool

/-! Operands that are part of an instruction. The machine reads each of them from one byte. Slots fit,
because the number of slots in use is limited where variables are declared, and indices fit, because only
numbers up to the largest immediate are folded. The pool knows no limit: a literal behind its first 256
places is loaded by an instruction whose operand does not fit, and nothing is reported. -/

namespace Teal

open List

/-- The place of an entry among those of its kind. -/
def Pool.Ref.offset : Pool.Ref → Nat
  | .int i | .bytes i => i

def Builtin.Immediate.operand? : Builtin.Immediate → Option Nat
  | .number n => some n.toNat
  | .field _ => none

namespace Assembly

open Program (poolValue?)

def FieldOp.operands : FieldOp → List Nat
  | .txn | .txnas | .gtxns | .gtxnsas | .global | .itxn => []
  | .txna i | .gtxn i | .gtxnas i | .gtxnsa i | .itxna i => [i.toNat]
  | .gtxna i j => [i.toNat, j.toNat]

/-- The numbers that the opcode of a line takes from the bytes behind it. -/
def Line.operands : Line → List Nat
  | .literal ref => [ref.offset]
  | .load slot | .store slot => [slot]
  | .builtin _ immediates => immediates.filterMap (·.operand?)
  | .field op _ => op.operands
  | .arg i => [i.toNat]
  | _ => []

/-- Every operand of a line is one byte. -/
def Line.Fits (line : Line) : Prop := ∀ n ∈ line.operands, n ≤ maxImmediate

instance (line : Line) : Decidable line.Fits := inferInstanceAs (Decidable (∀ n ∈ _, _))

/-- What a line refers to is there: the slot is one of the machine, the literal is in the pool. -/
def Line.Refers (p : Program) : Line → Prop
  | .literal ref => (poolValue? p.pool ref).isSome = true
  | .load slot | .store slot => slot < Scopes.maxSlots
  | _ => True

/-! ### Lines of a program -/

section Code

variable {p : Program}

/-- Slots of variables are slots of the machine. -/
theorem slot_lt_of_kindOf? (hp : p.scopes.Valid) {scope : ScopeId} {name : String} {slot : Nat}
    (h : p.scopes.kindOf? scope name = some (.variable slot)) : slot < Scopes.maxSlots := by
  obtain ⟨x, hlookup, hkind⟩ := Scopes.exists_lookup_of_kindOf? h
  obtain ⟨_, i, hdeclares⟩ := Scopes.declares_of_lookup hlookup
  exact Nat.lt_of_lt_of_le (hp.slot_lt hdeclares hkind) hp.used_le

/-- The lines of a program refer to slots of the machine and to literals of the pool. -/
theorem refers_rule (hp : p.scopes.Valid) : Rule p (Line.Refers p) where
  bare {line} h := by
    cases line with
    | literal | load | store => cases h
    | _ => trivial
  literal h := by
    rw [Line.Refers, h]
    rfl
  slot h := ⟨slot_lt_of_kindOf? hp h, slot_lt_of_kindOf? hp h⟩
  operation _ heq := by
    cases Program.Expr.operation_of_eq heq <;> trivial
  innerField _ _ := trivial
  inner _ := ⟨trivial, trivial⟩
  subroutine _ := ⟨trivial, fun _ => trivial⟩

end Code

/-! ### Operands of single lines -/

theorem toNat_le_maxImmediate (n : UInt8) : n.toNat ≤ maxImmediate :=
  Nat.le_of_lt_succ n.toNat_lt

theorem FieldOp.operands_le (op : FieldOp) : ∀ n ∈ op.operands, n ≤ maxImmediate := by
  cases op <;> simp [operands, toNat_le_maxImmediate]

/-- Only a literal may have an operand that does not fit. -/
theorem Line.Refers.fits {p : Program} {line : Line} (h : line.Refers p)
    (hliteral : ∀ ref, line ≠ .literal ref) : line.Fits := by
  cases line with
  | literal ref => exact absurd rfl (hliteral ref)
  | load slot => exact forall_mem_singleton.mpr (Nat.le_of_lt_succ h)
  | store slot => exact forall_mem_singleton.mpr (Nat.le_of_lt_succ h)
  | builtin op immediates =>
    intro n hn
    obtain ⟨immediate, _, hoperand⟩ := mem_filterMap.mp hn
    cases immediate with
    | number n =>
      cases hoperand
      exact toNat_le_maxImmediate n
    | field name => cases hoperand
  | field op f => exact op.operands_le
  | arg i => exact forall_mem_singleton.mpr (toNat_le_maxImmediate i)
  | _ => exact forall_mem_nil _

theorem Line.fits_literal_iff (ref : Pool.Ref) : (Line.literal ref).Fits ↔ ref.offset ≤ maxImmediate :=
  forall_mem_singleton

/-- A literal of a pool that has no more places than a byte can tell apart. -/
theorem offset_le_of_poolValue? {pool : Pool} (hints : pool.ints.length ≤ maxImmediate + 1)
    (hbytes : pool.bytes.length ≤ maxImmediate + 1) {ref : Pool.Ref}
    (h : (poolValue? pool ref).isSome = true) : ref.offset ≤ maxImmediate := by
  cases ref with
  | int i =>
    rw [poolValue?, Option.isSome_map, isSome_getElem?] at h
    exact Nat.le_of_lt_succ (Nat.lt_of_lt_of_le h hints)
  | bytes i =>
    rw [poolValue?, Option.isSome_map, isSome_getElem?] at h
    exact Nat.le_of_lt_succ (Nat.lt_of_lt_of_le h hbytes)

end Assembly

namespace Program.Build

theorem declareVariable_refused {s : Scopes} (h : Scopes.maxSlots ≤ s.used) (scope : ScopeId)
    (name : Ident) (ty : Ty) : ∃ fault, s.declareVariable scope name ty = .error fault := by
  unfold Scopes.declareVariable
  cases s.permits scope name.text with
  | error fault => exact ⟨fault, rfl⟩
  | ok _ => exact ⟨.outOfSlots, if_neg (Nat.not_lt.mpr h)⟩

/-- When all slots are in use, a further variable is refused and that is fatal. -/
theorem exists_fatal_of_outOfSlots {b : Builder} (h : Scopes.maxSlots ≤ b.scopes.used)
    (scope : ScopeId) (name : Ident) (ty : Ty) :
    ∃ d ∈ ((declareVariable scope name ty).run b).2.diagnostics, d.isFatal = true := by
  obtain ⟨fault, hfault⟩ := declareVariable_refused h scope name ty
  refine ⟨(Fault.scope fault).toDiagnostic name.span, ?_, rfl⟩
  have hrun : ((declareVariable scope name ty).run b).2.diagnostics =
      b.diagnostics ++ [(Fault.scope fault).toDiagnostic name.span] := by
    simp only [declareVariable, visit, StateT.run_bind, StateT.run_modify, StateT.run_get, pure_bind, hfault]
    rfl
  rw [hrun]
  exact mem_append_right _ mem_cons_self

/-! ### Runs of single steps -/

theorem run_bind_of_run {α β : Type} {m : Build α} {f : α → Build β} {b b' : Builder} {a : α}
    (h : m.run b = (a, b')) : (m >>= f).run b = (f a).run b' := by
  rw [StateT.run_bind, h]
  rfl

def withInts (b : Builder) (ints : Pool.Table UInt64) : Builder :=
  { b with literals := { b.literals with ints := ints } }

/-- A new integer gets the next place of the pool. -/
theorem internInt_run {b : Builder} {n : UInt64} (h : b.literals.ints.offset? n = none) :
    (internInt n).run b = (.int b.pool.ints.length, withInts b (b.literals.ints.push n h)) := by
  change ((b.literals.internInt n).1, { b with literals := (b.literals.internInt n).2 }) = _
  rw [Pool.Tables.internInt, Pool.Table.intern_of_notMem (Pool.Table.offset?_eq_none_iff.mp h)]
  rfl

theorem internInt_run_of_getElem? {b : Builder} {n : UInt64} {i : Nat} (h : b.pool.ints[i]? = some n) :
    (internInt n).run b = (.int i, b) := by
  change ((b.literals.internInt n).1, { b with literals := (b.literals.internInt n).2 }) = _
  rw [Pool.Tables.internInt, Pool.Table.intern_of_getElem? h]

end Program.Build

/-! ### Literals without limit

A program that pushes one number after another is built for any number of them. -/

namespace Sample

open Program Program.Build
open Assembly (Line Code)

def onlyEntry (body : List Tree.Stmt) : List Tree.SourceModule :=
  [⟨"main", 0, ⟨[], [function false "logic" ["txn", "gtxn", "args"] body]⟩, true⟩]

def enter : Build (ScopeId × List (Ident × Ty)) := do
  Build.program []
  let params := ["txn", "gtxn", "args"].map fun param => ⟨ident param, none⟩
  checkFunction ⟨false, ident "logic", params, ⟨.nowhere, []⟩⟩ "main" true
  let scope ← openScope .block (← get).tip
  return (scope, ← parameters true scope 0 params)

def leave (scope : ScopeId) (params : List (Ident × Ty)) (body : List Program.Stmt) : Build Unit := do
  visit (blockReturnScopes body)
  addFunction ⟨ident "logic", false, true, params, scope, body, .integer, .nowhere⟩ true

theorem program_onlyEntry (body : List Tree.Stmt) :
    Build.program (onlyEntry body) = enter >>= fun r => block 0 r.1 body >>= leave r.1 r.2 := by
  have hfunction : ("logic" == entryName) = true := by decide
  simp [Build.program, Build.modules, onlyEntry, enter, Build.item, Build.function, function, ident,
    hfunction, forM_cons]
  rfl

def push (n : UInt64) : Tree.Stmt := .expr .nowhere (int n)

/-- The statement that is built for it when the number is at a place of the pool. -/
def pushed (place : Nat) (n : UInt64) : Program.Stmt :=
  .expr .nowhere (.literal .nowhere (.int n) (.int place))

theorem block_push {scope : ScopeId} {rest : List Tree.Stmt} {built : List Program.Stmt} {b' : Builder}
    {t : Pool.Table UInt64} (ns : List UInt64) : ∀ {b : Builder}, t.values = b.pool.ints ++ ns →
    (block 0 scope rest).run (withInts b t) = (built, b') →
    (block 0 scope (ns.map push ++ rest)).run b =
      (ns.mapIdx (fun i n => pushed (b.pool.ints.length + i) n) ++ built, b') := by
  induction ns with
  | nil =>
    intro b ht hrest
    obtain rfl : t = b.literals.ints := Pool.Table.of_values (ht.trans (append_nil _))
    exact hrest
  | cons n ns ih =>
    intro b ht hrest
    -- the table has no value twice, so the number is new
    have hnodup : (b.pool.ints ++ n :: ns).Nodup := ht ▸ t.nodup_values
    have hnew : n ∉ b.pool.ints := fun hmem => (nodup_append.mp hnodup).2.2 n hmem n mem_cons_self rfl
    have hnone := Pool.Table.offset?_eq_none_iff.mpr hnew
    have hothers := ih (b := withInts b (b.literals.ints.push n hnone))
      (ht.trans (append_cons b.pool.ints n ns)) hrest
    have hplaces : ∀ i, (withInts b (b.literals.ints.push n hnone)).pool.ints.length + i =
        b.pool.ints.length + (i + 1) := by
      intro i
      change (b.pool.ints ++ [n]).length + i = _
      rw [length_append, length_singleton]
      omega
    simp only [hplaces] at hothers
    simp only [map_cons, cons_append, block, push, stmt, exprStmt, int, expr, bind_assoc,
      pure_bind, mapIdx_cons]
    rw [run_bind_of_run (internInt_run hnone), run_bind_of_run hothers]
    rfl

/-- The scope and the parameters of an only entry point, and the state in which its body is built. -/
@[irreducible] def entered : (ScopeId × List (Ident × Ty)) × Builder := enter.run (.initial 5)

theorem ints_entered : entered.2.pool.ints = [0, 1] := by decide +kernel

/-- The body that pushes numbers from places of the pool and then returns. -/
def pushedBody (ns : List UInt64) : List Program.Stmt :=
  ns.mapIdx (fun i n => pushed (2 + i) n) ++ [.ret .nowhere (.literal .nowhere (.int 1) (.int 1))]

/-- A program whose entry point pushes numbers and drops them again, and then returns. -/
def pushing (ns : List UInt64) : List Tree.SourceModule :=
  onlyEntry (ns.map push ++ [.ret .nowhere (int 1)])

/-- The state behind its entry point, where a table holds the numbers. -/
@[irreducible] def pushedAll (ns : List UInt64) (t : Pool.Table UInt64) : Builder :=
  ((leave entered.1.1 entered.1.2 (pushedBody ns)).run (withInts entered.2 t)).2

/-- Whatever number of literals a program has, each of them is given a place. -/
theorem run_pushing {ns : List UInt64} {t : Pool.Table UInt64} (ht : t.values = [0, 1] ++ ns) :
    ((Build.program (pushing ns)).run (.initial 5)).2 = pushedAll ns t := by
  have henter : enter.run (.initial 5) = (entered.1, entered.2) := by
    rw [Prod.eta, entered]
  have hone : (withInts entered.2 t).pool.ints[1]? = some 1 := by
    change t.values[1]? = some 1
    rw [ht]
    rfl
  have hret : (block 0 entered.1.1 [.ret .nowhere (int 1)]).run (withInts entered.2 t) =
      ([.ret .nowhere (.literal .nowhere (.int 1) (.int 1))], withInts entered.2 t) := by
    simp only [block, stmt, int, expr, bind_assoc, pure_bind]
    rw [run_bind_of_run (internInt_run_of_getElem? hone)]
    rfl
  have hbody := block_push ns (ints_entered ▸ ht) hret
  rw [ints_entered] at hbody
  rw [pushing, program_onlyEntry, run_bind_of_run henter, run_bind_of_run hbody, pushedAll]
  rfl

/-- The program of a state is built and checked without any report, and yet an operand in it does not fit. -/
def misfits (b : Builder) : Bool :=
  b.entry == some 0 && b.diagnostics.isEmpty && b.program.typeFaults.isEmpty &&
    b.program.emit.toOption.any (·.any (!decide ·.Fits))

theorem misfit_of_run {ms : List Tree.SourceModule} {b : Builder}
    (hrun : ((Build.program ms).run (.initial 5)).2 = b) (h : misfits b = true) :
    ∃ p lines, Program.ofModules ms 5 = (some p, []) ∧ p.typeFaults = [] ∧ p.emit = .ok lines ∧
      ∃ line ∈ lines, ¬line.Fits := by
  simp only [misfits, Bool.and_eq_true, beq_iff_eq, List.isEmpty_iff, Option.any_eq_true,
    any_eq_true, Bool.not_eq_true', decide_eq_false_iff_not] at h
  obtain ⟨⟨⟨hentry, hdiagnostics⟩, htypes⟩, lines, hlines, hmisfit⟩ := h
  have hbuilt : Program.ofModules ms 5 = (some b.program, []) := by
    rcases hstate : (Build.program ms).run (.initial 5) with ⟨_, b'⟩
    obtain rfl : b' = b := (congrArg Prod.snd hstate).symm.trans hrun
    rw [Program.ofModules, hstate, Builder.program]
    simp only [hentry, hdiagnostics]
    rfl
  cases hemit : b.program.emit with
  | error fault =>
    rw [hemit] at hlines
    cases hlines
  | ok ls =>
    rw [hemit] at hlines
    cases hlines
    exact ⟨_, _, hbuilt, htypes, hemit, hmisfit⟩

def numbers : List UInt64 := (List.range' 2 255).map UInt64.ofNat

theorem nodup_numbers : ([0, 1] ++ numbers).Nodup := by
  have hmap : ([0, 1] ++ numbers).map UInt64.toNat = List.range 257 := by decide +kernel
  have hrange : (([0, 1] ++ numbers).map UInt64.toNat).Nodup := by
    rw [hmap]
    exact nodup_range
  exact List.Pairwise.of_map UInt64.toNat (fun a b hne heq => hne (congrArg _ heq)) hrange

end Sample

/-- What is built and checked without a fatal report is emitted as lines of which all but literals have
operands of one byte, and literals stand in the pool. So all operands fit just if no literal is loaded
from behind the first 256 places of its pool, as it is whenever both pools are that small. A variable
that needs a slot beyond the last is refused by a fatal report. -/
theorem emit_fits_iff {ms : List Tree.SourceModule} {version : Nat} {p : Program}
    {ds : List Diagnostic} (hbuilt : Program.ofModules ms version = (some p, ds))
    (hds : ∀ d ∈ ds, d.isFatal = false) (htypes : ∀ d ∈ p.typeFaults, d.isFatal = false) :
    (∃ lines, p.emit = .ok lines ∧
      (∀ line ∈ lines, (∀ ref, line ≠ .literal ref) → line.Fits) ∧
      (∀ ref, .literal ref ∈ lines → (Program.poolValue? p.pool ref).isSome = true) ∧
      ((∀ line ∈ lines, line.Fits) ↔ ∀ ref, .literal ref ∈ lines → ref.offset ≤ maxImmediate) ∧
      (p.pool.ints.length ≤ maxImmediate + 1 → p.pool.bytes.length ≤ maxImmediate + 1 →
        ∀ line ∈ lines, line.Fits)) ∧
    ∀ (b : Program.Builder) (scope : ScopeId) (name : Ident) (ty : Ty),
      Scopes.maxSlots ≤ b.scopes.used →
        ∃ d ∈ ((Program.Build.declareVariable scope name ty).run b).2.diagnostics,
          d.isFatal = true := by
  have hp := sound_of_ofModules hbuilt hds htypes
  obtain ⟨lines, hlines, hcode⟩ := Assembly.emit_code hp
  have hrefers := (Assembly.refers_rule hp.scopes).program hp.toWellBuilt hcode
  have hfits : (∀ ref, .literal ref ∈ lines → ref.offset ≤ maxImmediate) →
      ∀ line ∈ lines, line.Fits := by
    intro hoffsets line hline
    by_cases hliteral : ∃ ref, line = .literal ref
    · obtain ⟨ref, rfl⟩ := hliteral
      exact (Assembly.Line.fits_literal_iff ref).mpr (hoffsets ref hline)
    · exact (hrefers line hline).fits fun ref heq => hliteral ⟨ref, heq⟩
  refine ⟨⟨lines, hlines, fun line hline => (hrefers line hline).fits,
    fun ref href => hrefers _ href, ⟨?_, hfits⟩, ?_⟩, ?_⟩
  · intro hall ref href
    exact (Assembly.Line.fits_literal_iff ref).mp (hall _ href)
  · intro hints hbytes
    exact hfits fun ref href =>
      Assembly.offset_le_of_poolValue? hints hbytes (hrefers _ href)
  · intro b scope name ty hused
    exact Program.Build.exists_fatal_of_outOfSlots hused scope name ty

/-- The sample has few literals, so that all its operands fit. -/
theorem emit_fits_iff_sample :
    Program.ofModules Sample.modules 5 = (some Sample.program, []) ∧
      Sample.program.typeFaults = [] ∧
      ∃ lines, Sample.program.emit = .ok lines ∧ ∀ line ∈ lines, line.Fits := by
  obtain ⟨⟨lines, hlines, _, _, _, hfits⟩, _⟩ := emit_fits_iff Sample.ofModules_modules (by simp)
    (by simp [Sample.typeFaults_program])
  exact ⟨Sample.ofModules_modules, Sample.typeFaults_program, lines, hlines,
    hfits (by decide +kernel) (by decide +kernel)⟩

/-- A program with 257 integers is built and checked without any report, and yet it is emitted with an
operand that does not fit. -/
theorem emit_not_fits :
    ∃ p lines, Program.ofModules (Sample.pushing Sample.numbers) 5 = (some p, []) ∧
      p.typeFaults = [] ∧ p.emit = .ok lines ∧ ∃ line ∈ lines, ¬line.Fits := by
  have hbuilt := Sample.run_pushing (t := .ofNodup _ Sample.nodup_numbers) rfl
  exact Sample.misfit_of_run hbuilt (by decide +kernel)

end Teal
