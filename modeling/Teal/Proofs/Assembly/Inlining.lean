import Teal.Proofs.Compile.Total
import Teal.Proofs.Program.Typing.Remarks

/-! Calls go backwards. A function is declared behind its body, so a body calls functions before it and
no others, whatever else is reported while the program is built. Replacing calls by bodies therefore
ends. This is said of an expansion that has no bound on the functions it enters: it would break off where
it meets a function whose body it is in the middle of, or where it is deeper than there are functions,
and it never does. -/

namespace Teal

open List
open Program (Expr Stmt Function Node BlockResolved)

namespace Program

/-- A node stands in a statement. -/
inductive Stmt.Holds (s : Stmt) : Node → Prop
  | self : Holds s (.stmt s)
  | inner {t u} (ht : Holds s (.stmt t)) (hu : u ∈ t.inner) : Holds s (.stmt u)
  | part {node e} (hnode : Holds s node) (he : e ∈ node.parts) : Holds s (.expr e)

/-- Somewhere in statements a function is called with arguments. -/
def Calls (stmts : List Stmt) (f : Nat) (args : List Expr) : Prop :=
  ∃ s ∈ stmts, ∃ span name site, s.Holds (.expr (.call span f name site args))

/-- There is a function to call. It is not an entry point, and it has a parameter for each argument. -/
def Callable (p : Program) (f : Nat) (args : List Expr) : Prop :=
  ∃ callee, p.functions[f]? = some callee ∧ callee.isEntry = false ∧
    args.length = callee.params.length

/-- In the body of the second function, a call is replaced by the body of the first. -/
def Inlines (p : Program) (g f : Nat) : Prop :=
  ∃ function callee args, p.functions[f]? = some function ∧ Calls function.body g args ∧
    p.functions[g]? = some callee ∧ callee.inline = true

/-! ### Calls of resolved nodes -/

section

variable {p : Program} {bound : Nat}

/-- A node is resolved and calls only functions before a bound. -/
def Node.ResolvedBelow (p : Program) (bound : Nat) : Node → Prop
  | .expr e => e.Resolved p bound
  | .stmt s => ∃ loops, s.Resolved p bound loops

theorem Stmt.Resolved.node {s : Stmt} {loops : Nat} {node : Node} (h : s.Resolved p bound loops)
    (hnode : s.Holds node) : node.ResolvedBelow p bound := by
  induction hnode with
  | self => exact ⟨loops, h⟩
  | inner _ hu ih =>
    obtain ⟨_, ht⟩ := ih
    exact ht.inner _ hu
  | @part node e _ he ih =>
    cases node with
    | expr => exact Expr.Resolved.parts ih e he
    | stmt =>
      obtain ⟨_, hs⟩ := ih
      exact hs.parts e he

theorem BlockResolved.call {loops : Nat} {stmts : List Stmt} {f : Nat} {args : List Expr}
    (h : BlockResolved loops p bound stmts) (hcall : Calls stmts f args) :
    f < bound ∧ p.Callable f args := by
  obtain ⟨s, hs, span, name, site, hholds⟩ := hcall
  cases (h s hs).node hholds with
  | call hbound hcallee _ hentry hlength _ => exact ⟨hbound, _, hcallee, hentry, hlength⟩

end

end Program

namespace Assembly

/-! ### Emission depends on the bodies of callees only -/

section

variable {p : Program} {bound : Nat} {expand expand' : Nat → Context → Emitted}

variable {c : Context} {stmts : List Stmt} {loops : Nat}

theorem exprsLines_congr {es : List Expr} (h : ∀ e ∈ es, exprLines p expand c e = exprLines p expand' c e) :
    exprsLines p expand c es = exprsLines p expand' c es := by
  induction es with
  | nil => rfl
  | cons e es ih =>
    rw [exprsLines, exprsLines, h e mem_cons_self, ih fun e he => h e (mem_cons_of_mem _ he)]

theorem indexLines_congr {i : Program.Index}
    (h : ∀ e ∈ i.exprs, exprLines p expand c e = exprLines p expand' c e) :
    indexLines p expand c i = indexLines p expand' c i := by
  cases i with
  | const => rfl
  | dynamic e =>
    rw [indexLines, indexLines]
    exact h e mem_cons_self

theorem sourceLines_congr {source : Program.FieldSource}
    (h : ∀ e ∈ source.exprs, exprLines p expand c e = exprLines p expand' c e) :
    sourceLines p expand c source = sourceLines p expand' c source := by
  cases source with
  | gtxn i =>
    rw [sourceLines, sourceLines]
    exact indexLines_congr h
  | txn | global | itxn => rfl

variable (hexpand : ∀ g < bound, ∀ c, expand g c = expand' g c)

include hexpand

theorem exprLines_congr {e : Expr} (h : e.Resolved p bound) :
    exprLines p expand c e = exprLines p expand' c e := by
  induction h with
  | literal | ident => rfl
  | unary _ ih | cast _ _ ih | group _ ih => rw [exprLines, exprLines, ih]
  | binary _ _ ihl ihr => rw [exprLines, exprLines, ihl, ihr]
  | call hbound _ _ _ _ _ ih =>
    rw [exprLines, exprLines, exprsLines_congr ih]
    simp only [callLines, hexpand _ hbound]
  | builtin _ _ _ ih => rw [exprLines, exprLines, exprsLines_congr ih]
  | cond _ _ _ iht ihy ihn => rw [exprLines, exprLines, iht, ihy, ihn]
  | field _ _ _ _ ih => rw [exprLines, exprLines, sourceLines_congr ih]
  | fieldAt _ _ _ _ _ _ _ _ ihs ihi =>
    rw [exprLines, exprLines, sourceLines_congr ihs, indexLines_congr ihi]
  | @arg _ i _ _ ih =>
    cases i with
    | const => rfl
    | dynamic e => rw [exprLines, exprLines, ih e mem_cons_self]

omit hexpand in
theorem blockLines_congr_of_stmts (h : ∀ s ∈ stmts, stmtLines p expand c s = stmtLines p expand' c s) :
    blockLines p expand c stmts = blockLines p expand' c stmts := by
  induction stmts with
  | nil => rfl
  | cons s stmts ih =>
    rw [blockLines, blockLines, h s mem_cons_self, ih fun s hs => h s (mem_cons_of_mem _ hs)]

theorem stmtLines_congr {s : Stmt} (h : s.Resolved p bound loops) :
    stmtLines p expand c s = stmtLines p expand' c s := by
  have hvalue : ∀ {e : Expr} (c : Context), e.Resolved p bound →
      exprLines p expand c e = exprLines p expand' c e := fun _ h => exprLines_congr hexpand h
  induction h generalizing c with
  | varDecl _ _ _ h | assign _ _ _ h | setField _ _ h | ret h | expr h =>
    rw [stmtLines, stmtLines, hvalue c h]
  | ifThen h _ ih =>
    rw [stmtLines, stmtLines, hvalue c h, blockLines_congr_of_stmts fun s hs => ih s hs]
  | ifElse h _ _ ihy ihn =>
    rw [stmtLines, stmtLines, hvalue c h, blockLines_congr_of_stmts fun s hs => ihy s hs,
      blockLines_congr_of_stmts fun s hs => ihn s hs]
  | loop h _ ih =>
    rw [stmtLines, stmtLines, hvalue c h, blockLines_congr_of_stmts fun s hs => ih s hs]
  | constDecl | innerBegin | innerSubmit | error | breakLoop => rfl

theorem blockLines_congr (h : BlockResolved loops p bound stmts) :
    blockLines p expand c stmts = blockLines p expand' c stmts :=
  blockLines_congr_of_stmts fun s hs => stmtLines_congr hexpand (h s hs)

end

/-! ### Expansion without a bound -/

/-- The body of a function in a context, with calls replaced by bodies whatever function they go to.
`active` are the functions whose bodies are being expanded around it. Where one of them is met again, and
where the expansion is `depth` deep, the answer is the one of `refuse`. -/
def expansion (p : Program) (refuse : Nat → Context → Emitted) :
    (depth : Nat) → (active : List Nat) → Nat → Context → Emitted
  | 0, _, f, c => refuse f c
  | depth + 1, active, f, c =>
    if f ∈ active then refuse f c
    else
      match p.functions[f]? with
      | some function => blockLines p (expansion p refuse depth (f :: active)) c function.body
      | none => .error (.noFunction f)

section

variable {p : Program}
  (hbodies : ∀ {i f}, p.functions[i]? = some f → BlockResolved 0 p i f.body)

include hbodies

/-- Below a bound, expansion gives the bodies that are defined with this bound, if the active functions
are above. The body of a function holds calls of functions before it, so each body that is entered lowers
the bound to its own index. -/
theorem expansion_eq_bodyBelow (refuse : Nat → Context → Emitted) {bound depth : Nat}
    (active : List Nat) {f : Nat} (c : Context) (hf : f < bound) (hdepth : bound ≤ depth)
    (hactive : ∀ a ∈ active, bound ≤ a) : expansion p refuse depth active f c = bodyBelow p bound f c := by
  induction bound generalizing depth active f c with
  | zero => exact absurd hf (Nat.not_lt_zero f)
  | succ bound ih =>
    rw [bodyBelow]
    by_cases hlast : f = bound
    · obtain ⟨depth, rfl⟩ : ∃ d, depth = d + 1 := ⟨depth - 1, by omega⟩
      have hnew : f ∉ active := fun hmem => by
        have := hactive f hmem
        omega
      rw [if_pos hlast, expansion, if_neg hnew, ← hlast]
      cases hfunction : p.functions[f]? with
      | none => rfl
      | some function =>
        refine blockLines_congr (fun g hg c => ?_) (hbodies hfunction)
        rw [hlast]
        refine ih _ c (hlast ▸ hg) (by omega) fun a ha => ?_
        rcases mem_cons.mp ha with rfl | ha
        · exact .refl
        · exact Nat.le_of_succ_le (hactive a ha)
    · rw [if_neg hlast]
      exact ih _ c (by omega) (by omega) fun a ha => Nat.le_of_succ_le (hactive a ha)

/-- What a body holds of other bodies does not depend on the bound, as long as it is not below the
function itself. -/
theorem bodyBelow_eq (c : Context) {bound i : Nat} (hbound : i ≤ bound) {g : Nat} (hg : g < i) :
    bodyBelow p bound g c = bodyBelow p i g c := by
  have hexpansion := fun {b : Nat} (hg : g < b) (hb : b ≤ bound) =>
    expansion_eq_bodyBelow hbodies (fun f _ => .error (.noFunction f)) [] c hg hb (by simp)
  rw [← hexpansion (Nat.lt_of_lt_of_le hg hbound) .refl, hexpansion hg hbound]

end

/-- Calls go backwards, and expansion ends. -/
structure CallsBackwards (p : Program) : Prop where
  /-- A body calls functions before it. -/
  bodies : ∀ {i : Nat} {f : Function}, p.functions[i]? = some f →
    ∀ {g args}, Program.Calls f.body g args → g < i ∧ p.Callable g args
  globals : ∀ {g args}, Program.Calls p.globals g args → p.Callable g args
  lt_of_inlines : ∀ {g f : Nat}, p.Inlines g f → g < f
  wellFounded : WellFounded p.Inlines
  /-- Each body is emitted without meeting a function again, no deeper than there are functions. -/
  expands : ∀ (refuse : Nat → Context → Emitted) {i : Nat} {f : Function} (exit : Exit),
    p.functions[i]? = some f →
      expansion p refuse p.functions.length [] i (.outer exit) = topLines p exit f.body
  /-- So are the declarations outside of functions. -/
  expandsGlobals : ∀ (refuse : Nat → Context → Emitted) (exit : Exit),
    blockLines p (expansion p refuse p.functions.length []) (.outer exit) p.globals =
      topLines p exit p.globals

theorem callsBackwards_of_resolved {p : Program}
    (hbodies : ∀ {i f}, p.functions[i]? = some f → BlockResolved 0 p i f.body)
    (hglobals : BlockResolved 0 p p.functions.length p.globals) : CallsBackwards p := by
  have hlt : ∀ {g f : Nat}, p.Inlines g f → g < f := by
    rintro g f ⟨function, _, args, hfunction, hcall, _⟩
    exact ((hbodies hfunction).call hcall).1
  refine ⟨fun hf _ _ hcall => (hbodies hf).call hcall, fun hcall => (hglobals.call hcall).2, hlt,
    Subrelation.wf hlt Nat.lt_wfRel.wf, ?_, ?_⟩
  · intro refuse i f exit hf
    have hi := (List.getElem?_eq_some_iff.mp hf).1
    rw [expansion_eq_bodyBelow hbodies refuse _ _ hi .refl (by simp),
      bodyBelow_eq hbodies _ (Nat.succ_le_of_lt hi) (Nat.lt_succ_self i), bodyBelow, if_pos rfl, hf]
    exact blockLines_congr (fun g hg c => (bodyBelow_eq hbodies c (Nat.le_of_lt hi) hg).symm)
      (hbodies hf)
  · intro refuse exit
    exact blockLines_congr (fun g hg c =>
      expansion_eq_bodyBelow hbodies refuse _ c hg .refl (by simp)) hglobals

end Assembly

/-- In every program that is built from modules, also where faults are reported, calls go backwards and
replacing them by bodies ends. -/
theorem calls_backwards {ms : List Tree.SourceModule} {version : Nat} {p : Program}
    {ds : List Diagnostic} (hbuilt : Program.ofModules ms version = (some p, ds)) :
    Assembly.CallsBackwards p := by
  obtain ⟨b, _, hinv, _, _, rfl⟩ := Program.inv_of_ofModules hbuilt
  exact Assembly.callsBackwards_of_resolved hinv.bodies hinv.globals

/-- A function that calls itself is reported, and the call is left out. -/
def Sample.circular : List Tree.SourceModule :=
  [⟨"main", 0, ⟨[], [Sample.least,
    Sample.function true "again" ["n"] [.ret .nowhere (Sample.call "again" [Sample.var "n"])],
    Sample.function true "twice" ["n"]
      [.ret .nowhere (Sample.call "least" [Sample.var "n", Sample.call "again" [Sample.var "n"]])],
    Sample.function false "logic" ["txn", "gtxn", "args"]
      [.ret .nowhere (Sample.call "twice" [Sample.int 1])]]⟩, true⟩]

theorem calls_backwards_circular : ∃ p ds, Program.ofModules Sample.circular 5 = (some p, ds) ∧
    ds ≠ [] ∧ Assembly.CallsBackwards p := by
  have hsome : (Program.ofModules Sample.circular 5).1.isSome = true := by decide +kernel
  have hfaults : (Program.ofModules Sample.circular 5).2.isEmpty = false := by decide +kernel
  obtain ⟨built, hbuilt⟩ : ∃ built, Program.ofModules Sample.circular 5 = built := ⟨_, rfl⟩
  rw [hbuilt] at hsome hfaults
  obtain ⟨_ | p, ds⟩ := built
  · cases hsome
  · exact ⟨p, ds, hbuilt, isEmpty_eq_false_iff.mp hfaults, calls_backwards hbuilt⟩

end Teal
