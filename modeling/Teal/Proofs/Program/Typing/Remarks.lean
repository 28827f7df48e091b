import Teal.Proofs.Program.WellTyped

/-! What the checker says of its own accord about the parts of a node: what is said in a step of the check is
computed from the types of the parts it is about, and from nothing else. A part that was found faulty has an
invalid type. Of such a part nothing more is said, whatever node it stands in, unless it is returned and
leaves several values: then their number is reported as well. -/

namespace Teal.Program

open List

inductive Node where
  | expr (e : Expr)
  | stmt (s : Stmt)

def Expr.parts : Expr → List Expr
  | .literal _ _ _ | .ident _ _ _ => []
  | .unary _ _ e | .group _ e | .cast _ _ e => [e]
  | .binary _ _ l r => [l, r]
  | .call _ _ _ _ args | .builtin _ _ args => args
  | .cond _ _ test yes no => [test, yes, no]
  | .field _ source _ => source.exprs
  | .fieldAt _ source _ i => source.exprs ++ i.exprs
  | .arg _ i => i.exprs

def Stmt.parts : Stmt → List Expr
  | .varDecl _ _ _ value | .constDecl _ _ value | .assign _ _ _ value | .setField _ _ value
  | .ret _ value | .expr _ value => [value]
  | .ifThen _ _ test _ | .ifElse _ _ test _ _ | .loop _ _ test _ => [test]
  | .innerBegin _ | .innerSubmit _ | .error _ | .breakLoop _ => []

def Stmt.inner : Stmt → List Stmt
  | .ifThen _ _ _ yes => yes
  | .ifElse _ _ _ yes no => yes ++ no
  | .loop _ _ _ body => body
  | _ => []

namespace Node

def parts : Node → List Expr
  | .expr e => e.parts
  | .stmt s => s.parts

def isReturn : Node → Bool
  | .stmt (.ret _ _) => true
  | _ => false

end Node

/-- A node stands somewhere in a program, in a function of it or outside of functions. -/
inductive Occurs (p : Program) : Option Function → Node → Prop
  | global {s} (hs : s ∈ p.globals) : Occurs p none (.stmt s)
  | body {f s} (hf : f ∈ p.functions) (hs : s ∈ f.body) : Occurs p (some f) (.stmt s)
  | inner {current s t} (hs : Occurs p current (.stmt s)) (ht : t ∈ s.inner) :
      Occurs p current (.stmt t)
  | part {current node e} (hnode : Occurs p current node) (he : e ∈ node.parts) :
      Occurs p current (.expr e)

namespace Node

def faults (p : Program) (current : Option Function) : Node → List Diagnostic
  | .expr e => (Typing.expr p e).faults
  | .stmt s => (Typing.stmt p current s).faults

def steps (p : Program) (current : Option Function) : Node → List Typing.Step
  | .expr e => Typing.exprSteps p e
  | .stmt s => Typing.stmtSteps p current s

end Node

/-! ### Parts of a resolved node -/

section Parts

variable {p : Program} {bound : Nat}

theorem Expr.Resolved.parts {e : Expr} (h : e.Resolved p bound) :
    ∀ part ∈ e.parts, part.Resolved p bound := by
  cases h with
  | literal | ident => simp [Expr.parts]
  | unary he | group he | cast _ he => simpa [Expr.parts] using he
  | binary hl hr => simpa [Expr.parts] using ⟨hl, hr⟩
  | call _ _ _ _ _ hargs => exact hargs
  | builtin _ _ hargs => exact hargs
  | cond htest hyes hno => simpa [Expr.parts] using ⟨htest, hyes, hno⟩
  | field _ _ _ hsource => exact hsource
  | fieldAt _ _ _ _ _ _ hsource hindex => exact forall_mem_append.mpr ⟨hsource, hindex⟩
  | arg _ hindex => exact hindex

theorem Stmt.Resolved.parts {loops : Nat} {s : Stmt} (h : s.Resolved p bound loops) :
    ∀ part ∈ s.parts, part.Resolved p bound := by
  cases h with
  | varDecl _ _ _ hvalue | constDecl hvalue | assign _ _ _ hvalue | setField _ _ hvalue | ret hvalue
  | expr hvalue => simpa [Stmt.parts] using hvalue
  | ifThen htest | ifElse htest | loop htest => simpa [Stmt.parts] using htest
  | innerBegin | innerSubmit | error | breakLoop => simp [Stmt.parts]

theorem Stmt.Resolved.inner {loops : Nat} {s : Stmt} (h : s.Resolved p bound loops) :
    ∀ t ∈ s.inner, ∃ loops', t.Resolved p bound loops' := by
  cases h with
  | ifThen _ hyes => exact fun t ht => ⟨loops, hyes t ht⟩
  | ifElse _ hyes hno =>
    exact forall_mem_append.mpr
      ⟨fun t ht => ⟨loops, hyes t ht⟩, fun t ht => ⟨loops, hno t ht⟩⟩
  | loop _ hbody => exact fun t ht => ⟨loops + 1, hbody t ht⟩
  | varDecl | constDecl | assign | setField | ret | expr | innerBegin | innerSubmit | error
  | breakLoop => simp [Stmt.inner]

/-- What a node stands for is resolved, wherever it stands. -/
def Node.Resolved (p : Program) : Node → Prop
  | .expr e => ∃ bound, e.Resolved p bound
  | .stmt s => ∃ bound loops, s.Resolved p bound loops

theorem Node.Resolved.parts {node : Node} (h : node.Resolved p) :
    ∀ part ∈ node.parts, ∃ bound, part.Resolved p bound := by
  cases node with
  | expr e =>
    obtain ⟨bound, he⟩ := h
    exact fun part hpart => ⟨bound, he.parts part hpart⟩
  | stmt s =>
    obtain ⟨bound, _, hs⟩ := h
    exact fun part hpart => ⟨bound, hs.parts part hpart⟩

theorem Occurs.resolved (hp : p.WellBuilt) {current : Option Function} {node : Node}
    (h : p.Occurs current node) : node.Resolved p := by
  induction h with
  | global hs => exact ⟨_, _, hp.globals _ hs⟩
  | body hf hs =>
    obtain ⟨i, hi⟩ := mem_iff_getElem?.mp hf
    exact ⟨i, _, hp.bodies hi _ hs⟩
  | inner _ ht ih =>
    obtain ⟨bound, _, hs⟩ := ih
    exact ⟨bound, hs.inner _ ht⟩
  | part _ he ih => exact ih.parts _ he

end Parts

namespace Typing

section Order

variable {p : Program} {bound : Nat}

theorem part?_indexSteps (es : List Expr) : (es.map indexStep).filterMap Step.part? = es := by
  rw [filterMap_map]
  exact filterMap_some

theorem part?_argumentSteps {α : Type} (remarks : α → Expr → List Ty → List Diagnostic)
    (args : List Expr) : ∀ params : List α, args.length = params.length →
      (argumentSteps remarks args params).filterMap Step.part? = args := by
  induction args with
  | nil => simp [argumentSteps]
  | cons e rest ih =>
    rintro (_ | ⟨param, params⟩) hlength
    · cases hlength
    · simp [argumentSteps, Step.part?, ih params (Nat.succ.inj hlength)]

/-- The steps for an expression check each of its parts once, in their order. -/
theorem part?_exprSteps {e : Expr} (h : e.Resolved p bound) :
    (exprSteps p e).filterMap Step.part? = e.parts := by
  cases h with
  | literal | ident | unary | binary | group | cast | cond =>
    simp [exprSteps, Expr.parts, Step.part?, conditionStep]
  | call _ hcallee _ _ hlength _ =>
    rw [exprSteps, hcallee]
    exact part?_argumentSteps _ _ _ (by rw [length_zipIdx, length_map, hlength])
  | builtin hagrees _ _ => exact part?_argumentSteps _ _ _ hagrees.params.symm
  | field => exact part?_indexSteps _
  | fieldAt =>
    rw [exprSteps, filterMap_append, part?_indexSteps, part?_indexSteps]
    rfl
  | arg => exact part?_indexSteps _

theorem part?_stmtSteps (p : Program) (current : Option Function) (s : Stmt) :
    (stmtSteps p current s).filterMap Step.part? = s.parts := by
  cases s <;> simp [stmtSteps, Stmt.parts, Step.part?, conditionStep]

end Order

/-! ### Invalid parts -/

section Invalid

variable {p : Program} {bound : Nat} {e : Expr} {tys : List Ty}

theorem single_eq_invalid (h : .invalid ∈ tys) : single tys = .invalid := by
  rcases tys with _ | ⟨ty, _ | ⟨other, rest⟩⟩
  · rfl
  · exact (mem_singleton.mp h).symm
  · rfl

theorem countRemarks_eq_nil (e : Expr) (h : .invalid ∈ tys) : countRemarks e tys = [] :=
  if_pos (.inr h)

theorem neededRemarks_eq_nil (e : Expr) (needed : Ty) (fault : Ty → Fault) (h : .invalid ∈ tys) :
    neededRemarks e needed fault tys = [] := by
  simp [neededRemarks, countRemarks_eq_nil e h, single_eq_invalid h, conflicts]

theorem shapeRemarks_eq_nil (callee : String) (param : Nat × Builtin.ArgShape) (e : Expr)
    (h : .invalid ∈ tys) : shapeRemarks callee param e tys = [] := by
  simp [shapeRemarks, countRemarks_eq_nil e h, single_eq_invalid h]

theorem faults_declared_invalid (value : Expr) (l : List (Ident × Ty)) (h : ∀ x ∈ l, x.2 = .invalid) :
    (declared value l).faults = [] := by
  rw [silent_declared (· = [])]
  intro x hx
  rw [h x hx]
  decide

theorem faults_assigned_invalid (scope : ScopeId) (value : Expr) (l : List (Ident × Ty))
    (h : ∀ x ∈ l, x.2 = .invalid) : (assigned p scope value l).faults = [] := by
  induction l with
  | nil => rfl
  | cons x rest ih =>
    obtain ⟨target, ty⟩ := x
    obtain ⟨hty, hrest⟩ := forall_mem_cons.mp h
    simp only at hty
    simp [assigned, hty, conflicts, ih hrest]

theorem eq_invalid_of_length (hlength : tys.length = 1) (h : .invalid ∈ tys) : ∀ ty ∈ tys, ty = .invalid := by
  obtain ⟨only, rfl⟩ := length_eq_one_iff.mp hlength
  intro ty hty
  rw [mem_singleton.mp hty, ← mem_singleton.mp h]

theorem length_unary (e : Expr) (op : UnOp) (ty : Ty) : (unary e op ty).value.length = 1 := by
  rw [unary]
  split <;> rfl

theorem length_binary (e : Expr) (op : BinOp) (lhs rhs : Ty) : (binary e op lhs rhs).value.length = 1 := by
  rw [binary]
  repeat' split
  all_goals rfl

theorem length_branches (e : Expr) (yes no : Ty) : (branches e yes no).value.length = 1 := by
  rw [branches]
  repeat' split
  all_goals rfl

/-- If one value of an expression is invalid, so are all of them. -/
theorem eq_invalid_of_mem (he : e.Resolved p bound) (h : .invalid ∈ (expr p e).value) :
    ∀ ty ∈ (expr p e).value, ty = .invalid := by
  induction he with
  | group _ ih =>
    rw [expr] at h ⊢
    exact ih h
  | @builtin span call args hagrees _ _ _ =>
    rw [expr, Checked.value_bind, Checked.value_pure] at h ⊢
    cases hok : (builtinArguments p call.name args call.params).value with
    | true =>
      rw [hok] at h
      exact absurd rfl (hagrees.results .invalid h)
    | false =>
      intro ty hty
      obtain ⟨_, _, rfl⟩ := mem_map.mp hty
      rfl
  | @call span f name site args callee _ hcallee _ _ _ _ _ =>
    rw [expr, hcallee] at h ⊢
    exact eq_invalid_of_length rfl h
  | literal | ident | field | fieldAt | arg | cast =>
    rw [expr] at h ⊢
    exact eq_invalid_of_length rfl h
  | unary =>
    rw [expr] at h ⊢
    exact eq_invalid_of_length (length_unary _ _ _) h
  | binary =>
    rw [expr] at h ⊢
    exact eq_invalid_of_length (length_binary _ _ _ _) h
  | cond =>
    rw [expr] at h ⊢
    exact eq_invalid_of_length (length_branches _ _ _) h

/-- An invalid type comes with a report. -/
theorem faults_ne_nil_of_mem (hp : p.WellBuilt) (he : e.Resolved p bound)
    (h : .invalid ∈ (expr p e).value) : (expr p e).faults ≠ [] := by
  intro hfaults
  have htyped : Typed (· = []) p e := typed_of_resolved hp he
  rw [htyped.value hfaults] at h
  exact htyped.valid .invalid h rfl

/-- A step is about some of the given parts and says nothing where one of these is invalid. -/
def Step.Spares (p : Program) (parts : List Expr) (step : Step) : Prop :=
  ∀ e ∈ step.about, e ∈ parts ∧ (.invalid ∈ (expr p e).value → step.remarks p = [])

variable {parts : List Expr}

theorem spares_part {remark : List Ty → List Diagnostic} (he : e ∈ parts)
    (h : .invalid ∈ (expr p e).value → remark (expr p e).value = []) :
    (Step.part e remark).Spares p parts := by
  intro part hpart
  rw [Step.about, mem_singleton] at hpart
  subst hpart
  exact ⟨he, h⟩

theorem spares_needed (he : e ∈ parts) (needed : Ty) (fault : Ty → Fault) :
    (Step.part e (neededRemarks e needed fault)).Spares p parts :=
  spares_part he (neededRemarks_eq_nil e needed fault)

theorem spares_count (he : e ∈ parts) : (Step.part e (countRemarks e)).Spares p parts :=
  spares_part he (countRemarks_eq_nil e)

theorem spares_both {l r : Expr} {remark : List Ty → List Ty → List Diagnostic} (hl : l ∈ parts)
    (hr : r ∈ parts) (h : ∀ ls rs, single ls = .invalid ∨ single rs = .invalid → remark ls rs = []) :
    (Step.both l r remark).Spares p parts := by
  intro part hpart
  rw [Step.about, mem_cons, mem_singleton] at hpart
  rcases hpart with rfl | rfl
  · exact ⟨hl, fun hinvalid => h _ _ (.inl (single_eq_invalid hinvalid))⟩
  · exact ⟨hr, fun hinvalid => h _ _ (.inr (single_eq_invalid hinvalid))⟩

theorem spares_inner (parts : List Expr) (stmts : List Stmt) : (Step.inner stmts).Spares p parts := by
  simp [Step.Spares, Step.about]

theorem spares_indexSteps {es : List Expr} (h : es ⊆ parts) :
    ∀ step ∈ es.map indexStep, step.Spares p parts := by
  intro step hstep
  obtain ⟨e, he, rfl⟩ := mem_map.mp hstep
  exact spares_needed (h he) _ _

theorem spares_argumentSteps {α : Type} {remarks : α → Expr → List Ty → List Diagnostic}
    (hremarks : ∀ param e {tys}, .invalid ∈ tys → remarks param e tys = []) (args : List Expr)
    : ∀ params : List α, args ⊆ parts →
      ∀ step ∈ argumentSteps remarks args params, step.Spares p parts := by
  induction args with
  | nil => simp [argumentSteps]
  | cons e rest ih =>
    rintro (_ | ⟨param, params⟩) h
    · simp [argumentSteps]
    · obtain ⟨he, hrest⟩ := cons_subset.mp h
      rw [argumentSteps, forall_mem_cons]
      exact ⟨spares_part he (hremarks param e), ih params hrest⟩

/-- No expression says anything about an invalid part of it. -/
theorem exprSteps_spare (p : Program) (e : Expr) : ∀ step ∈ exprSteps p e, step.Spares p e.parts := by
  cases e with
  | literal | ident => simp [exprSteps]
  | unary span op e =>
    rw [exprSteps, forall_mem_singleton]
    refine spares_part (by simp [Expr.parts]) fun h => ?_
    simp [countRemarks_eq_nil e h, single_eq_invalid h, unary, conflicts]
  | binary span op l r =>
    simp only [exprSteps, forall_mem_cons, Expr.parts]
    refine ⟨spares_count (by simp), spares_count (by simp),
      spares_both (by simp) (by simp) fun ls rs h => ?_, by simp⟩
    rw [binary, if_pos (by simpa using h), Checked.faults_pure]
  | group span e =>
    rw [exprSteps, forall_mem_singleton]
    exact spares_part (by simp [Expr.parts]) fun _ => rfl
  | call span f name site args =>
    rw [exprSteps]
    cases p.functions[f]? with
    | none => simp
    | some callee =>
      exact spares_argumentSteps (fun _ e _ => neededRemarks_eq_nil e _ _) args _
        (List.Subset.refl _)
  | builtin span call args =>
    exact spares_argumentSteps (fun _ e _ => shapeRemarks_eq_nil _ _ e) args _ (List.Subset.refl _)
  | cond span label test yes no =>
    simp only [exprSteps, forall_mem_cons, Expr.parts]
    refine ⟨spares_needed (by simp) _ _, spares_count (by simp), spares_count (by simp),
      spares_both (by simp) (by simp) fun ys ns h => ?_, by simp⟩
    rw [branches, if_pos (by simpa using h), Checked.faults_pure]
  | field span source f => exact spares_indexSteps (List.Subset.refl _)
  | fieldAt span source f i =>
    rw [exprSteps, forall_mem_append]
    exact ⟨spares_indexSteps (subset_append_left _ _),
      spares_indexSteps (subset_append_right _ _)⟩
  | arg span i => exact spares_indexSteps (List.Subset.refl _)
  | cast span ty e =>
    rw [exprSteps, forall_mem_singleton]
    exact spares_count (by simp [Expr.parts])

/-- No statement but a return says anything about an invalid part of it. -/
theorem stmtSteps_spare (current : Option Function) {loops : Nat} {s : Stmt}
    (h : s.Resolved p bound loops) (hreturn : (Node.stmt s).isReturn = false) :
    ∀ step ∈ stmtSteps p current s, step.Spares p s.parts := by
  have hzip {value : Expr} (hvalue : value.Resolved p bound) (names : List Ident)
      (hinvalid : .invalid ∈ (expr p value).value) :
      ∀ x ∈ names.zip (expr p value).value, x.2 = .invalid :=
    fun x hx => eq_invalid_of_mem hvalue hinvalid x.2 (of_mem_zip hx).2
  cases h with
  | varDecl _ _ _ hvalue =>
    rw [stmtSteps, forall_mem_singleton]
    exact spares_part (by simp [Stmt.parts]) fun hinvalid =>
      faults_declared_invalid _ _ (hzip hvalue _ hinvalid)
  | assign _ _ _ hvalue =>
    rw [stmtSteps, forall_mem_singleton]
    exact spares_part (by simp [Stmt.parts]) fun hinvalid =>
      faults_assigned_invalid _ _ _ (hzip hvalue _ hinvalid)
  | constDecl | expr =>
    rw [stmtSteps, forall_mem_singleton]
    exact spares_part (by simp [Stmt.parts]) fun _ => rfl
  | setField =>
    rw [stmtSteps, forall_mem_singleton]
    exact spares_needed (by simp [Stmt.parts]) _ _
  | ifThen | loop =>
    simp only [stmtSteps, forall_mem_cons, Stmt.parts]
    exact ⟨spares_needed (by simp) _ _, spares_inner _ _, by simp⟩
  | ifElse =>
    simp only [stmtSteps, forall_mem_cons, Stmt.parts]
    exact ⟨spares_needed (by simp) _ _, spares_inner _ _, spares_inner _ _, by simp⟩
  | ret => cases hreturn
  | innerBegin | innerSubmit | error | breakLoop => simp [stmtSteps]

/-- A return says nothing about one invalid value, and reports the number of several. -/
theorem returnRemarks_of_invalid (current : Option Function) (value : Expr) (h : .invalid ∈ tys) :
    returnRemarks current value tys = if tys.length = 1 then [] else
      [(Fault.returnCount value.text tys.length).toDiagnostic value.span] := by
  rcases tys with _ | ⟨ty, _ | ⟨other, rest⟩⟩
  · cases h
  · rw [← mem_singleton.mp h]
    cases current <;> simp [returnRemarks, conflicts]
  · simp [returnRemarks]

end Invalid

end Typing

namespace Node

open Typing

variable {p : Program} {node : Node}

theorem faults_eq_steps (p : Program) (current : Option Function) (node : Node) :
    node.faults p current = (node.steps p current).flatMap (Step.faults p current) := by
  cases node with
  | expr e => exact faults_expr_eq p current e
  | stmt s => exact faults_stmt_eq p current s

theorem Resolved.part?_steps (h : node.Resolved p) (current : Option Function) :
    (node.steps p current).filterMap Step.part? = node.parts := by
  cases node with
  | expr e =>
    obtain ⟨_, he⟩ := h
    exact part?_exprSteps he
  | stmt s => exact part?_stmtSteps p current s

theorem Resolved.steps_spare (h : node.Resolved p) (current : Option Function)
    (hreturn : node.isReturn = false) : ∀ step ∈ node.steps p current, step.Spares p node.parts := by
  cases node with
  | expr e => exact exprSteps_spare p e
  | stmt s =>
    obtain ⟨_, _, hs⟩ := h
    exact stmtSteps_spare current hs hreturn

theorem Resolved.remarks_of_invalid (h : node.Resolved p) (current : Option Function) :
    ∀ step ∈ node.steps p current, ∀ e ∈ step.about, e ∈ node.parts ∧
      (.invalid ∈ (Typing.expr p e).value →
        step.remarks p = if node.isReturn = true ∧ (Typing.expr p e).value.length ≠ 1 then
          [(Fault.returnCount e.text (Typing.expr p e).value.length).toDiagnostic e.span] else []) := by
  cases hreturn : node.isReturn with
  | false =>
    intro step hstep e he
    obtain ⟨hpart, hsilent⟩ := h.steps_spare current hreturn step hstep e he
    exact ⟨hpart, by simpa using hsilent⟩
  | true =>
    cases node with
    | expr e => cases hreturn
    | stmt s =>
      cases s with
      | ret span value =>
        simp only [steps, stmtSteps, forall_mem_singleton, Step.about]
        refine ⟨mem_singleton_self _, fun hinvalid => ?_⟩
        simp [Step.remarks, returnRemarks_of_invalid current value hinvalid]
      | _ => cases hreturn

end Node

end Teal.Program

namespace Teal

open Program Typing List

/-- The check of a node, wherever it stands in a program that was built without a fatal report, is made of
its steps, which check its parts once and in their order. Where a part has an invalid type, that was
reported of the part, and no step that is about it says anything more. A return of several values is the
exception: it reports their number. -/
theorem check_invalid_part {ms : List Tree.SourceModule} {version : Nat} {p : Program}
    {ds : List Diagnostic} (hbuilt : Program.ofModules ms version = (some p, ds))
    (hds : ∀ d ∈ ds, d.isFatal = false) {current : Option Function} {node : Node}
    (hnode : p.Occurs current node) :
    node.faults p current = (node.steps p current).flatMap (Step.faults p current) ∧
      (node.steps p current).filterMap Step.part? = node.parts ∧
      ∀ step ∈ node.steps p current, ∀ e ∈ step.about, e ∈ node.parts ∧
        (.invalid ∈ (expr p e).value → (expr p e).faults ≠ [] ∧
          step.remarks p = if node.isReturn = true ∧ (expr p e).value.length ≠ 1 then
            [(Fault.returnCount e.text (expr p e).value.length).toDiagnostic e.span] else []) := by
  have hp := wellBuilt_of_ofModules hbuilt hds
  have hresolved := hnode.resolved hp
  refine ⟨node.faults_eq_steps p current, hresolved.part?_steps current, fun step hstep e he => ?_⟩
  obtain ⟨hpart, hremarks⟩ := hresolved.remarks_of_invalid current step hstep e he
  refine ⟨hpart, fun hinvalid => ⟨?_, hremarks hinvalid⟩⟩
  obtain ⟨_, hpart'⟩ := hresolved.parts e hpart
  exact faults_ne_nil_of_mem hp hpart' hinvalid

namespace Sample

/-- A product of two words of which one is faulty. -/
def faulty : Tree.Expr := call "mulw" [int 1, binary .add (int 1) (.bytes .nowhere [97])]

/-- The faulty product is declared, then returned. -/
def repeated : List Tree.SourceModule :=
  [⟨"main", 0, ⟨[], [function false "logic" ["txn", "gtxn", "args"]
    [declare ["high", "low"] faulty, .ret .nowhere faulty]]⟩, true⟩]

def declares (p : Program) (tys : List Ty) : Stmt → Bool
  | .varDecl _ _ _ value => (expr p value).value == tys
  | _ => false

def returns (p : Program) (tys : List Ty) : Stmt → Bool
  | .ret _ value => (expr p value).value == tys
  | _ => false

theorem isSome_repeated : (Program.ofModules repeated 5).1.isSome = true := by decide +kernel

def repeatedProgram : Program := (Program.ofModules repeated 5).1.get isSome_repeated

theorem ofModules_repeated : Program.ofModules repeated 5 = (some repeatedProgram, []) := by
  have hdiagnostics : (Program.ofModules repeated 5).2.isEmpty = true := by decide +kernel
  exact Prod.ext (Option.some_get isSome_repeated).symm (List.isEmpty_iff.mp hdiagnostics)

/-- Both values of the faulty product are invalid, where it is declared and where it is returned. -/
theorem repeated_invalid : ∃ f ∈ repeatedProgram.functions,
    (∃ s ∈ f.body, declares repeatedProgram [.invalid, .invalid] s = true) ∧
      ∃ s ∈ f.body, returns repeatedProgram [.invalid, .invalid] s = true := by
  have hany : repeatedProgram.functions.any (fun f =>
      f.body.any (declares repeatedProgram [.invalid, .invalid]) &&
        f.body.any (returns repeatedProgram [.invalid, .invalid])) = true := by
    decide +kernel
  simpa only [any_eq_true, Bool.and_eq_true] using hany

end Sample

/-- Where the faulty product of the sample is declared, only the product itself is reported. -/
theorem check_invalid_part_declared : Program.ofModules Sample.repeated 5 =
      (some Sample.repeatedProgram, []) ∧
    ∃ current s value, Sample.repeatedProgram.Occurs current (.stmt s) ∧ s.parts = [value] ∧
      .invalid ∈ (expr Sample.repeatedProgram value).value ∧
      (expr Sample.repeatedProgram value).faults ≠ [] ∧
      (stmt Sample.repeatedProgram current s).faults = (expr Sample.repeatedProgram value).faults := by
  refine ⟨Sample.ofModules_repeated, ?_⟩
  obtain ⟨f, hf, ⟨s, hs, htys⟩, _⟩ := Sample.repeated_invalid
  cases s with
  | varDecl span scope names value =>
    have hinvalid : .invalid ∈ (expr Sample.repeatedProgram value).value := by
      rw [beq_iff_eq.mp htys]
      exact mem_cons_self
    have hoccurs := Occurs.body hf hs
    obtain ⟨hfaults, _, hsteps⟩ := check_invalid_part Sample.ofModules_repeated (by simp) hoccurs
    obtain ⟨_, hsilent⟩ := hsteps _ mem_cons_self value mem_cons_self
    obtain ⟨hreported, hremarks⟩ := hsilent hinvalid
    refine ⟨_, _, value, hoccurs, rfl, hinvalid, hreported, hfaults.trans ?_⟩
    rw [Step.remarks] at hremarks
    simp [Node.steps, stmtSteps, Step.faults, hremarks, Node.isReturn]
  | _ => cases htys

/-- Where the faulty product of the sample is returned, the number of its values is reported as well. -/
theorem check_invalid_part_repeated : Program.ofModules Sample.repeated 5 =
      (some Sample.repeatedProgram, []) ∧
    ∃ current s value step, Sample.repeatedProgram.Occurs current (.stmt s) ∧ s.parts = [value] ∧
      .invalid ∈ (expr Sample.repeatedProgram value).value ∧
      step ∈ stmtSteps Sample.repeatedProgram current s ∧ step.about = [value] ∧
      step.remarks Sample.repeatedProgram ≠ [] := by
  refine ⟨Sample.ofModules_repeated, ?_⟩
  obtain ⟨f, hf, _, s, hs, htys⟩ := Sample.repeated_invalid
  cases s with
  | ret span value =>
    have hvalue := beq_iff_eq.mp htys
    refine ⟨_, _, value, _, Occurs.body hf hs, rfl, ?_, mem_cons_self, rfl, ?_⟩
    · rw [hvalue]
      exact mem_cons_self
    · rw [Step.remarks, hvalue]
      simp [returnRemarks]
  | _ => cases htys

end Teal
