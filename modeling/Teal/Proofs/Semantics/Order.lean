import Teal.Proofs.Program.Visible
import Teal.Proofs.Semantics.Paths

/-! Control keeps the order of the source on all paths through emitted code. A slot is loaded only behind
a store to it, and the end of a body is come to from lines only that are meant to lead there: the jump
over a subroutine, and the returns of a body that stands in place of a call.

Paths are cut after a number of steps. That a path from some code is in order is built up from the place
behind the code backwards, so that each piece of code is treated once, with what may follow it as a
hypothesis. -/

namespace Teal.Program

open List

/-- A statement stands in a block, at any depth. -/
inductive Within (stmts : List Stmt) : Stmt → Prop
  | top {s} (hs : s ∈ stmts) : Within stmts s
  | ifThen {span label test yes s} (hif : Within stmts (.ifThen span label test yes)) (hs : s ∈ yes) :
      Within stmts s
  | ifYes {span label test yes no s} (hif : Within stmts (.ifElse span label test yes no))
      (hs : s ∈ yes) : Within stmts s
  | ifNo {span label test yes no s} (hif : Within stmts (.ifElse span label test yes no))
      (hs : s ∈ no) : Within stmts s
  | loop {span label test body s} (hloop : Within stmts (.loop span label test body)) (hs : s ∈ body) :
      Within stmts s

/-- The operands of an operation mirror parts of the source, and so do the arguments of a call. -/
theorem Expr.Mirrors.operands {R : Reading} {tree : Tree.Expr} {e : Expr} {operands : List Expr}
    {line : Assembly.Line} (h : e.Mirrors R tree) (heq : e.operation? = some (operands, line)) :
    ∀ o ∈ operands, ∃ tree, o.Mirrors R tree := by
  have hzip : ∀ {es : List Tree.Expr} {es' : List Expr}, es'.length ≤ es.length →
      (∀ x ∈ es.zip es', x.2.Mirrors R x.1) → ∀ o ∈ es', ∃ tree, o.Mirrors R tree := by
    intro es es' hlength hes o ho
    obtain ⟨tree, hmem⟩ := exists_mem_zip hlength ho
    exact ⟨tree, hes _ hmem⟩
  cases operation_of_eq heq with
  | unary =>
    cases h with
    | unary he => exact forall_mem_singleton.mpr ⟨_, he⟩
  | binary =>
    cases h with
    | binary hl hr => exact forall_mem_cons.mpr ⟨⟨_, hl⟩, forall_mem_singleton.mpr ⟨_, hr⟩⟩
  | builtin =>
    cases h with
    | builtin _ _ _ _ _ hlength hargs => exact hzip (Nat.le_of_eq hlength) hargs
  | arg => exact forall_mem_nil _
  | args =>
    cases h with
    | element _ _ hindex => exact fun o ho => ⟨_, hindex o ho⟩
  | field =>
    cases h with
    | field _ howner hsource => exact hzip howner.length_le hsource
  | fieldAt =>
    cases h with
    | fieldAt _ howner hsource _ hindex =>
      exact forall_mem_append.mpr ⟨hzip howner.length_le hsource, fun o ho => ⟨_, hindex o ho⟩⟩

theorem Expr.Mirrors.call_inv {R : Reading} {tree : Tree.Expr} {span : Span} {f site : Nat} {name : String}
    {args : List Expr} (h : (Expr.call span f name site args).Mirrors R tree) :
    R.call name f ∧ ∀ e ∈ args, ∃ tree, e.Mirrors R tree := by
  cases h with
  | call hcall hlength hargs =>
    refine ⟨hcall, fun e he => ?_⟩
    obtain ⟨tree, hmem⟩ := exists_mem_zip (Nat.le_of_eq hlength) he
    exact ⟨tree, hargs _ hmem⟩

end Teal.Program

namespace Teal.Semantics

open Assembly List
open Program (Expr Stmt Function StmtMirrors BlockMirrors ItemsMirror Within)

/-- Control is at the jump that ends a `return` of a body in place of a call, and the label stands behind
that body. The `return` may stand in a loop. -/
inductive AtReturn (p : Program) (lines : List Line) : Label → List Line → Prop
  | mk {c : Context} {site : Nat} {callee : Function} {span : Span} {value : Expr} {l : Label}
      {loopEnds : List Label} {before ls rest after : List Line}
      (hlabel : l = (c.inlined callee.name.text site).label (.inlineEnd callee.name.text))
      (hcallee : callee ∈ p.functions) (hinline : callee.inline = true)
      (hwithin : Within callee.body (.ret span value))
      (hreturn : Code p { c.inlined callee.name.text site with loopEnds := loopEnds }
        (.stmt (.ret span value)) (ls ++ [.branch l]))
      (hbody : Code p (c.inlined callee.name.text site) (.block callee.body)
        (before ++ (ls ++ [.branch l]) ++ rest))
      (hplace : before ++ (ls ++ [.branch l]) ++ rest ++ .label l :: after <:+ lines) :
      AtReturn p lines l (.branch l :: (rest ++ .label l :: after))

/-- Control is at a line that is meant to lead to the end of a body. -/
inductive ToEnd (p : Program) (lines : List Line) : Label → List Line → Prop
  | jumpsOver {name rest} : ToEnd p lines (.subroutineEnd name)
      (.branch (.subroutineEnd name) :: .label (.subroutine name) :: rest)
  | returns {l code} (h : AtReturn p lines l code) : ToEnd p lines l code

/-- What control may do next at a place, where `K` tells the slots that were stored to. -/
structure Orderly (p : Program) (lines : List Line) (K : Nat → Prop) (code : List Line) : Prop where
  load : ∀ {slot rest}, code = .load slot :: rest → K slot
  label : ∀ {l rest}, code = .label l :: rest → l.isEnd = false
  target : ∀ {line rest l}, code = line :: rest → line.target? = some l → l.isEnd = true →
    ToEnd p lines l code

/-- The slots that were stored to when the first line has been passed. -/
def stored (K : Nat → Prop) (code : List Line) (slot : Nat) : Prop :=
  K slot ∨ code.head? = some (.store slot)

/-- All paths of so many steps are in order. -/
def Safe (p : Program) (lines : List Line) : Nat → (Nat → Prop) → List Line → List (List Line) → Prop
  | 0, _, _, _ => True
  | n + 1, K, code, calls => Orderly p lines K code ∧
      ∀ ⦃code' calls'⦄, Goes lines code calls code' calls' →
        Safe p lines n (stored K code) code' calls'

section Lines

variable {p : Program} {lines : List Line} {n : Nat} {K K' : Nat → Prop} {line : Line} {l : Label}
  {code after : List Line} {calls : List (List Line)}

/-- What has to be known of the line at a place. -/
theorem Orderly.of_line (hload : ∀ slot, line = .load slot → K slot)
    (hlabel : ∀ l, line.label? = some l → l.isEnd = false)
    (htarget : ∀ l, line.target? = some l → l.isEnd = true → ToEnd p lines l (line :: code)) :
    Orderly p lines K (line :: code) := by
  constructor
  · intro slot rest heq
    cases heq
    exact hload slot rfl
  · intro l rest heq
    cases heq
    exact hlabel l rfl
  · intro line' rest l heq hline
    cases heq
    exact htarget l hline

/-- A line that names a label. -/
theorem Orderly.of_target (htarget : line.target? = some l)
    (hend : l.isEnd = true → ToEnd p lines l (line :: code)) : Orderly p lines K (line :: code) := by
  refine .of_line (fun slot => ?_) (fun l' => ?_) fun l' hl' => ?_
  · rintro rfl
    cases htarget
  · intro hlabel
    cases line with
    | label => cases htarget
    | _ => cases hlabel
  · cases htarget.symm.trans hl'
    exact hend

theorem Orderly.mono (h : Orderly p lines K code) (hK : ∀ slot, K slot → K' slot) : Orderly p lines K' code :=
  ⟨fun heq => hK _ (h.load heq), h.label, h.target⟩

namespace Safe

variable (h : Safe p lines n K code calls)

include h

theorem mono (hK : ∀ slot, K slot → K' slot) : Safe p lines n K' code calls := by
  induction n generalizing K K' code calls with
  | zero => trivial
  | succ n ih =>
    refine ⟨h.1.mono hK, fun code' calls' hgoes => ?_⟩
    exact ih (h.2 hgoes) fun slot hslot => hslot.imp_left (hK slot)

theorem stored (place : List Line) : Safe p lines n (Semantics.stored K place) code calls :=
  h.mono fun _ hslot => .inl hslot

theorem of_le {m : Nat} (hle : m ≤ n) : Safe p lines m K code calls := by
  induction m generalizing n K code calls with
  | zero => trivial
  | succ m ih =>
    obtain ⟨n, rfl⟩ := Nat.exists_eq_add_of_le' (Nat.le_trans (Nat.le_add_left 1 m) hle)
    exact ⟨h.1, fun code' calls' hgoes => ih (h.2 hgoes) (Nat.le_of_succ_le_succ hle)⟩

theorem below : ∀ k < n, Safe p lines k K code calls :=
  fun _ hk => h.of_le (Nat.le_of_lt hk)

omit h

/-- A path is in order if its first place is and all paths on from there are. -/
theorem intro (horderly : Orderly p lines K code)
    (h : ∀ k < n, ∀ code' calls', Goes lines code calls code' calls' →
      Safe p lines k (Semantics.stored K code) code' calls') : Safe p lines n K code calls := by
  cases n with
  | zero => trivial
  | succ n => exact ⟨horderly, fun code' calls' hgoes => h n (Nat.lt_succ_self n) code' calls' hgoes⟩

/-- A line that control passes, if it passes it at all, on to the next line. -/
theorem passed (hplain : line.Plain) (hreturn : line ≠ .returnCall)
    (hload : ∀ slot, line = .load slot → K slot)
    (h : line.falls = true → Safe p lines n (Semantics.stored K (line :: code)) code calls) :
    Safe p lines n K (line :: code) calls := by
  refine .intro (.of_line hload ?_ ?_) fun k hk code' calls' hgoes => ?_
  · intro l hl
    rw [hplain.label] at hl
    cases hl
  · intro l hl
    rw [Line.target?, hplain.jump, hplain.call] at hl
    cases hl
  · cases hgoes with
    | falls hfalls => exact (h hfalls).below k hk
    | jumps hjump =>
      rw [hplain.jump] at hjump
      cases hjump
    | calls => cases hplain.call
    | returns => exact absurd rfl hreturn

theorem plain (hplain : line.Plain) (hreturn : line ≠ .returnCall)
    (hload : ∀ slot, line = .load slot → K slot) (h : Safe p lines n K code calls) :
    Safe p lines n K (line :: code) calls :=
  .passed hplain hreturn hload fun _ => h.stored _

theorem store {slot : Nat} (h : Safe p lines n (fun x => K x ∨ x = slot) code calls) :
    Safe p lines n K (.store slot :: code) calls := by
  refine .passed ⟨rfl, rfl, rfl⟩ nofun nofun fun _ => h.mono fun x hx => ?_
  rcases hx with hx | rfl
  · exact .inl hx
  · exact .inr rfl

theorem stores {slots : List Nat} (h : Safe p lines n (fun x => K x ∨ x ∈ slots) code calls) :
    Safe p lines n K (storeLines slots ++ code) calls := by
  induction slots generalizing code with
  | nil => exact h.mono fun x hx => hx.resolve_right nofun
  | cons slot slots ih =>
    have hcode : storeLines (slot :: slots) ++ code = storeLines slots ++ (.store slot :: code) := by
      simp [storeLines]
    rw [hcode]
    refine ih (.store (h.mono fun x hx => ?_))
    rcases hx with hx | hx
    · exact .inl (.inl hx)
    · exact (mem_cons.mp hx).symm.imp_left .inr

theorem label (hl : l.isEnd = false) (h : Safe p lines n K code calls) :
    Safe p lines n K (.label l :: code) calls := by
  refine .intro (.of_line nofun ?_ nofun) fun k hk code' calls' hgoes => ?_
  · intro l' hl'
    cases hl'
    exact hl
  · cases hgoes with
    | falls => exact (h.below k hk).stored _
    | jumps hjump => cases hjump

variable (hlabels : Distinct lines)

include hlabels

variable (hplace : .label l :: after <:+ lines)

include hplace

theorem branch (hend : l.isEnd = true → ToEnd p lines l (.branch l :: code))
    (h : ∀ k < n, Safe p lines k K after calls) : Safe p lines n K (.branch l :: code) calls := by
  refine .intro (.of_target rfl hend) fun k hk code' calls' hgoes => ?_
  cases hgoes with
  | falls hfalls => cases hfalls
  | jumps hjump hseek =>
    cases hjump
    cases (seek_eq hlabels hplace).symm.trans hseek
    exact (h k hk).stored _

/-- A jump to a label inside of a body. -/
theorem jump (hl : l.isEnd = false)
    (h : ∀ k < n, Safe p lines k K after calls) : Safe p lines n K (.branch l :: code) calls := by
  exact .branch hlabels hplace (fun hend => nomatch hl.symm.trans hend) h

theorem branchZero
    (hl : l.isEnd = false) (h : Safe p lines n K code calls) (h' : Safe p lines n K after calls) :
    Safe p lines n K (.branchZero l :: code) calls := by
  refine .intro (.of_target rfl fun hend => nomatch hl.symm.trans hend)
    fun k hk code' calls' hgoes => ?_
  cases hgoes with
  | falls => exact (h.below k hk).stored _
  | jumps hjump hseek =>
    cases hjump
    cases (seek_eq hlabels hplace).symm.trans hseek
    exact (h'.below k hk).stored _

theorem call (hl : l.isEnd = false)
    (h : ∀ k < n, Safe p lines k K after (code :: calls)) : Safe p lines n K (.call l :: code) calls := by
  refine .intro (.of_target rfl fun hend => nomatch hl.symm.trans hend)
    fun k hk code' calls' hgoes => ?_
  cases hgoes with
  | falls _ hcall => cases hcall
  | jumps hjump => cases hjump
  | calls hseek =>
    cases (seek_eq hlabels hplace).symm.trans hseek
    exact (h k hk).stored _

omit hplace

omit hlabels

theorem returnCall {back : List Line} (h : Safe p lines n K back calls) :
    Safe p lines n K (.returnCall :: code) (back :: calls) := by
  refine .intro (.of_line nofun nofun nofun) fun k hk code' calls' hgoes => ?_
  cases hgoes with
  | falls hfalls => cases hfalls
  | jumps hjump => cases hjump
  | returns => exact (h.below k hk).stored _

end Safe

end Lines

/-! ### Scopes and slots -/

/-- Everything that is seen from a scope may be used: variables lie in slots that were stored to. -/
structure Ready (p : Program) (K : Nat → Prop) (scope : ScopeId) : Prop where
  sighted : Program.Sighted p.scopes p.functions scope
  covers : ∀ slot, p.scopes.Bound scope slot → K slot

section Ready

variable {p : Program} {K : Nat → Prop} {scope inner : ScopeId}

/-- What is seen from the scope itself adds no slots. -/
theorem Ready.absorb (h : Ready p K scope) : ∀ slot, K slot ∨ p.scopes.Bound scope slot → K slot :=
  fun slot hslot => hslot.elim id (h.covers slot)

theorem Ready.block (h : Ready p K scope) (hopens : p.scopes.Opens .block scope inner []) :
    Ready p K inner := by
  refine ⟨h.sighted.opens hopens nofun, fun slot hslot => ?_⟩
  rcases hopens.bound_iff.mp hslot with ⟨x, hx, _⟩ | hslot
  · cases hx
  · exact h.covers slot hslot

/-- The variables of a scope that holds some names lie in the slots of these names. -/
theorem mem_slots_of_bound {kind : Scope.Kind} {names : List Ident} {isKind : Symbol.Kind → Bool}
    (hholds : p.scopes.Holds kind scope inner names isKind) {slots : List Nat}
    (hslots : SlotsOf p inner names slots) {slot : Nat} (h : p.scopes.Bound inner slot) :
    p.scopes.Bound scope slot ∨ slot ∈ slots := by
  obtain ⟨symbols, hopens, rfl, _⟩ := hholds
  rcases hopens.bound_iff.mp h with ⟨x, hx, hvariable⟩ | hbound
  · have hmem : some (Symbol.Kind.variable slot) ∈ slots.map fun slot => some (.variable slot) := by
      rw [← hslots, map_map, mem_map]
      refine ⟨x, hx, ?_⟩
      rw [← hvariable]
      exact hopens.kindOf?_mem hx
    obtain ⟨slot', hslot', heq⟩ := mem_map.mp hmem
    cases heq
    exact .inr hslot'
  · exact .inl hbound

/-- A function may be entered when its parameters have been stored. -/
theorem Ready.callee (h : Ready p K scope) {name : String} {f : Nat}
    (hlook : p.scopes.kindOf? scope name = some (.function f)) {callee : Function}
    (hcallee : p.functions[f]? = some callee)
    (hsighted : Program.Sighted p.scopes p.functions callee.scope) {slots : List Nat}
    (hslots : SlotsOf p callee.scope (callee.params.map (·.1)) slots) :
    Ready p (fun x => K x ∨ x ∈ slots) callee.scope := by
  obtain ⟨callee', tip, isKind, hcallee', hholds, hbound⟩ := h.sighted hlook
  cases hcallee.symm.trans hcallee'
  refine ⟨hsighted, fun slot hslot => ?_⟩
  exact (mem_slots_of_bound hholds hslots hslot).imp_left fun hslot => h.covers slot (hbound slot hslot)

end Ready

/-! ### Pieces -/

/-- A body that code is part of, by its statements, the place where it begins and the place behind it. -/
structure Frame where
  stmts : List Stmt
  place : List Line
  behind : List Line

/-- Lines and what follows them stand in the body. -/
structure Frame.Encloses (F : Frame) (lines ls code : List Line) : Prop where
  lines : F.place <:+ lines
  place : ls ++ code <:+ F.place
  behind : F.behind <:+ code

/-- Control is at the last line of a `return` of the body, in a loop or not. -/
def Frame.Returns (F : Frame) (p : Program) (c : Context) (code : List Line) : Prop :=
  ∃ span value loopEnds ls rest, code = c.exit.line :: rest ∧ Within F.stmts (.ret span value) ∧
    Code p { c with loopEnds := loopEnds } (.stmt (.ret span value)) (ls ++ [c.exit.line]) ∧
    ls ++ code <:+ F.place ∧ F.behind <:+ rest

/-- Paths are in order from where code may leave its body or its loop. -/
structure Leads (p : Program) (lines : List Line) (n : Nat) (c : Context) (F : Frame) (K : Nat → Prop)
    (calls : List (List Line)) : Prop where
  exit : ∀ ⦃code⦄, F.Returns p c code → Safe p lines n K code calls
  loopEnd : ∀ ⦃l⦄, c.loopEnd = some l →
    l.isEnd = false ∧ ∃ after, .label l :: after <:+ lines ∧ Safe p lines n K after calls

/-- Paths that are in order from behind some lines are so from the lines on. -/
def Through (p : Program) (lines : List Line) (bound : Nat) (K : Nat → Prop) (ls : List Line) : Prop :=
  ∀ ⦃n⦄, n ≤ bound → ∀ ⦃code calls⦄, ls ++ code <:+ lines → Safe p lines n K code calls →
    Safe p lines n K (ls ++ code) calls

/-- What is shown of the code of a piece: paths from it are in order if they are from where it leads to.
Control does not go on behind statements that terminate. -/
def Keeps (p : Program) (lines : List Line) (bound : Nat) (c : Context) (ls : List Line) : Piece → Prop
  | .expr e => ∀ ⦃K scope tree⦄, Ready p K scope →
      e.Mirrors (.seen (p.scopes.kindOf? scope) scope) tree → Through p lines bound K ls
  | .exprs es => ∀ ⦃K scope⦄, Ready p K scope →
      (∀ e ∈ es, ∃ tree, e.Mirrors (.seen (p.scopes.kindOf? scope) scope) tree) → Through p lines bound K ls
  | .stmt st => ∀ ⦃n⦄, n ≤ bound → ∀ ⦃F K next scope tree after code calls⦄, Ready p K scope →
      StmtMirrors p.scopes next scope tree st after → Within F.stmts st → F.Encloses lines ls code →
      Leads p lines n c F K calls →
      (st.terminates = false →
        Safe p lines n (fun slot => K slot ∨ p.scopes.Bound after slot) code calls) →
      Safe p lines n K (ls ++ code) calls
  | .block stmts => ∀ ⦃n⦄, n ≤ bound → ∀ ⦃F K next scope trees code calls⦄, Ready p K scope →
      BlockMirrors p.scopes next scope trees stmts → (∀ st ∈ stmts, Within F.stmts st) →
      F.Encloses lines ls code → Leads p lines n c F K calls →
      (Program.blockTerminates stmts = false → Safe p lines n K code calls) →
      Safe p lines n K (ls ++ code) calls

section Pieces

variable {p : Program} {lines : List Line} {bound n : Nat} {c : Context} {F : Frame}
  {K K' : Nat → Prop} {scope : ScopeId} {ls ls' code : List Line} {calls : List (List Line)}

theorem Frame.Encloses.suffix (h : F.Encloses lines ls code) : ls ++ code <:+ lines :=
  h.place.trans h.lines

theorem Leads.mono (h : Leads p lines n c F K calls) (hK : ∀ slot, K slot → K' slot) :
    Leads p lines n c F K' calls := by
  refine ⟨fun code hreturns => (h.exit hreturns).mono hK, fun l hl => ?_⟩
  obtain ⟨hend, after, hplace, hsafe⟩ := h.loopEnd hl
  exact ⟨hend, after, hplace, hsafe.mono hK⟩

theorem Leads.of_le {m : Nat} (h : Leads p lines n c F K calls) (hle : m ≤ n) :
    Leads p lines m c F K calls := by
  refine ⟨fun code hreturns => (h.exit hreturns).of_le hle, fun l hl => ?_⟩
  obtain ⟨hend, after, hplace, hsafe⟩ := h.loopEnd hl
  exact ⟨hend, after, hplace, hsafe.of_le hle⟩

namespace Through

theorem nil : Through p lines bound K [] := fun _ _ _ _ _ h => h

theorem append (h : Through p lines bound K ls) (h' : Through p lines bound K ls') :
    Through p lines bound K (ls ++ ls') := by
  intro n hn code calls hplace hsafe
  rw [append_assoc] at hplace ⊢
  exact h hn hplace (h' hn (suffix_behind hplace) hsafe)

theorem one {line : Line} (hplain : line.Plain) (hreturn : line ≠ .returnCall)
    (hload : ∀ slot, line = .load slot → K slot) : Through p lines bound K [line] :=
  fun _ _ _ _ _ h => h.plain hplain hreturn hload

theorem operation {line : Line} (hop : line.isOperation = true) : Through p lines bound K [line] := by
  refine .one (Line.plain_of_isOperation hop) ?_ fun slot => ?_
  · rintro rfl
    cases hop
  · rintro rfl
    cases hop

/-- Lines that move data and take none from slots. -/
theorem plain (h : ∀ line ∈ ls, line.Plain ∧ line ≠ .returnCall ∧ ∀ slot, line ≠ .load slot) :
    Through p lines bound K ls := by
  induction ls with
  | nil => exact nil
  | cons line rest ih =>
    obtain ⟨hplain, hreturn, hload⟩ := h line mem_cons_self
    have hline : Through p lines bound K [line] :=
      one hplain hreturn fun slot hslot => absurd hslot (hload slot)
    exact hline.append (ih fun line' hline' => h line' (mem_cons_of_mem _ hline'))

theorem pops (count : Nat) : Through p lines bound K (List.replicate count .pop) := by
  refine plain fun line hline => ?_
  rw [eq_of_mem_replicate hline]
  exact ⟨⟨rfl, rfl, rfl⟩, nofun, nofun⟩

end Through

/-! ### Expressions -/

section Exprs

variable (hlabels : Distinct lines)

include hlabels

/-- A choice between two ways that both lead on. -/
theorem Through.twoWay {no fi : Label} (hno : no.isEnd = false) (hfi : fi.isEnd = false)
    {lt ly ln : List Line} (ht : Through p lines bound K lt) (hy : Through p lines bound K ly)
    (hn : Through p lines bound K ln) :
    Through p lines bound K
      (lt ++ [.branchZero no] ++ ly ++ [.branch fi, .label no] ++ ln ++ [.label fi]) := by
  intro n hle code calls hplace hsafe
  simp only [append_assoc, cons_append, nil_append] at hplace ⊢
  have hyesPlace := suffix_next (suffix_behind hplace)
  have hfalse := suffix_next (suffix_behind hyesPlace)
  have hnoPlace := suffix_next hfalse
  have hend := suffix_behind hnoPlace
  exact ht hle hplace (.branchZero hlabels hfalse hno
    (hy hle hyesPlace (.jump hlabels hend hfi hsafe.below))
    (hn hle hnoPlace (.label hfi hsafe)))

variable {span : Span} {f site : Nat} {callee : Function} {args : List Expr} {slots : List Nat}
  {body : List Line} {tip : ScopeId} (hcallee : p.functions[f]? = some callee)
  (hterminates : Program.blockTerminates callee.body = true)
  (hsighted : callee.Sighted p.scopes p.functions tip)
  (hslots : SlotsOf p callee.scope (callee.params.map (·.1)) slots)

include hcallee hterminates hsighted hslots

/-- The body of a function in place of a call is entered from above and left by its returns only. -/
theorem Keeps.inlined (hinline : callee.inline = true)
    (hcode : Code p (c.inlined callee.name.text site) (.block callee.body) body)
    (hargs : Keeps p lines bound c ls (.exprs args))
    (hbody : Keeps p lines bound (c.inlined callee.name.text site) body (.block callee.body)) :
    Keeps p lines bound c (ls ++ storeLines slots ++ body ++
      [.label ((c.inlined callee.name.text site).label (.inlineEnd callee.name.text))])
      (.expr (.call span f callee.name.text site args)) := by
  intro K scope tree hready hmirrors n hn code calls hplace hsafe
  obtain ⟨hlook, hargsMirror⟩ := hmirrors.call_inv
  obtain ⟨trees, hblock⟩ := hsighted.body
  simp only [append_assoc, cons_append, nil_append] at hplace ⊢
  have hbodyPlace := suffix_behind (suffix_behind hplace)
  have hend := suffix_behind hbodyPlace
  refine hargs hready hargsMirror hn hplace (.stores ?_)
  have hready' := hready.callee hlook hcallee hsighted.sighted hslots
  refine hbody (F := ⟨callee.body, _, _⟩) hn hready' hblock (fun st hst => .top hst)
    ⟨hbodyPlace, suffix_refl _, suffix_refl _⟩ ⟨?_, nofun⟩ fun hfalse => nomatch hterminates.symm.trans hfalse
  rintro _ ⟨span', value, loopEnds, ls', _, rfl, hwithin, hreturn, ⟨before, hbefore⟩, rest, rfl⟩
  have hsplit : before ++ (ls' ++ [(c.inlined callee.name.text site).exit.line]) ++ rest = body := by
    refine append_cancel_right (Eq.trans ?_ hbefore)
    simp only [append_assoc, cons_append, nil_append]
  subst hsplit
  refine .branch hlabels hend (fun _ => .returns (.mk rfl (mem_of_getElem? hcallee) hinline
    hwithin hreturn hcode hbodyPlace)) ?_
  exact (hsafe.mono fun _ hslot => .inl hslot).below

/-- A subroutine is called, and its returns lead back behind the call. -/
theorem Keeps.called {after : List Line}
    (hentry : .label (.subroutine callee.name.text) :: (body ++ after) <:+ lines)
    (hargs : Keeps p lines bound c ls (.exprs args))
    (hbody : ∀ k < bound, Keeps p lines k (.outer .returnCall) body (.block callee.body)) :
    Keeps p lines bound c (ls ++ storeLines slots ++ [.call (.subroutine callee.name.text)])
      (.expr (.call span f callee.name.text site args)) := by
  intro K scope tree hready hmirrors n hn code calls hplace hsafe
  obtain ⟨hlook, hargsMirror⟩ := hmirrors.call_inv
  obtain ⟨trees, hblock⟩ := hsighted.body
  simp only [append_assoc, cons_append, nil_append] at hplace ⊢
  refine hargs hready hargsMirror hn hplace (.stores (.call hlabels hentry rfl fun k hk => ?_))
  have hready' := hready.callee hlook hcallee hsighted.sighted hslots
  refine hbody k (Nat.lt_of_lt_of_le hk hn) (F := ⟨callee.body, body ++ after, after⟩) .refl
    hready' hblock (fun st hst => .top hst)
    ⟨suffix_next hentry, suffix_refl _, suffix_refl _⟩ ⟨?_, nofun⟩
    fun hfalse => nomatch hterminates.symm.trans hfalse
  rintro _ ⟨_, _, _, _, _, rfl, _⟩
  exact .returnCall ((hsafe.mono fun _ hslot => .inl hslot).below k hk)

end Exprs

/-! ### Statements -/

variable {st : Stmt} {tip : ScopeId}

theorem sighted_behind {next : Nat} {tree : Tree.Stmt} {after : ScopeId}
    (h : StmtMirrors p.scopes next scope tree st after)
    (hsighted : Program.Sighted p.scopes p.functions scope) : Program.Sighted p.scopes p.functions after := by
  cases h with
  | decl hdecl =>
    obtain ⟨names, isKind, hholds, hnone⟩ := hdecl.holds
    exact hsighted.holds hholds hnone
  | _ => exact hsighted

variable {span : Span} {value : Expr} {slots : List Nat} {items : List Tree.Item}

theorem Keeps.varDecl {inner : ScopeId} {names : List Ident} (hslots : SlotsOf p inner names slots)
    (hvalue : Keeps p lines bound c ls (.expr value)) :
    Keeps p lines bound c (ls ++ storeLines slots) (.stmt (.varDecl span inner names value)) := by
  intro n hn F K next scope tree after code calls hready hmirrors _ hencloses _ hnext
  have hplace := hencloses.suffix
  rw [append_assoc] at hplace ⊢
  cases hmirrors with
  | decl hdecl =>
    cases hdecl with
    | varDecl _ hvalueMirrors hholds =>
      refine hvalue hready hvalueMirrors hn hplace (.stores ((hnext rfl).mono fun slot hslot => ?_))
      rcases hslot with hslot | hslot
      · exact .inl hslot
      · exact (mem_slots_of_bound hholds hslots hslot).imp_left (hready.covers slot)

theorem Keeps.assign {scope : ScopeId} {targets : List Ident}
    (hvalue : Keeps p lines bound c ls (.expr value)) :
    Keeps p lines bound c (ls ++ storeLines slots) (.stmt (.assign span scope targets value)) := by
  intro n hn F K next scope tree after code calls hready hmirrors _ hencloses _ hnext
  have hplace := hencloses.suffix
  rw [append_assoc] at hplace ⊢
  cases hmirrors with
  | decl hdecl => cases hdecl
  | assign _ _ hvalueMirrors =>
    refine hvalue hready hvalueMirrors hn hplace (.stores ((hnext rfl).mono fun slot hslot => ?_))
    exact .inl (hready.absorb slot hslot)

/-- A statement of one operation. -/
theorem Keeps.operation {line : Line} (hst : st.terminates = false) (hop : line.isOperation = true)
    (hinv : ∀ {next scope after : ScopeId} {tree : Tree.Stmt},
      StmtMirrors p.scopes next scope tree st after →
      after = scope) : Keeps p lines bound c [line] (.stmt st) := by
  intro n hn F K next scope tree after code calls hready hmirrors _ hencloses _ hnext
  obtain rfl := hinv hmirrors
  exact Through.operation hop hn hencloses.suffix ((hnext hst).mono hready.absorb)

/-- A value is left to lines that control passes. -/
theorem Keeps.taken (hst : st.terminates = false)
    (hinv : ∀ {next scope after : ScopeId} {tree : Tree.Stmt}, StmtMirrors p.scopes next scope tree st after →
      after = scope ∧ ∃ tree, value.Mirrors (.seen (p.scopes.kindOf? scope) scope) tree)
    (hvalue : Keeps p lines bound c ls (.expr value)) (htail : ∀ K, Through p lines bound K ls') :
    Keeps p lines bound c (ls ++ ls') (.stmt st) := by
  intro n hn F K next scope tree after code calls hready hmirrors _ hencloses _ hnext
  have hplace := hencloses.suffix
  rw [append_assoc] at hplace ⊢
  obtain ⟨rfl, tree', hvalueMirrors⟩ := hinv hmirrors
  refine hvalue hready hvalueMirrors hn hplace ?_
  exact htail K hn (suffix_behind hplace) ((hnext hst).mono hready.absorb)

theorem Keeps.ret (hscalar : value.arity p = 1) (hcode : Code p c (.expr value) ls)
    (hvalue : Keeps p lines bound c ls (.expr value)) :
    Keeps p lines bound c (ls ++ [c.exit.line]) (.stmt (.ret span value)) := by
  intro n hn F K next scope tree after code calls hready hmirrors hwithin hencloses hleads _
  have hplace := hencloses.place
  rw [append_assoc] at hplace ⊢
  cases hmirrors with
  | decl hdecl => cases hdecl
  | ret hvalueMirrors =>
    refine hvalue hready hvalueMirrors hn (hplace.trans hencloses.lines) (hleads.exit ?_)
    exact ⟨span, value, c.loopEnds, ls, code, rfl, hwithin, .ret hcode hscalar, hplace, hencloses.behind⟩

section Branches

variable (hlabels : Distinct lines)

include hlabels

variable {span : Span} {test : Expr} {yes : List Stmt} {lt ly : List Line}

variable (htest : Keeps p lines bound c lt (.expr test))

include htest

theorem Keeps.ifThen {label : Nat} (hyes : Keeps p lines bound c ly (.block yes)) :
    Keeps p lines bound c (ifLines c label lt ly) (.stmt (.ifThen span label test yes)) := by
  intro n hn F K next scope tree after code calls hready hmirrors hwithin hencloses hleads hnext
  have hplace := hencloses.place
  simp only [ifLines, append_assoc, cons_append, nil_append] at hplace ⊢
  have hyesPlace := suffix_next (suffix_behind hplace)
  have hend := (suffix_behind hyesPlace).trans hencloses.lines
  cases hmirrors with
  | decl hdecl => cases hdecl
  | ifThen htestMirrors hopens hyesMirrors =>
    have hsafe := (hnext rfl).mono hready.absorb
    refine htest hready htestMirrors hn (hplace.trans hencloses.lines)
      (.branchZero hlabels hend rfl ?_ hsafe)
    exact hyes hn (hready.block hopens) hyesMirrors (fun st hst => .ifThen hwithin hst)
      ⟨hencloses.lines, hyesPlace, hencloses.behind.trans (suffix_cons _ _)⟩ hleads
      fun _ => .label rfl hsafe

theorem Keeps.ifElse {label : Nat} {no : List Stmt} {ln : List Line} (hyes : Keeps p lines bound c ly (.block yes))
    (hno : Keeps p lines bound c ln (.block no)) : Keeps p lines bound c (ifElseLines c label lt ly ln)
      (.stmt (.ifElse span label test yes no)) := by
  intro n hn F K next scope tree after code calls hready hmirrors hwithin hencloses hleads hnext
  have hplace := hencloses.place
  simp only [ifElseLines, append_assoc, cons_append, nil_append] at hplace ⊢
  have hyesPlace := suffix_next (suffix_behind hplace)
  have hfalse := suffix_next (suffix_behind hyesPlace)
  have hnoPlace := suffix_next hfalse
  have hend := suffix_behind hnoPlace
  have hbehind := hencloses.behind.trans (suffix_cons (.label (c.label (.ifEnd label))) _)
  cases hmirrors with
  | decl hdecl => cases hdecl
  | ifElse htestMirrors hopens hyesMirrors hopens' hnoMirrors =>
    -- If one of the ways does not terminate, then the statement does not either.
    have hsafe : Program.blockTerminates yes = false ∨ Program.blockTerminates no = false →
        Safe p lines n K code calls :=
      fun hway => (hnext (Bool.and_eq_false_iff.mpr hway)).mono hready.absorb
    refine htest hready htestMirrors hn (hplace.trans hencloses.lines)
      (.branchZero hlabels (hfalse.trans hencloses.lines) rfl ?_ ?_)
    · refine hyes hn (hready.block hopens) hyesMirrors (fun st hst => .ifYes hwithin hst)
        ⟨hencloses.lines, hyesPlace, ?_⟩ hleads fun hway => ?_
      · exact hbehind.trans ((suffix_append _ _).trans
          ((suffix_cons _ _).trans (suffix_cons _ _)))
      · exact .jump hlabels (hend.trans hencloses.lines) rfl (hsafe (.inl hway)).below
    · exact hno hn (hready.block hopens') hnoMirrors (fun st hst => .ifNo hwithin hst)
        ⟨hencloses.lines, hnoPlace, hbehind⟩ hleads fun hway => .label rfl (hsafe (.inr hway))

/-- The induction is on the number of steps: the jump back takes one of them. -/
theorem Keeps.loop {label : Nat} {body : List Stmt} {lb : List Line}
    (hbody : Keeps p lines bound (c.inLoop label) lb (.block body)) :
    Keeps p lines bound c (loopLines c label lt lb) (.stmt (.loop span label test body)) := by
  intro n hn F K next scope tree after code calls hready hmirrors hwithin hencloses hleads hnext
  have hplace := hencloses.place
  simp only [loopLines, append_assoc, cons_append, nil_append] at hplace ⊢
  have htestPlace := suffix_next hplace
  have hbodyPlace := suffix_next (suffix_behind htestPlace)
  have hend := suffix_next (suffix_behind hbodyPlace)
  have hbehind := hencloses.behind.trans ((suffix_cons (.label (c.label (.loopEnd label))) _).trans
    (suffix_cons (.branch (c.label (.loopStart label))) _))
  cases hmirrors with
  | decl hdecl => cases hdecl
  | loop htestMirrors hopens hbodyMirrors =>
    have hsafe := (hnext rfl).mono hready.absorb
    refine .label rfl ?_
    have hagain : ∀ k, k ≤ n → Safe p lines k K (lt ++ .branchZero (c.label (.loopEnd label)) ::
        (lb ++ .branch (c.label (.loopStart label)) :: .label (c.label (.loopEnd label)) :: code))
        calls := by
      intro k
      induction k using Nat.strongRecOn with
      | ind k ih =>
        intro hk
        have hle := Nat.le_trans hk hn
        refine htest hready htestMirrors hle (htestPlace.trans hencloses.lines)
          (.branchZero hlabels (hend.trans hencloses.lines) rfl ?_ (hsafe.of_le hk))
        refine hbody hle (hready.block hopens) hbodyMirrors (fun st hst => .loop hwithin hst)
          ⟨hencloses.lines, hbodyPlace, hbehind⟩ ⟨(hleads.of_le hk).exit, ?_⟩ fun _ => ?_
        · intro l hl
          cases hl
          exact ⟨rfl, code, hend.trans hencloses.lines, hsafe.of_le hk⟩
        · exact .jump hlabels (hplace.trans hencloses.lines) rfl fun j hj =>
            ih j hj (Nat.le_trans (Nat.le_of_lt hj) hk)
    exact hagain n .refl

omit htest

theorem Keeps.breakLoop {target : Label} (hloop : c.loopEnd = some target) :
    Keeps p lines bound c [.branch target] (.stmt (.breakLoop span)) := by
  intro n hn F K next scope tree after code calls _ _ _ _ hleads _
  obtain ⟨hend, behind, hplace, hsafe⟩ := hleads.loopEnd hloop
  exact .jump hlabels hplace hend hsafe.below

end Branches

theorem Keeps.blockCons {st : Stmt} {rest : List Stmt} (hst : Keeps p lines bound c ls (.stmt st))
    (hrest : Keeps p lines bound c ls' (.block rest)) :
    Keeps p lines bound c (ls ++ ls') (.block (st :: rest)) := by
  intro n hn F K next scope trees code calls hready hmirrors hwithin hencloses hleads hnext
  have hplace := hencloses.place
  rw [append_assoc] at hplace ⊢
  cases hmirrors with
  | @cons _ _ after _ _ _ _ hstmt hblock =>
    refine hst hn hready hstmt (hwithin st mem_cons_self)
      ⟨hencloses.lines, hplace, hencloses.behind.trans (suffix_append _ _)⟩ hleads fun hgoes => ?_
    have hK : ∀ slot, K slot → K slot ∨ p.scopes.Bound after slot := fun _ => .inl
    refine hrest hn ⟨sighted_behind hstmt hready.sighted, fun _ => .inr⟩ hblock
      (fun s hs => hwithin s (mem_cons_of_mem _ hs))
      ⟨hencloses.lines, suffix_behind hplace, hencloses.behind⟩ (hleads.mono hK)
      fun hgoes' => (hnext ?_).mono hK
    cases rest with
    | nil => exact hgoes
    | cons next rest => exact hgoes'

/-- Code keeps paths in order. The outer induction is on the number of steps, since entering a subroutine
takes one of them; the inner one follows the code. -/
theorem keeps_of_code (hlabels : Distinct lines) (hinstalled : Installed p lines)
    (hterminates : ∀ f ∈ p.functions, Program.blockTerminates f.body = true)
    (hsighted : ∀ f ∈ p.functions, f.Sighted p.scopes p.functions tip) (bound : Nat) {piece : Piece}
    (h : Code p c piece ls) : Keeps p lines bound c ls piece := by
  induction bound using Nat.strongRecOn generalizing c piece ls with
  | ind bound hbelow =>
    induction h with
    | literal | constant => exact fun K scope tree _ _ => .one ⟨rfl, rfl, rfl⟩ nofun nofun
    | «variable» hkind =>
      intro K scope tree hready hmirrors
      cases hmirrors with
      | var hvalue =>
        obtain ⟨rfl, _⟩ := hvalue
        refine .one ⟨rfl, rfl, rfl⟩ nofun fun slot hslot => ?_
        cases hslot
        exact hready.covers _ (Scopes.bound_of_kindOf? hkind)
    | operation heq _ _ _ ih =>
      intro K scope tree hready hmirrors
      exact (ih hready (hmirrors.operands heq)).append (.operation (Program.Expr.isOperation_line heq))
    | group _ ih =>
      intro K scope tree hready hmirrors
      cases hmirrors with
      | group he => exact ih hready he
    | cast _ _ ih =>
      intro K scope tree hready hmirrors
      cases hmirrors with
      | cast _ _ he => exact ih hready he
    | inlined hcallee hinline _ _ hslots hbody iha ihb =>
      have hmem := mem_of_getElem? hcallee
      exact .inlined hlabels hcallee (hterminates _ hmem) (hsighted _ hmem) hslots hinline hbody iha ihb
    | called hcallee hinline hentry _ _ hslots iha =>
      have hmem := mem_of_getElem? hcallee
      obtain ⟨body, after, hplace, hbody⟩ := hinstalled _ hmem ⟨hinline, hentry⟩
      exact .called hlabels hcallee (hterminates _ hmem) (hsighted _ hmem) hslots hplace iha
        fun k hk => hbelow k hk hbody
    | cond _ _ _ _ _ _ iht ihy ihn =>
      intro K scope tree hready hmirrors
      cases hmirrors with
      | cond ht hy hn =>
        exact .twoWay hlabels rfl rfl (iht hready ht) (ihy hready hy) (ihn hready hn)
    | nil => exact fun K scope _ _ => .nil
    | cons _ _ _ ihe ihr =>
      intro K scope hready hmirrors
      obtain ⟨tree, he⟩ := hmirrors _ mem_cons_self
      exact (ihe hready he).append (ihr hready fun e he => hmirrors e (mem_cons_of_mem _ he))
    | varDecl _ _ hslots ih => exact .varDecl hslots ih
    | constDecl =>
      intro n hn F K next scope tree after code calls hready hmirrors _ _ _ hnext
      cases hmirrors with
      | decl hdecl =>
        cases hdecl with
        | constDecl _ _ _ hholds =>
          refine (hnext rfl).mono fun slot hslot => hslot.elim id fun hslot => ?_
          obtain ⟨symbols, hopens, _, hkinds⟩ := hholds
          rcases hopens.bound_iff.mp hslot with ⟨x, hx, hvariable⟩ | hslot
          · have hkind := hkinds x hx
            rw [hvariable] at hkind
            cases hkind
          · exact hready.covers slot hslot
    | assign _ _ _ ih => exact .assign ih
    | setField _ _ ih =>
      refine ih.taken rfl (fun hmirrors => ?_) fun K => .operation rfl
      cases hmirrors with
      | decl hdecl => cases hdecl
      | setField _ _ hvalue => exact ⟨rfl, _, hvalue⟩
    | innerBegin | innerSubmit =>
      refine .operation rfl rfl fun hmirrors => ?_
      cases hmirrors with
      | decl hdecl => cases hdecl
      | _ => rfl
    | ret hvalue hscalar ih => exact ih.ret hscalar hvalue
    | error =>
      intro n hn F K next scope tree after code calls _ _ _ _ _ _
      exact .passed ⟨rfl, rfl, rfl⟩ nofun nofun nofun
    | ifThen _ _ _ iht ihy => exact iht.ifThen hlabels ihy
    | ifElse _ _ _ _ iht ihy ihn => exact iht.ifElse hlabels ihy ihn
    | loop _ _ _ iht ihb => exact iht.loop hlabels ihb
    | breakLoop hloop => exact .breakLoop hlabels hloop
    | exprStmt _ ih =>
      refine ih.taken rfl (fun hmirrors => ?_) fun K => .pops _
      cases hmirrors with
      | decl hdecl => cases hdecl
      | expr hvalue => exact ⟨rfl, _, hvalue⟩
    | blockNil =>
      intro n hn F K next scope trees code calls _ _ _ _ _ hnext
      exact hnext rfl
    | blockCons _ _ ihs ihr => exact ihs.blockCons ihr

/-! ### Programs -/

/-- The end of the program may be left at any place. -/
theorem leads_finish : Leads p lines n (.outer .finish) F K calls := by
  refine ⟨?_, nofun⟩
  rintro _ ⟨_, _, _, _, _, rfl, _⟩
  exact .passed ⟨rfl, rfl, rfl⟩ nofun nofun nofun

theorem code_block_snoc {stmts : List Stmt} (h : Code p c (.block (stmts ++ [st])) ls) :
    ∃ a b, ls = a ++ b ∧ Code p c (.block stmts) a ∧ Code p c (.stmt st) b := by
  induction stmts generalizing ls with
  | nil =>
    cases h with
    | blockCons hst hrest =>
      cases hrest
      exact ⟨[], _, by simp, .blockNil, hst⟩
  | cons first rest ih =>
    cases h with
    | blockCons hfirst hrest =>
      obtain ⟨a, b, rfl, ha, hb⟩ := ih hrest
      exact ⟨_ ++ a, b, by simp, .blockCons hfirst ha, hb⟩

/-- The globals store to all slots of variables that are seen behind them. The induction is over the
items, functions among them, since each declaration sees what was declared before it. -/
theorem safe_globals
    (hkeeps : ∀ {piece : Piece} {ls : List Line}, Code p (.outer .finish) piece ls →
      Keeps p lines n (.outer .finish) ls piece) {globals : List Stmt} {functions : List Function}
    (hitems : ItemsMirror p.scopes items tip globals functions) (hbefore : functions <+: p.functions)
    (hcode : Code p (.outer .finish) (.block globals) ls) (hplace : ls ++ code <:+ lines)
    (hsafe : Safe p lines n (p.scopes.Bound tip) code []) :
    Safe p lines n (fun _ => False) (ls ++ code) [] := by
  induction hitems generalizing ls code with
  | start hstart =>
    cases hcode
    exact hsafe.mono fun slot hslot => Program.not_bound_startPath hstart slot hslot
  | @decl items tip globals functions span decl stmt hitems hdecl ih =>
    obtain ⟨a, b, rfl, ha, hb⟩ := code_block_snoc hcode
    rw [append_assoc] at hplace ⊢
    have hbPlace := suffix_behind hplace
    obtain ⟨more, hmore⟩ := hbefore
    have hready : Ready p (p.scopes.Bound tip) tip :=
      ⟨hmore ▸ hitems.sighted.1.append more, fun _ hslot => hslot⟩
    refine ih ⟨more, hmore⟩ ha hplace ?_
    exact hkeeps hb (F := ⟨[stmt], b ++ code, code⟩) .refl hready (.decl hdecl)
      (.top (mem_singleton_self _)) ⟨hbPlace, suffix_refl _, suffix_refl _⟩ leads_finish
      fun _ => hsafe.mono fun _ => .inr
  | function _ _ hopens ih =>
    refine ih ((prefix_append _ _).trans hbefore) hcode hplace (hsafe.mono fun slot hslot => ?_)
    rcases hopens.bound_iff.mp hslot with ⟨x, hx, hvariable⟩ | hslot
    · rw [mem_singleton.mp hx] at hvariable
      cases hvariable
    · exact hslot

/-- Subroutines are passed by, from one to the next. -/
theorem safe_subroutines (hlabels : Distinct lines) {fs : List Function}
    (h : SubroutinesCode p fs ls) (hplace : ls ++ code <:+ lines)
    (hsafe : Safe p lines n K code calls) : Safe p lines n K (ls ++ code) calls := by
  induction h with
  | nil => exact hsafe
  | skip _ _ ih => exact ih hplace
  | cons _ _ _ _ ih =>
    simp only [append_assoc, cons_append, nil_append] at hplace ⊢
    have hbody := suffix_next (suffix_next hplace)
    have hend := suffix_behind hbody
    exact .branch hlabels hend (fun _ => .jumpsOver) (ih (suffix_next hend)).below

/-- All paths through a program are in order. -/
theorem safe_of_programCode (hp : p.Sound) (h : ProgramCode p lines)
    (hitems : ItemsMirror p.scopes items tip p.globals p.functions) (n : Nat) :
    Safe p lines n (fun _ => False) lines [] := by
  obtain ⟨globals, subroutines, body, entry, hlines, hentry, hglobals, hsubroutines, hbody⟩ :=
    exists_parts h
  have hlabels := distinct_of_programCode hp.toWellBuilt h
  have hmem := mem_of_getElem? hentry
  have hsighted := hitems.sighted.2
  obtain ⟨⟨trees, hblock⟩, hentrySighted, hentryBound⟩ := hsighted entry hmem
  obtain ⟨entry', hentry', hisEntry⟩ := hp.entry
  cases hentry.symm.trans hentry'
  have hkeeps : ∀ {piece : Piece} {ls : List Line}, Code p (.outer .finish) piece ls →
      Keeps p lines n (.outer .finish) ls piece :=
    fun hcode => keeps_of_code hlabels (installed_of_programCode h) hp.terminates hsighted n hcode
  have hheader : Through p lines n (fun _ => False) ([.version p.version] ++ poolLines p.pool) := by
    refine .plain fun line hline => ⟨plain_header p line hline, ?_⟩
    rcases header_cases hline with rfl | rfl | rfl <;> exact ⟨nofun, nofun⟩
  have hplace : [.version p.version] ++ poolLines p.pool ++ (globals ++ (subroutines ++ (body ++
      [.label .programEnd]))) <:+ lines := ⟨[], hlines.symm⟩
  have hglobalsPlace := suffix_behind hplace
  have hsubPlace := suffix_behind hglobalsPlace
  have hbodyPlace := suffix_behind hsubPlace
  have hready : Ready p (p.scopes.Bound tip) entry.scope :=
    ⟨hentrySighted, hentryBound hisEntry⟩
  have hlast : Safe p lines n (p.scopes.Bound tip) (body ++ [.label .programEnd]) [] := by
    exact hkeeps hbody (F := ⟨entry.body, _, _⟩) .refl hready hblock
      (fun st hst => .top hst) ⟨hbodyPlace, suffix_refl _, suffix_refl _⟩ leads_finish
      fun hfalse => nomatch (hp.terminates entry hmem).symm.trans hfalse
  have hall := hheader .refl hplace (safe_globals hkeeps hitems (prefix_refl _) hglobals
    hglobalsPlace (safe_subroutines hlabels hsubroutines hsubPlace hlast))
  rw [← hlines] at hall
  exact hall

end Pieces

end Teal.Semantics
