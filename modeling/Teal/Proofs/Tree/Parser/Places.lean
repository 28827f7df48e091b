import Teal.Proofs.Tree.Moved
import Teal.Tree.Parser.Item

/-! What is parsed depends on the lexemes alone. On tokens with the same lexemes at other places a
parser goes the same way: it takes as many tokens, yields the same tree but for places and finds the same
faults. It takes places from tokens and from the end of the text, and it merges some of them; so a relation
between places that merging keeps is one between all places of the two trees and findings, also where tokens
are missing or nesting goes too deep. Each way to combine parsers keeps this, so it holds of all of them. -/

namespace Teal.Parser

open Teal.Tree List

section Loops

variable {α : Type} {step : α → Parser (Turn α)} {a b : α} {s t : State}

theorem iterateFrom_last (h : (step a).run s = (.last b, t)) : iterateFrom step a s = (b, t) := by
  rw [iterateFrom, h]

theorem iterateFrom_again (h : (step a).run s = (.again b, t))
    (hless : t.rest.length < s.rest.length) : iterateFrom step a s = iterateFrom step b t := by
  rw [iterateFrom, h]
  exact if_pos hless

theorem iterateFrom_stuck (h : (step a).run s = (.again b, t))
    (hless : ¬t.rest.length < s.rest.length) : iterateFrom step a s = (b, t) := by
  rw [iterateFrom, h]
  exact if_neg hless

end Loops

/-- The same finding of a parser at two places. -/
inductive SameFinding : Diagnostic → Diagnostic → Prop
  | fault (f : Fault) (a b : Span) : SameFinding (f.toDiagnostic a) (f.toDiagnostic b)
  | remark (message : String) (a b : Span) :
      SameFinding (.ambiguity message a) (.ambiguity message b)

theorem SameFinding.isFatal_eq {d e : Diagnostic} (h : SameFinding d e) : d.isFatal = e.isFatal := by
  cases h with
  | fault f a b => rfl
  | remark message a b => rfl

theorem SameFinding.kind_ne {d e : Diagnostic} (h : SameFinding d e) : d.kind ≠ .semantic := by
  cases h with
  | fault f a b => simp [Fault.toDiagnostic, Diagnostic.syntactic]
  | remark message a b => simp [Diagnostic.ambiguity]

/-- What two lists have in common by their images, and what is known of the members of both. -/
theorem forall₂_of_map_eq {α γ : Type} {f : α → γ} {P : α → Prop} {as bs : List α}
    (h : as.map f = bs.map f) (has : ∀ a ∈ as, P a) (hbs : ∀ b ∈ bs, P b) :
    Forall₂ (fun a b => f a = f b ∧ P a ∧ P b) as bs := by
  induction as generalizing bs with
  | nil =>
    cases bs with
    | nil => exact .nil
    | cons b bs => cases h
  | cons a as ih =>
    cases bs with
    | nil => cases h
    | cons b bs =>
      rw [map_cons, map_cons, List.cons.injEq] at h
      rw [forall_mem_cons] at has hbs
      exact .cons ⟨h.1, has.1, hbs.1⟩ (ih h.2 has.2 hbs.2)

structure TokenMoved (P : Span → Span → Prop) (t u : Token) : Prop where
  lexeme : t.lexeme = u.lexeme
  span : P t.span u.span

structure FindingMoved (P : Span → Span → Prop) (d e : Diagnostic) : Prop where
  same : SameFinding d e
  span : P d.span e.span

def reportsDepth (d : Diagnostic) : Bool := d == Fault.tooDeep.toDiagnostic d.span

/-- That nesting goes too deep is reported once, and from then on no other error is. -/
structure Reported (mute : Bool) (ds : List Diagnostic) : Prop where
  once : ds.countP reportsDepth = mute.toNat
  last : mute = true → (ds.filter (·.isFatal)).getLast?.any reportsDepth = true

namespace Reported

variable {mute : Bool} {ds : List Diagnostic}

theorem remark (h : Reported mute ds) (message : String) (span : Span) :
    Reported mute (ds ++ [.ambiguity message span]) where
  once := by
    rw [countP_append, h.once]
    rfl
  last hmute := by
    rw [filter_append]
    exact (append_nil _).symm ▸ h.last hmute

theorem fault (h : Reported false ds) {f : Fault} (hf : f ≠ .tooDeep) (span : Span) :
    Reported false (ds ++ [f.toDiagnostic span]) := by
  have hnew : reportsDepth (f.toDiagnostic span) = false := by
    refine beq_eq_false_iff_ne.mpr fun hsame => ?_
    have hhelp : f.help? = Fault.tooDeep.help? := congrArg Diagnostic.help hsame
    cases f with
    | tooDeep => exact hf rfl
    | _ => simp [Fault.help?] at hhelp
  refine ⟨?_, nofun⟩
  rw [countP_append, h.once, countP_singleton, hnew]
  rfl

theorem refuse (h : Reported false ds) (span : Span) :
    Reported true (ds ++ [Fault.tooDeep.toDiagnostic span]) := by
  have hnew : reportsDepth (Fault.tooDeep.toDiagnostic span) = true := beq_self_eq_true _
  refine ⟨?_, fun _ => ?_⟩
  · rw [countP_append, h.once, countP_singleton, hnew]
    rfl
  · rw [filter_append, getLast?_append]
    exact hnew

end Reported

/-- The same lexemes at other places, and the same findings about them. -/
structure State.Moved (P : Span → Span → Prop) (s t : State) : Prop where
  rest : Forall₂ (TokenMoved P) s.rest t.rest
  finish : P s.finish t.finish
  last : Option.Rel (TokenMoved P) s.last t.last
  lost : s.lost = t.lost
  mute : s.mute = t.mute
  diagnostics : Forall₂ (FindingMoved P) s.diagnostics t.diagnostics
  reported : Reported s.mute s.diagnostics

namespace State.Moved

variable {P : Span → Span → Prop} {s t : State}

theorem start {tokens tokens' : List Token} (h : Forall₂ (TokenMoved P) tokens tokens')
    {finish finish' : Span} (hfinish : P finish finish') :
    (State.start tokens finish).Moved P (.start tokens' finish') :=
  ⟨h, hfinish, .none, rfl, rfl, .nil, rfl, nofun⟩

variable (h : s.Moved P t)

include h

theorem here : P s.here t.here := by
  have hrest := h.rest
  rw [State.here, State.here]
  generalize s.rest = ts at hrest ⊢
  generalize t.rest = us at hrest ⊢
  cases hrest with
  | nil => exact h.finish
  | cons htoken _ => exact htoken.span

theorem behind : P s.behind t.behind := by
  have hlast := h.last
  rw [State.behind, State.behind]
  generalize s.last = a at hlast ⊢
  generalize t.last = b at hlast ⊢
  cases hlast with
  | none => exact h.here
  | some htoken => exact htoken.span

theorem lexemes : s.rest.map Token.lexeme = t.rest.map Token.lexeme :=
  map_eq_of_forall₂ h.rest fun _ _ ht => ht.lexeme

theorem next : s.next = t.next := by
  rw [State.next, State.next, ← head?_map, ← head?_map, h.lexemes]

theorem map_isFatal : s.diagnostics.map Diagnostic.isFatal = t.diagnostics.map Diagnostic.isFatal :=
  map_eq_of_forall₂ h.diagnostics fun _ _ hd => hd.same.isFatal_eq

theorem errors : s.errors = t.errors := by
  have hcount := congrArg (List.countP id) h.map_isFatal
  rwa [countP_map, countP_map] at hcount

theorem any_isFatal : s.diagnostics.any (·.isFatal) = t.diagnostics.any (·.isFatal) := by
  have hany := congrArg (List.any · id) h.map_isFatal
  rwa [any_map, any_map] at hany

end State.Moved

/-- From the same lexemes two parsers read the same but for places, which stand in a relation. -/
def InStep {α : Type} (P : Span → Span → Prop) (p q : Parser α) (V : α → α → Prop) : Prop :=
  ∀ s t : State, s.Moved P t → V (p.run s).1 (q.run t).1 ∧ (p.run s).2.Moved P (q.run t).2

inductive TurnMoved {α : Type} (V : α → α → Prop) : Turn α → Turn α → Prop
  | again {a b : α} (h : V a b) : TurnMoved V (.again a) (.again b)
  | last {a b : α} (h : V a b) : TurnMoved V (.last a) (.last b)

section Rules

variable {P : Span → Span → Prop} {α β : Type} {V : α → α → Prop} {W : β → β → Prop} {p q : Parser α}
  {f g : α → Parser β}

theorem inStep_pure {a b : α} (h : V a b) : InStep P (pure a) (pure b) V := fun _ _ hst => ⟨h, hst⟩

theorem inStep_bind (hp : InStep P p q V) (hf : ∀ a b, V a b → InStep P (f a) (g b) W) :
    InStep P (p >>= f) (q >>= g) W := by
  intro s t hst
  obtain ⟨hvalue, hrest⟩ := hp s t hst
  exact hf _ _ hvalue _ _ hrest

/-- Parsers with the same value. -/
theorem inStep_then (hp : InStep P p q Eq) (hf : ∀ a, InStep P (f a) (g a) W) :
    InStep P (p >>= f) (q >>= g) W :=
  inStep_bind hp fun a _ h => h ▸ hf a

theorem inStep_map (hp : InStep P p q V) {r r' : α → β} (hr : ∀ a b, V a b → W (r a) (r' b)) :
    InStep P (p >>= fun a => pure (r a)) (q >>= fun a => pure (r' a)) W :=
  inStep_bind hp fun a b hab => inStep_pure (hr a b hab)

theorem inStep_ite {c : Prop} [Decidable c] {p' q' : Parser α} (h : InStep P p q V)
    (h' : InStep P p' q' V) : InStep P (if c then p else p') (if c then q else q') V := by
  split
  · exact h
  · exact h'

theorem inStep_look {v : State → α} (h : ∀ s t : State, s.Moved P t → V (v s) (v t)) :
    InStep P (look v) (look v) V :=
  fun s t hst => ⟨h s t hst, hst⟩

theorem inStep_delay {p q : Unit → Parser α} (h : InStep P (p ()) (q ()) V) :
    InStep P (delay p) (delay q) V := h

variable {step step' : α → Parser (Turn α)} {as bs : List α} {a b : Span}

theorem InStep.turn {p q : Parser (Turn α)} {turn : Turn α} {s s' t : State} (h : InStep P p q (TurnMoved V))
    (hst : s.Moved P t) (hrun : p.run s = (turn, s')) :
    ∃ turn' t', q.run t = (turn', t') ∧ TurnMoved V turn turn' ∧ s'.Moved P t' := by
  have hturn := h s t hst
  rw [hrun] at hturn
  exact ⟨_, _, rfl, hturn⟩

theorem inStep_iterateFrom (h : ∀ a b, V a b → InStep P (step a) (step' b) (TurnMoved V)) (a : α)
    (s : State) : ∀ (b : α) (t : State), V a b → s.Moved P t →
      V (iterateFrom step a s).1 (iterateFrom step' b t).1 ∧
        (iterateFrom step a s).2.Moved P (iterateFrom step' b t).2 := by
  fun_induction iterateFrom step a s with
  | case1 a s c s' hrun =>
    intro b t hab hst
    obtain ⟨_, t', hrun', _ | hvalue, hrest⟩ := (h a b hab).turn hst hrun
    rw [iterateFrom_last hrun']
    exact ⟨hvalue, hrest⟩
  | case2 a s c s' hrun hless ih =>
    intro b t hab hst
    obtain ⟨_, t', hrun', ⟨hvalue⟩, hrest⟩ := (h a b hab).turn hst hrun
    rw [iterateFrom_again hrun' (by rwa [← hrest.rest.length_eq, ← hst.rest.length_eq])]
    exact ih _ _ hvalue hrest
  | case3 a s c s' hrun hless =>
    intro b t hab hst
    obtain ⟨_, t', hrun', ⟨hvalue⟩, hrest⟩ := (h a b hab).turn hst hrun
    rw [iterateFrom_stuck hrun' (by rwa [← hrest.rest.length_eq, ← hst.rest.length_eq])]
    exact ⟨hvalue, hrest⟩

theorem inStep_iterate {a b : α} (hab : V a b)
    (h : ∀ a b, V a b → InStep P (step a) (step' b) (TurnMoved V)) :
    InStep P (iterate a step) (iterate b step') V :=
  fun s t hst => inStep_iterateFrom h a s b t hab hst

theorem inStep_again {a b : α} (h : V a b) : InStep P (pure (.again a)) (pure (.again b)) (TurnMoved V) :=
  inStep_pure (.again h)

theorem inStep_last {a b : α} (h : V a b) : InStep P (pure (.last a)) (pure (.last b)) (TurnMoved V) :=
  inStep_pure (.last h)

/-- One more at the end of a list. -/
theorem forall₂_snoc (h : Forall₂ V as bs) {a b : α} (hab : V a b) : Forall₂ V (as ++ [a]) (bs ++ [b]) :=
  rel_append h (.cons hab .nil)

/-! ### Tokens -/

theorem advance_inStep : InStep P advance advance Eq := by
  intro s t hst
  refine ⟨rfl, ?_⟩
  simp only [advance]
  rcases hs : s.rest with _ | ⟨v, rest⟩ <;> rcases ht : t.rest with _ | ⟨u, rest'⟩ <;>
    have hrest := hst.rest <;> rw [hs, ht] at hrest
  · exact hst
  · cases hrest
  · cases hrest
  · obtain ⟨htoken, hrest⟩ := forall₂_cons.mp hrest
    exact ⟨hrest, hst.finish, .some htoken, hst.lost, hst.mute, hst.diagnostics, hst.reported⟩

theorem getLast?_rel (h : Forall₂ V as bs) : Option.Rel V as.getLast? bs.getLast? := by
  induction h with
  | nil => exact .none
  | cons hab hrest ih =>
    cases hrest with
    | nil => exact .some hab
    | cons => exact ih

theorem skipAll_inStep : InStep P skipAll skipAll Eq := by
  intro s t hst
  refine ⟨rfl, .nil, hst.finish, ?_, hst.lost, hst.mute, hst.diagnostics, hst.reported⟩
  have hlast := getLast?_rel hst.rest
  simp only [skipAll]
  generalize s.rest.getLast? = a at hlast ⊢
  generalize t.rest.getLast? = b at hlast ⊢
  cases hlast with
  | none => exact hst.last
  | some htoken => exact .some htoken

theorem remark_inStep (message : String) (h : P a b) :
    InStep P (record (.ambiguity message a)) (record (.ambiguity message b)) Eq :=
  fun _ _ hst => ⟨rfl, { hst with
    diagnostics := forall₂_snoc hst.diagnostics ⟨.remark message a b, h⟩
    reported := hst.reported.remark message a }⟩

theorem peek_inStep : InStep P peek peek Eq := inStep_look fun _ _ hst => hst.next

theorem here_inStep : InStep P here here P := inStep_look fun _ _ hst => hst.here

theorem behind_inStep : InStep P behind behind P := inStep_look fun _ _ hst => hst.behind

theorem sees_inStep (l : Lexeme) : InStep P (sees l) (sees l) Eq :=
  inStep_look fun _ _ hst => congrArg (· == some l) hst.next

theorem atEnd_inStep : InStep P atEnd atEnd Eq := by
  refine inStep_look fun s t hst => ?_
  rw [← isEmpty_map, hst.lexemes, isEmpty_map]

theorem left_inStep : InStep P (look (·.rest.length)) (look (·.rest.length)) Eq :=
  inStep_look fun _ _ hst => hst.rest.length_eq

theorem inStep_advance (h : InStep P p q V) : InStep P (advance >>= fun _ => p) (advance >>= fun _ => q) V :=
  inStep_then advance_inStep fun _ => h

theorem eat_inStep (l : Lexeme) : InStep P (eat l) (eat l) Eq := by
  refine inStep_then (sees_inStep l) fun found => inStep_ite ?_ (inStep_pure rfl)
  exact inStep_advance (inStep_pure rfl)

theorem inStep_eat {l : Lexeme} {p' q' : Parser α} (h : InStep P p q V) (h' : InStep P p' q' V) :
    InStep P (eat l >>= fun found => if found then p else p') (eat l >>= fun found => if found then q else q') V :=
  inStep_then (eat_inStep l) fun _ => inStep_ite h h'

theorem complainAt_run (span : Span) (fault : Fault) (s : State) : (complainAt span fault).run s =
    ((), if s.mute then s else { s with diagnostics := s.diagnostics ++ [fault.toDiagnostic span] }) := by
  cases hmute : s.mute <;> simp [complainAt, look, record, hmute]

theorem complainAt_inStep (h : P a b) (fault : Fault) (hfault : fault ≠ .tooDeep := by nofun) :
    InStep P (complainAt a fault) (complainAt b fault) Eq := by
  intro s t hst
  rw [complainAt_run, complainAt_run, ← hst.mute]
  refine ⟨rfl, ?_⟩
  split
  · exact hst
  · next hmute =>
    have hreported := hst.reported
    rw [Bool.not_eq_true] at hmute
    rw [hmute] at hreported
    exact { hst with
      mute := rfl
      diagnostics := forall₂_snoc hst.diagnostics ⟨.fault fault a b, h⟩
      reported := hmute ▸ hreported.fault hfault a }

theorem complain_inStep (fault : Fault) (hfault : fault ≠ .tooDeep := by nofun) :
    InStep P (complain fault) (complain fault) Eq :=
  inStep_bind here_inStep fun _ _ h => complainAt_inStep h fault hfault

theorem expect_inStep (l : Lexeme) : InStep P (expect l) (expect l) Eq := by
  refine inStep_then (eat_inStep l) fun _ => inStep_ite ?_ (inStep_pure rfl)
  exact inStep_then peek_inStep fun _ => complain_inStep _

theorem inStep_expect {l : Lexeme} (h : InStep P p q V) :
    InStep P (expect l >>= fun _ => p) (expect l >>= fun _ => q) V :=
  inStep_then (expect_inStep l) fun _ => h

theorem listed_inStep (h : InStep P p q V) : InStep P (listed p) (listed q) (Forall₂ V) := by
  refine inStep_iterate .nil fun items items' hitems => ?_
  refine inStep_then atEnd_inStep fun _ => inStep_then (sees_inStep _) fun _ => ?_
  refine inStep_ite (inStep_last hitems) (inStep_bind h fun item item' hitem => ?_)
  have hmore := forall₂_snoc hitems hitem
  exact inStep_eat (inStep_again hmore) (inStep_last hmore)

theorem expectIdent_inStep : InStep P expectIdent expectIdent (Ident.Moved P) := by
  refine inStep_bind here_inStep fun a b hspan => inStep_then peek_inStep fun next => ?_
  split
  · exact inStep_advance (inStep_pure ⟨rfl, hspan⟩)
  · exact inStep_then (complain_inStep _) fun _ => inStep_pure ⟨rfl, hspan⟩

/-! ### Nesting and recovery -/

/-- That nesting goes too deep is reported where a level is lost. -/
theorem refuse_inStep (h : InStep P p q V) : InStep P (complain .tooDeep >>= fun _ => loseLevel >>= fun _ => p)
    (complain .tooDeep >>= fun _ => loseLevel >>= fun _ => q) V := by
  intro s t hst
  simp only [complain, here, look, run_bind, complainAt_run, loseLevel, ← hst.mute]
  refine h _ _ ?_
  have hreported := hst.reported
  cases hmute : s.mute with
  | true =>
    rw [hmute] at hreported
    exact { hst with lost := congrArg (· + 1) hst.lost, mute := rfl, reported := hreported }
  | false =>
    rw [hmute] at hreported
    exact { hst with
      lost := congrArg (· + 1) hst.lost
      mute := rfl
      diagnostics := forall₂_snoc hst.diagnostics ⟨.fault .tooDeep _ _, hst.here⟩
      reported := hreported.refuse _ }

/-- Only where there is room is anything read further in. -/
theorem nested_inStep {room : Nat} {refused refused' inside inside' : Parser α}
    (hrefused : InStep P refused refused' V) (hinside : 0 < room → InStep P inside inside' V) :
    InStep P (nested room refused inside) (nested room refused' inside') V := by
  refine inStep_then (inStep_look fun _ _ hst => hst.lost) fun lost => ?_
  split
  · next hroom => exact hinside (Nat.zero_lt_of_lt hroom)
  · exact refuse_inStep hrefused

theorem synchronize_inStep : InStep P synchronize synchronize Eq := by
  refine inStep_then (inStep_look fun s t hst => ?_) fun _ => inStep_ite ?_ (inStep_pure rfl)
  · have hlast := hst.last
    generalize s.last = a at hlast ⊢
    generalize t.last = b at hlast ⊢
    cases hlast with
    | none => rfl
    | some htoken => simp only [htoken.lexeme]
  · refine inStep_iterate rfl fun _ _ _ => inStep_then peek_inStep fun next => ?_
    split
    · exact inStep_last rfl
    · exact inStep_last rfl
    · exact inStep_advance (inStep_last rfl)
    · exact inStep_advance (inStep_again rfl)

theorem recovering_inStep {afterwards : Parser Unit} (hstep : InStep P p q V)
    (hafterwards : InStep P afterwards afterwards Eq) :
    InStep P (recovering p afterwards) (recovering q afterwards) V := by
  refine inStep_then (inStep_look fun _ _ hst => hst.errors) fun errors => ?_
  refine inStep_then left_inStep fun left => inStep_bind hstep fun a b hab => ?_
  have hend : InStep P
      (do
        if (← look (·.rest.length)) == left then advance
        return a)
      (do
        if (← look (·.rest.length)) == left then advance
        return b) V := by
    refine inStep_then left_inStep fun _ => inStep_ite ?_ (inStep_pure hab)
    exact inStep_advance (inStep_pure hab)
  refine inStep_then (inStep_look fun _ _ hst => hst.errors) fun _ => inStep_ite ?_ hend
  refine inStep_then synchronize_inStep fun _ => ?_
  exact inStep_then hafterwards fun _ => hend

end Rules

/-! ### Expressions -/

theorem remarkOnChain_eq (op : BinOp) (lhs : Expr) (span : Span) : remarkOnChain op lhs span =
    match lhs.operator? with
    | some inner =>
      if op.isComparison && inner.isComparison then
        record (.ambiguity
          ("chained comparison: '" ++ op.text ++ "' applies to the result of '" ++ inner.text ++ "'") span)
      else
        pure ()
    | none => pure () := by
  cases lhs <;> rfl

/-- Whether lexemes start with a dot, a name and an opening parenthesis. -/
def opensMethod : List Lexeme → Bool
  | .mark .dot :: .ident _ :: .mark .lparen :: _ => true
  | _ => false

theorem startsMethod_run (s : State) : startsMethod.run s = (opensMethod (s.rest.map Token.lexeme), s) := by
  refine Prod.ext ?_ rfl
  simp only [startsMethod, look]
  split
  · next hrest => rw [hrest]; rfl
  · next hrest =>
    unfold opensMethod
    split
    · next name _ hlexemes =>
      obtain ⟨dot, _, hs, hdot, hlexemes⟩ := map_eq_cons_iff.mp hlexemes
      obtain ⟨ident, _, rfl, hident, hlexemes⟩ := map_eq_cons_iff.mp hlexemes
      obtain ⟨lparen, rest, rfl, hlparen, _⟩ := map_eq_cons_iff.mp hlexemes
      refine absurd hs (hrest dot.span name ident.span lparen.span rest ∘ ?_)
      rw [← hdot, ← hident, ← hlparen]
      exact id
    · rfl

theorem target_eq (e : Expr) : target e =
    match e.target? with
    | some t => pure (some t)
    | none => do
      complainAt e.span .badTarget return none := by
  cases e with
  | field span owner name => cases owner <;> rfl
  | _ => rfl

/-- The same expression but for places; how its own place was moved is known in full. -/
structure ExprMoved (P R : Span → Span → Prop) (e e' : Expr) : Prop where
  moved : e.Moved R e'
  span : P e.span e'.span

structure TargetMoved (P R : Span → Span → Prop) (t t' : Target) : Prop where
  moved : t.Moved R t'
  span : P t.span t'.span

def BlockMoved (R : Span → Span → Prop) (b b' : Block) : Prop :=
  Forall₂ (Stmt.Moved R) b.stmts b'.stmts

structure ClauseMoved (P R : Span → Span → Prop) (c c' : Clause) : Prop where
  start : P c.start c'.start
  test : c.test.Moved R c'.test
  yes : BlockMoved R c.yes c'.yes

section Trees

variable {P R : Span → Span → Prop} (hmerge : ∀ ⦃a b c d⦄, P a c → P b d → P (a.merge b) (c.merge d))
  (hR : ∀ ⦃a b⦄, P a b → R a b)

theorem remarkOnChain_inStep (op : BinOp) {lhs lhs' : Expr} (h : lhs.Moved R lhs') {a b : Span}
    (hspan : P a b) : InStep P (remarkOnChain op lhs a) (remarkOnChain op lhs' b) Eq := by
  have hoperator : lhs.operator? = lhs'.operator? := by cases h <;> rfl
  rw [remarkOnChain_eq, remarkOnChain_eq, hoperator]
  split
  · exact inStep_ite (remark_inStep _ hspan) (inStep_pure rfl)
  · exact inStep_pure rfl

theorem startsMethod_inStep : InStep P startsMethod startsMethod Eq := by
  intro s t hst
  rw [startsMethod_run, startsMethod_run]
  exact ⟨congrArg opensMethod hst.lexemes, hst⟩

variable {name name' : Ident} {operand' : Parser Expr} {room : Nat} {start' : Span} {α : Type}
  {V : α → α → Prop} {tokens tokens' : List Token}

include hR in
theorem ident_moved (h : name.Moved P name') : name.Moved R name' :=
  ⟨h.text, hR h.span⟩

theorem exprs_moved {es es' : List Expr} (h : Forall₂ (ExprMoved P R) es es') :
    Forall₂ (Expr.Moved R) es es' :=
  h.imp fun _ _ he => he.moved

include hmerge

/-- The place of a node ends where the last token does. -/
theorem inStep_merge {a b : Span} (h : P a b) {r r' : Span → α}
    (hr : ∀ c d, P (a.merge c) (b.merge d) → V (r c) (r' d)) :
    InStep P (behind >>= fun c => pure (r c)) (behind >>= fun d => pure (r' d)) V :=
  inStep_map behind_inStep fun c d hspan => hr c d (hmerge h hspan)

include hR

theorem chain_inStep (tier : Tier) {operand : Parser Expr} (h : InStep P operand operand' (ExprMoved P R)) :
    InStep P (chain tier operand) (chain tier operand') (ExprMoved P R) := by
  refine inStep_bind h fun first first' hfirst => inStep_iterate hfirst fun lhs lhs' hlhs => ?_
  refine inStep_then peek_inStep fun next => ?_
  split
  · refine inStep_ite ?_ (inStep_last hlhs)
    refine inStep_advance (inStep_bind h fun rhs rhs' hrhs => ?_)
    have hspan := hmerge hlhs.span hrhs.span
    refine inStep_then (remarkOnChain_inStep _ hlhs.moved hspan) fun _ => inStep_again ?_
    exact ⟨.binary (hR hspan) _ hlhs.moved hrhs.moved, hspan⟩
  · exact inStep_last hlhs

theorem exprOver_inStep {operand : Parser Expr} (h : 0 < room → InStep P operand operand' (ExprMoved P R)) :
    InStep P (exprOver room operand) (exprOver room operand') (ExprMoved P R) := by
  refine nested_inStep ?_ fun hroom => ?_
  · refine inStep_bind here_inStep fun _ _ hspan => inStep_then skipAll_inStep fun _ => ?_
    exact inStep_pure ⟨.int (hR hspan) 0, hspan⟩
  · -- On the tiers: the operands of each are made of the tighter ones.
    induction Tier.all with
    | nil => exact h hroom
    | cons tier tiers ih => exact chain_inStep hmerge hR tier ih

variable {expr expr' : Parser Expr} (hexpr : InStep P expr expr' (ExprMoved P R))

include hexpr

theorem choice_inStep : InStep P (choice expr) (choice expr') (ExprMoved P R) := by
  refine inStep_bind here_inStep fun start start' hstart => inStep_expect ?_
  refine inStep_bind hexpr fun test test' htest => inStep_expect ?_
  refine inStep_bind hexpr fun yes yes' hyes => inStep_expect ?_
  have hclose : InStep P
      (do
        expect (.mark .lbrace)
        let no ← expr
        expect (.mark .rbrace)
        return .cond (start.merge (← behind)) test yes no)
      (do
        expect (.mark .lbrace)
        let no ← expr'
        expect (.mark .rbrace)
        return .cond (start'.merge (← behind)) test' yes' no) (ExprMoved P R) := by
    refine inStep_expect (inStep_bind hexpr fun no no' hno => ?_)
    refine inStep_expect (inStep_merge hmerge hstart fun _ _ hall => ?_)
    exact ⟨.cond (hR hall) htest.moved hyes.moved hno.moved, hall⟩
  refine inStep_then (eat_inStep _) fun _ => inStep_ite ?_ hclose
  exact inStep_then peek_inStep fun _ => inStep_then (complain_inStep _) fun _ => hclose

theorem fieldOf_inStep {start : Span} (hstart : P start start') {owner owner' : Owner}
    (howner : owner.Moved R owner') :
    InStep P (fieldOf expr start owner) (fieldOf expr' start' owner') (ExprMoved P R) := by
  refine inStep_bind expectIdent_inStep fun field field' hfield => ?_
  refine inStep_eat ?_ ?_
  · refine inStep_bind hexpr fun index index' hindex => inStep_expect ?_
    exact inStep_merge hmerge hstart fun _ _ hall =>
      ⟨.fieldAt (hR hall) howner (ident_moved hR hfield) hindex.moved, hall⟩
  · exact inStep_merge hmerge hstart fun _ _ hall =>
      ⟨.field (hR hall) howner (ident_moved hR hfield), hall⟩

theorem named_inStep (hname : name.Moved P name') :
    InStep P (named expr name) (named expr' name') (ExprMoved P R) := by
  have hmoved := ident_moved hR hname
  refine inStep_eat ?_ ?_
  · refine inStep_bind (listed_inStep hexpr) fun _ _ hargs => inStep_expect ?_
    exact inStep_merge hmerge hname.span fun _ _ hall => ⟨.call (hR hall) hmoved (exprs_moved hargs), hall⟩
  refine inStep_eat ?_ ?_
  · refine inStep_bind hexpr fun index index' hindex => inStep_expect ?_
    refine inStep_bind behind_inStep fun _ _ hspan => inStep_then (eat_inStep _) fun _ => ?_
    have hall := hmerge hname.span hspan
    refine inStep_ite ?_ (inStep_pure ⟨.element (hR hall) hmoved hindex.moved, hall⟩)
    exact fieldOf_inStep hmerge hR hexpr hname.span (.element (hR hall) hmoved hindex.moved)
  refine inStep_then startsMethod_inStep fun _ => inStep_ite ?_ ?_
  · refine inStep_advance (inStep_bind expectIdent_inStep fun _ _ hmethod => ?_)
    refine inStep_expect (inStep_bind (listed_inStep hexpr) fun _ _ hargs => ?_)
    refine inStep_expect (inStep_merge hmerge hname.span fun _ _ hall => ?_)
    exact ⟨.method (hR hall) hmoved (ident_moved hR hmethod) (exprs_moved hargs), hall⟩
  refine inStep_eat ?_ (inStep_pure ?_)
  · exact fieldOf_inStep hmerge hR hexpr hname.span (.name hmoved)
  · rw [hname.text]
    exact ⟨.var (hR hname.span) _, hname.span⟩

theorem primary_inStep : InStep P (primary expr) (primary expr') (ExprMoved P R) := by
  refine inStep_bind here_inStep fun start start' hstart => inStep_then peek_inStep fun next => ?_
  have hint (n : UInt64) : ExprMoved P R (.int start n) (.int start' n) := ⟨.int (hR hstart) n, hstart⟩
  have hmissing (found : Option Lexeme) :
      InStep P (complain (.expectedExpr found) >>= fun _ => pure (Expr.int start 0))
      (complain (.expectedExpr found) >>= fun _ => pure (Expr.int start' 0)) (ExprMoved P R) :=
    inStep_then (complain_inStep _) fun _ => inStep_pure (hint 0)
  cases next with
  | none => exact hmissing _
  | some l =>
    cases l with
    | integer n => exact inStep_advance (inStep_pure (hint n))
    | bytes bs =>
      exact inStep_advance (inStep_pure ⟨.bytes (hR hstart) bs, hstart⟩)
    | ident name =>
      exact inStep_advance (named_inStep hmerge hR hexpr ⟨rfl, hstart⟩)
    | mark m =>
      cases m with
      | lparen =>
        refine inStep_advance (inStep_bind hexpr fun inner inner' hinner => ?_)
        refine inStep_expect (inStep_merge hmerge hstart fun _ _ hall => ?_)
        exact ⟨.group (hR hall) hinner.moved, hall⟩
      | _ => exact hmissing _
    | keyword k =>
      cases k with
      | ifKw => exact choice_inStep hmerge hR hexpr
      | _ => exact hmissing _
    | _ => exact hmissing _

omit hexpr

theorem operandOver_inStep {deeper deeper' : Parser Expr}
    (h : 0 < room → InStep P deeper deeper' (ExprMoved P R)) :
    InStep P (operandOver room deeper) (operandOver room deeper') (ExprMoved P R) := by
  refine inStep_bind here_inStep fun start start' hstart => inStep_then peek_inStep fun next => ?_
  split
  · refine inStep_advance (nested_inStep ?_ fun hroom => ?_)
    · exact inStep_pure ⟨.int (hR hstart) 0, hstart⟩
    · refine inStep_map (h hroom) fun operand operand' hoperand => ?_
      have hall := hmerge hstart hoperand.span
      exact ⟨.unary (hR hall) _ hoperand.moved, hall⟩
  · exact primary_inStep hmerge hR (exprOver_inStep hmerge hR h)

theorem operand_inStep (room : Nat) : InStep P (operand room) (operand room) (ExprMoved P R) := by
  -- Without room, what stands for the operands further in has no place in the text, but it is never read.
  induction room with
  | zero => exact operandOver_inStep hmerge hR fun h => absurd h (Nat.lt_irrefl 0)
  | succ room ih => exact operandOver_inStep hmerge hR fun _ => inStep_delay ih

theorem expr_inStep (room : Nat) : InStep P (Parser.expr room) (Parser.expr room) (ExprMoved P R) :=
  exprOver_inStep hmerge hR fun _ => operand_inStep hmerge hR (room - 1)

/-! ### Statements -/

theorem declaration_inStep (isConst : Bool) (room : Nat) :
    InStep P (declaration isConst room) (declaration isConst room) (Decl.Moved R) := by
  refine inStep_advance (inStep_bind expectIdent_inStep fun first first' hfirst => ?_)
  refine inStep_bind (V := Forall₂ (Ident.Moved R)) (inStep_iterate ?_ fun names names' hnames => ?_) ?_
  · exact .cons (ident_moved hR hfirst) .nil
  · refine inStep_eat ?_ (inStep_last hnames)
    refine inStep_bind expectIdent_inStep fun next next' hnext => inStep_again ?_
    exact forall₂_snoc hnames (ident_moved hR hnext)
  · intro names names' hnames
    exact inStep_expect (inStep_map (expr_inStep hmerge hR room) fun _ _ hvalue =>
      ⟨rfl, hnames, hvalue.moved⟩)

/-- A declaration with its semicolon, as a statement or as an item. -/
theorem declared_inStep (isConst : Bool) (room : Nat) {start : Span} (hstart : P start start')
    (make : Span → Decl → α) (hmake : ∀ a b d d', P a b → d.Moved R d' → V (make a d) (make b d')) :
    InStep P
      (do
        let d ← declaration isConst room
        expect (.mark .semicolon)
        return some (make (start.merge (← behind)) d))
      (do
        let d ← declaration isConst room
        expect (.mark .semicolon)
        return some (make (start'.merge (← behind)) d)) (Option.Rel V) := by
  refine inStep_bind (declaration_inStep hmerge hR isConst room) fun d d' hd => ?_
  exact inStep_expect (inStep_merge hmerge hstart fun _ _ hall => .some (hmake _ _ d d' hall hd))

omit hmerge in
theorem target_inStep {e e' : Expr} (h : ExprMoved P R e e') :
    InStep P (target e) (target e') (Option.Rel (TargetMoved P R)) := by
  have hspan := h.span
  have hbad : InStep P (complainAt e.span .badTarget >>= fun _ => pure none)
      (complainAt e'.span .badTarget >>= fun _ => pure none) (Option.Rel (TargetMoved P R)) :=
    inStep_then (complainAt_inStep hspan _) fun _ => inStep_pure .none
  cases h.moved with
  | var _ name => exact inStep_pure (.some ⟨.var (hR hspan) name, hspan⟩)
  | field _ howner hfield =>
    cases howner with
    | name hbase =>
      rw [target, target, hbase.text]
      exact inStep_pure (.some ⟨.field (hR hspan) _ hfield, hspan⟩)
    | element => exact hbad
  | _ => exact hbad

omit hR in
theorem targetsSpan_moved {first first' : Target} (hfirst : TargetMoved P R first first')
    {others others' : List Target} (hothers : Forall₂ (TargetMoved P R) others others') :
    P (targetsSpan first others) (targetsSpan first' others') := by
  refine hmerge hfirst.span ?_
  rw [getLastD_eq_getLast?, getLastD_eq_getLast?]
  have hlast := getLast?_rel hothers
  generalize others.getLast? = a at hlast ⊢
  generalize others'.getLast? = b at hlast ⊢
  cases hlast with
  | none => exact hfirst.span
  | some ht => exact ht.span

theorem assignment_inStep (room : Nat) :
    InStep P (assignment room) (assignment room) (Option.Rel (Stmt.Moved R)) := by
  have hexpr := expr_inStep hmerge hR room
  refine inStep_bind here_inStep fun start start' hstart => inStep_bind hexpr fun head head' hhead => ?_
  refine inStep_then (sees_inStep _) fun _ => inStep_then (sees_inStep _) fun _ => inStep_ite ?_ ?_
  · exact inStep_expect (inStep_merge hmerge hstart fun _ _ hall => .some (.expr (hR hall) hhead.moved))
  refine inStep_bind (target_inStep hR hhead) fun first first' hfirst => ?_
  rcases hfirst with hfirst | _
  · refine inStep_bind (V := Option.Rel (Forall₂ (TargetMoved P R)))
      (inStep_iterate (.some .nil) fun targets targets' htargets => ?_) fun others others' hothers => ?_
    · rcases htargets with htargets | _
      · refine inStep_eat ?_ (inStep_last (.some htargets))
        refine inStep_bind hexpr fun e e' he => inStep_bind (target_inStep hR he) fun _ _ hnext => ?_
        rcases hnext with hnext | _
        · exact inStep_again (.some (forall₂_snoc htargets hnext))
        · exact inStep_last .none
      · exact inStep_last .none
    · rcases hothers with hothers | _
      · refine inStep_expect (inStep_bind hexpr fun value value' hvalue => ?_)
        refine inStep_expect (inStep_merge hmerge hstart fun _ _ hall => ?_)
        exact .some (.assign (hR hall) hfirst.moved (hothers.imp fun _ _ ht => ht.moved)
          (hR (targetsSpan_moved hmerge hfirst hothers)) hvalue.moved)
      · exact inStep_pure .none
  · exact inStep_pure .none

variable {block block' : Parser Block} (hblock : InStep P block block' (BlockMoved R))

include hblock

theorem clause_inStep (room : Nat) : InStep P (clause room block) (clause room block') (ClauseMoved P R) := by
  refine inStep_bind here_inStep fun start start' hstart => inStep_expect ?_
  refine inStep_bind (expr_inStep hmerge hR room) fun test test' htest => ?_
  exact inStep_map hblock fun yes yes' hyes => ⟨hstart, htest.moved, hyes⟩

omit hblock in
theorem joinClauses_moved {finish finish' : Span} (hfinish : P finish finish') {no no' : Option Block}
    (hno : Option.Rel (BlockMoved R) no no') {c c' : Clause} (hc : ClauseMoved P R c c')
    {ds ds' : List Clause} (hds : Forall₂ (ClauseMoved P R) ds ds') :
    (joinClauses finish no c ds).Moved R (joinClauses finish' no' c' ds') := by
  have hspan := hR (hmerge hc.start hfinish)
  induction hds generalizing c c' with
  | nil =>
    cases hno with
    | none => exact .ifThen hspan hc.test _ _ hc.yes
    | some hno => exact .ifElse hspan hc.test _ _ _ _ hc.yes hno
  | cons hd _ ih =>
    exact .ifElse hspan hc.test _ _ _ _ hc.yes (.cons (ih hd (hR (hmerge hd.start hfinish))) .nil)

theorem conditional_inStep (room : Nat) :
    InStep P (conditional room block) (conditional room block') (Stmt.Moved R) := by
  have hclause := clause_inStep hmerge hR hblock room
  refine inStep_bind hclause fun first first' hfirst => ?_
  refine inStep_bind (V := fun r r' => Forall₂ (ClauseMoved P R) r.1 r'.1 ∧
    Option.Rel (BlockMoved R) r.2 r'.2) (inStep_iterate ⟨.nil, .none⟩ fun r r' hr => ?_) fun r r' hr => ?_
  · refine inStep_eat ?_ (inStep_last ⟨hr.1, .none⟩)
    refine inStep_then (sees_inStep _) fun _ => inStep_ite ?_ ?_
    · exact inStep_bind hclause fun c c' hc => inStep_again ⟨forall₂_snoc hr.1 hc, .none⟩
    · exact inStep_bind hblock fun no no' hno => inStep_last ⟨hr.1, .some hno⟩
  · exact inStep_map behind_inStep fun _ _ hfinish => joinClauses_moved hmerge hR hfinish hr.2 hfirst hr.1

theorem statement_inStep (room : Nat) :
    InStep P (statement room block) (statement room block') (Option.Rel (Stmt.Moved R)) := by
  have hexpr := expr_inStep hmerge hR room
  refine inStep_bind here_inStep fun start start' hstart => inStep_then peek_inStep fun next => ?_
  split
  · exact declared_inStep hmerge hR false room hstart Stmt.decl fun _ _ _ _ h hd => .decl (hR h) hd
  · exact declared_inStep hmerge hR true room hstart Stmt.decl fun _ _ _ _ h hd => .decl (hR h) hd
  · refine inStep_advance (inStep_bind hexpr fun value value' hvalue => ?_)
    exact inStep_expect (inStep_merge hmerge hstart fun _ _ hall => .some (.ret (hR hall) hvalue.moved))
  · refine inStep_advance (inStep_expect ?_)
    exact inStep_merge hmerge hstart fun _ _ hall => .some (.error (hR hall))
  · refine inStep_advance (inStep_expect ?_)
    exact inStep_merge hmerge hstart fun _ _ hall => .some (.breakLoop (hR hall))
  · exact inStep_map (conditional_inStep hmerge hR hblock room) fun _ _ hs => .some hs
  · refine inStep_advance (inStep_bind hexpr fun test test' htest => ?_)
    refine inStep_bind hblock fun body body' hbody => inStep_merge hmerge hstart fun _ _ hall => ?_
    exact .some (.loop (hR hall) htest.moved _ _ hbody)
  · exact assignment_inStep hmerge hR room

omit hblock hmerge hR in
theorem blockOver_inStep {stmt stmt' : Parser (Option Stmt)}
    (h : 0 < room → InStep P stmt stmt' (Option.Rel (Stmt.Moved R))) :
    InStep P (blockOver room stmt) (blockOver room stmt') (BlockMoved R) := by
  refine nested_inStep ?_ fun hroom => ?_
  · exact inStep_bind here_inStep fun _ _ _ => inStep_then skipAll_inStep fun _ => inStep_pure .nil
  refine inStep_bind here_inStep fun _ _ _ => inStep_expect ?_
  refine inStep_bind (V := Forall₂ (Stmt.Moved R)) (inStep_iterate .nil fun stmts stmts' hstmts => ?_)
    fun stmts stmts' hstmts => ?_
  · refine inStep_then atEnd_inStep fun _ => inStep_then (sees_inStep _) fun _ => ?_
    refine inStep_ite (inStep_last hstmts) ?_
    refine inStep_bind (recovering_inStep (h hroom) (inStep_pure rfl)) fun found found' hfound => ?_
    rcases hfound with hs | _
    · exact inStep_again (forall₂_snoc hstmts hs)
    · exact inStep_again hstmts
  · exact inStep_bind here_inStep fun _ _ _ => inStep_expect (inStep_pure hstmts)

omit hblock in
theorem block_inStep (room : Nat) : InStep P (Parser.block room) (Parser.block room) (BlockMoved R) := by
  induction room with
  | zero => exact blockOver_inStep fun h => absurd h (Nat.lt_irrefl 0)
  | succ room ih =>
    exact blockOver_inStep fun _ => inStep_delay (statement_inStep hmerge hR ih room)

/-! ### Files -/

omit hblock

omit hmerge hR in
theorem dottedName_inStep : InStep P dottedName dottedName Eq := by
  refine inStep_bind expectIdent_inStep fun first first' hfirst => ?_
  rw [hfirst.text]
  refine inStep_iterate rfl fun parts _ hparts => hparts ▸ ?_
  refine inStep_eat ?_ (inStep_last rfl)
  refine inStep_then peek_inStep fun next => ?_
  split
  · exact inStep_advance (inStep_again rfl)
  · exact inStep_then (complain_inStep _) fun _ => inStep_last rfl

omit hmerge hR in
theorem importTarget_inStep : InStep P importTarget importTarget Eq := by
  refine inStep_then peek_inStep fun next => ?_
  split
  · exact inStep_advance (inStep_pure rfl)
  · exact inStep_then dottedName_inStep fun _ => inStep_pure rfl

omit hR in
theorem imports_inStep : InStep P imports imports (Forall₂ fun i i' => i.1 = i'.1 ∧ P i.2 i'.2) := by
  refine inStep_iterate .nil fun found found' hfound => inStep_bind here_inStep fun _ _ hstart => ?_
  refine inStep_eat ?_ (inStep_last hfound)
  refine inStep_then importTarget_inStep fun _ => inStep_then (eat_inStep _) fun _ => ?_
  refine inStep_bind behind_inStep fun _ _ hspan => inStep_again ?_
  exact forall₂_snoc hfound ⟨rfl, hmerge hstart hspan⟩

omit hmerge hR in
theorem paramType_inStep : InStep P paramType paramType fun ty ty' => ty.1 = ty'.1 := by
  refine inStep_bind expectIdent_inStep fun name name' hname => ?_
  rw [hname.text]
  refine inStep_ite (inStep_pure rfl) (inStep_ite (inStep_pure rfl) ?_)
  exact inStep_then (complainAt_inStep hname.span _) fun _ => inStep_pure rfl

omit hmerge in
theorem param_inStep : InStep P param param (Param.Moved R) := by
  refine inStep_bind expectIdent_inStep fun name name' hname => ?_
  have hmoved := ident_moved hR hname
  refine inStep_eat ?_ (inStep_pure ⟨hmoved, rfl⟩)
  exact inStep_map paramType_inStep fun _ _ hty => ⟨hmoved, congrArg some hty⟩

theorem function_inStep (room : Nat) : InStep P (function room) (function room) (Function.Moved R) := by
  refine inStep_then (eat_inStep _) fun inline => inStep_expect ?_
  refine inStep_bind expectIdent_inStep fun name name' hname => inStep_expect ?_
  refine inStep_bind (listed_inStep (param_inStep hR)) fun params params' hparams => ?_
  refine inStep_expect (inStep_map (block_inStep hmerge hR room) fun _ _ hbody => ?_)
  exact ⟨rfl, ident_moved hR hname, hparams, hbody⟩

theorem item_inStep (room : Nat) : InStep P (item room) (item room) (Option.Rel (Item.Moved R)) := by
  refine inStep_bind here_inStep fun start start' hstart => inStep_then peek_inStep fun next => ?_
  have hfunction : InStep P
      (do
        let f ← function room
        return some (Item.function (start.merge (← behind)) f))
      (do
        let f ← function room
        return some (Item.function (start'.merge (← behind)) f)) (Option.Rel (Item.Moved R)) := by
    refine inStep_bind (function_inStep hmerge hR room) fun f f' hf => ?_
    exact inStep_merge hmerge hstart fun _ _ hall => .some (.function (hR hall) hf)
  split
  · exact declared_inStep hmerge hR false room hstart Item.decl fun _ _ _ _ h hd => .decl (hR h) hd
  · exact declared_inStep hmerge hR true room hstart Item.decl fun _ _ _ _ h hd => .decl (hR h) hd
  · exact hfunction
  · exact hfunction
  · exact inStep_then (complain_inStep _) fun _ => inStep_advance (inStep_pure .none)
  · exact inStep_then (complain_inStep _) fun _ => inStep_advance (inStep_pure .none)

theorem items_inStep (room : Nat) : InStep P (items room) (items room) (Forall₂ (Item.Moved R)) := by
  refine inStep_iterate .nil fun found found' hfound => inStep_then atEnd_inStep fun _ => ?_
  refine inStep_ite (inStep_last hfound) ?_
  refine inStep_bind (recovering_inStep (item_inStep hmerge hR room) ?_) fun i i' hi => ?_
  · exact inStep_then (eat_inStep _) fun _ => inStep_pure rfl
  rcases hi with hi | _
  · exact inStep_again (forall₂_snoc hfound hi)
  · exact inStep_again hfound

omit hmerge hR

structure ModuleMoved (P R : Span → Span → Prop) (m m' : Tree.Module) : Prop where
  imports : Forall₂ (fun i i' => i.1 = i'.1 ∧ P i.2 i'.2) m.imports m'.imports
  items : Forall₂ (Item.Moved R) m.items m'.items

theorem ModuleMoved.erase_eq {m m' : Tree.Module} (h : ModuleMoved P R m m') : m.erase = m'.erase := by
  have himports : m.imports.map (fun i => (i.1, Span.nowhere)) =
      m'.imports.map fun i => (i.1, Span.nowhere) :=
    map_eq_of_forall₂ h.imports fun _ _ hi => Prod.ext hi.1 rfl
  have hitems : m.items.map Item.erase = m'.items.map Item.erase :=
    map_eq_of_forall₂ h.items fun _ _ hi => hi.erase_eq
  rw [Tree.Module.erase, Tree.Module.erase, himports, hitems]

/-- A whole file, with room for so many levels. -/
def fileWithin (room : Nat) : Parser Tree.Module := do
  let imports ← imports
  return ⟨imports, ← items room⟩

include hmerge hR in
theorem fileWithin_inStep (room : Nat) : InStep P (fileWithin room) (fileWithin room) (ModuleMoved P R) := by
  refine inStep_bind (imports_inStep hmerge) fun imports imports' himports => ?_
  exact inStep_map (items_inStep hmerge hR room) fun _ _ hitems => ⟨himports, hitems⟩

/-- Whatever the places are, a parser does the same from the start of the same lexemes. -/
theorem InStep.start {p : Parser α} (hp : InStep anywhere p p V)
    (h : tokens.map Token.lexeme = tokens'.map Token.lexeme) (finish finish' : Span) :
    V (p.run (.start tokens finish)).1 (p.run (.start tokens' finish')).1 ∧
      (p.run (.start tokens finish)).2.Moved anywhere (p.run (.start tokens' finish')).2 := by
  have htokens : Forall₂ (TokenMoved anywhere) tokens tokens' :=
    (forall₂_of_map_eq (P := fun _ => True) h (fun _ _ => trivial) fun _ _ => trivial).imp
      fun _ _ ht => ⟨ht.1, trivial⟩
  exact hp _ _ (.start htokens trivial)

/-- Whatever the places are, the same lexemes are read as a file of the same shape. -/
theorem fileWithin_shape (room : Nat) (h : tokens.map Token.lexeme = tokens'.map Token.lexeme)
    (finish finish' : Span) : ((fileWithin room).run (.start tokens finish)).1.erase =
        ((fileWithin room).run (.start tokens' finish')).1.erase ∧
      ((fileWithin room).run (.start tokens finish)).2.Moved anywhere
        ((fileWithin room).run (.start tokens' finish')).2 := by
  have hfile : InStep anywhere (fileWithin room) (fileWithin room) (ModuleMoved anywhere anywhere) :=
    fileWithin_inStep (fun _ _ _ _ _ _ => trivial) (fun _ _ _ => trivial) room
  obtain ⟨hmodule, hstate⟩ := hfile.start h finish finish'
  exact ⟨hmodule.erase_eq, hstate⟩

end Trees

end Teal.Parser

namespace Teal

open List

/-! ### Scanning -/

namespace Scan

/-- The file that is scanned, and where in it, make no difference to the lexemes and to the number of faults. -/
theorem map_run (file file' : FileId) (offset : Nat) (cs : List Char) : ∀ offset',
    (run file offset cs).tokens.map Token.lexeme = (run file' offset' cs).tokens.map Token.lexeme ∧
      (run file offset cs).diagnostics.map Diagnostic.isFatal =
        (run file' offset' cs).diagnostics.map Diagnostic.isFatal := by
  fun_induction run file offset cs with
  | case1 offset =>
    intro offset'
    rw [run]
    exact ⟨rfl, rfl⟩
  | case2 offset c cs p stop span rest ih =>
    intro offset'
    rw [run, map_append, map_append, map_append, map_append, (ih _).1, (ih _).2]
    constructor
    · cases (piece c cs).lexeme <;> rfl
    · cases (piece c cs).fault <;> rfl

theorem exists_fault_of_mem_run (file : FileId) (offset : Nat) (cs : List Char) :
    ∀ d ∈ (run file offset cs).diagnostics, ∃ (fault : Fault) (span : Span), d = fault.diagnostic span := by
  fun_induction run file offset cs with
  | case1 offset => simp
  | case2 offset c cs p stop span rest ih =>
    refine forall_mem_append.mpr ⟨fun d hd => ?_, ih⟩
    obtain ⟨fault, _, rfl⟩ := Option.map_eq_some_iff.mp (Option.mem_toList.mp hd)
    exact ⟨fault, span, rfl⟩

end Scan

namespace Tree.Parsed

theorem ofTokens_shape {tokens tokens' : List Token}
    (h : tokens.map Token.lexeme = tokens'.map Token.lexeme) (finish finish' : Span) :
    (ofTokens tokens finish).toOption.map (·.module.erase) =
      (ofTokens tokens' finish').toOption.map (·.module.erase) := by
  obtain ⟨hmodule, hstate⟩ := Parser.fileWithin_shape Parser.maxNesting h finish finish'
  change (Parser.file.run _).2.Moved _ (Parser.file.run _).2 at hstate
  simp only [ofTokens, hstate.any_isFatal]
  split
  · rfl
  · exact congrArg some hmodule

theorem ofText_shape (file file' : FileId) (text : String) :
    (ofText file text).toOption.map (·.module.erase) = (ofText file' text).toOption.map (·.module.erase) := by
  have hfatal : (scan file text).diagnostics.any (·.isFatal) =
      (scan file' text).diagnostics.any (·.isFatal) := by
    have hmap := congrArg (List.any · id) (Scan.map_run file file' 0 text.toList 0).2
    rwa [any_map, any_map] at hmap
  simp only [ofText, hfatal]
  split
  · rfl
  · exact ofTokens_shape (Scan.map_run file file' 0 text.toList 0).1 _ _

/-- What was found in a text, whether it could be parsed or not. -/
def findings : Except (List Diagnostic) Parsed → List Diagnostic
  | .ok parsed => parsed.notes
  | .error ds => ds

theorem kind_ne_of_mem_ofTokens (tokens : List Token) (finish : Span) :
    ∀ d ∈ findings (ofTokens tokens finish), d.kind ≠ .semantic := by
  have hsame : tokens.map Token.lexeme = tokens.map Token.lexeme := rfl
  obtain ⟨-, hstate⟩ := Parser.fileWithin_shape Parser.maxNesting hsame finish finish
  have hall : ∀ d ∈ (Parser.file.run (.start tokens finish)).2.diagnostics, d.kind ≠ .semantic :=
    fun d hd => (forall₂_same.mp hstate.diagnostics d hd).same.kind_ne
  simp only [ofTokens]
  split
  · exact hall
  · exact hall

/-- What is found in a text is about its syntax. -/
theorem kind_ne_of_mem_ofText (file : FileId) (text : String) :
    ∀ d ∈ findings (ofText file text), d.kind ≠ .semantic := by
  simp only [ofText]
  split
  · intro d hd
    obtain ⟨fault, span, rfl⟩ := Scan.exists_fault_of_mem_run file 0 text.toList d hd
    simp [Scan.Fault.diagnostic, Diagnostic.syntactic]
  · exact kind_ne_of_mem_ofTokens _ _

end Tree.Parsed

end Teal
