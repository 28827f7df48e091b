import Teal.Proofs.Tree.LaidSpelled
import Teal.Proofs.Tree.Nesting
import Teal.Proofs.Tree.Parser.Spells

/-! What is accepted is represented. If parsing ends without errors, the tree that comes out is laid out in
the tokens, and its operators hold as tightly as they must: each tier of the loop over operators takes
operands that only hold operators of higher tiers. The remarks made are those on the chained comparisons of
the tree, and neither its expressions nor its blocks with braces go deeper than there is room for. -/

namespace Teal.Parser

open Teal.Tree List

/-! ### Lists -/

theorem joined_snoc (parts : List (List Piece)) (ps : List Piece) :
    joined (parts ++ [ps]) = (parts.flatMap (· ++ [.mark .comma])) ++ ps := by
  induction parts with
  | nil => rw [nil_append, joined, intercalate_singleton, flatMap_nil, nil_append]
  | cons part parts ih =>
    obtain ⟨next, more, heq⟩ := exists_cons_of_ne_nil (concat_ne_nil ps parts)
    rw [cons_append, heq, joined, intercalate_cons_cons, ← joined, ← heq, ih, flatMap_cons,
      append_assoc, append_assoc, append_assoc]

theorem flatMap_comma {parts : List (List Piece)} (h : parts ≠ []) :
    parts.flatMap (· ++ [.mark .comma]) = joined parts ++ [.mark .comma] := by
  obtain ⟨parts, ps, rfl⟩ := eq_nil_or_concat' parts |>.resolve_left h
  rw [joined_snoc, flatMap_append, flatMap_singleton, append_assoc]

/-- Expressions with a property, and the remarks on them. -/
structure Noted (P : Expr → Prop) (es : List Expr) (ds : List Diagnostic) : Prop where
  notes : ds = es.flatMap Expr.notes
  each : ∀ e ∈ es, P e

theorem noted_nil (P : Expr → Prop) : Noted P [] [] := ⟨rfl, nofun⟩

theorem Noted.append {P : Expr → Prop} {es es' : List Expr} {ds ds' : List Diagnostic}
    (h : Noted P es ds) (h' : Noted P es' ds') : Noted P (es ++ es') (ds ++ ds') :=
  ⟨by rw [h.notes, h'.notes, flatMap_append], forall_mem_append.mpr ⟨h.each, h'.each⟩⟩

/-- Items with a property, and the remarks on the expressions in them. -/
structure Collected {α : Type} (exprs : α → List Expr) (P : Expr → Prop) (Q : α → Prop) (items : List α)
    (ds : List Diagnostic) : Prop where
  noted : Noted P (items.flatMap exprs) ds
  each : ∀ a ∈ items, Q a

section Lists

variable {α : Type} {tokens : List Token} {next : Option Token → Prop} {w : Taken tokens}
  {exprs : α → List Expr} {P : Expr → Prop} {Q : α → Prop} {items : List α} {ds : List Diagnostic}

theorem collected_nil : Collected exprs P Q [] [] := ⟨noted_nil P, nofun⟩

theorem Collected.snoc (h : Collected exprs P Q items ds) {a : α} {ns : List Diagnostic}
    (hnoted : Noted P (exprs a) ns) (ha : Q a) : Collected exprs P Q (items ++ [a]) (ds ++ ns) := by
  refine ⟨?_, forall_mem_append.mpr ⟨h.each, forall_mem_singleton.mpr ha⟩⟩
  rw [flatMap_append, flatMap_singleton]
  exact h.noted.append hnoted

/-- Items with commas between them, and maybe one behind the last. -/
def ListRead (piece : α → List Piece) (items : List α) (u : Taken tokens) : Prop :=
  ∃ comma, Comma anyFreedom (!items.isEmpty) comma ∧ u.pieces = joined (items.map piece) ++ comma

theorem listed_spells {p q : Parser α} (piece : α → List Piece) (exprs : α → List Expr)
    (hp : Spells .nil anything p q fun a (u : Taken tokens) =>
      u.pieces = piece a ∧ Noted P (exprs a) u.notes ∧ Q a) :
    Spells .nil next (listed p) (listed q) fun items (u : Taken tokens) =>
      ListRead piece items u ∧ Collected exprs P Q items u.notes := by
  refine spells_iterate (I := fun items w => w.pieces = (items.map piece).flatMap (· ++ [.mark .comma]) ∧
    Collected exprs P Q items w.notes) ⟨rfl, collected_nil⟩ fun items w hitems => ?_
  obtain ⟨hpieces, hcollected⟩ := hitems
  refine spells_look fun ended => spells_look fun closed => spells_ite (spells_pure ⟨?_, hcollected⟩) ?_
  · cases items with
    | nil => exact ⟨[], .absent _, hpieces⟩
    | cons item items =>
      exact ⟨_, .trailing trivial, hpieces.trans (flatMap_comma (cons_ne_nil _ _))⟩
  refine spells_bind (spells_sub hp) ?_
  rintro item _ ⟨u, ⟨hpiece, hnoted, hitem⟩, rfl⟩
  refine spells_eat (fun span _ => spells_pure ⟨?_, ?_, hcollected.snoc hnoted hitem⟩)
    (spells_pure ⟨?_, hcollected.snoc hnoted hitem⟩)
  · simp only [Taken.token_taken, Taken.append_taken, length_append, length_singleton]
    omega
  · simp [hpieces, hpiece]
  · refine ⟨[], .absent _, ?_⟩
    rw [map_append, Taken.append_pieces, hpieces, hpiece, map_singleton, joined_snoc, append_nil]

/-- An item with a property that is laid out, and the remarks on the expressions in it. -/
structure Read (f : α → Node) (exprs : α → List Expr) (P : Expr → Prop) (Q : α → Prop) (a : α)
    (u : Taken tokens) : Prop where
  laid : Laid anyFreedom (f a) u.taken
  fits : Q a
  noted : Noted P (exprs a) u.notes

/-- Items one behind the other. -/
structure Sequence (f : α → Node) (exprs : α → List Expr) (P : Expr → Prop) (Q : α → Prop) (items : List α)
    (w : Taken tokens) : Prop where
  pieces : w.pieces = items.map (.node ∘ f)
  collected : Collected exprs P Q items w.notes

theorem Sequence.snoc {f : α → Node} (h : Sequence f exprs P Q items w) {a : α} {u : Taken tokens}
    (ha : Read f exprs P Q a u) : Sequence f exprs P Q (items ++ [a]) (w.node ha.laid u.notes) where
  pieces := by simp [h.pieces]
  collected := h.collected.snoc ha.noted ha.fits

theorem length_lt_node {n : Node} {ts : List Token} (h : Laid anyFreedom n ts)
    (ds : List Diagnostic) : w.taken.length < (w.node h ds).taken.length := by
  have hpos := length_pos_iff.mpr h.ne_nil
  simp only [Taken.node_taken, length_append]
  omega

/-- One more item, if there are no errors. -/
theorem sequence_spells {f : α → Node} {step step' : Parser (Option α)} (afterwards : Parser Unit)
    (hstep : Takes tokens anything step step' (Found (Read f exprs P Q)))
    (hitems : Sequence f exprs P Q items w) :
    Spells w next (recovering step afterwards) (recovering step' afterwards) (Found fun a v =>
      w.taken.length < v.taken.length ∧ Sequence f exprs P Q (items ++ [a]) v) := by
  refine spells_retake (recovering_spells (spells_next (spells_sub hstep)) ?_) ?_
  · rintro _ _ ⟨u, ⟨a, rfl, hu⟩, rfl⟩
    exact length_lt_node hu.laid []
  · rintro _ _ ⟨u, ⟨a, rfl, hu⟩, rfl⟩
    exact ⟨w.node hu.laid u.notes, ⟨a, rfl, length_lt_node _ _, hitems.snoc hu⟩, rfl, rfl⟩

end Lists

/-! ### Expressions -/

/-- An expression that is laid out, whose operators are of a rank or a higher one, and the remarks on it. -/
structure ExprRead {tokens : List Token} (bound rank : Nat) (e : Expr) (u : Taken tokens) : Prop where
  laid : Laid anyFreedom (.expr e) u.taken
  wellFormed : e.wellFormed = true
  depth : e.depth < bound
  level : rank ≤ level e
  notes : u.notes = e.notes

/-- Operands of an operator are well-formed beside it if they are of its rank or a higher one, and on the
right of a higher one. -/
theorem binary_wellFormed {op : BinOp} {l r : Expr} (span : Span) (hl : l.wellFormed = true)
    (hr : r.wellFormed = true) (hleft : op.tier.rank ≤ level l) (hright : op.tier.rank < level r) :
    (Expr.binary span op l r).wellFormed = true := by
  unfold level at hleft hright
  simp only [Expr.wellFormed, hl, hr, Bool.true_and, Bool.and_eq_true]
  constructor
  · cases hop : l.operator? with
    | none => rfl
    | some inner =>
      rw [hop] at hleft
      rw [Option.all_some, decide_eq_true_eq]
      unfold BinOp.bindingPower
      exact Nat.add_lt_add_of_le_of_lt (Nat.mul_le_mul_left 2 hleft) (by decide)
  · cases hop : r.operator? with
    | none => rfl
    | some inner =>
      rw [hop] at hright
      rw [Option.all_some, decide_eq_true_eq]
      unfold BinOp.bindingPower
      change op.tier.rank < inner.tier.rank at hright
      show 2 * op.tier.rank + 2 ≤ 2 * inner.tier.rank + 1
      omega

section Expressions

variable {tokens : List Token} {next : Option Token → Prop} {p q : Parser Expr} {bound : Nat}
  {w : Taken tokens}

variable {β : Type} {T : Account tokens β} {room room' : Nat} {inside : Parser Expr} {e d : Expr}

theorem spells_operand {rank : Nat} {f g : Expr → Parser β}
    (hp : Takes tokens anything p q (ExprRead bound rank))
    (hf : ∀ e (u : Taken tokens) (h : ExprRead bound rank e u), Spells (w.node h.laid u.notes) anything (f e) (g e) T) :
    Spells w next (p >>= f) (q >>= g) T :=
  spells_next (spells_node hp (fun _ _ h => h.laid) hf)

/-- The remark is the one on the expression that is made of the two sides. -/
theorem remarkOnChain_spells (op : BinOp) (lhs rhs : Expr) (span : Span) :
    Spells w next (remarkOnChain op lhs span) (remarkOnChain op lhs span) fun _ v =>
      v = { w with notes := w.notes ++ (Expr.binary span op lhs rhs).chainNote?.toList } := by
  have hquiet : Spells w next (pure ()) (pure ()) fun _ v => v = { w with notes := w.notes ++ [] } :=
    spells_pure (by rw [append_nil])
  cases lhs with
  | binary _ inner _ _ =>
    simp only [remarkOnChain, Expr.chainNote?, Expr.chain?]
    split
    · exact fun before said s hs _ _ => ⟨.inr rfl, _, rfl, hs.tokens, hs.last,
        (congrArg (· ++ _) hs.diagnostics).trans (append_assoc _ _ _), hs.mute⟩
    · exact hquiet
  | _ => exact hquiet

theorem chain_spells (tier : Tier) (hp : Takes tokens anything p q (ExprRead bound (tier.rank + 1))) :
    Takes tokens anything (chain tier p) (chain tier q) (ExprRead bound tier.rank) := by
  refine spells_bind hp fun first u hfirst => ?_
  refine spells_iterate (I := ExprRead bound tier.rank)
    { hfirst with level := Nat.le_trans (Nat.le_succ _) hfirst.level } fun lhs w hlhs => ?_
  have hdone {next : Option Token → Prop} : Spells w next (pure (Turn.last lhs)) (pure (Turn.last lhs))
      (Turns (ExprRead bound tier.rank) (ExprRead bound tier.rank) w) := spells_pure hlhs
  refine spells_peek fun x _ => ?_
  cases x with
  | none => exact hdone
  | some t =>
    obtain ⟨l, span⟩ := t
    cases l with
    | binary op =>
      dsimp only [Option.map_some]
      split
      · next hop =>
        refine spells_as (v := Taken.nil.node hlhs.laid w.notes) ?_ rfl rfl
        refine spells_advance (spells_operand hp fun rhs u hrhs => ?_)
        refine spells_end (remarkOnChain_spells op lhs rhs _) ?_
        rintro _ _ rfl
        refine ⟨?_, ?_, ?_, Nat.max_lt.mpr ⟨hlhs.depth, hrhs.depth⟩, ?_, ?_⟩
        · simp
        · exact Taken.laid _ (.plain _) (hlhs.laid.merge hrhs.laid)
        · exact binary_wellFormed _ hlhs.wellFormed hrhs.wellFormed (hop ▸ hlhs.level) (hop ▸ hrhs.level)
        · exact Nat.le_of_eq (congrArg Tier.rank hop.symm)
        · rw [Expr.notes_eq (.binary _ _ _ _)]
          simp [Expr.parts, hlhs.notes, hrhs.notes]
      · exact hdone
    | _ => exact hdone

theorem exprOver_spells (hp : 0 < room' → Takes tokens anything p q (ExprRead bound topRank))
    (hinside : 0 < room → p = inside) :
    Takes tokens next (exprOver room inside) (exprOver room' q) (ExprRead bound 0) := by
  refine nested_spells (fun hroom => spells_next ?_) fun hroom =>
    congrArg (Tier.all.foldr chain ·) (hinside hroom)
  have hmultiplicative := chain_spells .multiplicative (hp hroom)
  have hcomparison := chain_spells .comparison (chain_spells .additive hmultiplicative)
  exact chain_spells .disjunction (chain_spells .conjunction hcomparison)

theorem spells_startsMethod {f g : Bool → Parser β}
    (hyes : ∀ span, Spells w (· = some ⟨.mark .dot, span⟩) (f true) (g true) T)
    (hno : Spells w next (f false) (g false) T) :
    Spells w next (startsMethod >>= f) (startsMethod >>= g) T := by
  intro before said s hs hnext hend
  rw [run_bind, startsMethod_run] at hend
  rw [run_bind, run_bind, startsMethod_run]
  cases hopens : opensMethod (s.rest.map Token.lexeme) with
  | true =>
    rw [hopens] at hend
    unfold opensMethod at hopens
    split at hopens
    · next hrest =>
      obtain ⟨⟨_, span⟩, _, hs', rfl, -⟩ := map_eq_cons_iff.mp hrest
      exact hyes span before said s hs (by rw [hs', head?_cons]) hend
    · cases hopens
  | false =>
    rw [hopens] at hend
    exact hno before said s hs hnext hend

structure ArgsRead (bound : Nat) (args : List Expr) (u : Taken tokens) : Prop where
  listed : ListRead ([.expr ·]) args u
  wellFormed : exprsWellFormed args = true
  depth : exprsDepth args < bound + 1
  notes : u.notes = args.flatMap Expr.notes

attribute [local simp] Expr.notes_eq Expr.parts Expr.chainNote? Expr.chain? Node.front Node.back

section Primary

variable (hp : Takes tokens anything p q (ExprRead bound 0))

include hp

theorem args_spells : Takes tokens next (listed p) (listed q) (ArgsRead bound) := by
  have hitem : Takes tokens anything (p >>= pure) (q >>= pure) fun e u =>
      u.pieces = [.expr e] ∧ Noted (fun _ => True) [e] u.notes ∧ e.wellFormed = true ∧ e.depth < bound :=
    spells_operand hp fun e u he => spells_pure ⟨rfl, ⟨by simp [he.notes], fun _ _ => trivial⟩,
      he.wellFormed, he.depth⟩
  refine spells_imp (listed_spells (p := p) (q := q) ([.expr ·]) ([·]) hitem)
    fun args u hargs => ⟨hargs.1, exprsWellFormed_iff.mpr fun e he => (hargs.2.each e he).1, ?_, ?_⟩
  · exact Nat.lt_succ_of_le (exprsDepth_le_iff.mpr fun e he => (hargs.2.each e he).2)
  · rw [hargs.2.noted.notes, flatMap_singleton']

theorem choice_spells : Takes tokens next (choice p) (choice q) (ExprRead (bound + 1) topRank) := by
  refine spells_here fun start => spells_expect fun span hspan => ?_
  obtain rfl : span = start := hspan.2 _ rfl
  refine spells_operand hp fun test ts htest => spells_expect fun _ _ => ?_
  refine spells_operand hp fun yes ys hyes => spells_expect fun _ _ => ?_
  refine spells_eat (fun _ _ => spells_expect fun _ _ => ?_) (spells_look fun _ => spells_complain)
  refine spells_operand hp fun no ns hno => spells_expect fun _ _ => ?_
  refine spells_close rfl fun t ht => spells_pure ⟨ht _ (.plain _) rfl, ?_, ?_, .refl, ?_⟩
  · rw [Expr.wellFormed, htest.wellFormed, hyes.wellFormed, hno.wellFormed, Bool.and_self, Bool.and_self]
  · have htest := htest.depth
    have hyes := hyes.depth
    have hno := hno.depth
    simp only [Expr.depth]
    omega
  · simp [htest.notes, hyes.notes, hno.notes]

/-- What stands before the dot of a field is a piece of it. -/
theorem fieldOf_spells (owner : Owner) (ods : List Diagnostic) {ts : List Token} {start : Span}
    (howner : Laid anyFreedom (.expr owner.toExpr) ts) (hstart : ts.head?.map Token.span = some start)
    (hwf : owner.wellFormed = true) (hdepth : owner.depth < bound + 1)
    (hnotes : ods = owner.parts.flatMap Expr.notes) (dot : Span) :
    Spells (((.nil : Taken tokens).node howner ods).token ⟨.mark .dot, dot⟩) next (fieldOf p start owner)
      (fieldOf q start owner) (ExprRead (bound + 1) topRank) := by
  obtain ⟨first, hfirst, rfl⟩ := Option.map_eq_some_iff.mp hstart
  refine spells_expectIdent fun name => spells_eat (fun _ _ => ?_) ?_
  · refine spells_operand hp fun i is hi => spells_expect fun _ _ => ?_
    refine spells_close (by simp [hfirst]) fun t ht => spells_pure
      ⟨ht _ (.plain _) rfl, ?_, ?_, .refl, ?_⟩
    · rw [Expr.wellFormed, hwf, hi.wellFormed, Bool.and_self]
    · exact Nat.max_lt.mpr ⟨hdepth, Nat.succ_lt_succ hi.depth⟩
    · simp [hnotes, hi.notes]
  · refine spells_close (by simp [hfirst]) fun t ht => spells_pure
      ⟨ht _ (.plain _) rfl, hwf, hdepth, .refl, ?_⟩
    simp [hnotes]

theorem named_spells (name : Ident) :
    Spells ((.nil : Taken tokens).token ⟨.ident name.text, name.span⟩) next (named p name) (named q name)
      (ExprRead (bound + 1) topRank) := by
  have hvar : Laid anyFreedom (.expr (.var name.span name.text)) [⟨.ident name.text, name.span⟩] :=
    ((.nil : Taken tokens).token ⟨.ident name.text, name.span⟩).laid (.plain _) fun _ => rfl
  refine spells_eat (fun _ _ => ?_) (spells_eat (fun _ _ => ?_) ?_)
  · refine spells_as (v := (Taken.nil.node (Laid.word _ name) []).token _) ?_ rfl rfl
    refine spells_bind (spells_sub (args_spells hp)) ?_
    rintro args _ ⟨u, hargs, rfl⟩
    obtain ⟨comma, hcomma, hpieces⟩ := hargs.listed
    refine spells_expect fun _ _ => spells_close rfl fun t ht => spells_pure
      ⟨ht _ (.of_eq hcomma ?_) rfl, hargs.wellFormed, hargs.depth, .refl, ?_⟩
    · simp [hpieces]
    · simp [hargs.notes]
  · refine spells_as (v := (Taken.nil.node (Laid.word _ name) []).token _) ?_ rfl rfl
    refine spells_operand hp fun i is hi => spells_expect fun _ _ => spells_close rfl fun t ht => ?_
    have hlaid := ht (.expr (.element (name.span.merge t.span) name i)) (.plain _) rfl
    refine spells_eat (fun dot _ => ?_) (spells_pure
      ⟨hlaid, hi.wellFormed, Nat.succ_lt_succ hi.depth, .refl, ?_⟩)
    · refine spells_as (fieldOf_spells hp (.element _ name i) is.notes hlaid rfl hi.wellFormed
        (Nat.succ_lt_succ hi.depth) ?_ dot) rfl rfl
      rw [hi.notes, Owner.parts, flatMap_singleton]
    · simp [hi.notes]
  · refine spells_startsMethod (fun span => ?_) (spells_eat (fun dot _ => ?_) ?_)
    · refine spells_as (v := Taken.nil.node (Laid.word _ name) []) ?_ rfl rfl
      refine spells_advance (spells_expectIdent fun method => spells_expect fun _ _ => ?_)
      refine spells_bind (spells_sub (args_spells hp)) ?_
      rintro args _ ⟨u, hargs, rfl⟩
      obtain ⟨comma, hcomma, hpieces⟩ := hargs.listed
      refine spells_expect fun _ _ => spells_close rfl fun t ht => spells_pure
        ⟨ht _ (.of_eq hcomma ?_) rfl, hargs.wellFormed, hargs.depth, .refl, ?_⟩
      · simp [hpieces]
      · simp [hargs.notes]
    · exact spells_as (fieldOf_spells hp (.name name) [] hvar rfl rfl (Nat.succ_pos _) rfl dot) rfl rfl
    · exact spells_pure ⟨hvar, rfl, Nat.succ_pos _, .refl, (notes_of_parts rfl).symm⟩

theorem primary_spells : Takes tokens next (primary p) (primary q) (ExprRead (bound + 1) topRank) := by
  refine spells_here fun start => spells_peek fun x hx => ?_
  cases x with
  | none => exact spells_complain
  | some t =>
    obtain ⟨l, span⟩ := t
    obtain rfl : span = start := hx.2 _ rfl
    cases l with
    | integer | bytes =>
      refine spells_advance (spells_pure ⟨?_, rfl, Nat.succ_pos _, .refl, (notes_of_parts rfl).symm⟩)
      exact Taken.laid _ (.plain _) fun _ => rfl
    | ident name => exact spells_advance (named_spells hp ⟨name, span⟩)
    | mark m =>
      cases m with
      | lparen =>
        refine spells_advance (spells_operand hp fun inner u hinner => ?_)
        refine spells_expect fun _ _ => spells_close rfl fun t ht => spells_pure
          ⟨ht _ (.plain _) rfl, hinner.wellFormed, Nat.succ_lt_succ hinner.depth, .refl, ?_⟩
        simp [hinner.notes]
      | _ => exact spells_complain
    | keyword k =>
      cases k with
      | ifKw => exact choice_spells hp
      | _ => exact spells_complain
    | _ => exact spells_complain

end Primary

theorem operandOver_spells (hp : 0 < room' → Takes tokens anything p q (ExprRead bound topRank))
    (hinside : 0 < room → p = inside) :
    Takes tokens next (operandOver room inside) (operandOver room' q) (ExprRead (bound + 1) topRank) := by
  have hprimary {next : Option Token → Prop} : Takes tokens next
      (primary (exprOver room inside)) (primary (exprOver room' q)) (ExprRead (bound + 1) topRank) :=
    primary_spells (exprOver_spells hp hinside)
  refine spells_here fun start => spells_peek fun x hx => ?_
  cases x with
  | none => exact hprimary
  | some t =>
    obtain ⟨l, span⟩ := t
    obtain rfl : span = start := hx.2 _ rfl
    cases l with
    | unary op =>
      refine spells_advance (nested_spells (p := p >>= fun e => pure (.unary (span.merge e.span) op e))
        (fun hroom => ?_) fun hroom => by rw [hinside hroom])
      refine spells_operand (hp hroom) fun e u he => spells_pure
        ⟨?_, ?_, Nat.succ_lt_succ he.depth, .refl, ?_⟩
      · exact Taken.laid _ (.plain _) he.laid.merge_token
      · rw [Expr.wellFormed, he.wellFormed, operator?_of_level he.level]
        rfl
      · simp [he.notes]
    | _ => exact hprimary

theorem operand_spells (room room' : Nat) :
    Takes tokens anything (operand room) (operand room') (ExprRead (room' + 1) topRank) := by
  induction room' generalizing room with
  | zero => cases room <;> exact operandOver_spells (fun h => absurd h (Nat.lt_irrefl 0)) fun _ => rfl
  | succ room' ih =>
    cases room with
    | zero => exact operandOver_spells (fun _ => ih room') fun h => absurd h (Nat.lt_irrefl 0)
    | succ room => exact operandOver_spells (fun _ => ih room) fun _ => rfl

/-- What is known of an expression of a tree: it goes no deeper than a bound, and it is laid out in tokens. -/
structure Known (tokens : List Token) (bound : Nat) (e : Expr) : Prop where
  wellFormed : e.wellFormed = true
  depth : e.depth < bound
  laid : ∃ ts, ts <:+: tokens ∧ Laid anyFreedom (.expr e) ts

theorem Known.spelled (h : Known tokens bound e) :
    ∃ ls, ls ⊆ tokens.map Token.lexeme ∧ e.Spelled anyFreedom ls := by
  obtain ⟨ts, hts, hlaid⟩ := h.laid
  exact ⟨_, map_subset _ hts.subset, hlaid.spelled⟩

theorem fits_of_part (hd : Node.expr d ∈ (Node.expr e).parts) (he : e.wellFormed = true) :
    d.wellFormed = true ∧ d.depth ≤ e.depth := by
  have hexprs {es : List Expr} (h : d ∈ es) : d.depth < exprsDepth es :=
    exprsDepth_le_iff.mp .refl d h
  cases e with
  | field span owner name | fieldAt span owner name i =>
    simp only [Node.parts, Node.front, Node.back, nodesIn, append_nil] at hd
    cases owner <;> grind [Owner.toExpr, Expr.wellFormed, Owner.wellFormed, Expr.depth, Owner.depth]
  | _ =>
    simp [Node.parts, Node.front, Node.back, nodesIn_joined] at hd
    try grind [Expr.wellFormed, Expr.depth, exprsWellFormed_iff]

theorem Known.part (h : Known tokens bound e) (hd : Node.expr d ∈ (Node.expr e).parts) :
    Known tokens bound d := by
  obtain ⟨hwf, hdepth⟩ := fits_of_part hd h.wellFormed
  obtain ⟨ts, hts, hlaid⟩ := h.laid
  obtain ⟨before, us, after, rfl, hpart⟩ := hlaid.part hd
  have hus : us <:+: before ++ (us ++ after) := ⟨before, after, append_assoc _ _ _⟩
  exact ⟨hwf, Nat.lt_of_le_of_lt hdepth h.depth, us, hus.trans hts, hpart⟩

/-- An expression as a part of a statement. -/
abbrev ValueRead (bound : Nat) : Account tokens Expr :=
  Read .expr ([·]) (Known tokens bound) (·.wellFormed = true)

theorem expr_spells (hbound : room' ≤ bound) (room : Nat) :
    Takes tokens next (expr room) (expr room') (ValueRead bound) := by
  have hexpr : Takes tokens next (expr room) (expr room') (ExprRead room' 0) :=
    exprOver_spells (fun hroom => Nat.sub_add_cancel hroom ▸ operand_spells (room - 1) (room' - 1)) fun _ => rfl
  refine spells_imp (spells_within hexpr) fun e u he => ⟨he.1.laid, he.1.wellFormed, ?_, ?_⟩
  · rw [flatMap_singleton, he.1.notes]
  · rintro _ (_ | ⟨_, ⟨⟩⟩)
    exact ⟨he.1.wellFormed, Nat.lt_of_lt_of_le he.1.depth hbound, _, he.2, he.1.laid⟩

end Expressions

/-! ### Declarations and assignments -/

variable {α : Type} {s : State}

/-- Names with commas between them, one more at the end. -/
theorem joined_concat (piece : α → List Piece) {items : List α} (h : items ≠ []) (a : α) :
    joined ((items ++ [a]).map piece) = joined (items.map piece) ++ [.mark .comma] ++ piece a := by
  rw [map_append, map_singleton, joined_snoc, flatMap_comma (by simpa using h)]

section Statements

variable {tokens : List Token} {next : Option Token → Prop} {bound room room' : Nat}
  (hbound : room' ≤ bound) {w : Taken tokens}

variable {β : Type} {T : Account tokens β} {e : Expr} {s : Stmt} {stmt stmt' : Parser (Option Stmt)}

theorem spells_expr {f g : Expr → Parser β} (hbound : room' ≤ bound)
    (hf : ∀ e (u : Taken tokens) (h : ValueRead bound e u), Spells (w.node h.laid u.notes) anything (f e) (g e) T) :
    Spells w next (expr room >>= f) (expr room' >>= g) T :=
  spells_node (expr_spells hbound room) (fun _ _ h => h.laid) hf

structure DeclRead (bound : Nat) (start : Span) (d : Decl) (u : Taken tokens) : Prop where
  pieces : u.pieces = d.pieces
  start : u.taken.head?.map Token.span = some start
  wellFormed : d.wellFormed = true
  noted : Noted (Known tokens bound) [d.value] u.notes

structure NamesRead (k : Keyword) (start : Span) (names : List Ident) (u : Taken tokens) : Prop where
  ne_nil : names ≠ []
  pieces : u.pieces = .keyword k :: joined (names.map ([.word ·]))
  start : u.taken.head?.map Token.span = some start
  quiet : u.notes = []

include hbound

theorem declaration_spells (isConst : Bool) (start : Span) :
    Takes tokens (· = some ⟨.keyword (if isConst then .constKw else .letKw), start⟩)
      (declaration isConst room) (declaration isConst room') (DeclRead bound start) := by
  refine spells_advance (spells_expectIdent fun first => ?_)
  refine spells_bind (R := NamesRead (if isConst then .constKw else .letKw) start)
    (spells_iterate (I := NamesRead (if isConst then .constKw else .letKw) start)
      ⟨by simp, by simp [joined], rfl, rfl⟩ fun names w hnames => ?_) fun names w hnames => ?_
  · refine spells_eat (fun _ _ => spells_expectIdent fun name => spells_pure ⟨by simp, by simp, ?_, ?_, ?_⟩)
      (spells_pure hnames)
    · rw [joined_concat _ hnames.ne_nil]
      simp [hnames.pieces]
    · exact start_append (start_append hnames.start)
    · simp [hnames.quiet]
  · refine spells_expect fun _ _ => spells_expr hbound fun value u hvalue => spells_pure ⟨?_, ?_, ?_, ?_⟩
    · simp [hnames.pieces, Decl.pieces]
    · exact start_append (start_append hnames.start)
    · rw [Decl.wellFormed, isEmpty_eq_false_iff.mpr hnames.ne_nil, hvalue.fits]
      rfl
    · simpa [hnames.quiet] using hvalue.noted

/-- A declaration as a statement or an item, as which `wrap` takes it. -/
theorem declared_spells {α : Type} (room : Nat) (wrap : Span → Decl → α) {f : α → Node} {exprs : α → List Expr}
    {Q : α → Prop} (hform : ∀ span d, Form anyFreedom (f (wrap span d)) (d.pieces ++ [.mark .semicolon]))
    (hspan : ∀ span d, (f (wrap span d)).span = span) (hexprs : ∀ span d, exprs (wrap span d) = [d.value])
    (hfits : ∀ span d, d.wellFormed = true → Q (wrap span d)) (isConst : Bool) (start : Span) :
    Takes tokens (· = some ⟨.keyword (if isConst then .constKw else .letKw), start⟩)
      (do
        let d ← declaration isConst room
        expect (.mark .semicolon)
        return some (wrap (start.merge (← behind)) d))
      (do
        let d ← declaration isConst room'
        expect (.mark .semicolon)
        return some (wrap (start.merge (← behind)) d)) (Found (Read f exprs (Known tokens bound) Q)) := by
  refine spells_bind (declaration_spells hbound isConst start) fun d u hd => ?_
  refine spells_expect fun _ _ => spells_close (start_append hd.start) fun t ht => spells_pure ⟨_, rfl, ?_⟩
  refine ⟨ht _ ?_ (hspan _ d), hfits _ d hd.wellFormed, hexprs _ d ▸ hd.noted⟩
  simpa [hd.pieces] using hform _ d

omit hbound

/-- A statement that is laid out and well-formed, and for which there was room. -/
abbrev StmtRead (bound room : Nat) : Account tokens Stmt :=
  Read .stmt Stmt.exprs (Known tokens bound) fun s => s.wellFormed = true ∧ s.nesting 0 ≤ room

theorem spells_target {f g : Option Target → Parser β}
    (h : ∀ t, e.target? = some t → Spells w next (f (some t)) (g (some t)) T) :
    Spells w next (target e >>= f) (target e >>= g) T := by
  rw [target_eq]
  split
  · next t ht => exact fun before said s hs hnext hend => h t ht before said s hs hnext hend
  · exact spells_complainAt e.span (g := fun _ => g none)

/-- There is nothing to remark on a target. -/
theorem Read.quiet {t : Target} {u : Taken tokens} (h : ValueRead bound e u) (ht : e.target? = some t) :
    u.notes = [] := by
  rw [h.noted.notes, flatMap_singleton, notes_of_target? ht]

structure TargetsRead (start : Span) (first : Target) (found : Option (List Target)) (u : Taken tokens) :
    Prop where
  pieces : ∃ targets, found = some targets ∧
    u.pieces = joined ((first :: targets).map fun t => [.node (.target t)])
  start : u.taken.head?.map Token.span = some start
  quiet : u.notes = []

include hbound

theorem targetsStep_spells (start : Span) (first : Target) (h : TargetsRead start first (some []) w) :
    Spells w next (iterate (some []) (targetsStep room)) (iterate (some []) (targetsStep room'))
      (TargetsRead start first) := by
  refine spells_iterate h fun found w hfound => ?_
  obtain ⟨targets, rfl, hpieces⟩ := hfound.pieces
  refine spells_eat (fun _ _ => spells_expr hbound fun e u he => spells_target fun t ht => ?_)
    (spells_pure hfound)
  refine spells_as (v := (w.token _).node (he.laid.target ht) []) (spells_pure ?_) rfl ?_
  · refine ⟨by simp, ⟨targets ++ [t], rfl, ?_⟩, ?_, ?_⟩
    · rw [← cons_append, joined_concat _ (cons_ne_nil _ _)]
      simp [hpieces]
    · exact start_append (start_append hfound.start)
    · simp [hfound.quiet]
  · simp [he.quiet ht]

theorem assignment_spells {levels : Nat} (hif : ∀ span, ¬next (some ⟨.keyword .ifKw, span⟩)) :
    Takes tokens next (assignment room) (assignment room') (Found (StmtRead bound levels)) := by
  refine spells_here fun start => ?_
  refine spells_bind (spells_head (expr_spells hbound room)) fun head u hhead => ?_
  obtain ⟨t, -, ht, -⟩ := exists_ends hhead.1.laid.ne_nil
  obtain ⟨hnext, hspan⟩ := hhead.2 t ht
  have hstart : u.taken.head?.map Token.span = some start := by rw [ht, Option.map_some, hspan t rfl]
  refine spells_look fun comma => spells_look fun equals => ?_
  split
  · refine spells_as (v := Taken.nil.node hhead.1.laid u.notes) ?_ rfl rfl
    refine spells_expect fun _ _ => spells_close (start_append hstart) fun last hlast => spells_pure
      ⟨_, rfl, hlast _ (.plain _) rfl, ⟨?_, Nat.zero_le _⟩, hhead.1.noted⟩
    rw [Stmt.wellFormed, hhead.1.fits, Bool.true_and, bne_iff_ne]
    intro hlexeme
    obtain ⟨l, hl, hl', -⟩ := exists_head?_of_spelled head hhead.1.laid.spelled
    rw [head?_map, ht] at hl
    obtain ⟨_, span⟩ := t
    cases (hl.trans hl'.symm).trans hlexeme
    exact hif span hnext
  · refine spells_target fun first hfirst => ?_
    refine spells_as (v := Taken.nil.node (hhead.1.laid.target hfirst) []) ?_ rfl (hhead.1.quiet hfirst).symm
    refine spells_bind (targetsStep_spells hbound start first ⟨⟨[], rfl, ?_⟩, ?_, rfl⟩)
      fun found w hfound => ?_
    · simp [joined]
    · simpa using hstart
    obtain ⟨others, rfl, hpieces⟩ := hfound.pieces
    refine spells_expect fun _ _ => spells_expr hbound fun value v hvalue => spells_expect fun _ _ => ?_
    refine spells_close (start_append (start_append (start_append hfound.start))) fun t ht => spells_pure
      ⟨_, rfl, ht (.stmt (.assign _ first others value)) (.of_eq (.absent _) ?_ ?_) rfl,
        ⟨hvalue.fits, Nat.zero_le _⟩, ?_⟩
    · simp [hpieces, Node.front, Node.back]
    · exact append_ne_nil_of_right_ne_nil _ (cons_ne_nil _ _)
    · simpa [hfound.quiet, Stmt.exprs] using hvalue.noted

omit hbound

/-! ### Conditionals -/

/-- Statements in braces that are laid out and well-formed, and for which there was room. -/
structure BlockRead (bound room : Nat) (b : Block) (u : Taken tokens) : Prop where
  laid (behindElse : Bool) : Laid anyFreedom (.block behindElse b) u.taken
  wellFormed : stmtsWellFormed b.stmts = true
  nesting : stmtsNesting 0 b.stmts < room
  noted : Noted (Known tokens bound) (stmtsExprs b.stmts) u.notes

/-- A clause that starts at its place and is well-formed, and for which there was room. -/
structure ClauseRead (bound room : Nat) (c : Clause) (u : Taken tokens) : Prop where
  pieces : u.pieces = [.keyword .ifKw, .expr c.test, .block c.yes]
  start : u.taken.head?.map Token.span = some c.start
  test : c.test.wellFormed = true
  yes : stmtsWellFormed c.yes.stmts = true
  nesting : stmtsNesting 0 c.yes.stmts < room
  noted : Noted (Known tokens bound) (c.test :: stmtsExprs c.yes.stmts) u.notes

/-- What stands behind a clause, if anything: `else` and a block, which may be a statement. -/
inductive ElseRead (bound room : Nat) : Option Block → Taken tokens → Prop
  | none : ElseRead bound room none .nil
  | some {no : Block} {u : Taken tokens} (hpieces : u.pieces = [.keyword .elseKw, .node (.block true no)])
      (hwf : stmtsWellFormed no.stmts = true)
      (hnesting : stmtsNesting 0 no.stmts + weight 0 no.span no.stmts ≤ room)
      (hnoted : Noted (Known tokens bound) (stmtsExprs no.stmts) u.notes) : ElseRead bound room (some no) u

variable {c : Clause} {u v : Taken tokens} {no : Option Block}

theorem Read.as (h : StmtRead bound room s u) (htaken : u.taken = v.taken)
    (hnotes : u.notes = v.notes) : StmtRead bound room s v :=
  ⟨htaken ▸ h.laid, h.fits, hnotes ▸ h.noted⟩

theorem ClauseRead.ne_nil (hc : ClauseRead bound room c u) : u.taken ≠ [] := by
  intro hnil
  have hstart := hc.start
  rw [hnil] at hstart
  cases hstart

theorem toStmt_read (hc : ClauseRead bound room c u) (hno : ElseRead bound room no v) {t : Token}
    (ht : (u.append v).taken.getLast? = some t) : StmtRead bound room (c.toStmt t.span no) (u.append v) := by
  have hstart : (u.append v).taken.head?.map Token.span = some c.start := start_append hc.start
  cases hno with
  | none =>
    have hpieces : (u.append .nil).pieces = [.keyword .ifKw, .expr c.test, .block c.yes] := by simp [hc.pieces]
    refine ⟨Taken.laid_of_ends _ ?_ ht hstart rfl, ⟨?_, hc.nesting⟩, ?_⟩
    · exact .of_eq (.absent _) hpieces
    · rw [Clause.toStmt, Stmt.wellFormed, hc.test, hc.yes]
      rfl
    · simpa [Clause.toStmt, Stmt.exprs] using hc.noted
  | some hpieces hwf hnesting hnoted =>
    rename_i no
    replace hpieces : (u.append v).pieces = [.keyword .ifKw, .expr c.test, .block c.yes, .keyword .elseKw,
        .node (.block true no)] := by simp [hc.pieces, hpieces]
    refine ⟨Taken.laid_of_ends _ ?_ ht hstart rfl, ⟨?_, Nat.max_le.mpr ⟨hc.nesting, hnesting⟩⟩, ?_⟩
    · exact .of_eq (.absent _) hpieces
    · rw [Clause.toStmt, Stmt.wellFormed, hc.test, hc.yes, hwf]
      rfl
    · exact hc.noted.append hnoted

/-- A statement as all of the block behind `else` takes no room. -/
theorem elseIf_read (hs : StmtRead bound room s u) (hcond : s.isConditional = true) (span : Span) :
    ∃ v : Taken tokens, ElseRead bound room (some ⟨s.span, [s]⟩) v ∧
      v.taken = ⟨.keyword .elseKw, span⟩ :: u.taken ∧ v.notes = u.notes := by
  have hbare : Laid anyFreedom (.block true ⟨s.span, [s]⟩) u.taken :=
    .mk (.bare trivial _ hcond) (.single hs.laid) hs.laid.span
  refine ⟨(Taken.nil.token ⟨.keyword .elseKw, span⟩).node hbare u.notes, .some rfl ?_ ?_ ?_, rfl, rfl⟩
  · rw [stmtsWellFormed, hs.fits.1]
    rfl
  · have hweight : weight 0 s.span [s] = 0 := if_pos (beq_self_eq_true _)
    rw [hweight]
    exact stmtsNesting_le_iff.mpr fun _ h => mem_singleton.mp h ▸ hs.fits.2
  · rw [stmtsExprs, stmtsExprs, append_nil]
    exact hs.noted

theorem joinClauses_concat (finish : Span) (no : Option Block) (c d : Clause) (ds : List Clause) :
    joinClauses finish no c (ds ++ [d]) =
      joinClauses finish (some ⟨(d.toStmt finish no).span, [d.toStmt finish no]⟩) c ds := by
  induction ds generalizing c with
  | nil => rfl
  | cons e ds ih =>
    rw [cons_append, joinClauses, joinClauses, ih]

/-- Clauses that make a statement with whatever may stand behind them. -/
def ClausesRead (bound room : Nat) (first : Clause) (found : List Clause × Option Block) (w : Taken tokens) :
    Prop :=
  ∀ no v t, ElseRead bound room no v → (w.append v).taken.getLast? = some t →
    StmtRead bound room (joinClauses t.span no first found.1) (w.append v)

theorem ClausesRead.concat {first : Clause} {others : List Clause}
    (h : ClausesRead bound room first (others, none) w) (hc : ClauseRead bound room c u) (span : Span) :
    ClausesRead bound room first (others ++ [c], none) ((w.token ⟨.keyword .elseKw, span⟩).append u) := by
  intro no v t hno ht
  have hlast : (u.append v).taken.getLast? = some t := by
    rw [Taken.append_taken, Taken.append_taken, append_assoc, getLast?_append_of_ne_nil] at ht
    · exact ht
    · exact append_ne_nil_of_left_ne_nil hc.ne_nil _
  obtain ⟨v', hv', htaken, hnotes⟩ := elseIf_read (toStmt_read hc hno hlast) (by cases no <;> rfl) span
  have hall : (w.append v').taken = (((w.token ⟨.keyword .elseKw, span⟩).append u).append v).taken := by
    simp [htaken]
  rw [joinClauses_concat]
  exact (h _ v' t hv' (hall ▸ ht)).as hall (by simp [hnotes])

section Blocks

variable {block block' : Parser Block}
  (hblock : Takes tokens anything block block' (BlockRead bound room'))

include hbound hblock

theorem clause_spells : Takes tokens next (clause room block) (clause room' block')
    (ClauseRead bound room') := by
  refine spells_here fun start => spells_expect fun span hspan => ?_
  obtain rfl : span = start := hspan.2 _ rfl
  refine spells_expr hbound fun test u htest => ?_
  refine spells_node hblock (fun _ _ h => h.laid false) fun yes v hyes => spells_pure ?_
  exact ⟨rfl, rfl, htest.fits, hyes.wellFormed, hyes.nesting, htest.noted.append hyes.noted⟩

theorem conditional_spells : Takes tokens next (conditional room block)
    (conditional room' block') (StmtRead bound room') := by
  refine spells_bind (clause_spells hbound hblock) fun first u hfirst => ?_
  refine spells_bind (R := fun found w => w.taken ≠ [] ∧ ∀ t, w.taken.getLast? = some t →
    StmtRead bound room' (joinClauses t.span found.2 first found.1) w)
    (spells_iterate (I := fun found w => w.taken ≠ [] ∧ ClausesRead bound room' first found w) ?_ ?_) ?_
  · exact ⟨hfirst.ne_nil, fun no v t hno ht => toStmt_read hfirst hno ht⟩
  · rintro ⟨others, no⟩ w ⟨hne, hclauses⟩
    refine spells_eat (fun span _ => spells_look fun more => ?_) (spells_pure ⟨hne, fun t ht => ?_⟩)
    · split
      · refine spells_bind (spells_sub (clause_spells hbound hblock)) ?_
        rintro c _ ⟨u, hc, rfl⟩
        refine spells_pure ⟨?_, ?_, hclauses.concat hc span⟩
        · simp
        · simp
      · refine spells_node hblock (fun _ _ h => h.laid true) fun b u hb => spells_pure ⟨by simp, fun t ht => ?_⟩
        have hweight : weight 0 b.span b.stmts ≤ 1 := by
          unfold weight
          split <;> omega
        have hno : ElseRead bound room' (some b) ((Taken.nil.token ⟨_, span⟩).node (hb.laid true) u.notes) :=
          .some rfl hb.wellFormed (Nat.le_trans (Nat.add_le_add_left hweight _) hb.nesting) hb.noted
        exact (hclauses _ _ t hno (by simpa using ht)).as (by simp) (by simp)
    · have hstmt := hclauses none .nil t .none (by simpa using ht)
      exact hstmt.as (by simp) (by simp)
  · rintro ⟨others, no⟩ w ⟨hne, hstmt⟩
    exact spells_behind hne fun t ht => spells_pure (hstmt t ht)

theorem statement_spells : Takes tokens next (statement room block)
    (statement room' block') (Found (StmtRead bound room')) := by
  have hdecl : ∀ isConst start, Takes tokens _ _ _ (Found (StmtRead bound room')) :=
    declared_spells hbound room Stmt.decl (fun _ _ => .of_eq (.absent _) (append_nil _).symm)
      (fun _ _ => rfl) (fun _ _ => rfl) fun _ _ hwf => ⟨hwf, Nat.zero_le _⟩
  have hassign {start : Span} {l : Lexeme} (hl : l ≠ .keyword .ifKw) : Takes tokens
      (· = some ⟨l, start⟩) (assignment room) (assignment room') (Found (StmtRead bound room')) :=
    assignment_spells hbound fun span heq => hl (Token.mk.inj (Option.some.inj heq)).1.symm
  refine spells_here fun start => spells_peek fun x hx => ?_
  cases x with
  | none => exact assignment_spells hbound nofun
  | some t =>
    obtain ⟨l, span⟩ := t
    obtain rfl : span = start := hx.2 _ rfl
    cases l with
    | keyword k =>
      cases k with
      | letKw => exact hdecl false span
      | constKw => exact hdecl true span
      | returnKw =>
        refine spells_advance (spells_expr hbound fun value u hvalue => spells_expect fun _ _ => ?_)
        refine spells_close rfl fun t ht => spells_pure ⟨_, rfl, ht _ (.plain _) rfl, ?_, hvalue.noted⟩
        exact ⟨hvalue.fits, Nat.zero_le _⟩
      | errorKw | breakKw =>
        refine spells_advance (spells_expect fun _ _ => spells_close rfl fun t ht => spells_pure ?_)
        exact ⟨_, rfl, ht _ (.plain _) rfl, ⟨rfl, Nat.zero_le _⟩, noted_nil _⟩
      | ifKw => exact spells_end (conditional_spells hbound hblock) fun s u hs => ⟨s, rfl, hs⟩
      | forKw =>
        refine spells_advance (spells_expr hbound fun test u htest => ?_)
        refine spells_node hblock (fun _ _ h => h.laid false) fun body v hbody => ?_
        refine spells_close rfl fun t ht => spells_pure
          ⟨_, rfl, ht _ (.plain _) rfl, ⟨?_, hbody.nesting⟩, ?_⟩
        · rw [Stmt.wellFormed, htest.fits, hbody.wellFormed, Bool.and_self]
        · exact htest.noted.append hbody.noted
      | _ => exact hassign (by simp)
    | _ => exact hassign (by simp)

end Blocks

abbrev StmtsRead (bound room : Nat) : Account tokens (List Stmt) :=
  Sequence .stmt Stmt.exprs (Known tokens bound) fun s => s.wellFormed = true ∧ s.nesting 0 ≤ room

theorem stmtsStep_spells (hstmt : Takes tokens anything stmt stmt' (Found (StmtRead bound room))) :
    Takes tokens next (iterate [] (stmtsStep stmt)) (iterate [] (stmtsStep stmt'))
      (StmtsRead bound room) := by
  refine spells_iterate (I := StmtsRead bound room) ⟨rfl, collected_nil⟩ fun stmts w hstmts => ?_
  refine spells_look fun ended => spells_look fun closed => ?_
  split
  · exact spells_pure hstmts
  · refine spells_bind (sequence_spells (pure ()) hstmt hstmts) ?_
    rintro _ v ⟨s, rfl, hv⟩
    exact spells_pure hv

theorem blockOver_spells {inside : Parser (Option Stmt)}
    (hstmt : 0 < room' → Takes tokens anything stmt stmt' (Found (StmtRead bound (room' - 1))))
    (hinside : 0 < room → stmt = inside) :
    Takes tokens next (blockOver room inside) (blockOver room' stmt') (BlockRead bound room') := by
  refine nested_spells (p := do
      let start ← here
      expect (.mark .lbrace)
      let stmts ← iterate [] (stmtsStep stmt)
      let finish ← here
      expect (.mark .rbrace)
      return ⟨start.merge finish, stmts⟩) (fun hroom => ?_) fun hroom => by rw [hinside hroom]
  refine spells_here fun start => spells_expect fun span hspan => ?_
  obtain rfl : span = start := hspan.2 _ rfl
  refine spells_bind (spells_sub (stmtsStep_spells (hstmt hroom))) ?_
  rintro stmts _ ⟨u, hstmts, rfl⟩
  refine spells_here fun finish => spells_expect fun last hlast => spells_pure ⟨fun behindElse => ?_, ?_, ?_, ?_⟩
  · obtain rfl : last = finish := hlast.2 _ rfl
    refine Taken.laid_of_ends _ (t := ⟨.mark .rbrace, last⟩) ?_ getLast?_concat rfl rfl
    exact .of_eq (.absent _) (by simp [hstmts.pieces, Node.front, Node.back])
  · exact stmtsWellFormed_iff.mpr fun s hs => (hstmts.collected.each s hs).1
  · have hle := stmtsNesting_le_iff.mpr fun s hs => (hstmts.collected.each s hs).2
    exact Nat.lt_of_le_of_lt hle (Nat.sub_one_lt_of_lt hroom)
  · rw [stmtsExprs_eq]
    exact hstmts.collected.noted

theorem block_spells (room room' : Nat) (hbound : room' ≤ bound) :
    Takes tokens anything (block room) (block room') (BlockRead bound room') := by
  induction room' generalizing room with
  | zero => cases room <;> exact blockOver_spells (fun h => absurd h (Nat.lt_irrefl 0)) fun _ => rfl
  | succ room' ih =>
    have hless := Nat.le_of_succ_le hbound
    cases room with
    | zero =>
      have hstmt : Takes tokens anything (statement 0 (block room')) _ _ :=
        statement_spells hless (ih room' hless)
      exact blockOver_spells (fun _ => hstmt) fun h => absurd h (Nat.lt_irrefl 0)
    | succ room => exact blockOver_spells (fun _ => statement_spells hless (ih room hless)) fun _ => rfl

end Statements

/-! ### Items -/

section Items

variable {tokens : List Token} {next : Option Token → Prop} {bound room room' : Nat}
  (hbound : room' ≤ bound) {w : Taken tokens}

theorem paramType_spells : Spells w next paramType paramType fun ty v =>
    v = w.node (Laid.word _ ⟨ty.1.name, ty.2⟩) [] := by
  have hname {name : Ident} (ty : ParamType) (h : (name.text == ty.name) = true) :
      w.node (Laid.word _ name) [] = w.node (Laid.word _ ⟨ty.name, name.span⟩) [] := by
    rw [← eq_of_beq h]
  refine spells_expectIdent fun name => ?_
  split
  · next h => exact spells_pure (hname .int h)
  split
  · next h => exact spells_pure (hname .byte h)
  · exact spells_complainAt name.span

theorem param_spells : Takes tokens next param param fun p u =>
    u.pieces = p.pieces ∧ Noted (fun _ => True) [] u.notes ∧ True := by
  refine spells_expectIdent fun name => spells_eat (fun _ _ => spells_end paramType_spells ?_)
    (spells_pure ⟨rfl, noted_nil _, trivial⟩)
  rintro ty _ rfl
  exact ⟨rfl, noted_nil _, trivial⟩

/-- A function that is well-formed, and for which there was room. -/
structure FunctionRead (bound room : Nat) (start : Span) (f : Function) (u : Taken tokens) : Prop where
  form (span : Span) : Form anyFreedom (.item (.function span f)) u.pieces
  start : u.taken.head?.map Token.span = some start
  wellFormed : stmtsWellFormed f.body.stmts = true
  nesting : stmtsNesting 0 f.body.stmts < room
  noted : Noted (Known tokens bound) (stmtsExprs f.body.stmts) u.notes

/-- An item that is laid out and well-formed, and for which there was room. -/
abbrev ItemRead (bound room : Nat) : Account tokens Item :=
  Read .item Item.exprs (Known tokens bound) fun i => i.wellFormed = true ∧ i.nesting 0 ≤ room

abbrev ItemsRead (bound room : Nat) : Account tokens (List Item) :=
  Sequence .item Item.exprs (Known tokens bound) fun i => i.wellFormed = true ∧ i.nesting 0 ≤ room

include hbound

theorem function_spells {start : Span} {l : Lexeme} :
    Takes tokens (· = some ⟨l, start⟩) (function room) (function room') (FunctionRead bound room' start) := by
  have hbody (inline : Bool) (w : Taken tokens)
      (hpieces : w.pieces = (if inline then [.keyword .inlineKw] else []) ++ [.keyword .functionKw])
      (hstart : w.taken.head?.map Token.span = some start) (hquiet : w.notes = []) : Spells w anything
      (do
        let name ← expectIdent
        expect (.mark .lparen)
        let params ← listed param
        expect (.mark .rparen)
        return (⟨inline, name, params, ← block room⟩ : Function))
      (do
        let name ← expectIdent
        expect (.mark .lparen)
        let params ← listed param
        expect (.mark .rparen)
        return (⟨inline, name, params, ← block room'⟩ : Function)) (FunctionRead bound room' start) := by
    refine spells_expectIdent fun name => spells_expect fun _ _ => ?_
    refine spells_bind (spells_sub (listed_spells Param.pieces (fun _ => []) param_spells)) ?_
    rintro params _ ⟨u, ⟨hlisted, hparams⟩, rfl⟩
    refine spells_expect fun _ _ => ?_
    refine spells_node (block_spells room room' hbound) (fun _ _ h => h.laid false) fun body v hbody => spells_pure
      ⟨fun span => ?_, ?_, hbody.wellFormed, hbody.nesting, ?_⟩
    · obtain ⟨comma, hcomma, hlisted⟩ := hlisted
      refine .of_eq hcomma (by simp [hpieces, hlisted, Node.front, Node.back]) ?_
      exact append_ne_nil_of_right_ne_nil _ (cons_ne_nil _ _)
    · exact start_append (start_append (start_append (start_append (start_append hstart))))
    · have hnone : (params.flatMap fun _ => ([] : List Expr)) = [] := flatMap_eq_nil_iff.mpr fun _ _ => rfl
      simpa [hquiet, hparams.noted.notes, hnone] using hbody.noted
  refine spells_eat (fun span hspan => spells_expect fun _ _ => hbody true _ rfl ?_ rfl)
    (spells_expect fun span hspan => hbody false _ rfl ?_ rfl)
  all_goals
    cases hspan
    rfl

theorem item_spells : Takes tokens next (item room) (item room') (Found (ItemRead bound room')) := by
  have hdecl : ∀ isConst start, Takes tokens _ _ _ (Found (ItemRead bound room')) :=
    declared_spells hbound room Item.decl (fun _ _ => .of_eq (.absent _) (append_nil _).symm)
      (fun _ _ => rfl) (fun _ _ => rfl) fun _ _ hwf => ⟨hwf, Nat.zero_le _⟩
  have hfunction (start : Span) (l : Lexeme) : Takes tokens (· = some ⟨l, start⟩)
      (do
        let f ← function room
        return some (Item.function (start.merge (← behind)) f))
      (do
        let f ← function room'
        return some (Item.function (start.merge (← behind)) f)) (Found (ItemRead bound room')) := by
    refine spells_bind (function_spells hbound) fun f u hf => ?_
    exact spells_close hf.start fun t ht => spells_pure
      ⟨_, rfl, ht _ (hf.form _) rfl, ⟨hf.wellFormed, hf.nesting⟩, hf.noted⟩
  refine spells_here fun start => spells_peek fun x hx => ?_
  cases x with
  | none => exact spells_complain
  | some t =>
    obtain ⟨l, span⟩ := t
    obtain rfl : span = start := hx.2 _ rfl
    cases l with
    | keyword k =>
      cases k with
      | letKw => exact hdecl false span
      | constKw => exact hdecl true span
      | functionKw | inlineKw => exact hfunction span _
      | _ => exact spells_complain
    | _ => exact spells_complain

theorem items_spells : Takes tokens next (items room) (items room') (ItemsRead bound room') := by
  refine spells_iterate (I := ItemsRead bound room') ⟨rfl, collected_nil⟩ fun found w hfound =>
    spells_look fun ended => ?_
  split
  · exact spells_pure hfound
  · refine spells_bind (sequence_spells _ (item_spells hbound) hfound) ?_
    rintro _ v ⟨i, rfl, hv⟩
    exact spells_pure hv

omit hbound

/-! ### Imports -/

theorem partSpelled_of_namePart? {l : Lexeme} {part : String} (h : namePart? (some l) = some part) :
    PartSpelled anyFreedom part l := by
  cases l with
  | ident name =>
    cases h
    exact .plain _
  | keyword k =>
    cases h
    exact .keyword trivial k
  | _ => cases h

structure DottedRead (parts : List String) (u : Taken tokens) : Prop where
  spelled : ∃ first more ps, parts = first :: more ∧ List.Forall₂ (PartSpelled anyFreedom) more ps ∧
    u.pieces = (.ident first :: ps.flatMap fun l => [.mark .dot, l]).map .lexeme
  quiet : u.notes = []

theorem dottedName_spells : Takes tokens next dottedName dottedName DottedRead := by
  refine spells_expectIdent fun first => ?_
  refine spells_as (v := Taken.nil.token ⟨.ident first.text, first.span⟩) ?_ rfl rfl
  refine spells_iterate (I := DottedRead) ⟨⟨_, [], [], rfl, .nil, rfl⟩, rfl⟩ fun parts w hparts => ?_
  refine spells_eat (fun _ _ => spells_peek fun x _ => ?_) (spells_pure hparts)
  obtain ⟨first, more, ps, rfl, hmore, hpieces⟩ := hparts.spelled
  cases x with
  | none => exact spells_complain
  | some t =>
    dsimp only [Option.map_some]
    split
    · next part hpart =>
      have hspelled := partSpelled_of_namePart? hpart
      refine spells_advance (spells_pure ⟨by simp, ⟨first, more ++ [part], ps ++ [t.lexeme], rfl,
        rel_append hmore (.cons hspelled .nil), ?_⟩, hparts.quiet⟩)
      simp [hpieces]
    · exact spells_complain

structure TargetRead (i : Import) (u : Taken tokens) : Prop where
  wellFormed : i.wellFormed = true
  spelled : ∃ ls, i.Spelled anyFreedom ls ∧ u.pieces = ls.map .lexeme
  quiet : u.notes = []

theorem importTarget_spells : Takes tokens next importTarget importTarget TargetRead := by
  have hdotted {next : Option Token → Prop} : Takes tokens next
      (do return Import.dotted (← dottedName)) (do return Import.dotted (← dottedName)) TargetRead := by
    refine spells_end dottedName_spells fun parts u hparts => ?_
    obtain ⟨first, more, ps, rfl, hmore, hpieces⟩ := hparts.spelled
    exact ⟨rfl, ⟨_, .dotted first hmore, hpieces⟩, hparts.quiet⟩
  refine spells_peek fun x _ => ?_
  cases x with
  | none => exact hdotted
  | some t =>
    obtain ⟨l, span⟩ := t
    cases l with
    | bytes bs =>
      refine spells_advance (spells_pure ⟨rfl, ⟨[.bytes bs], ?_, rfl⟩, rfl⟩)
      cases htext : Text.ofUtf8? bs with
      | none => exact .broken trivial htext
      | some cs =>
        obtain ⟨hbytes, hlossy⟩ := Text.utf8_ofUtf8? htext
        have hspelled := Import.Spelled.path (F := anyFreedom) (String.ofList cs)
        rw [String.toList_ofList, hbytes] at hspelled
        rw [hlossy]
        exact hspelled
    | _ => exact hdotted

abbrev ImportsRead (bound : Nat) : Account tokens (List (Import × Span)) :=
  Sequence .import (fun _ => []) (Known tokens bound) (·.1.wellFormed = true)

theorem imports_spells : Takes tokens next imports imports (ImportsRead bound) := by
  refine spells_iterate (I := ImportsRead bound) ⟨rfl, collected_nil⟩ fun found w hfound => ?_
  refine spells_here fun start => spells_eat (fun span hspan => ?_) (spells_pure hfound)
  obtain rfl : span = start := hspan.2 _ rfl
  refine spells_bind (spells_sub importTarget_spells) ?_
  rintro i _ ⟨u, hi, rfl⟩
  obtain ⟨ls, hls, hpieces⟩ := hi.spelled
  -- The import up to its end, as it stands behind those before it.
  have hone {v v' : Taken tokens} {ls : List Lexeme} (hspelled : ∀ span, ImportSpelled anyFreedom (i, span) ls)
      (hpieces : v.pieces = ls.map .lexeme) (hstart : v.taken.head?.map Token.span = some span)
      (htaken : v'.taken = w.taken ++ v.taken) (hnotes : v'.notes = w.notes) :
      Spells v' anything (do return .again (found ++ [(i, span.merge (← behind))]))
        (do return .again (found ++ [(i, span.merge (← behind))]))
        (Turns (ImportsRead bound) (ImportsRead bound) w) := by
    have hne : v.taken ≠ [] := fun hnil => by
      rw [hnil] at hstart
      cases hstart
    refine spells_behind (by simp [htaken, hne]) fun t ht => ?_
    rw [htaken, getLast?_append_of_ne_nil _ hne] at ht
    have hlaid : Laid anyFreedom (.import (i, span.merge t.span)) v.taken :=
      Taken.laid_of_ends v (hpieces ▸ .import (hspelled _)) ht hstart rfl
    refine spells_as (v := w.node hlaid []) (spells_pure ⟨length_lt_node _ _, ?_⟩) htaken.symm ?_
    · exact ⟨by simp [hfound.pieces], hfound.collected.snoc (noted_nil _) hi.wellFormed⟩
    · simp [hnotes]
  refine spells_eat (fun semicolon _ => ?_) ?_
  · refine hone (v := ((Taken.nil.token ⟨.keyword .importKw, span⟩).append u).token ⟨.mark .semicolon, semicolon⟩)
      (fun _ => .closed hls) (by simp [hpieces]) rfl (by simp) (by simp [hi.quiet])
  · refine hone (v := (Taken.nil.token ⟨.keyword .importKw, span⟩).append u)
      (fun _ => .bare trivial hls) (by simp [hpieces]) rfl (by simp)
      (by simp [hi.quiet])

/-! ### Files -/

/-- A file that is laid out and well-formed, for which there was room, and the remarks on it. -/
structure FileRead (tokens : List Token) (room : Nat) (m : Tree.Module) (ts : List Token)
    (ds : List Diagnostic) : Prop where
  wellFormed : m.wellFormed = true
  laid : Run (Laid anyFreedom) (m.imports.map (.node ∘ .import) ++ m.items.map (.node ∘ .item)) ts
  nesting : m.nesting 0 ≤ room
  noted : Noted (Known tokens room) (m.items.flatMap Item.exprs) ds

theorem FileRead.spelled {m : Tree.Module} {ts : List Token} {ds : List Diagnostic}
    (h : FileRead tokens room m ts ds) : m.Spelled anyFreedom (ts.map Token.lexeme) := by
  have hwrites := (h.laid.mono fun _ _ hlaid => hlaid.spelled).writes []
  rw [← append_nil (List.map _ m.items)] at hwrites
  obtain ⟨is, his, hrest⟩ := hwrites.nodes
  obtain ⟨js, hjs, heq⟩ := hrest.nodes
  replace heq : ts.map Token.lexeme = is.flatten ++ js.flatten := heq
  exact heq ▸ .mk his hjs

theorem fileWithin_spells : Takes tokens next (fileWithin room) (fileWithin room')
    fun m u => FileRead tokens room' m u.taken u.notes := by
  refine spells_bind (R := ImportsRead room') imports_spells fun is u his => ?_
  refine spells_bind (spells_sub (items_spells .refl)) ?_
  rintro js _ ⟨v, hjs, rfl⟩
  refine spells_pure ⟨?_, ?_, Module.nesting_le_iff.mpr fun j hj => (hjs.collected.each j hj).2, ?_⟩
  · rw [Tree.Module.wellFormed, all_eq_true.mpr his.collected.each,
      all_eq_true.mpr fun j hj => (hjs.collected.each j hj).1, Bool.and_self]
  · have hrun := (u.append v).run
    rwa [Taken.append_pieces, his.pieces, hjs.pieces] at hrun
  · have hnone : (is.flatMap fun _ => ([] : List Expr)) = [] := flatMap_eq_nil_iff.mpr fun _ _ => rfl
    have hquiet := his.collected.noted
    rw [hnone] at hquiet
    exact hquiet.append hjs.collected.noted

end Items

/-! ### The end of a file -/

theorem advance_rest (s : State) : (advance.run s).2.rest = s.rest.tail := by
  cases hrest : s.rest with
  | nil => simp only [advance, hrest, tail_nil]
  | cons t rest => simp only [advance, hrest, tail_cons]

/-- The end of a recovery, which takes a token if as many are left as before. -/
def takenSince {α : Type} (left : Nat) (a : α) : Parser α := do
  if (← look (·.rest.length)) == left then advance
  return a

theorem takenSince_length {left : Nat} (a : α) (hleft : 0 < left) (hs : s.rest.length ≤ left) :
    ((takenSince left a).run s).2.rest.length < left := by
  cases hsame : s.rest.length == left with
  | true =>
    simp only [takenSince, run_bind, look, hsame, if_true, run_pure, advance_rest, length_tail]
    omega
  | false =>
    simp only [takenSince, run_bind, look, hsame, Bool.false_eq_true, if_false, run_pure]
    exact Nat.lt_of_le_of_ne hs (beq_eq_false_iff_ne.mp hsame)

/-- Recovery always goes on. -/
theorem recovering_length (step : Parser α) (afterwards : Parser Unit) (hs : s.rest ≠ []) :
    ((recovering step afterwards).run s).2.rest.length < s.rest.length := by
  have hpos := length_pos_iff.mpr hs
  have hstep := step.advances s
  by_cases herrors : s.errors < (step.run s).2.errors
  · have hrun : (recovering step afterwards).run s =
        (takenSince s.rest.length (step.run s).1).run
          (afterwards.run (synchronize.run (step.run s).2).2).2 := by
      simp only [recovering, takenSince, run_bind, look, herrors, if_true]
    rw [hrun]
    have hall := (hstep.trans (synchronize.advances _)).trans (afterwards.advances _)
    exact takenSince_length _ hpos hall.length_le
  · have hrun : (recovering step afterwards).run s =
        (takenSince s.rest.length (step.run s).1).run (step.run s).2 := by
      simp only [recovering, takenSince, run_bind, look, herrors, if_false]
    rw [hrun]
    exact takenSince_length _ hpos hstep.length_le

/-- A turn takes a token, or it is the last one, where a loop stops. -/
def TakesTokens {α : Type} (stops : State → Prop) (step : List α → Parser (Turn (List α))) : Prop :=
  ∀ found s, (stops s ∧ (step found).run s = (.last found, s)) ∨
    ∃ more t, (step found).run s = (.again more, t) ∧ t.rest.length < s.rest.length

theorem itemsStep_takes (room : Nat) : TakesTokens (·.rest = []) (itemsStep room) := by
  intro found s
  by_cases hs : s.rest = []
  · refine .inl ⟨hs, ?_⟩
    simp only [itemsStep, atEnd, run_bind, look, hs, isEmpty_nil, if_true, run_pure]
  · have hlength := recovering_length (item room) (do let _ ← eat (.mark .rbrace)) hs
    refine .inr ?_
    simp only [itemsStep, atEnd, run_bind, look, isEmpty_eq_false_iff.mpr hs, Bool.false_eq_true, if_false]
    split
    · exact ⟨_, _, rfl, hlength⟩
    · exact ⟨_, _, rfl, hlength⟩

theorem itemsStep_rest (room : Nat) (found : List Item) (s : State) :
    (iterateFrom (itemsStep room) found s).2.rest = [] := by
  fun_induction iterateFrom (itemsStep room) found s with
  | case1 found s b t hrun =>
    obtain ⟨hs, hlast⟩ | ⟨more, u, hagain, _⟩ := itemsStep_takes room found s
    · cases hrun.symm.trans hlast
      exact hs
    · cases hrun.symm.trans hagain
  | case2 found s b t hrun _ ih => exact ih
  | case3 found s b t hrun hless =>
    obtain ⟨_, hlast⟩ | ⟨more, u, hagain, htaken⟩ := itemsStep_takes room found s
    · cases hrun.symm.trans hlast
    · cases hrun.symm.trans hagain
      exact absurd htaken hless

/-- A run over all tokens that meets no errors: the tree accounts for all of them and for all remarks, and
with less room the run goes too deep or is the same. -/
theorem fileWithin_read (room room' : Nat) {tokens : List Token} {finish : Span}
    (hend : ((fileWithin room').run (.start tokens finish)).2.errors = 0) :
    (((fileWithin room).run (.start tokens finish)).2.Deep ∨
      (fileWithin room).run (.start tokens finish) = (fileWithin room').run (.start tokens finish)) ∧
    FileRead tokens room' ((fileWithin room').run (.start tokens finish)).1 tokens
      ((fileWithin room').run (.start tokens finish)).2.diagnostics := by
  have hstart : (State.start tokens finish).Has [] [] (.nil : Taken tokens) := ⟨rfl, rfl, rfl, rfl⟩
  have hspells : Takes tokens anything (fileWithin room) (fileWithin room') _ :=
    fileWithin_spells
  obtain ⟨hless, u, hread, hhas⟩ := hspells [] [] _ hstart trivial hend
  have htokens := hhas.tokens
  have hrest : ((fileWithin room').run (.start tokens finish)).2.rest = [] :=
    itemsStep_rest room' [] (imports.run (.start tokens finish)).2
  rw [hrest, append_nil, nil_append] at htokens
  rw [← htokens] at hread
  rw [hhas.diagnostics, nil_append]
  exact ⟨hless, hread⟩

end Teal.Parser

namespace Teal.Tree

open List

theorem Parsed.read_of_ofTokens {tokens : List Token} {finish : Span} {parsed : Parsed}
    (h : Parsed.ofTokens tokens finish = .ok parsed) :
    Parser.FileRead tokens Parser.maxNesting parsed.module tokens parsed.notes := by
  simp only [Parsed.ofTokens] at h
  split at h
  · cases h
  · next hquiet =>
    cases h
    rw [Bool.not_eq_true, any_eq_false] at hquiet
    exact (Parser.fileWithin_read Parser.maxNesting Parser.maxNesting (countP_eq_zero.mpr hquiet)).2

/-- Tokens that are parsed without errors spell the tree that comes out, and in it operators hold as tightly
as their places ask for. Without freedoms there would be one spelling only, the tree with its names printed as
names. -/
theorem Parsed.ofTokens_spelled {tokens : List Token} {finish : Span} {parsed : Parsed}
    (h : Parsed.ofTokens tokens finish = .ok parsed) :
    parsed.module.wellFormed = true ∧
      parsed.module.Spelled anyFreedom (tokens.map Token.lexeme) ∧
      ∀ ls, parsed.module.Spelled noFreedom ls ↔ ls = parsed.module.lexemesBy .ident := by
  have hread := Parsed.read_of_ofTokens h
  exact ⟨hread.wellFormed, hread.spelled, fun ls => Module.spelled_iff hread.wellFormed ls⟩

/-- A file that takes every freedom: a broken path and no semicolon behind it, a keyword as a part of a dotted
name, a comma behind the last parameter and the last argument, and `else if`. -/
def Sample.loose : List Token := Parser.placeless
  [.keyword .importKw, .bytes [0xFF], .keyword .importKw, .ident "lib", .mark .dot,
    .keyword .constKw, .mark .semicolon, .keyword .functionKw, .ident "f", .mark .lparen, .ident "a",
    .mark .comma, .mark .rparen, .mark .lbrace, .keyword .ifKw, .ident "a", .mark .lbrace, .mark .rbrace,
    .keyword .elseKw, .keyword .ifKw, .unary .not, .ident "g", .mark .lparen, .ident "a", .mark .comma,
    .mark .rparen, .binary .sub, .integer 1, .binary .sub, .integer 2, .mark .lbrace, .mark .rbrace,
    .mark .rbrace]

theorem Parsed.ofTokens_spelled_sample :
    ∃ parsed, Parsed.ofTokens Sample.loose .nowhere = .ok parsed ∧
      parsed.module.lexemesBy .ident ≠ Sample.loose.map Token.lexeme ∧
      parsed.module.wellFormed = true ∧
      parsed.module.Spelled anyFreedom (Sample.loose.map Token.lexeme) ∧
      ∀ ls, parsed.module.Spelled noFreedom ls ↔ ls = parsed.module.lexemesBy .ident := by
  have hlength : (Parsed.ofTokens Sample.loose .nowhere).map (·.module.lexemesBy .ident |>.length) = .ok 34 := by
    decide +kernel
  cases hparsed : Parsed.ofTokens Sample.loose .nowhere with
  | error ds =>
    rw [hparsed] at hlength
    cases hlength
  | ok parsed =>
    rw [hparsed] at hlength
    refine ⟨parsed, rfl, ?_, Parsed.ofTokens_spelled hparsed⟩
    intro heq
    have hcount : (parsed.module.lexemesBy .ident).length = 34 := Except.ok.inj hlength
    rw [heq] at hcount
    cases hcount

/-- An import of two parts, the second one given. -/
def Sample.dotted (part : Lexeme) : List Token := Parser.placeless
  [.keyword .importKw, .ident "stdlib", .mark .dot, part, .mark .semicolon]

/-- A keyword and the name with its text give the same tree behind a dot, so no printer gives both of them back:
a tree whose names are printed as names is spelled with the keyword only if that is a freedom. -/
theorem Parsed.ofTokens_keyword_part :
    (scan 0 "import stdlib.const;").tokens.map Token.lexeme =
        (Sample.dotted (.keyword .constKw)).map Token.lexeme ∧
      Parsed.ofTokens (Sample.dotted (.keyword .constKw)) .nowhere =
        Parsed.ofTokens (Sample.dotted (.ident "const")) .nowhere ∧
      ∃ parsed, Parsed.ofTokens (Sample.dotted (.keyword .constKw)) .nowhere = .ok parsed ∧
        ¬parsed.module.Spelled (· ≠ .keywordPart) ((Sample.dotted (.keyword .constKw)).map Token.lexeme) := by
  refine ⟨by decide +kernel, by with_unfolding_all rfl,
    ⟨⟨[(.dotted ["stdlib", "const"], .nowhere)], []⟩, []⟩, by with_unfolding_all rfl, fun h => ?_⟩
  generalize hls : (Sample.dotted (.keyword .constKw)).map Token.lexeme = ls at h
  obtain @⟨is, js, his, hjs⟩ := h
  obtain ⟨ls, _, hi, hnone, rfl⟩ := forall₂_cons_left_iff.mp his
  obtain rfl := forall₂_nil_left_iff.mp hnone
  obtain rfl := forall₂_nil_left_iff.mp hjs
  have hdotted {ls : List Lexeme} (h : Import.Spelled (· ≠ .keywordPart) (.dotted ["stdlib", "const"]) ls) :
      ls = [.ident "stdlib", .mark .dot, .ident "const"] := by
    cases h with
    | dotted first hparts =>
      obtain ⟨l, _, hl, hnone, rfl⟩ := forall₂_cons_left_iff.mp hparts
      obtain rfl := forall₂_nil_left_iff.mp hnone
      generalize hconst : "const" = part at hl
      cases hl with
      | plain => rfl
      | keyword hfree => exact absurd rfl hfree
  cases hi with
  | closed hi =>
    rw [hdotted hi] at hls
    cases hls
  | bare _ hi =>
    rw [hdotted hi] at hls
    cases hls

/-! ### Remarks -/

/-- A text that is accepted comes with one remark for each comparison whose left side is a comparison
without parentheses, at the place of the whole and in the order in which such expressions end, and with no
others. None of them stops the compilation, and a text is never refused without a diagnostic that does. -/
theorem Parsed.ofText_notes (file : FileId) (text : String) :
    (∀ parsed, Parsed.ofText file text = .ok parsed →
      parsed.notes = parsed.module.nodes.filterMap Expr.chainNote? ∧
        ∀ d ∈ parsed.notes, d.isFatal = false) ∧
    ∀ ds, Parsed.ofText file text = .error ds → ∃ d ∈ ds, d.isFatal = true := by
  simp only [Parsed.ofText]
  split
  · next hfatal =>
    constructor
    · intro parsed h
      cases h
    · intro ds h
      cases h
      exact any_eq_true.mp hfatal
  · refine ⟨fun parsed h => ?_, fun ds h => ?_⟩
    · have hnotes : parsed.notes = parsed.module.nodes.filterMap Expr.chainNote? := by
        rw [(Parsed.read_of_ofTokens h).noted.notes, Module.nodes, filterMap_flatMap]
        rfl
      refine ⟨hnotes, fun d hd => ?_⟩
      obtain ⟨e, -, he⟩ := mem_filterMap.mp (hnotes ▸ hd)
      obtain ⟨ops, -, rfl⟩ := Option.map_eq_some_iff.mp he
      rfl
    · simp only [Parsed.ofTokens] at h
      split at h
      · next hfatal =>
        cases h
        exact any_eq_true.mp hfatal
      · cases h

/-- Three comparisons in a row, with parentheses around one more. -/
def Sample.compared : String := "let a = 1 < 2 == (3 < 4) != f(5 < 6 < 7);"

theorem Parsed.ofText_notes_sample :
    (∃ parsed, Parsed.ofText 0 Sample.compared = .ok parsed ∧ parsed.notes.length = 3 ∧
      parsed.notes = parsed.module.nodes.filterMap Expr.chainNote? ∧
        ∀ d ∈ parsed.notes, d.isFatal = false) ∧
    ∃ ds, Parsed.ofText 0 "let a = 1 < 2 < 3" = .error ds ∧ ∃ d ∈ ds, d.isFatal = true := by
  have hnotes : (Parsed.ofText 0 Sample.compared).toOption.map (·.notes.length) = some 3 := by
    decide +kernel
  have hrefused : (Parsed.ofText 0 "let a = 1 < 2 < 3").toOption.isNone = true := by decide +kernel
  constructor
  · cases hparsed : Parsed.ofText 0 Sample.compared with
    | error ds =>
      rw [hparsed] at hnotes
      cases hnotes
    | ok parsed =>
      rw [hparsed] at hnotes
      exact ⟨parsed, rfl, Option.some.inj hnotes, (ofText_notes 0 _).1 parsed hparsed⟩
  · cases hparsed : Parsed.ofText 0 "let a = 1 < 2 < 3" with
    | error ds => exact ⟨ds, rfl, (ofText_notes 0 _).2 ds hparsed⟩
    | ok parsed =>
      rw [hparsed] at hrefused
      cases hrefused

end Teal.Tree
