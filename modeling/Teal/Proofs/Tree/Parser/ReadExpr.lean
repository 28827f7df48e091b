import Teal.Proofs.Tree.Parser.Reads

/-! Expressions are read as they are spelled. They are read tier by tier: the loop of a tier goes on over
the left spine of an operation, where the operators of that tier are, and stops at what holds less tightly.
Levels of nesting are counted as they are read, so with as much room no level is refused. -/

namespace Teal.Parser

open Teal.Tree List

/-! ### What may follow -/

/-- A lexeme does not continue an expression whose operators are of a rank or a higher one. -/
structure Stops (rank : Nat) (x : Option Lexeme) : Prop where
  operator : ∀ op, x = some (.binary op) → op.tier.rank < rank
  lparen : x ≠ some (.mark .lparen)
  lbracket : x ≠ some (.mark .lbracket)
  dot : x ≠ some (.mark .dot)

variable {rank : Nat} {op : BinOp} {e : Expr}

theorem Stops.mono {rank' : Nat} {x : Option Lexeme} (h : Stops rank x) (hle : rank ≤ rank') :
    Stops rank' x :=
  ⟨fun op hop => Nat.lt_of_lt_of_le (h.operator op hop) hle, h.lparen, h.lbracket, h.dot⟩

theorem stops_mark {m : Mark} (hm : m ≠ .lparen ∧ m ≠ .lbracket ∧ m ≠ .dot) (rank : Nat) :
    Stops rank (some (.mark m)) where
  operator := nofun
  lparen h := hm.1 (Lexeme.mark.inj (Option.some.inj h))
  lbracket h := hm.2.1 (Lexeme.mark.inj (Option.some.inj h))
  dot h := hm.2.2 (Lexeme.mark.inj (Option.some.inj h))

theorem stops_binary (h : op.tier.rank < rank) : Stops rank (some (.binary op)) where
  operator op' hop' := by
    cases hop'
    exact h
  lparen := by simp
  lbracket := by simp
  dot := by simp

def topRank : Nat := 5

theorem rank_lt_topRank (tier : Tier) : tier.rank < topRank := by
  cases tier <;> decide

theorem rank_inj {tier tier' : Tier} (h : tier.rank = tier'.rank) : tier = tier' := by
  cases tier <;> cases tier' <;> cases h <;> rfl

def opensExpr : Lexeme → Bool
  | .integer _ | .bytes _ | .ident _ | .unary _ | .mark .lparen | .keyword .ifKw => true
  | _ => false

theorem exists_head?_of_spelled {F : Freedom → Prop} (e : Expr) {ls : List Lexeme} (h : e.Spelled F ls) :
    ∃ l, ls.head? = some l ∧ e.lexemes.head? = some l ∧ opensExpr l = true := by
  cases h with
  | binary span op hl hr =>
    obtain ⟨x, hx, hx', hopens⟩ := exists_head?_of_spelled _ hl
    exact ⟨x, by rw [head?_append, hx]; rfl, by rw [Expr.lexemes, head?_append, hx']; rfl, hopens⟩
  | field span name howner => cases howner <;> exact ⟨_, rfl, rfl, rfl⟩
  | fieldAt span name howner hi => cases howner <;> exact ⟨_, rfl, rfl, rfl⟩
  | _ => exact ⟨_, rfl, rfl, rfl⟩

theorem exists_head?_lexemes (e : Expr) : ∃ l, e.lexemes.head? = some l ∧ opensExpr l = true :=
  let ⟨l, hl, _, hopens⟩ := exists_head?_of_spelled e ((Expr.spelled_iff e _).mpr rfl)
  ⟨l, hl, hopens⟩

/-! ### Operators -/

/-- The rank of the operator of an operation on two operands. All else holds more tightly. -/
def level (e : Expr) : Nat := e.operator?.elim topRank (·.tier.rank)

theorem span_erase (e : Expr) : e.erase.span = .nowhere := by
  cases e <;> rfl

theorem level_of_operator? (h : e.operator? = none) : level e = topRank := by
  rw [level, h]
  rfl

theorem operator?_of_level (h : topRank ≤ level e) : e.operator? = none := by
  cases hop : e.operator? with
  | none => rfl
  | some op =>
    rw [level, hop] at h
    exact absurd (rank_lt_topRank op.tier) (Nat.not_lt.mpr h)

theorem rank_le_level (h : e.operator?.all (fun inner => op.bindingPower.1 < inner.bindingPower.2) = true) :
    op.tier.rank ≤ level e := by
  unfold level
  cases hop : e.operator? with
  | none => exact Nat.le_of_lt (rank_lt_topRank op.tier)
  | some inner =>
    rw [hop, Option.all_some, decide_eq_true_eq] at h
    unfold BinOp.bindingPower at h
    show op.tier.rank ≤ inner.tier.rank
    omega

theorem rank_lt_level (h : e.operator?.all (fun inner => op.bindingPower.2 ≤ inner.bindingPower.1) = true) :
    op.tier.rank < level e := by
  unfold level
  cases hop : e.operator? with
  | none => exact rank_lt_topRank op.tier
  | some inner =>
    rw [hop, Option.all_some, decide_eq_true_eq] at h
    unfold BinOp.bindingPower at h
    show op.tier.rank < inner.tier.rank
    omega

theorem remarkOnChain_reads (op : BinOp) (lhs : Expr) (span : Span) :
    Reads (remarkOnChain op lhs span) [] () anything := by
  have hrecord (message : String) : Reads (record (.ambiguity message span)) [] () anything := by
    intro s rest hs _
    refine ⟨_, rfl, hs.rest, hs.finish, hs.last, hs.lost, ?_⟩
    exact forall_mem_append.mpr ⟨hs.quiet, forall_mem_singleton.mpr rfl⟩
  rw [remarkOnChain_eq]
  split
  · split
    · exact hrecord _
    · exact reads_pure ()
  · exact reads_pure ()

/-- A parser reads all expressions up to a depth whose operators are of a rank or a higher one. -/
def ReadsFrom (F : Freedom → Prop) (rank depth : Nat) (p : Parser Expr) : Prop :=
  ∀ (e : Expr) (ls : List Lexeme), e.Spelled F ls → e.wellFormed = true → rank ≤ level e → e.depth ≤ depth →
    Reads p ls e.erase (Stops rank)

section Chain

variable {F : Freedom → Prop} {tier : Tier} {operand : Parser Expr} {depth : Nat} {next : Option Lexeme → Prop}
  {ls : List Lexeme}

theorem chainStep_again {op : BinOp} (hop : op.tier = tier) (span : Span) (l : Expr) {r : Expr}
    (h : Reads operand ls r.erase next) :
    Reads (chainStep tier operand l.erase) (.binary op :: ls)
      (.again (Expr.binary span op l r).erase) next := by
  refine reads_peek ?_
  dsimp only
  rw [if_pos hop]
  refine reads_cons (advance_reads _) (reads_nil h ?_ fun _ => id)
  rw [span_erase, span_erase]
  exact reads_then (remarkOnChain_reads op _ _) (reads_pure _)

theorem chainStep_last (lhs : Expr) :
    Reads (chainStep tier operand lhs) [] (.last lhs) (Stops tier.rank) := by
  refine reads_peek_nil fun x hx => ?_
  split
  · rename_i op
    have hne : op.tier ≠ tier := by
      rintro rfl
      exact Nat.lt_irrefl _ (hx.operator op rfl)
    rw [if_neg hne]
    exact reads_pure _
  · exact reads_pure _

/-- The loop of a tier goes on from an expression as it does from the end of its left spine. -/
theorem chain_over (hoperand : ReadsFrom F (tier.rank + 1) depth operand) (e : Expr) {es : List Lexeme}
    (he : e.Spelled F es) (hwf : e.wellFormed = true) (hlevel : tier.rank ≤ level e)
    (hdepth : e.depth ≤ depth) {ls : List Lexeme} {a : Expr}
    (hloop : Reads (iterate e.erase (chainStep tier operand)) ls a next)
    (hnext : ∀ x, next x → Stops (tier.rank + 1) (ls.head?.or x)) :
    Reads (chain tier operand) (es ++ ls) a next := by
  -- The lexemes of the operands come first and the loop runs over them from the left, so the induction
  -- is on the left operand, with one more turn put in front of the loop.
  by_cases htighter : tier.rank + 1 ≤ level e
  · exact reads_bind (hoperand e es he hwf htighter hdepth) hloop hnext
  cases he with
  | @binary span op l r ls rs hleftls hrightls =>
    have hrank : op.tier.rank = tier.rank := Nat.le_antisymm (Nat.not_lt.mp htighter) hlevel
    simp only [Expr.wellFormed, Bool.and_eq_true] at hwf
    obtain ⟨⟨⟨hl, hr⟩, hleft⟩, hright⟩ := hwf
    obtain ⟨hdepthl, hdepthr⟩ := Nat.max_le.mp hdepth
    have hreads : Reads operand rs r.erase (Stops (tier.rank + 1)) :=
      hoperand r rs hrightls hr (hrank ▸ rank_lt_level hright) hdepthr
    have hstep := chainStep_again (rank_inj hrank) span l hreads
    rw [append_assoc]
    refine chain_over hoperand l hleftls hl (hrank ▸ rank_le_level hleft) hdepthl
      (reads_iterate_again (cons_ne_nil _ _) hstep hloop hnext) fun x _ => ?_
    exact stops_binary (Nat.lt_succ_of_le (Nat.le_of_eq hrank))
  | _ => exact absurd (rank_lt_topRank tier) htighter

theorem chain_reads (tier : Tier) (hoperand : ReadsFrom F (tier.rank + 1) depth operand) :
    ReadsFrom F tier.rank depth (chain tier operand) := by
  intro e ls he hwf hlevel hdepth
  have hall := chain_over hoperand e he hwf hlevel hdepth (reads_iterate_last (chainStep_last e.erase))
    fun x hx => hx.mono (Nat.le_succ _)
  rwa [append_nil] at hall

/-- An expression one level further in is read from its operands. -/
theorem exprOver_reads {room : Nat} (hroom : 0 < room) (h : ReadsFrom F topRank depth operand) :
    ReadsFrom F 0 depth (exprOver room operand) := by
  have hmultiplicative := chain_reads .multiplicative h
  have hcomparison := chain_reads .comparison (chain_reads .additive hmultiplicative)
  have hdisjunction := chain_reads .disjunction (chain_reads .conjunction hcomparison)
  intro e ls he hwf hlevel hdepth
  exact nested_reads hroom (hdisjunction e ls he hwf hlevel hdepth)

end Chain

/-! ### Operands -/

/-- A parser reads all expressions that nest less deep. -/
def ReadsBelow (F : Freedom → Prop) (room : Nat) (p : Parser Expr) : Prop :=
  ∀ (e : Expr) (ls : List Lexeme), e.Spelled F ls → e.wellFormed = true → e.depth < room →
    Reads p ls e.erase (Stops 0)

section Primary

variable {F : Freedom → Prop} {p : Parser Expr} {room : Nat} {next : Option Lexeme → Prop}

theorem choice_reads {test yes no : Expr} {ts ys ns : List Lexeme} (htest : Reads p ts test (Stops 0))
    (hyes : Reads p ys yes (Stops 0)) (hno : Reads p ns no (Stops 0)) :
    Reads (choice p) (.keyword .ifKw :: (ts ++ (braced ys ++ .keyword .elseKw :: braced ns)))
      (.cond .nowhere test yes no) anything := by
  simp only [braced, cons_append, append_assoc, nil_append]
  refine reads_here (reads_cons (expect_reads _) ?_)
  refine reads_bind htest ?_ fun _ _ => stops_mark (by decide) 0
  refine reads_cons (expect_reads _) (reads_bind hyes ?_ fun _ _ => stops_mark (by decide) 0)
  refine reads_cons (expect_reads _) (reads_cons (eat_reads _) (reads_cons (expect_reads _) ?_))
  refine reads_bind hno ?_ fun _ _ => stops_mark (by decide) 0
  exact closing_reads _ _

variable {ls : List Lexeme}

theorem args_reads (hp : ReadsBelow F room p) {args : List Expr} {parts : List (List Lexeme)}
    (hargs : List.Forall₂ (Expr.Spelled F) args parts) (hls : ListSpelled F parts ls)
    (hwf : exprsWellFormed args = true) (hdepth : exprsDepth args ≤ room) :
    Reads (listed p) ls (eraseExprs args) (· = some (.mark .rparen)) := by
  rw [eraseExprs_eq_map]
  refine listed_reads (stops_mark (by decide) 0) (stops_mark (by decide) 0) ?_ hls
  have hfits (e : Expr) (he : e ∈ args) : e.wellFormed = true ∧ e.depth < room :=
    ⟨exprsWellFormed_iff.mp hwf e he, exprsDepth_le_iff.mp hdepth e he⟩
  refine forall₂_map_left_iff.mpr (((forall₂_and_left _ _).mpr ⟨hfits, hargs⟩).imp ?_)
  rintro e es ⟨⟨hwf, hdepth⟩, he⟩
  obtain ⟨l, hl, -, hopens⟩ := exists_head?_of_spelled e he
  refine ⟨hp e es he hwf hdepth, l, hl, ?_⟩
  rintro rfl
  cases hopens

theorem reads_startsMethod {β : Type} {f : Bool → Parser β} {b : β} (found : Bool)
    (hfound : ∀ rest : List Lexeme, next rest.head? → opensMethod (ls ++ rest) = found)
    (h : Reads (f found) ls b next) : Reads (startsMethod >>= f) ls b next := by
  intro s rest hs hnext
  have hrun : startsMethod.run s = (found, s) := by
    rw [startsMethod_run, hs.rest, map_lexeme_placeless, hfound rest hnext]
  rw [run_bind, hrun]
  exact h s rest hs hnext

theorem fieldOf_field (owner : Owner) (name : String) :
    Reads (fieldOf p .nowhere owner) [.ident name] (.field .nowhere owner ⟨name, .nowhere⟩) (Stops topRank) :=
  reads_cons (expectIdent_reads name)
    (reads_eat_other (fun _ hx => hx.lbracket) (reads_behind (reads_pure _)))

theorem fieldOf_fieldAt (owner : Owner) (name : String) {i : Expr} {is : List Lexeme}
    (hi : Reads p is i (Stops 0)) :
    Reads (fieldOf p .nowhere owner) (.ident name :: .mark .lbracket :: (is ++ [.mark .rbracket]))
      (.fieldAt .nowhere owner ⟨name, .nowhere⟩ i) next := by
  refine reads_cons (expectIdent_reads name) (reads_cons (eat_reads _) ?_)
  refine reads_bind hi ?_ fun _ _ => stops_mark (by decide) 0
  exact closing_reads _ _

section Named

variable (name : String) {ls is : List Lexeme} {a : Expr}

theorem named_var : Reads (named p ⟨name, .nowhere⟩) [] (.var .nowhere name) (Stops topRank) := by
  refine reads_eat_other (fun _ hx => hx.lparen) (reads_eat_other (fun _ hx => hx.lbracket) ?_)
  refine reads_startsMethod false (fun rest hx => ?_) ?_
  · unfold opensMethod
    split
    · next hrest => exact absurd (congrArg List.head? hrest) hx.dot
    · rfl
  · exact reads_eat_other (fun _ hx => hx.dot) (reads_pure _)

theorem named_call {args : List Expr} (hargs : Reads (listed p) ls args (· = some (.mark .rparen))) :
    Reads (named p ⟨name, .nowhere⟩) (.mark .lparen :: (ls ++ [.mark .rparen]))
      (.call .nowhere ⟨name, .nowhere⟩ args) next := by
  refine reads_cons (eat_reads _) (reads_bind hargs ?_ fun _ _ => rfl)
  exact closing_reads _ _

theorem named_element {i : Expr} (hi : Reads p is i (Stops 0)) :
    Reads (named p ⟨name, .nowhere⟩) (.mark .lbracket :: (is ++ [.mark .rbracket]))
      (.element .nowhere ⟨name, .nowhere⟩ i) (Stops topRank) := by
  refine reads_eat_other nofun (reads_cons (eat_reads _) ?_)
  refine reads_bind hi ?_ fun _ _ => stops_mark (by decide) 0
  refine reads_cons (expect_reads _) (reads_behind ?_)
  exact reads_eat_other (fun _ hx => hx.dot) (reads_pure _)

theorem named_element_field {i : Expr} (hi : Reads p is i (Stops 0))
    (hfield : Reads (fieldOf p .nowhere (.element .nowhere ⟨name, .nowhere⟩ i)) ls a next) :
    Reads (named p ⟨name, .nowhere⟩)
      (.mark .lbracket :: (is ++ .mark .rbracket :: .mark .dot :: ls)) a next := by
  refine reads_eat_other nofun (reads_cons (eat_reads _) ?_)
  refine reads_bind hi ?_ fun _ _ => stops_mark (by decide) 0
  exact reads_cons (expect_reads _) (reads_behind (reads_cons (eat_reads _) hfield))

theorem named_field (hmethod : ∀ rest : List Lexeme, next rest.head? →
      opensMethod (.mark .dot :: (ls ++ rest)) = false)
    (hfield : Reads (fieldOf p .nowhere (.name ⟨name, .nowhere⟩)) ls a next) :
    Reads (named p ⟨name, .nowhere⟩) (.mark .dot :: ls) a next := by
  refine reads_eat_other nofun (reads_eat_other nofun ?_)
  exact reads_startsMethod false hmethod (reads_cons (eat_reads _) hfield)

theorem named_method (method : String) {args : List Expr}
    (hargs : Reads (listed p) ls args (· = some (.mark .rparen))) :
    Reads (named p ⟨name, .nowhere⟩) (.mark .dot :: .ident method :: .mark .lparen :: (ls ++ [.mark .rparen]))
      (.method .nowhere ⟨name, .nowhere⟩ ⟨method, .nowhere⟩ args) next := by
  refine reads_eat_other nofun (reads_eat_other nofun (reads_startsMethod true (fun _ _ => rfl) ?_))
  refine reads_cons (advance_reads _) (reads_cons (expectIdent_reads method) ?_)
  refine reads_cons (expect_reads _) (reads_bind hargs ?_ fun _ _ => rfl)
  exact closing_reads _ _

end Named

/-- An operand that is no operation is read with room for what nests in it. -/
theorem primary_reads (hp : ReadsBelow F room p) (e : Expr) (h : e.Spelled F ls)
    (hwf : e.wellFormed = true) (hdepth : e.depth ≤ room) (hbinary : e.operator? = none)
    (hunary : ∀ span op x, e ≠ .unary span op x) : Reads (primary p) ls e.erase (Stops topRank) := by
  cases h with
  | int span n => exact reads_first rfl (reads_pure _)
  | bytes span bs => exact reads_first rfl (reads_pure _)
  | var span name => exact reads_first rfl (named_var name)
  | unary span op hx => exact absurd rfl (hunary span op _)
  | binary span op hl hr => cases hbinary
  | group span hx =>
    refine reads_first rfl ?_
    refine reads_bind (hp _ _ hx hwf hdepth) ?_ fun _ _ => stops_mark (by decide) 0
    exact closing_reads _ _
  | call span name hargs hls =>
    refine reads_first rfl ?_
    exact named_call name.text (args_reads hp hargs hls hwf hdepth)
  | cond span htest hyes hno =>
    simp only [Expr.wellFormed, Bool.and_eq_true] at hwf
    obtain ⟨htest', hrest⟩ := Nat.max_le.mp hdepth
    obtain ⟨hyes', hno'⟩ := Nat.max_le.mp hrest
    refine reads_here (reads_peek (reads_imp (choice_reads ?_ ?_ ?_) fun _ _ => trivial))
    · exact hp _ _ htest hwf.1.1 htest'
    · exact hp _ _ hyes hwf.1.2 hyes'
    · exact hp _ _ hno hwf.2 hno'
  | element span base hi =>
    refine reads_first rfl ?_
    exact named_element base.text (hp _ _ hi hwf hdepth)
  | field span name howner =>
    cases howner with
    | name base =>
      refine reads_first rfl ?_
      -- A parenthesis behind the name would make it a method, but none may follow.
      refine named_field base.text (fun rest hx => ?_) (fieldOf_field _ _)
      unfold opensMethod
      split
      · next hrest => exact absurd (congrArg (fun ls => ls.tail.tail.head?) hrest) hx.lparen
      · rfl
    | element span base hi =>
      simp only [cons_append, append_assoc, nil_append]
      refine reads_first rfl ?_
      exact named_element_field base.text (hp _ _ hi hwf hdepth) (fieldOf_field _ _)
  | fieldAt span name howner hi =>
    simp only [Expr.wellFormed, Bool.and_eq_true] at hwf
    obtain ⟨howner', hi'⟩ := Nat.max_le.mp hdepth
    have hindex (owner : Owner) : Reads (fieldOf p .nowhere owner) _ _ (Stops topRank) :=
      fieldOf_fieldAt owner name.text (hp _ _ hi hwf.2 hi')
    cases howner with
    | name base =>
      refine reads_first rfl ?_
      exact named_field base.text (fun _ _ => rfl) (hindex _)
    | element span base hj =>
      simp only [cons_append, append_assoc, nil_append]
      refine reads_first rfl ?_
      exact named_element_field base.text (hp _ _ hj hwf.1 howner') (hindex _)
  | method span base method hargs hls =>
    refine reads_first rfl ?_
    exact named_method base.text method.text (args_reads hp hargs hls hwf hdepth)

end Primary

section Operand

variable {F : Freedom → Prop} {room : Nat} {deeper : Parser Expr}

theorem operandOver_primary {ls : List Lexeme} {l : Lexeme} {a : Expr} {next : Option Lexeme → Prop}
    (hl : ls.head? = some l) (hunary : ∀ op, l ≠ .unary op)
    (h : Reads (primary (exprOver room deeper)) ls a next) : Reads (operandOver room deeper) ls a next := by
  refine reads_here (reads_peek_head hl ?_)
  split
  · next op heq => exact absurd (Option.some.inj heq) (hunary op)
  · exact h

theorem operandOver_reads (hp : ReadsBelow F room (exprOver room deeper))
    (hdeeper : ∀ (e : Expr) (ls : List Lexeme), e.Spelled F ls → e.wellFormed = true → e.operator? = none →
      e.depth < room → Reads deeper ls e.erase (Stops topRank)) :
    ReadsFrom F topRank room (operandOver room deeper) := by
  intro e ls h hwf hlevel hdepth
  have hbinary := operator?_of_level hlevel
  have hprimary := primary_reads hp e h hwf hdepth hbinary
  cases h with
  | unary span op hx =>
    simp only [Expr.wellFormed, Bool.and_eq_true, Option.isNone_iff_eq_none] at hwf
    refine reads_first rfl ?_
    refine nested_reads (Nat.zero_lt_of_lt hdepth) ?_
    refine reads_nil (hdeeper _ _ hx hwf.1 hwf.2 hdepth) ?_ fun _ => id
    rw [span_erase]
    exact reads_pure _
  | field span name howner => cases howner <;> exact operandOver_primary rfl nofun (hprimary nofun)
  | fieldAt span name howner hi => cases howner <;> exact operandOver_primary rfl nofun (hprimary nofun)
  | binary span op hl hr => cases hbinary
  | _ => exact operandOver_primary rfl nofun (hprimary nofun)

theorem operand_reads (room : Nat) : ReadsFrom F topRank room (operand room) := by
  induction room with
  | zero =>
    refine operandOver_reads (fun e ls _ _ hdepth => ?_) fun e ls _ _ _ hdepth => ?_
    · exact absurd hdepth (Nat.not_lt_zero _)
    · exact absurd hdepth (Nat.not_lt_zero _)
  | succ room ih =>
    have hdeeper : ReadsFrom F topRank room (delay fun _ => operand room) := ih
    refine operandOver_reads (fun e ls h hwf hdepth => ?_) fun e ls h hwf hbinary hdepth => ?_
    · exact exprOver_reads (Nat.succ_pos room) hdeeper e ls h hwf (Nat.zero_le _) (Nat.le_of_lt_succ hdepth)
    · exact hdeeper e ls h hwf (Nat.le_of_eq (level_of_operator? hbinary).symm) (Nat.le_of_lt_succ hdepth)

/-- An expression is read with room for one more level than there is in it, however it is spelled. -/
theorem expr_reads_spelled (room : Nat) : ReadsBelow F room (expr room) := by
  intro e ls h hwf hdepth
  cases room with
  | zero => exact absurd hdepth (Nat.not_lt_zero _)
  | succ room =>
    exact exprOver_reads (Nat.succ_pos room) (operand_reads room) e ls h hwf (Nat.zero_le _)
      (Nat.le_of_lt_succ hdepth)

end Operand

theorem expr_reads (room : Nat) (e : Expr) (hwf : e.wellFormed = true) (hdepth : e.depth < room) :
    Reads (expr room) e.lexemes e.erase (Stops 0) :=
  expr_reads_spelled room e _ ((Expr.spelled_iff e _).mpr rfl) hwf hdepth

end Teal.Parser
