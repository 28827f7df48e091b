import Teal.Proofs.Tree.Layout
import Teal.Proofs.Tree.Moved

/-! Only one expression of a shape is laid out in given tokens. How many tokens a part takes is not said by the
shape, since there may be a comma behind the last argument; but what comes next decides about it. So two
expressions of one shape that are laid out from the same token on take the same tokens, part by part, and then
their places are the same. -/

namespace Teal.Tree

open List

/-- A name or an expression without its places. -/
def Node.shape? : Node → Option Node
  | .word name => some (.word name.erase)
  | .expr e => some (.expr e.erase)
  | _ => none

def Piece.shape? : Piece → Option Piece
  | .lexeme l => some (.lexeme l)
  | .node n => n.shape?.map .node

theorem Owner.toExpr_erase (owner : Owner) : owner.toExpr.erase = owner.erase.toExpr := by
  cases owner <;> rfl

theorem toExpr_inj {o p : Owner} : o.toExpr = p.toExpr ↔ o = p := by
  obtain ⟨⟨⟩⟩ | _ := o <;> obtain ⟨⟨⟩⟩ | _ := p <;> simp [Owner.toExpr, and_comm]

variable {F G : Freedom → Prop} {n m x : Node} {ps qs xs : List Piece} {ts us after after' : List Token}

variable (h : n.shape? = some x)

include h

/-- The pieces of an expression are names and expressions, and their shapes are the pieces of its shape. -/
theorem map_front_of_shape? : n.front.map Piece.shape? = x.front.map some := by
  have hargs (args : List Expr) : (joined (args.map ([.expr ·]))).map Piece.shape? =
      (joined ((args.map Expr.erase).map ([.expr ·]))).map some := by
    induction args with
    | nil => rfl
    | cons a args ih =>
      cases args with
      | nil => rfl
      | cons b args => simpa [joined, Piece.shape?, Node.shape?] using ih
  cases n <;> cases h
  case word name => rfl
  case expr e =>
    cases e <;> simp only [Node.front, Expr.erase, eraseExprs_eq_map, ← Owner.toExpr_erase, map_cons,
      map_nil, hargs] <;> rfl

theorem map_back_of_shape? : n.back.map Piece.shape? = x.back.map some := by
  cases n <;> cases h
  case word name => rfl
  case expr e => cases e <;> rfl

theorem listed_of_shape? : n.listed = x.listed := by
  cases n <;> cases h
  case word name => rfl
  case expr e => cases e <;> simp [Node.listed, Expr.erase, eraseExprs_eq_map]

theorem back_of_listed (hlisted : x.listed = true) : n.back = [.mark .rparen] := by
  cases n <;> cases h
  case word name => cases hlisted
  case expr e => cases e <;> first | rfl | cases hlisted

omit h

theorem Comma.shape?_eq {listed : Bool} (h : Comma F listed ps) : ps.map Piece.shape? = ps.map some := by
  cases h <;> rfl

/-- A name or an expression is known by its shape, its place and its parts. -/
theorem eq_of_shape? (hn : n.shape? = some x) (hm : m.shape? = some x) (hspan : n.span = m.span)
    (hparts : n.parts = m.parts) : n = m := by
  have hargs (as : List Expr) : nodesIn (joined (as.map ([.expr ·]))) = as.map .expr := by
    rw [nodesIn_joined, flatMap_map, map_eq_flatMap]
    rfl
  have hmap {as bs : List Expr} : as.map Node.expr = bs.map Node.expr ↔ as = bs :=
    List.map_inj_right fun _ _ => Node.expr.inj
  cases n <;> cases hn <;> cases m <;>
    simp only [Node.shape?, Option.some.injEq, Node.word.injEq, Node.expr.injEq, reduceCtorEq] at hm
  case word i j =>
    cases i
    cases j
    simp_all [Node.span, Ident.erase]
  case expr e d =>
    have he := e.moved_erase
    have hd := d.moved_erase
    rw [hm] at hd
    cases he <;> cases hd <;> simp_all [Node.span, Node.parts, Node.front, Node.back, Expr.span, toExpr_inj]

/-- A node that takes the same tokens wherever one of its shape starts at the same token, and is the same. -/
def Settled (G : Freedom → Prop) (n : Node) (ts : List Token) : Prop :=
  ∀ (m x : Node) (us after after' : List Token), n.shape? = some x → m.shape? = some x → Laid G m us →
    ts ++ after = us ++ after' → ts = us ∧ (Ordered ts → n = m)

theorem Run.settled (hts : Run (Settled G) ps ts) (hus : Run (Laid G) qs us)
    (hps : ps.map Piece.shape? = xs.map some) (hqs : qs.map Piece.shape? = xs.map some)
    (heq : ts ++ after = us ++ after') : ts = us ∧ (Ordered ts → nodesIn ps = nodesIn qs) := by
  induction hts generalizing qs xs us with
  | nil =>
    cases map_eq_nil_iff.mp hps.symm
    cases map_eq_nil_iff.mp hqs
    cases hus
    exact ⟨rfl, fun _ => rfl⟩
  | lexeme t hts ih =>
    obtain ⟨x, xs, rfl, ⟨⟩, htail⟩ := map_eq_cons_iff.mp hps.symm
    obtain ⟨q, qs, rfl, hq, htail'⟩ := map_eq_cons_iff.mp hqs
    cases hus with
    | lexeme u hus =>
      obtain ⟨rfl, hrest⟩ := List.cons.inj heq
      obtain ⟨rfl, hnodes⟩ := ih hus htail.symm htail' hrest
      exact ⟨rfl, fun hall => hnodes (hall.sublist (sublist_cons_self ..))⟩
    | node hm hus => obtain ⟨_, _, ⟨⟩⟩ := Option.map_eq_some_iff.mp hq
  | node hn hts ih =>
    obtain ⟨x, xs, rfl, hx, htail⟩ := map_eq_cons_iff.mp hps.symm
    obtain ⟨q, qs, rfl, hq, htail'⟩ := map_eq_cons_iff.mp hqs
    obtain ⟨y, hy, rfl⟩ := Option.map_eq_some_iff.mp hx.symm
    cases hus with
    | lexeme u hus => cases hq
    | node hm hus =>
      obtain ⟨_, hy', ⟨⟩⟩ := Option.map_eq_some_iff.mp hq
      rw [append_assoc, append_assoc] at heq
      obtain ⟨rfl, hnode⟩ := hn _ y _ _ _ hy hy' hm heq
      obtain ⟨rfl, hnodes⟩ := ih hus htail.symm htail' (append_cancel_left heq)
      exact ⟨rfl, fun hall => congrArg₂ (· :: ·) (hnode hall.left) (hnodes hall.right)⟩

/-- Pieces of one shape do not go on with different lexemes. -/
theorem Run.not_clash {l k : Lexeme} {ps' qs' : List Piece} (hts : Run (Settled G) (ps ++ .lexeme l :: ps') ts)
    (hus : Run (Laid G) (qs ++ .lexeme k :: qs') us) (hps : ps.map Piece.shape? = xs.map some)
    (hqs : qs.map Piece.shape? = xs.map some) (heq : ts ++ after = us ++ after') : l = k := by
  simp only [run_append, run_lexeme] at hts hus
  obtain ⟨ts, _, rfl, hts, span, _, rfl, -⟩ := hts
  obtain ⟨us, _, rfl, hus, span', _, rfl, -⟩ := hus
  rw [append_assoc, append_assoc] at heq
  obtain ⟨rfl, -⟩ := hts.settled hus hps hqs heq
  exact congrArg Token.lexeme (List.cons.inj (append_cancel_left heq)).1

theorem Laid.settled (h : Laid F n ts) : Settled G n ts := by
  refine Laid.induction (motive := Settled G) (fun n ps ts hform hrun hspan => ?_) h
  intro m x us after after' hn hm hlaid heq
  obtain @⟨_, qs, _, hform', hrun', hspan'⟩ := hlaid
  replace hrun : Run (Settled G) ps ts := hrun.mono fun _ _ h => h.2
  have hfront := map_front_of_shape? hn
  have hfront' := map_front_of_shape? hm
  obtain ⟨xs, hps, hqs⟩ : ∃ xs : List Piece,
      ps.map Piece.shape? = xs.map some ∧ qs.map Piece.shape? = xs.map some := by
    cases hform with
    | bare | «import» => cases hn
    | @of _ comma _ hcomma =>
      cases hform' with
      | bare | «import» => cases hm
      | @of _ comma' _ hcomma' =>
        have hsame : comma = comma' := by
          rw [listed_of_shape? hn] at hcomma
          rw [listed_of_shape? hm] at hcomma'
          generalize hlisted : x.listed = listed at hcomma hcomma'
          cases hcomma <;> cases hcomma'
          case absent.trailing hfree =>
            rw [nil_append, back_of_listed hn hlisted] at hrun
            cases hrun.not_clash hrun' hfront hfront' heq
          case trailing.absent hfree =>
            rw [nil_append, back_of_listed hm hlisted] at hrun'
            cases hrun.not_clash hrun' hfront hfront' heq
          all_goals rfl
        subst hsame
        refine ⟨x.front ++ (comma ++ x.back), ?_⟩
        simp [hfront, hfront', hcomma.shape?_eq, map_back_of_shape? hn, map_back_of_shape? hm]
  obtain ⟨rfl, hnodes⟩ := hrun.settled hrun' hps hqs heq
  refine ⟨rfl, fun hts => eq_of_shape? hn hm ((hspan hts).trans (hspan' hts).symm) ?_⟩
  rw [← hform.nodesIn_eq, ← hform'.nodesIn_eq, hnodes hts]

/-- Only one expression of a shape is laid out in given tokens. -/
theorem Laid.unique {e d : Expr} (he : Laid F (.expr e) ts) (hd : Laid G (.expr d) ts)
    (hshape : e.erase = d.erase) (hts : Ordered ts) : e = d := by
  have hsettled : Settled G (.expr e) ts := he.settled
  have hd' : (Node.expr d).shape? = some (.expr e.erase) := by rw [hshape]; rfl
  exact Node.expr.inj ((hsettled _ _ ts [] [] rfl hd' hd rfl).2 hts)

end Teal.Tree
