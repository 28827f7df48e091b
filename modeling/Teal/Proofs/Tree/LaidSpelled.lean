import Teal.Proofs.Tree.Layout

/-! What is laid out in tokens is spelled by them: the spellings of its pieces, one behind the other, make one
of the spellings that a node has. -/

namespace Teal.Tree

open List

section Spellings

variable {F : Freedom → Prop}

theorem Owner.spelled_of_toExpr {owner : Owner} {ls : List Lexeme} (h : owner.toExpr.Spelled F ls) :
    owner.Spelled F ls := by
  cases owner with
  | name base =>
    cases h
    exact .name base
  | element span base i =>
    cases h with
    | element _ _ hi => exact .element span base hi

def Node.Spelled (F : Freedom → Prop) (ls : List Lexeme) : Node → Prop
  | .word name => ls = identLexemes name
  | .expr e => e.Spelled F ls
  | .target t => ls = t.lexemes
  | .block behindElse b =>
    (∃ parts, Forall₂ (Stmt.Spelled F) b.stmts parts ∧ ls = braced parts.flatten) ∨
      behindElse = true ∧ F .elseIf ∧ ∃ s, b.stmts = [s] ∧ s.isConditional = true ∧ s.Spelled F ls
  | .stmt s => s.Spelled F ls
  | .item i => i.Spelled F ls
  | .import i => ImportSpelled F i ls

theorem braced_of_spelled {b : Block} {ls : List Lexeme} (h : (Node.block false b).Spelled F ls) :
    ∃ parts, Forall₂ (Stmt.Spelled F) b.stmts parts ∧ ls = braced parts.flatten :=
  h.resolve_right fun hbare => Bool.false_ne_true hbare.1

/-! ### Pieces -/

/-- What is written once pieces are spelled behind something. -/
def Writes (F : Freedom → Prop) : List Lexeme → List Piece → List Lexeme → Prop
  | before, [], ls => ls = before
  | before, .lexeme l :: ps, ls => Writes F (before ++ [l]) ps ls
  | before, .node n :: ps, ls => ∃ part, n.Spelled F part ∧ Writes F (before ++ part) ps ls

section Pieces

variable {before ls : List Lexeme} {ps qs comma : List Piece}

theorem Run.writes {ts : List Token} (h : Run (fun n us => n.Spelled F (us.map Token.lexeme)) ps ts)
    (before : List Lexeme) : Writes F before ps (before ++ ts.map Token.lexeme) := by
  induction h generalizing before with
  | nil => exact append_nil before
  | lexeme t h ih => simpa [Writes] using ih (before ++ [t.lexeme])
  | node hn h ih => exact ⟨_, hn, by simpa using ih (before ++ _)⟩

theorem writes_append : Writes F before (ps ++ qs) ls ↔ ∃ mid, Writes F before ps mid ∧ Writes F mid qs ls := by
  induction ps generalizing before with
  | nil => simp [Writes]
  | cons p ps ih =>
    cases p with
    | lexeme l => exact ih
    | node n =>
      simp only [cons_append, Writes, ih]
      grind

theorem Writes.lexemes {more : List Lexeme} (h : Writes F before (more.map .lexeme ++ ps) ls) :
    Writes F (before ++ more) ps ls := by
  induction more generalizing before with
  | nil => rwa [append_nil]
  | cons l more ih => simpa using ih h

section Lists

variable {α : Type} {items : List α} {piece : α → List Piece}

/-- Nodes one behind the other. -/
theorem Writes.nodes {f : α → Node} (h : Writes F before (items.map (.node ∘ f) ++ ps) ls) :
    ∃ parts, Forall₂ (fun a part => (f a).Spelled F part) items parts ∧
      Writes F (before ++ parts.flatten) ps ls := by
  induction items generalizing before with
  | nil => exact ⟨[], .nil, by rwa [flatten_nil, append_nil]⟩
  | cons a items ih =>
    obtain ⟨part, ha, hrest⟩ := h
    obtain ⟨parts, hparts, hls⟩ := ih hrest
    exact ⟨part :: parts, .cons ha hparts, by rwa [flatten_cons, ← append_assoc]⟩

/-- Parts between commas, where it is given how a part is spelled. -/
theorem Writes.of_joined (h : Writes F before (joined (items.map piece)) ls) {T : α → List Lexeme → Prop}
    (hT : ∀ a {before ls}, Writes F before (piece a) ls → ∃ part, T a part ∧ ls = before ++ part) :
    ∃ parts, Forall₂ T items parts ∧ ls = before ++ listing parts := by
  induction items generalizing before with
  | nil => exact ⟨[], .nil, h.trans (append_nil before).symm⟩
  | cons a items ih =>
    cases items with
    | nil =>
      rw [map_singleton, joined, intercalate_singleton] at h
      obtain ⟨part, hpart, rfl⟩ := hT a h
      exact ⟨[part], .cons hpart .nil, by rw [listing, intercalate_singleton]⟩
    | cons b items =>
      rw [map_cons, map_cons, joined, intercalate_cons_cons, append_assoc, writes_append] at h
      obtain ⟨mid, ha, hrest⟩ := h
      obtain ⟨part, hpart, rfl⟩ := hT a ha
      obtain ⟨parts, hparts, rfl⟩ := ih hrest
      refine ⟨part :: parts, .cons hpart hparts, ?_⟩
      cases hparts
      simp [listing]

theorem Writes.list (h : Writes F before (joined (items.map piece) ++ (comma ++ ps)) ls)
    (hcomma : Comma F (!items.isEmpty) comma) {T : α → List Lexeme → Prop}
    (hT : ∀ a {before ls}, Writes F before (piece a) ls → ∃ part, T a part ∧ ls = before ++ part) :
    ∃ parts all, Forall₂ T items parts ∧ ListSpelled F parts all ∧ Writes F (before ++ all) ps ls := by
  obtain ⟨mid, hmid, hrest⟩ := writes_append.mp h
  obtain ⟨parts, hparts, rfl⟩ := hmid.of_joined hT
  generalize hlisted : (!items.isEmpty) = listed at hcomma
  cases hcomma with
  | absent => exact ⟨parts, _, hparts, .plain, hrest⟩
  | trailing hfree =>
    refine ⟨parts, _, hparts, .trailing hfree fun hnone => ?_, by simpa [Writes] using hrest⟩
    cases hnone ▸ hparts
    cases hlisted

/-- Parts that are spelled in one way. -/
theorem Writes.listing_eq (h : Writes F before (joined (items.map piece)) ls) {spelling : α → List Lexeme}
    (hpiece : ∀ a {before ls}, Writes F before (piece a) ls → ls = before ++ spelling a) :
    ls = before ++ listing (items.map spelling) := by
  obtain ⟨parts, hparts, rfl⟩ := h.of_joined (T := fun a part => part = spelling a)
    fun a _ _ ha => ⟨_, rfl, hpiece a ha⟩
  rw [(forall₂_iff_eq_map (fun _ _ _ => Iff.rfl) parts).mp hparts]

end Lists

theorem Writes.decl {d : Decl} (h : Writes F [] (d.pieces ++ ps) ls) :
    ∃ part, d.Spelled F part ∧ Writes F part ps ls := by
  obtain ⟨mid, hmid, hrest⟩ := writes_append.mp h
  obtain ⟨_, hnames, value, hvalue, rfl⟩ := writes_append.mp hmid
  obtain rfl : _ = _ ++ listing (d.names.map identLexemes) :=
    hnames.listing_eq (by rintro name _ _ ⟨_, rfl, rfl⟩; rfl)
  exact ⟨_, .mk hvalue, by simpa using hrest⟩

end Pieces

/-! ### Nodes -/

section Nodes

variable {comma : List Piece} {ls : List Lexeme}

theorem Writes.expr {e : Expr} (hcomma : Comma F (Node.expr e).listed comma)
    (h : Writes F [] ((Node.expr e).front ++ (comma ++ (Node.expr e).back)) ls) : e.Spelled F ls := by
  -- Only behind a list there may be a comma.
  cases e <;> try cases hcomma
  case int span n => exact h ▸ .int span n
  case bytes span bs => exact h ▸ .bytes span bs
  case var span name => exact h ▸ .var span name
  case unary span op e =>
    obtain ⟨_, he, rfl⟩ := h
    exact .unary span op he
  case binary span op l r =>
    obtain ⟨_, hl, _, hr, rfl⟩ := h
    simpa using Expr.Spelled.binary span op hl hr
  case group span e =>
    obtain ⟨_, he, rfl⟩ := h
    exact .group span he
  case call span name args =>
    obtain ⟨_, rfl, h⟩ := h
    obtain ⟨parts, all, hparts, hall, rfl⟩ := Writes.list h hcomma fun _ _ _ h => h
    simpa [identLexemes] using Expr.Spelled.call span name hparts hall
  case cond span test yes no =>
    obtain ⟨_, htest, _, hyes, _, hno, rfl⟩ := h
    simpa [braced] using Expr.Spelled.cond span htest hyes hno
  case element span base i =>
    obtain ⟨_, rfl, _, hi, rfl⟩ := h
    exact .element span base hi
  case field span owner name =>
    obtain ⟨_, howner, _, rfl, rfl⟩ := h
    simpa [identLexemes] using Expr.Spelled.field span name (Owner.spelled_of_toExpr howner)
  case fieldAt span owner name i =>
    obtain ⟨_, howner, _, rfl, _, hi, rfl⟩ := h
    simpa [identLexemes] using Expr.Spelled.fieldAt span name (Owner.spelled_of_toExpr howner) hi
  case method span base method args =>
    obtain ⟨_, rfl, _, rfl, h⟩ := h
    obtain ⟨parts, all, hparts, hall, rfl⟩ := Writes.list h hcomma fun _ _ _ h => h
    simpa [identLexemes] using Expr.Spelled.method span base method hparts hall

theorem Writes.stmt {s : Stmt} (h : Writes F [] (Node.stmt s).front ls) : s.Spelled F ls := by
  cases s with
  | decl span d =>
    obtain ⟨part, hd, rfl⟩ := h.decl
    exact .decl span hd
  | assign span first others value =>
    obtain ⟨_, htargets, _, hvalue, rfl⟩ := writes_append.mp h
    obtain rfl : _ = _ ++ listing ((first :: others).map Target.lexemes) :=
      htargets.listing_eq (by rintro t _ _ ⟨_, rfl, rfl⟩; rfl)
    simpa using Stmt.Spelled.assign span first others hvalue
  | ret span value =>
    obtain ⟨_, hvalue, rfl⟩ := h
    exact .ret span hvalue
  | error span => exact h ▸ .error span
  | breakLoop span => exact h ▸ .breakLoop span
  | ifThen span test yesSpan yes =>
    obtain ⟨_, htest, _, hyes, rfl⟩ := h
    obtain ⟨ys, hys, rfl⟩ := braced_of_spelled hyes
    exact .ifThen span yesSpan htest hys
  | ifElse span test yesSpan yes noSpan no =>
    obtain ⟨_, htest, _, hyes, _, hno, rfl⟩ := h
    obtain ⟨ys, hys, rfl⟩ := braced_of_spelled hyes
    obtain ⟨ns, hns, rfl⟩ | ⟨_, hfree, s, rfl, hcond, hs⟩ := hno
    · simpa using Stmt.Spelled.ifElse span yesSpan noSpan htest hys hns
    · simpa using Stmt.Spelled.elseIf span yesSpan noSpan hfree hcond htest hys hs
  | loop span test bodySpan body =>
    obtain ⟨_, htest, _, hbody, rfl⟩ := h
    obtain ⟨bs, hbs, rfl⟩ := braced_of_spelled hbody
    exact .loop span bodySpan htest hbs
  | expr span value =>
    obtain ⟨_, hvalue, rfl⟩ := h
    exact .expr span hvalue

theorem Writes.item {i : Item} (hcomma : Comma F (Node.item i).listed comma)
    (h : Writes F [] ((Node.item i).front ++ (comma ++ (Node.item i).back)) ls) : i.Spelled F ls := by
  cases i with
  | decl span d =>
    cases hcomma
    obtain ⟨part, hd, rfl⟩ := Writes.decl (by simpa [Node.front, Node.back] using h)
    exact .decl span hd
  | function span f =>
    have hinline : (if f.inline then [Piece.keyword .inlineKw] else []) =
        (if f.inline then [Lexeme.keyword .inlineKw] else []).map .lexeme := by
      split <;> rfl
    rw [Node.front, hinline, append_assoc] at h
    obtain ⟨_, rfl, h⟩ := h.lexemes
    obtain ⟨parts, all, hparts, hall, _, hbody, rfl⟩ :=
      Writes.list (T := fun p part => part = p.lexemes) h hcomma fun p _ _ hp => by
        obtain ⟨name, _ | ty⟩ := p
        · obtain ⟨_, rfl, hrest⟩ := hp
          exact ⟨_, rfl, hrest⟩
        · obtain ⟨_, rfl, _, rfl, rfl⟩ := hp
          exact ⟨_, rfl, by simp [Param.lexemes, identLexemes]⟩
    obtain rfl := (forall₂_iff_eq_map (fun _ _ _ => Iff.rfl) parts).mp hparts
    obtain ⟨bs, hbs, rfl⟩ := braced_of_spelled hbody
    simpa [identLexemes] using Item.Spelled.function span (.mk hall hbs)

end Nodes

theorem Laid.spelled {n : Node} {ts : List Token} (h : Laid F n ts) : n.Spelled F (ts.map Token.lexeme) := by
  refine Laid.induction (motive := fun n ts => n.Spelled F (ts.map Token.lexeme)) (fun n ps ts hform hrun _ => ?_) h
  have hwrites := (hrun.mono fun _ _ h => h.2).writes []
  rw [nil_append] at hwrites
  cases hform with
  | bare hfree span hs =>
    obtain ⟨_, hspelled, heq⟩ := hwrites
    exact .inr ⟨rfl, hfree, _, rfl, hs, heq ▸ hspelled⟩
  | «import» hi =>
    rw [← append_nil (List.map _ _)] at hwrites
    exact hwrites.lexemes ▸ hi
  | of hn hcomma =>
    cases n with
    | word name =>
      cases hcomma
      exact hwrites
    | expr e => exact Writes.expr hcomma hwrites
    | target t =>
      cases hcomma
      cases t with
      | var span name => exact hwrites
      | field span base field =>
        obtain ⟨_, rfl, heq⟩ := hwrites
        exact heq
    | block behindElse b =>
      cases hcomma
      rw [Node.front, cons_append, append_assoc] at hwrites
      obtain ⟨parts, hparts, heq⟩ := Writes.nodes hwrites
      exact .inl ⟨parts, hparts, heq⟩
    | stmt s =>
      cases hcomma
      exact Writes.stmt (by simpa [Node.back] using hwrites)
    | item i => exact Writes.item hcomma hwrites
    | «import» i => exact absurd rfl hn

end Spellings

end Teal.Tree
