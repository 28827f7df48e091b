import Teal.Proofs.Tree.Nodes

/-! Where the parts of a tree stand among tokens. A node is written as lexemes of its own and other nodes in
turn, as a table says; so it takes a run of tokens, and what it is written with takes parts of that run, one
behind the other. If the tokens stand one behind the other in a text, so do their places. -/

namespace Teal.Tree

open List

/-! ### Places of tokens -/

structure Ordered (ts : List Token) : Prop where
  each : ∀ t ∈ ts, t.span.start ≤ t.span.stop
  pairs : ts.Pairwise fun t u => t.span.stop ≤ u.span.start

/-- The place from the start of the first token to the end of the last one. -/
def cover : List Token → Span
  | [] => .nowhere
  | t :: ts => ⟨t.span.file, t.span.lo, (ts.getLastD t).span.hi⟩

section Places

variable {t u : Token} {ts us vs mid : List Token}

theorem Ordered.sublist (h : Ordered us) (hsub : ts.Sublist us) : Ordered ts :=
  ⟨fun t ht => h.each t (hsub.subset ht), h.pairs.sublist hsub⟩

theorem Ordered.left (h : Ordered (us ++ vs)) : Ordered us := h.sublist (sublist_append_left us vs)

theorem Ordered.right (h : Ordered (us ++ vs)) : Ordered vs := h.sublist (sublist_append_right us vs)

theorem cover_eq (ht : ts.head? = some t) (hu : ts.getLast? = some u) :
    cover ts = ⟨t.span.file, t.span.lo, u.span.hi⟩ := by
  cases ts with
  | nil => cases ht
  | cons v ts =>
    cases ht
    rw [getLast?_cons, ← getLastD_eq_getLast?] at hu
    rw [cover, Option.some.inj hu]

theorem exists_ends (h : ts ≠ []) : ∃ t u, ts.head? = some t ∧ ts.getLast? = some u :=
  ⟨ts.head h, ts.getLast h, head?_eq_some_head h, getLast?_eq_some_getLast h⟩

theorem Ordered.start_le (h : Ordered ts) (ht : ts.head? = some t) (hu : u ∈ ts) :
    t.span.start ≤ u.span.start := by
  obtain ⟨rest, rfl⟩ := head?_eq_some_iff.mp ht
  rcases mem_cons.mp hu with rfl | hu
  · exact .refl
  · exact Nat.le_trans (h.each t mem_cons_self) (rel_of_pairwise_cons h.pairs hu)

theorem Ordered.le_stop (h : Ordered ts) (ht : t ∈ ts) (hu : ts.getLast? = some u) :
    t.span.stop ≤ u.span.stop := by
  obtain ⟨rest, rfl⟩ := getLast?_eq_some_iff.mp hu
  rcases mem_append.mp ht with ht | ht
  · have hle := (pairwise_append.mp h.pairs).2.2 t ht u (mem_singleton_self u)
    exact Nat.le_trans hle (h.each u (by simp))
  · exact Nat.le_of_eq (by rw [mem_singleton.mp ht])

/-- A place that lies in another one. -/
def Inside (a b : Span) : Prop := b.start ≤ a.start ∧ a.stop ≤ b.stop

theorem Ordered.inside (h : Ordered (ts ++ (us ++ vs))) (hus : us ≠ []) :
    Inside (cover us) (cover (ts ++ (us ++ vs))) := by
  obtain ⟨t, u, ht, hu⟩ := exists_ends hus
  obtain ⟨first, last, hfirst, hlast⟩ := exists_ends (append_ne_nil_of_right_ne_nil ts
    (append_ne_nil_of_left_ne_nil hus vs))
  have hsub : us ⊆ ts ++ (us ++ vs) := fun x hx => by simp [hx]
  rw [cover_eq ht hu, cover_eq hfirst hlast]
  exact ⟨h.start_le hfirst (hsub (mem_of_head? ht)), h.le_stop (hsub (mem_of_getLast? hu)) hlast⟩

theorem Ordered.before (h : Ordered (us ++ (mid ++ vs))) (hus : us ≠ []) (hvs : vs ≠ []) :
    (cover us).stop ≤ (cover vs).start := by
  obtain ⟨t, u, ht, hu⟩ := exists_ends hus
  obtain ⟨t', u', ht', hu'⟩ := exists_ends hvs
  rw [cover_eq ht hu, cover_eq ht' hu']
  refine (pairwise_append.mp h.pairs).2.2 u (mem_of_getLast? hu) t' ?_
  exact mem_append_right mid (mem_of_head? ht')

/-- Two places make one if the second is not before the first. -/
theorem merge_eq {a b : Span} (hstart : a.start ≤ b.start) (hstop : a.stop ≤ b.stop) :
    a.merge b = ⟨a.file, a.lo, b.hi⟩ := by
  rw [Span.merge]
  congr 1
  · exact if_pos (UInt32.le_iff_toNat_le.mpr hstart)
  · exact if_pos (UInt32.le_iff_toNat_le.mpr hstop)

theorem cover_of_ends (ht : ts.head? = some t) (hu : ts.getLast? = some u) (h : Ordered ts) :
    t.span.merge u.span = cover ts := by
  rw [cover_eq ht hu]
  exact merge_eq (h.start_le ht (mem_of_getLast? hu)) (h.le_stop (mem_of_head? ht) hu)

theorem merge_cover (hus : us ≠ []) (hvs : vs ≠ []) (h : Ordered (us ++ (mid ++ vs))) :
    (cover us).merge (cover vs) = cover (us ++ (mid ++ vs)) := by
  obtain ⟨t, t', ht, ht'⟩ := exists_ends hus
  obtain ⟨u', u, hu', hu⟩ := exists_ends hvs
  have hfirst : (us ++ (mid ++ vs)).head? = some t := by rw [head?_append, ht]; rfl
  have hlast : (us ++ (mid ++ vs)).getLast? = some u := by simp [getLast?_append, hu]
  rw [cover_eq ht ht', cover_eq hu' hu, cover_eq hfirst hlast]
  refine merge_eq (h.start_le hfirst ?_) (h.le_stop ?_ hlast)
  · exact mem_append_right _ (mem_append_right _ (mem_of_head? hu'))
  · exact mem_append_left _ (mem_of_getLast? ht')

end Places

/-! ### Nodes and their pieces -/

/-- What stands before the dot of a field, as an expression. -/
def Owner.toExpr : Owner → Expr
  | .name base => .var base.span base.text
  | .element span base i => .element span base i

/-- A part of a tree that has a place of its own. A block may be one behind `else`. -/
inductive Node where
  | word (name : Ident)
  | expr (e : Expr)
  | target (t : Target)
  | block (behindElse : Bool) (b : Block)
  | stmt (s : Stmt)
  | item (i : Item)
  | «import» (i : Import × Span)

def Node.span : Node → Span
  | .word name => name.span
  | .expr e => e.span
  | .target t => t.span
  | .block _ b => b.span
  | .stmt s => s.span
  | .item i => i.span
  | .import i => i.2

inductive Piece where
  | lexeme (l : Lexeme)
  | node (n : Node)

namespace Piece

abbrev mark (m : Mark) : Piece := .lexeme (.mark m)

abbrev keyword (k : Keyword) : Piece := .lexeme (.keyword k)

abbrev word (name : Ident) : Piece := .node (.word name)

abbrev expr (e : Expr) : Piece := .node (.expr e)

abbrev block (b : Block) : Piece := .node (.block false b)

end Piece

@[simp]
def nodesIn : List Piece → List Node
  | [] => []
  | .lexeme _ :: ps => nodesIn ps
  | .node n :: ps => n :: nodesIn ps

@[simp]
theorem nodesIn_append (ps qs : List Piece) : nodesIn (ps ++ qs) = nodesIn ps ++ nodesIn qs := by
  fun_induction nodesIn ps with
  | case1 => rfl
  | case2 l ps ih => exact ih
  | case3 n ps ih => exact congrArg (n :: ·) ih

theorem nodesIn_map {α : Type} (f : α → Node) (as : List α) : nodesIn (as.map (.node ∘ f)) = as.map f := by
  induction as with
  | nil => rfl
  | cons a as ih => exact congrArg (f a :: ·) ih

theorem mem_nodesIn {n : Node} {ps : List Piece} : n ∈ nodesIn ps ↔ .node n ∈ ps := by
  fun_induction nodesIn ps with
  | case1 => simp
  | case2 l ps ih => simp [ih]
  | case3 m ps ih => simp [ih]

def joined (parts : List (List Piece)) : List Piece := [Piece.mark .comma].intercalate parts

def Decl.pieces (d : Decl) : List Piece :=
  .keyword (if d.isConst then .constKw else .letKw) ::
    (joined (d.names.map ([.word ·])) ++ [.mark .assign, .expr d.value])

def Param.pieces (p : Param) : List Piece :=
  .word p.name ::
    match p.type with
    | some (ty, span) => [.mark .colon, .word ⟨ty.name, span⟩]
    | none => []

/-- What a node is written with, up to the end of its arguments or parameters if it has a list of them. -/
def Node.front : Node → List Piece
  | .word name => [.lexeme (.ident name.text)]
  | .expr (.int _ n) => [.lexeme (.integer n)]
  | .expr (.bytes _ bs) => [.lexeme (.bytes bs)]
  | .expr (.var _ name) | .target (.var _ name) => [.lexeme (.ident name)]
  | .expr (.unary _ op e) => [.lexeme (.unary op), .expr e]
  | .expr (.binary _ op l r) => [.expr l, .lexeme (.binary op), .expr r]
  | .expr (.group _ e) => [.mark .lparen, .expr e, .mark .rparen]
  | .expr (.call _ name args) => .word name :: .mark .lparen :: joined (args.map ([.expr ·]))
  | .expr (.cond _ test yes no) =>
    [.keyword .ifKw, .expr test, .mark .lbrace, .expr yes, .mark .rbrace, .keyword .elseKw, .mark .lbrace,
      .expr no, .mark .rbrace]
  | .expr (.element _ base i) => [.word base, .mark .lbracket, .expr i, .mark .rbracket]
  | .expr (.field _ owner name) => [.expr owner.toExpr, .mark .dot, .word name]
  | .expr (.fieldAt _ owner name i) =>
    [.expr owner.toExpr, .mark .dot, .word name, .mark .lbracket, .expr i, .mark .rbracket]
  | .expr (.method _ base method args) =>
    .word base :: .mark .dot :: .word method :: .mark .lparen :: joined (args.map ([.expr ·]))
  | .target (.field _ base field) => [.lexeme (.ident base), .mark .dot, .word field]
  | .block _ b => .mark .lbrace :: (b.stmts.map (.node ∘ .stmt) ++ [.mark .rbrace])
  | .stmt (.decl _ d) | .item (.decl _ d) => d.pieces ++ [.mark .semicolon]
  | .stmt (.assign _ first others value) =>
    joined ((first :: others).map fun t => [.node (.target t)]) ++
      [.mark .assign, .expr value, .mark .semicolon]
  | .stmt (.ret _ value) => [.keyword .returnKw, .expr value, .mark .semicolon]
  | .stmt (.error _) => [.keyword .errorKw, .mark .semicolon]
  | .stmt (.breakLoop _) => [.keyword .breakKw, .mark .semicolon]
  | .stmt (.ifThen _ test span yes) => [.keyword .ifKw, .expr test, .block ⟨span, yes⟩]
  | .stmt (.ifElse _ test span yes noSpan no) =>
    [.keyword .ifKw, .expr test, .block ⟨span, yes⟩, .keyword .elseKw, .node (.block true ⟨noSpan, no⟩)]
  | .stmt (.loop _ test span body) => [.keyword .forKw, .expr test, .block ⟨span, body⟩]
  | .stmt (.expr _ value) => [.expr value, .mark .semicolon]
  | .item (.function _ f) =>
    (if f.inline then [.keyword .inlineKw] else []) ++
      .keyword .functionKw :: .word f.name :: .mark .lparen :: joined (f.params.map Param.pieces)
  | .import _ => []

/-- What a node is written with behind its arguments or parameters. -/
def Node.back : Node → List Piece
  | .expr (.call _ _ _) | .expr (.method _ _ _ _) => [.mark .rparen]
  | .item (.function _ f) => [.mark .rparen, .block f.body]
  | _ => []

def Node.listed : Node → Bool
  | .expr (.call _ _ args) | .expr (.method _ _ _ args) => !args.isEmpty
  | .item (.function _ f) => !f.params.isEmpty
  | _ => false

/-- The parts of a node that have a place, in their order. -/
def Node.parts (n : Node) : List Node := nodesIn (n.front ++ n.back)

section Forms

variable (F : Freedom → Prop)

/-- The comma that there may be behind the last argument or parameter. -/
inductive Comma : Bool → List Piece → Prop
  | absent (listed : Bool) : Comma listed []
  | trailing (hfree : F .trailingComma) : Comma true [.mark .comma]

inductive Form : Node → List Piece → Prop
  | of {n : Node} {comma : List Piece} (hn : n.front ≠ []) (hcomma : Comma F n.listed comma) :
      Form n (n.front ++ (comma ++ n.back))
  | bare (hfree : F .elseIf) (span : Span) {s : Stmt} (hs : s.isConditional = true) :
      Form (.block true ⟨span, [s]⟩) [.node (.stmt s)]
  | «import» {i : Import × Span} {ls : List Lexeme} (hi : ImportSpelled F i ls) :
      Form (.import i) (ls.map .lexeme)

end Forms

/-- Pieces one behind the other in tokens, where it is given what tokens a node takes. -/
inductive Run (S : Node → List Token → Prop) : List Piece → List Token → Prop
  | nil : Run S [] []
  | lexeme (t : Token) {ps : List Piece} {ts : List Token} (h : Run S ps ts) :
      Run S (.lexeme t.lexeme :: ps) (t :: ts)
  | node {n : Node} {ps : List Piece} {ts us : List Token} (hn : S n ts) (h : Run S ps us) :
      Run S (.node n :: ps) (ts ++ us)

/-- A node is laid out in tokens: they are its pieces, and its place is theirs. -/
inductive Laid (F : Freedom → Prop) : Node → List Token → Prop
  | mk {n : Node} {ps : List Piece} {ts : List Token} (hform : Form F n ps) (hrun : Run (Laid F) ps ts)
      (hspan : Ordered ts → n.span = cover ts) : Laid F n ts

/-! ### Runs -/

section Runs

variable {S S' : Node → List Token → Prop} {n m : Node} {l : Lexeme} {ps qs : List Piece} {ts us : List Token}

theorem Run.append (h : Run S ps ts) (h' : Run S qs us) : Run S (ps ++ qs) (ts ++ us) := by
  induction h with
  | nil => exact h'
  | lexeme t _ ih => exact .lexeme t ih
  | node hn _ ih =>
    rw [append_assoc]
    exact .node hn ih

theorem Run.single (h : S n ts) : Run S [.node n] ts := by
  have hrun := Run.node h .nil
  rwa [append_nil] at hrun

theorem Run.mono (h : Run S ps ts) (hS : ∀ n ts, S n ts → S' n ts) : Run S' ps ts := by
  induction h with
  | nil => exact .nil
  | lexeme t _ ih => exact .lexeme t ih
  | node hn _ ih => exact .node (hS _ _ hn) ih

@[simp]
theorem run_nil : Run S [] ts ↔ ts = [] :=
  ⟨fun h => by cases h; rfl, fun h => h ▸ .nil⟩

@[simp]
theorem run_lexeme : Run S (.lexeme l :: ps) ts ↔ ∃ span us, ts = ⟨l, span⟩ :: us ∧ Run S ps us := by
  constructor
  · intro h
    cases h with
    | lexeme t h => exact ⟨t.span, _, rfl, h⟩
  · rintro ⟨span, us, rfl, h⟩
    exact .lexeme ⟨l, span⟩ h

@[simp]
theorem run_node : Run S (.node n :: ps) ts ↔ ∃ us vs, ts = us ++ vs ∧ S n us ∧ Run S ps vs := by
  constructor
  · intro h
    cases h with
    | node hn h => exact ⟨_, _, rfl, hn, h⟩
  · rintro ⟨us, vs, rfl, hn, h⟩
    exact .node hn h

@[simp]
theorem run_append : Run S (ps ++ qs) ts ↔ ∃ us vs, ts = us ++ vs ∧ Run S ps us ∧ Run S qs vs := by
  constructor
  · intro h
    induction ps generalizing ts with
    | nil => exact ⟨[], ts, rfl, .nil, h⟩
    | cons p ps ih =>
      cases h with
      | lexeme t h =>
        obtain ⟨us, vs, rfl, hus, hvs⟩ := ih h
        exact ⟨t :: us, vs, rfl, .lexeme t hus, hvs⟩
      | node hn h =>
        obtain ⟨us, vs, rfl, hus, hvs⟩ := ih h
        exact ⟨_, vs, (append_assoc _ _ _).symm, .node hn hus, hvs⟩
  · rintro ⟨us, vs, rfl, hus, hvs⟩
    exact hus.append hvs

/-- A node among the pieces takes some of the tokens. -/
theorem Run.exists_of_mem (h : Run S ps ts) (hn : Piece.node n ∈ ps) :
    ∃ before us after, ts = before ++ (us ++ after) ∧ S n us := by
  obtain ⟨left, right, rfl⟩ := append_of_mem hn
  simp only [run_append, run_node] at h
  obtain ⟨before, _, rfl, -, us, after, rfl, hus, -⟩ := h
  exact ⟨before, us, after, rfl, hus⟩

theorem Run.ne_nil (h : Run S ps ts) (hS : ∀ n ts, S n ts → ts ≠ []) (hps : ps ≠ []) : ts ≠ [] := by
  cases h with
  | nil => exact absurd rfl hps
  | lexeme t _ => exact cons_ne_nil _ _
  | node hn _ => exact append_ne_nil_of_left_ne_nil (hS _ _ hn) _

end Runs

section Laid

variable {F : Freedom → Prop} {n m : Node} {ps : List Piece} {ts : List Token}

theorem Laid.induction {motive : Node → List Token → Prop}
    (h : ∀ n ps ts, Form F n ps → Run (fun m us => Laid F m us ∧ motive m us) ps ts →
      (Ordered ts → n.span = cover ts) → motive n ts) (hn : Laid F n ts) : motive n ts :=
  Laid.rec (motive_1 := fun n ts _ => motive n ts)
    (motive_2 := fun ps ts _ => Run (fun m us => Laid F m us ∧ motive m us) ps ts)
    (fun hform _ hspan hrun => h _ _ _ hform hrun hspan) .nil (fun t _ _ _ h => .lexeme t h)
    (fun hn _ hmotive h => .node ⟨hn, hmotive⟩ h) hn

theorem nodesIn_joined (parts : List (List Piece)) : nodesIn (joined parts) = parts.flatMap nodesIn := by
  induction parts with
  | nil => rfl
  | cons part parts ih =>
    cases parts with
    | nil => simp [joined]
    | cons other parts =>
      rw [flatMap_cons, ← ih, joined, intercalate_cons_cons]
      simp [joined]

theorem nodesIn_lexemes (ls : List Lexeme) : nodesIn (ls.map .lexeme) = [] := by
  induction ls with
  | nil => rfl
  | cons l ls ih => exact ih

theorem Comma.nodesIn_eq {listed : Bool} (h : Comma F listed ps) : nodesIn ps = [] := by
  cases h <;> rfl

theorem Form.plain (F : Freedom → Prop) (hn : n.front ≠ [] := by exact List.cons_ne_nil _ _) :
    Form F n (n.front ++ n.back) := .of hn (.absent _)

theorem Form.of_eq {comma : List Piece} (hcomma : Comma F n.listed comma) (h : ps = n.front ++ (comma ++ n.back))
    (hn : n.front ≠ [] := by exact List.cons_ne_nil _ _) : Form F n ps :=
  h ▸ .of hn hcomma

theorem Form.ne_nil (h : Form F n ps) : ps ≠ [] := by
  cases h with
  | of hn hcomma => exact append_ne_nil_of_left_ne_nil hn _
  | bare hfree span hs => exact cons_ne_nil _ _
  | «import» hi => cases hi <;> simp

theorem Form.nodesIn_eq (h : Form F n ps) : nodesIn ps = n.parts := by
  cases h with
  | of hn hcomma =>
    rw [nodesIn_append, nodesIn_append, hcomma.nodesIn_eq]
    exact (nodesIn_append _ _).symm
  | bare hfree span hs => rfl
  | «import» hi => exact nodesIn_lexemes _

theorem Laid.ne_nil (h : Laid F n ts) : ts ≠ [] := by
  refine Laid.induction (motive := fun _ ts => ts ≠ []) (fun n ps ts hform hrun _ => ?_) h
  exact hrun.ne_nil (fun _ _ h => h.2) hform.ne_nil

theorem Laid.span (h : Laid F n ts) (hts : Ordered ts) : n.span = cover ts := by
  cases h with
  | mk hform hrun hspan => exact hspan hts

theorem Laid.merge {m : Node} {us mid : List Token} (h : Laid F n ts) (h' : Laid F m us)
    (hall : Ordered (ts ++ mid ++ us)) : n.span.merge m.span = cover (ts ++ mid ++ us) := by
  rw [h.span hall.left.left, h'.span hall.right]
  rw [append_assoc] at hall ⊢
  exact merge_cover h.ne_nil h'.ne_nil hall

theorem Laid.merge_token (h : Laid F n ts) {t : Token} (hall : Ordered ([t] ++ ts)) :
    t.span.merge n.span = cover ([t] ++ ts) := by
  rw [h.span hall.right]
  exact @merge_cover [t] ts [] (cons_ne_nil _ _) h.ne_nil hall

/-- Nodes among pieces are one behind the other. -/
theorem Run.pairwise (h : Run (Laid F) ps ts) (hts : Ordered ts) :
    (nodesIn ps).Pairwise (·.span.stop ≤ ·.span.start) := by
  induction h with
  | nil => exact .nil
  | lexeme t h ih => exact ih (@Ordered.right [t] _ hts)
  | node hn h ih =>
    refine pairwise_cons.mpr ⟨fun m hm => ?_, ih hts.right⟩
    obtain ⟨before, us, after, rfl, hus⟩ := h.exists_of_mem (mem_nodesIn.mp hm)
    rw [hn.span hts.left, hus.span hts.right.right.left]
    rw [← append_assoc before, ← append_assoc] at hts
    exact hts.left.before hn.ne_nil hus.ne_nil

theorem Laid.word (F : Freedom → Prop) (name : Ident) : Laid F (.word name) [⟨.ident name.text, name.span⟩] :=
  .mk (.plain F) (.lexeme ⟨.ident name.text, name.span⟩ .nil) fun _ => rfl

/-- What is laid out as an expression is laid out as the target it stands for. -/
theorem Laid.target {e : Expr} {t : Target}
    (h : Laid F (.expr e) ts) (ht : e.target? = some t) : Laid F (.target t) ts := by
  unfold Expr.target? at ht
  split at ht
  · cases ht
    obtain ⟨⟨-, ⟨⟩⟩, hrun, hspan⟩ := h
    exact .mk (.plain F) hrun hspan
  · cases ht
    obtain ⟨⟨-, ⟨⟩⟩, hrun, hspan⟩ := h
    simp only [Node.front, Node.back, append_nil, run_node, run_lexeme, run_nil] at hrun
    obtain ⟨us, _, rfl, ⟨⟨-, ⟨⟩⟩, hvar, -⟩, dot, _, rfl, vs, _, rfl, hname, rfl⟩ := hrun
    exact .mk (.plain F) (hvar.append (.lexeme ⟨.mark .dot, dot⟩ (.node hname .nil))) hspan
  · cases ht

/-- A part of a node takes some of its tokens. -/
theorem Laid.part (h : Laid F n ts) (hm : m ∈ n.parts) :
    ∃ before us after, ts = before ++ (us ++ after) ∧ Laid F m us := by
  cases h with
  | mk hform hrun hspan =>
    rw [← hform.nodesIn_eq, mem_nodesIn] at hm
    exact hrun.exists_of_mem hm

/-- The parts of a node lie in it, one behind the other. -/
structure Node.Fits (n : Node) : Prop where
  inside : ∀ m ∈ n.parts, Inside m.span n.span
  ordered : n.parts.Pairwise (·.span.stop ≤ ·.span.start)

theorem Laid.fits (h : Laid F n ts) (hts : Ordered ts) : n.Fits where
  inside m hm := by
    obtain ⟨before, us, after, rfl, hus⟩ := h.part hm
    rw [h.span hts, hus.span hts.right.left]
    exact hts.inside hus.ne_nil
  ordered := by
    cases h with
    | mk hform hrun hspan => exact hform.nodesIn_eq ▸ hrun.pairwise hts

end Laid

end Teal.Tree
