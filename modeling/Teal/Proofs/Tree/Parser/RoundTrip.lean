import Teal.Proofs.Text.Utf8
import Teal.Proofs.Tree.Parser.ReadExpr

/-! Parsing undoes printing. Statements, items and files are read as they are printed, since none of them
starts with what could continue the one before. -/

namespace Teal.Parser

open Teal.Tree List

/-! ### Statements -/

theorem identLexemes_reads (name : Ident) : Reads expectIdent (identLexemes name) name.erase anything :=
  expectIdent_reads name.text

variable {room : Nat} {β : Type} {ls : List Lexeme} {stmt : Parser (Option Stmt)}

theorem declaration_reads {d : Decl} (hwf : d.wellFormed = true) (hdepth : d.value.depth < room) :
    Reads (declaration d.isConst room) d.lexemes d.erase (Stops 0) := by
  simp only [Decl.wellFormed, Bool.and_eq_true, Bool.not_eq_true', isEmpty_eq_false_iff] at hwf
  obtain ⟨hnames, hvalue⟩ := hwf
  obtain ⟨first, others, heq⟩ := exists_cons_of_ne_nil hnames
  have hloop : Reads (iterate [first.erase] fun names => do
      if ← eat (.mark .comma) then
        return .again (names ++ [← expectIdent])
      return .last names)
      (others.flatMap fun name => .mark .comma :: identLexemes name)
      ([first.erase] ++ others.map Ident.erase) (· = some (.mark .assign)) := by
    refine iterate_reads id anything (fun acc name _ => ?_) (fun name _ => ⟨_, rfl, trivial⟩)
      (fun acc => ?_) (fun _ _ => trivial) [first.erase]
    · exact reads_cons (eat_reads _) (reads_nil (identLexemes_reads name) (reads_pure _) fun _ => id)
    · refine reads_eat_other ?_ (reads_pure _)
      rintro _ rfl
      nofun
  rw [Decl.lexemes, heq, map_cons, listing_cons, flatMap_map, append_assoc]
  refine reads_cons (advance_reads _) (reads_bind (identLexemes_reads first) ?_ fun _ _ => trivial)
  refine reads_bind hloop (reads_cons (expect_reads _) ?_) fun _ _ => rfl
  refine reads_nil (expr_reads room d.value hvalue hdepth) ?_ fun _ => id
  rw [Decl.erase, heq]
  exact reads_pure _

/-- A declaration as a statement or an item, as which `wrap` takes it. -/
theorem declared_reads (wrap : Span → Decl → β) (d : Decl) (hwf : d.wellFormed = true)
    (hdepth : d.value.depth < room) :
    Reads (do
      let d ← declaration d.isConst room
      expect (.mark .semicolon)
      return some (wrap (Span.nowhere.merge (← behind)) d))
      (d.lexemes ++ [.mark .semicolon]) (some (wrap .nowhere d.erase)) anything := by
  refine reads_bind (declaration_reads hwf hdepth) ?_ fun _ _ => stops_mark (by decide) 0
  exact closing_reads _ _

def targetExpr : Target → Expr
  | .var span name => .var span name
  | .field span base name => .field span (.name ⟨base, .nowhere⟩) name

theorem targetExpr_reads (hroom : 0 < room) (t : Target) :
    Reads (expr room) t.lexemes (targetExpr t).erase (Stops 0) := by
  cases t with
  | var span name => exact expr_reads room (.var span name) rfl hroom
  | field span base name => exact expr_reads room (targetExpr (.field span base name)) rfl hroom

variable {next : Option Lexeme → Prop} {value : Expr} {lexemes : β → List Lexeme} {f : Function}
  {m : Tree.Module}

theorem target_reads (t : Target) : Reads (target (targetExpr t).erase) [] (some t.erase) next := by
  cases t with
  | var span name => exact reads_pure _
  | field span base name => exact reads_pure _

def targetsRest (others : List Target) (ls : List Lexeme) : List Lexeme :=
  (others.flatMap fun t => .mark .comma :: t.lexemes) ++ .mark .assign :: ls

theorem stops_targetsRest (others : List Target) (ls : List Lexeme) (x : Option Lexeme) :
    Stops 0 ((targetsRest others ls).head?.or x) := by
  cases others with
  | nil => exact stops_mark (by decide) 0
  | cons t others => exact stops_mark (by decide) 0

/-- A comma or an equals sign behind an expression makes it a target. -/
theorem reads_targetsRest {f g : Parser β} {others : List Target} {b : β}
    (h : Reads g (targetsRest others ls) b next) :
    Reads (do if !((← sees (.mark .comma)) || (← sees (.mark .assign))) then f else g)
      (targetsRest others ls) b next := by
  cases others with
  | nil => exact reads_sees false (fun _ _ => rfl) (reads_sees true (fun _ _ => rfl) h)
  | cons t others => exact reads_sees true (fun _ _ => rfl) (reads_sees false (fun _ _ => rfl) h)

theorem targetsStep_reads (hroom : 0 < room) (others : List Target) :
    Reads (iterate (some []) (targetsStep room))
      (others.flatMap fun t => .mark .comma :: t.lexemes) (some (others.map Target.erase))
      (· = some (.mark .assign)) := by
  refine iterate_reads some (Stops 0) (fun acc t _ => ?_)
    (fun t _ => ⟨_, rfl, stops_mark (by decide) 0⟩) (fun acc => ?_) ?_ []
  · refine reads_cons (eat_reads _) (reads_nil (targetExpr_reads hroom t) ?_ fun _ => id)
    exact reads_then (target_reads t) (reads_pure _)
  · refine reads_eat_other ?_ (reads_pure _)
    rintro _ rfl
    nofun
  · rintro _ rfl
    exact stops_mark (by decide) 0

theorem assign_reads (span : Span) (first : Target) (others : List Target)
    (hwf : value.wellFormed = true) (hdepth : value.depth < room) :
    Reads (assignment room) (Stmt.assign span first others value).lexemes
      (some (Stmt.assign span first others value).erase) anything := by
  have hroom := Nat.zero_lt_of_lt hdepth
  rw [Stmt.lexemes, map_cons, listing_cons, flatMap_map, append_assoc]
  refine reads_here (reads_bind (targetExpr_reads hroom first) ?_
    fun x _ => stops_targetsRest others _ x)
  refine reads_targetsRest (reads_then (target_reads first) ?_)
  refine reads_bind (targetsStep_reads hroom others) (reads_cons (expect_reads _) ?_) fun _ _ => rfl
  refine reads_bind (expr_reads room value hwf hdepth) ?_ fun _ _ => stops_mark (by decide) 0
  exact closing_reads _ _

theorem exists_head?_assign (span : Span) (first : Target) (others : List Target) (value : Expr) :
    ∃ name, (Stmt.assign span first others value).lexemes.head? = some (.ident name) := by
  rw [Stmt.lexemes, map_cons, listing_cons]
  cases first with
  | var span name => exact ⟨name, rfl⟩
  | field span base name => exact ⟨base, rfl⟩

theorem exprStmt_reads (span : Span) (hwf : value.wellFormed = true) (hdepth : value.depth < room) :
    Reads (assignment room) (Stmt.expr span value).lexemes (some (Stmt.expr span value).erase) anything := by
  refine reads_here ?_
  refine reads_bind (expr_reads room value hwf hdepth) ?_ fun _ _ => stops_mark (by decide) 0
  refine reads_sees false (fun _ _ => rfl) (reads_sees false (fun _ _ => rfl) ?_)
  exact closing_reads _ _

/-- A parser reads all blocks that nest less deep. -/
def ReadsBlocks (room : Nat) (p : Parser Block) : Prop :=
  ∀ stmts : List Stmt, stmtsWellFormed stmts = true → stmtsDepth stmts < room →
    Reads p (braced (stmtsLexemes stmts)) ⟨.nowhere, eraseStmts stmts⟩ anything

section Conditional

variable {room : Nat} {p : Parser Block} {test : Expr} {yes no : List Stmt}
  (htest : Reads (expr room) test.lexemes test.erase (Stops 0))
  (hyes : Reads p (braced (stmtsLexemes yes)) ⟨.nowhere, eraseStmts yes⟩ anything)

include htest hyes

theorem clause_reads :
    Reads (clause room p) (.keyword .ifKw :: (test.lexemes ++ braced (stmtsLexemes yes)))
      ⟨.nowhere, test.erase, ⟨.nowhere, eraseStmts yes⟩⟩ anything := by
  refine reads_here (reads_cons (expect_reads _) ?_)
  refine reads_bind htest ?_ fun _ _ => stops_mark (by decide) 0
  exact reads_nil hyes (reads_pure _) fun _ => id

theorem ifThen_reads (span yesSpan : Span) :
    Reads (conditional room p) (Stmt.ifThen span test yesSpan yes).lexemes
      (Stmt.ifThen span test yesSpan yes).erase (· ≠ some (.keyword .elseKw)) := by
  refine reads_nil (clause_reads htest hyes) ?_ fun _ _ => trivial
  refine reads_nil (reads_iterate_last (reads_eat_other (fun _ hx => hx) (reads_pure _))) ?_ fun _ => id
  exact reads_behind (reads_pure _)

theorem ifElse_reads (span yesSpan noSpan : Span)
    (hno : Reads p (braced (stmtsLexemes no)) ⟨.nowhere, eraseStmts no⟩ anything) :
    Reads (conditional room p) (Stmt.ifElse span test yesSpan yes noSpan no).lexemes
      (Stmt.ifElse span test yesSpan yes noSpan no).erase anything := by
  have hlexemes : (Stmt.ifElse span test yesSpan yes noSpan no).lexemes =
      (.keyword .ifKw :: (test.lexemes ++ braced (stmtsLexemes yes))) ++
        .keyword .elseKw :: braced (stmtsLexemes no) := by
    rw [Stmt.lexemes, cons_append, append_assoc]
  rw [hlexemes]
  refine reads_bind (clause_reads htest hyes) ?_ fun _ _ => trivial
  refine reads_nil (reads_iterate_last (c := ([], some ⟨.nowhere, eraseStmts no⟩)) ?_) ?_ fun _ => id
  · refine reads_cons (eat_reads _) (reads_sees false (fun _ _ => rfl) ?_)
    exact reads_nil hno (reads_pure _) fun _ => id
  · exact reads_behind (reads_pure _)

end Conditional

section Statement

variable {room : Nat} {p : Parser Block}

/-- What starts like an expression, and not like a conditional statement, is one or is assigned to. -/
theorem statement_assignment {ls : List Lexeme} {l : Lexeme} {a : Option Stmt}
    {next : Option Lexeme → Prop} (hl : ls.head? = some l) (hopens : opensExpr l = true)
    (hif : l ≠ .keyword .ifKw) (h : Reads (assignment room) ls a next) :
    Reads (statement room p) ls a next := by
  refine reads_here (reads_peek_head hl ?_)
  cases l with
  | keyword k =>
    cases k with
    | ifKw => exact absurd rfl hif
    | _ => cases hopens
  | _ => exact h

theorem statement_reads (hblock : ReadsBlocks room p) (s : Stmt) (hwf : s.wellFormed = true)
    (hdepth : s.depth ≤ room) :
    Reads (statement room p) s.lexemes (some s.erase) (· ≠ some (.keyword .elseKw)) := by
  have hafter {ls : List Lexeme} {a : Option Stmt} {q : Parser (Option Stmt)}
      (h : Reads q ls a anything) : Reads q ls a (· ≠ some (.keyword .elseKw)) :=
    reads_imp h fun _ _ => trivial
  cases s with
  | decl span d =>
    obtain ⟨isConst, names, value⟩ := d
    have hdecl := declared_reads Stmt.decl ⟨isConst, names, value⟩ hwf hdepth
    cases isConst with
    | false => exact hafter (reads_here (reads_peek hdecl))
    | true => exact hafter (reads_here (reads_peek hdecl))
  | assign span first others value =>
    obtain ⟨name, hname⟩ := exists_head?_assign span first others value
    exact hafter (statement_assignment hname rfl nofun (assign_reads span first others hwf hdepth))
  | ret span value =>
    refine hafter (reads_first rfl ?_)
    refine reads_bind (expr_reads room value hwf hdepth) ?_ fun _ _ => stops_mark (by decide) 0
    exact closing_reads _ _
  | error span =>
    refine hafter (reads_first rfl ?_)
    exact closing_reads _ _
  | breakLoop span =>
    refine hafter (reads_first rfl ?_)
    exact closing_reads _ _
  | ifThen span test yesSpan yes =>
    simp only [Stmt.wellFormed, Bool.and_eq_true] at hwf
    obtain ⟨htest, hyes⟩ := Nat.max_le.mp hdepth
    have hthen := ifThen_reads (expr_reads room test hwf.1 htest) (hblock yes hwf.2 hyes) span yesSpan
    exact reads_here (reads_peek (reads_nil hthen (reads_pure _) fun _ => id))
  | ifElse span test yesSpan yes noSpan no =>
    simp only [Stmt.wellFormed, Bool.and_eq_true] at hwf
    obtain ⟨htest, hrest⟩ := Nat.max_le.mp hdepth
    obtain ⟨hyes, hno⟩ := Nat.max_le.mp hrest
    have helse := ifElse_reads (expr_reads room test hwf.1.1 htest) (hblock yes hwf.1.2 hyes)
      span yesSpan noSpan (hblock no hwf.2 hno)
    exact hafter (reads_here (reads_peek (reads_nil helse (reads_pure _) fun _ => id)))
  | loop span test bodySpan body =>
    simp only [Stmt.wellFormed, Bool.and_eq_true] at hwf
    obtain ⟨htest, hbody⟩ := Nat.max_le.mp hdepth
    refine hafter (reads_first rfl ?_)
    refine reads_bind (expr_reads room test hwf.1 htest) ?_ fun _ _ => stops_mark (by decide) 0
    exact reads_nil (hblock body hwf.2 hbody) (reads_behind (reads_pure _)) fun _ => id
  | expr span value =>
    simp only [Stmt.wellFormed, Bool.and_eq_true, bne_iff_ne] at hwf
    obtain ⟨l, hl, hopens⟩ := exists_head?_lexemes value
    have hif : l ≠ .keyword .ifKw := fun heq => hwf.2 (heq ▸ hl)
    refine hafter (statement_assignment ?_ hopens hif (exprStmt_reads span hwf.1 hdepth))
    rw [Stmt.lexemes, head?_append, hl]
    rfl

end Statement

/-! ### Blocks -/

def opensStmt (l : Lexeme) : Bool :=
  opensExpr l || l ∈ [Keyword.letKw, .constKw, .returnKw, .errorKw, .breakKw, .forKw].map Lexeme.keyword

theorem exists_head?_stmt (s : Stmt) : ∃ l, s.lexemes.head? = some l ∧ opensStmt l = true := by
  cases s with
  | decl span d =>
    obtain ⟨isConst, names, value⟩ := d
    cases isConst with
    | false => exact ⟨.keyword .letKw, rfl, rfl⟩
    | true => exact ⟨.keyword .constKw, rfl, rfl⟩
  | assign span first others value =>
    obtain ⟨name, hname⟩ := exists_head?_assign span first others value
    exact ⟨.ident name, hname, rfl⟩
  | expr span value =>
    obtain ⟨l, hl, hopens⟩ := exists_head?_lexemes value
    refine ⟨l, ?_, by rw [opensStmt, hopens, Bool.true_or]⟩
    rw [Stmt.lexemes, head?_append, hl]
    rfl
  | _ => exact ⟨_, rfl, rfl⟩

theorem stmtsStep_reads {value : β → Stmt} {items : List β}
    (hstmt : ∀ x ∈ items, Reads stmt (lexemes x) (some (value x)) (· ≠ some (.keyword .elseKw)))
    (hstart : ∀ x ∈ items, ∃ l, (lexemes x).head? = some l ∧ opensStmt l = true) :
    Reads (iterate [] (stmtsStep stmt)) (items.flatMap lexemes) (items.map value)
      (· = some (.mark .rbrace)) := by
  refine iterate_reads id (· ≠ some (.keyword .elseKw)) (fun acc x hx => ?_) (fun x hx => ?_)
    (fun acc => reads_closed (reads_pure _)) ?_ []
  · obtain ⟨l, hl, hopens⟩ := hstart x hx
    refine reads_closed_other hl (by rintro rfl; cases hopens) ?_
    refine reads_nil (recovering_reads ?_ (hstmt x hx)) (reads_pure _) fun _ => id
    intro heq
    rw [heq] at hl
    cases hl
  · obtain ⟨l, hl, hopens⟩ := hstart x hx
    refine ⟨l, hl, ?_⟩
    rintro ⟨⟩
    cases hopens
  · rintro _ rfl
    nofun

/-- Statements that are read one after another are read as a block when they stand in braces. -/
theorem reads_block {stmts : List Stmt}
    (h : Reads (iterate [] (stmtsStep stmt)) ls stmts (· = some (.mark .rbrace))) :
    Reads (blockOver (room + 1) stmt) (braced ls) ⟨.nowhere, stmts⟩ anything := by
  refine nested_reads (Nat.succ_pos room) (reads_here (reads_cons (expect_reads _) ?_))
  refine reads_bind h (reads_here ?_) fun _ _ => rfl
  exact reads_cons (expect_reads _) (reads_pure _)

theorem blockOver_reads (hstmt : ∀ s : Stmt, s.wellFormed = true → s.depth ≤ room →
      Reads stmt s.lexemes (some s.erase) (· ≠ some (.keyword .elseKw))) :
    ReadsBlocks (room + 1) (blockOver (room + 1) stmt) := by
  intro stmts hwf hdepth
  rw [stmtsLexemes_eq_flatMap, eraseStmts_eq_map]
  refine reads_block (stmtsStep_reads (fun s hs => ?_) fun s _ => exists_head?_stmt s)
  exact hstmt s (stmtsWellFormed_iff.mp hwf s hs)
    (stmt_depth_le_of_mem (Nat.le_of_lt_succ hdepth) s hs)

theorem block_reads (room : Nat) : ReadsBlocks room (block room) := by
  induction room with
  | zero => exact fun _ _ hdepth => absurd hdepth (Nat.not_lt_zero _)
  | succ room ih => exact blockOver_reads fun s hwf hdepth => statement_reads ih s hwf hdepth

/-! ### Items -/

theorem paramType_reads (ty : ParamType) : Reads paramType [.ident ty.name] (ty, .nowhere) anything := by
  refine reads_cons (expectIdent_reads ty.name) ?_
  cases ty with
  | int => exact reads_pure _
  | byte => exact reads_pure _

theorem param_reads (q : Param) : Reads param q.lexemes q.erase (· ≠ some (.mark .colon)) := by
  obtain ⟨name, type⟩ := q
  refine reads_cons (expectIdent_reads name.text) ?_
  cases type with
  | none => exact reads_eat_other (fun _ hx => hx) (reads_pure _)
  | some ty =>
    refine reads_cons (eat_reads _) ?_
    exact reads_nil (paramType_reads ty.1) (reads_pure _) fun _ _ => trivial

/-- The head of a function is read whatever its body is. -/
theorem reads_function (inline : Bool) (name : Ident) (params : List Param) {body : Block}
    (hbody : Reads (block room) ls body anything) :
    Reads (function room)
      ((if inline then [.keyword .inlineKw] else []) ++
        .keyword .functionKw :: .ident name.text :: .mark .lparen ::
          (listing (params.map Param.lexemes) ++ .mark .rparen :: ls))
      ⟨inline, name.erase, params.map Param.erase, body⟩ anything := by
  have hparams : Reads (listed param) (listing (params.map Param.lexemes)) (params.map Param.erase)
      (· = some (.mark .rparen)) :=
    listed_reads nofun nofun (forall₂_map_left_iff.mpr (forall₂_map_right_iff.mpr
      (forall₂_same.mpr fun q _ => ⟨param_reads q, _, rfl, nofun⟩))) (ListSpelled.plain (F := noFreedom))
  have hrest : Reads (do
      expect (.keyword .functionKw)
      let name ← expectIdent
      expect (.mark .lparen)
      let params ← listed param
      expect (.mark .rparen)
      return (⟨inline, name, params, ← block room⟩ : Function))
      (.keyword .functionKw :: .ident name.text :: .mark .lparen ::
        (listing (params.map Param.lexemes) ++ .mark .rparen :: ls))
      ⟨inline, name.erase, params.map Param.erase, body⟩ anything := by
    refine reads_cons (expect_reads _) (reads_cons (expectIdent_reads name.text) ?_)
    refine reads_cons (expect_reads _) (reads_bind hparams ?_ fun _ _ => rfl)
    refine reads_cons (expect_reads _) ?_
    exact reads_nil hbody (reads_pure _) fun _ => id
  cases inline with
  | true => exact reads_cons (eat_reads _) hrest
  | false => exact reads_eat_other nofun hrest

theorem function_reads (hwf : stmtsWellFormed f.body.stmts = true)
    (hdepth : stmtsDepth f.body.stmts < room) : Reads (function room) f.lexemes f.erase anything := by
  have hbody := block_reads room f.body.stmts hwf hdepth
  rw [eraseStmts_eq_map] at hbody
  exact reads_function f.inline f.name f.params hbody

theorem reads_item (h : Reads (function room) ls f anything)
    (hl : ls.head? = some (.keyword .functionKw) ∨ ls.head? = some (.keyword .inlineKw)) :
    Reads (item room) ls (some (.function .nowhere f)) anything := by
  have hfunction : Reads (do
      let f ← function room
      return some (Item.function (Span.nowhere.merge (← behind)) f)) ls (some (.function .nowhere f))
      anything :=
    reads_nil h (reads_behind (reads_pure _)) fun _ => id
  rcases hl with hl | hl
  · exact reads_here (reads_peek_head hl hfunction)
  · exact reads_here (reads_peek_head hl hfunction)

theorem item_reads (i : Item) (hwf : i.wellFormed = true) (hdepth : i.depth ≤ room) :
    Reads (item room) i.lexemes (some i.erase) anything := by
  cases i with
  | decl span d =>
    obtain ⟨isConst, names, value⟩ := d
    have hdecl := declared_reads Item.decl ⟨isConst, names, value⟩ hwf hdepth
    cases isConst with
    | false => exact reads_here (reads_peek hdecl)
    | true => exact reads_here (reads_peek hdecl)
  | function span f =>
    refine reads_item (function_reads hwf hdepth) ?_
    obtain ⟨inline, name, params, body⟩ := f
    cases inline with
    | false => exact .inl rfl
    | true => exact .inr rfl

theorem exists_head?_item (i : Item) : ∃ k, i.lexemes.head? = some (.keyword k) ∧ k ≠ .importKw := by
  cases i with
  | decl span d =>
    obtain ⟨isConst, names, value⟩ := d
    cases isConst with
    | false => exact ⟨.letKw, rfl, nofun⟩
    | true => exact ⟨.constKw, rfl, nofun⟩
  | function span f =>
    obtain ⟨inline, name, params, body⟩ := f
    cases inline with
    | false => exact ⟨.functionKw, rfl, nofun⟩
    | true => exact ⟨.inlineKw, rfl, nofun⟩

/-- Items are read one after another up to the end if each of them starts with a keyword. -/
theorem reads_items {value : β → Item} {is : List β}
    (h : ∀ i ∈ is, Reads (item room) (lexemes i) (some (value i)) anything)
    (hstart : ∀ i ∈ is, ∃ k, (lexemes i).head? = some (.keyword k)) :
    Reads (items room) (is.flatMap lexemes) (is.map value) (· = none) := by
  refine iterate_reads id anything (fun acc i hi => ?_) (fun i hi => ?_) (fun acc => ?_)
    (fun _ _ => trivial) []
  · obtain ⟨k, hk⟩ := hstart i hi
    refine reads_atEnd hk (reads_nil (recovering_reads ?_ (h i hi)) (reads_pure _) fun _ => id)
    intro heq
    rw [heq] at hk
    cases hk
  · obtain ⟨k, hk⟩ := hstart i hi
    exact ⟨_, hk, trivial⟩
  · refine reads_look (a := true) (fun s rest hs hx => ?_) (reads_pure _)
    rw [hs.rest, nil_append, head?_eq_none_iff.mp hx]
    rfl

theorem items_reads {is : List Item} (hwf : ∀ i ∈ is, i.wellFormed = true)
    (hdepth : ∀ i ∈ is, i.depth ≤ room) :
    Reads (items room) (is.flatMap Item.lexemes) (is.map Item.erase) (· = none) := by
  refine reads_items (fun i hi => item_reads i (hwf i hi) (hdepth i hi)) fun i _ => ?_
  obtain ⟨k, hk, -⟩ := exists_head?_item i
  exact ⟨k, hk⟩

/-! ### Imports -/

theorem namePart?_partLexeme (part : String) : namePart? (some (partLexeme part)) = some part := by
  unfold partLexeme
  split
  · next k hk =>
    have hfind : Keyword.all.find? (·.text == part) = some k := hk
    have htext := find?_some hfind
    exact congrArg some (eq_of_beq htext)
  · rfl

theorem dottedName_reads (first : String) (parts : List String) :
    Reads dottedName ((Import.dotted (first :: parts)).lexemesBy partLexeme) (first :: parts)
      (· = some (.mark .semicolon)) := by
  have hall : first :: parts = [first] ++ parts.map id := by rw [map_id]; rfl
  refine reads_cons (expectIdent_reads first) ?_
  rw [hall]
  refine iterate_reads id anything (fun acc part _ => ?_) (fun part _ => ⟨_, rfl, trivial⟩)
    (fun acc => ?_) (fun _ _ => trivial) [first]
  · refine reads_cons (eat_reads _) (reads_peek ?_)
    rw [namePart?_partLexeme]
    exact reads_cons (advance_reads _) (reads_pure _)
  · refine reads_eat_other ?_ (reads_pure _)
    rintro _ rfl
    nofun

theorem importTarget_reads {i : Import} (hwf : i.wellFormed = true) :
    Reads importTarget (i.lexemesBy partLexeme) i (· = some (.mark .semicolon)) := by
  cases i with
  | path text =>
    have htext : String.ofList (Text.ofUtf8Lossy (Text.utf8 text.toList)) = text := by
      rw [Text.ofUtf8Lossy_utf8, String.ofList_toList]
    refine reads_peek (reads_cons (advance_reads _) ?_)
    rw [htext]
    exact reads_pure _
  | dotted parts =>
    cases parts with
    | nil => cases hwf
    | cons first parts =>
      exact reads_peek (reads_nil (dottedName_reads first parts) (reads_pure _) fun _ => id)

theorem imports_reads {is : List (Import × Span)} (hwf : ∀ i ∈ is, i.1.wellFormed = true) :
    Reads imports (is.flatMap fun i => .keyword .importKw :: (i.1.lexemesBy partLexeme ++ [.mark .semicolon]))
      (is.map fun i => (i.1, .nowhere)) (· ≠ some (.keyword .importKw)) := by
  refine iterate_reads id anything (fun acc i hi => ?_) (fun i _ => ⟨_, rfl, trivial⟩) (fun acc => ?_)
    (fun _ _ => trivial) []
  · refine reads_here (reads_cons (eat_reads _) ?_)
    refine reads_bind (importTarget_reads (hwf i hi)) ?_ fun _ _ => rfl
    exact reads_cons (eat_reads _) (reads_behind (reads_pure _))
  · exact reads_here (reads_eat_other (fun _ hx => hx) (reads_pure _))

/-! ### Files -/

theorem fileWithin_reads (hwf : m.wellFormed = true) (hnest : m.nestsWithin room = true) :
    Reads (fileWithin room) m.lexemes m.erase (· = none) := by
  simp only [Tree.Module.wellFormed, Bool.and_eq_true, all_eq_true] at hwf
  simp only [Tree.Module.nestsWithin, all_eq_true, decide_eq_true_eq] at hnest
  refine reads_bind (imports_reads hwf.1) ?_ fun x hx => ?_
  · exact reads_nil (items_reads hwf.2 hnest) (reads_pure _) fun _ => id
  · cases hitems : m.items with
    | nil => simp [hx]
    | cons i is =>
      obtain ⟨k, hk, hne⟩ := exists_head?_item i
      rw [flatMap_cons, head?_append, hk]
      exact fun heq => hne (Lexeme.keyword.inj (Option.some.inj heq))

theorem file_reads (hwf : m.wellFormed = true) (hnest : m.nestsWithin maxNesting = true) :
    Reads file m.lexemes m.erase (· = none) := fileWithin_reads hwf hnest

end Teal.Parser

namespace Teal.Tree

/-- Tokens that say what a tree is printed as are parsed, and parsed as that tree. -/
theorem Parsed.ofTokens_lexemes {m : Module} (hwf : m.wellFormed = true)
    (hnest : m.nestsWithin Parser.maxNesting = true) {tokens : List Token}
    (htokens : tokens.map Token.lexeme = m.lexemes) (finish : Span) :
    ∃ parsed, Parsed.ofTokens tokens finish = .ok parsed ∧ parsed.module.erase = m.erase := by
  have hstart : (Parser.State.start (Parser.placeless m.lexemes) .nowhere).Holds (m.lexemes ++ []) := by
    rw [List.append_nil]
    exact .start m.lexemes
  obtain ⟨t, hrun, hholds⟩ := Parser.file_reads hwf hnest _ [] hstart rfl
  have hquiet : t.diagnostics.any (·.isFatal) = false :=
    List.any_eq_false.mpr fun d hd => Bool.eq_false_iff.mp (hholds.quiet d hd)
  have hplaceless : Parsed.ofTokens (Parser.placeless m.lexemes) .nowhere =
      .ok ⟨m.erase, t.diagnostics⟩ := by
    simp only [Parsed.ofTokens, hrun, hquiet, Bool.false_eq_true, if_false]
  have hsame := htokens.trans (Parser.map_lexeme_placeless m.lexemes).symm
  have hshape := Parsed.ofTokens_shape hsame finish .nowhere
  rw [hplaceless] at hshape
  cases hparsed : Parsed.ofTokens tokens finish with
  | error ds =>
    rw [hparsed] at hshape
    cases hshape
  | ok parsed =>
    rw [hparsed] at hshape
    exact ⟨parsed, rfl, (Option.some.inj hshape).trans m.erase_erase⟩

/-- A file with an import that has a keyword in its name, operators of several tiers, and conditionals as
statements and as expressions. -/
def Sample.printed : Module where
  imports := [(.dotted ["lib", "const"], .nowhere), (.path "π.tl", .nowhere)]
  items :=
    [.function .nowhere ⟨true, ⟨"f", .nowhere⟩, [⟨⟨"a", .nowhere⟩, some (.byte, .nowhere)⟩], .nowhere,
      [.ifElse .nowhere (.binary .nowhere .lt (.binary .nowhere .sub (.binary .nowhere .sub
          (.int .nowhere 3) (.int .nowhere 2)) (.int .nowhere 1))
          (.unary .nowhere .not (.var .nowhere "a")))
        .nowhere [.assign .nowhere (.var .nowhere "x") [.field .nowhere "y" ⟨"z", .nowhere⟩]
          (.cond .nowhere (.var .nowhere "a") (.group .nowhere (.int .nowhere 1)) (.bytes .nowhere [0]))]
        .nowhere [.ifThen .nowhere (.call .nowhere ⟨"g", .nowhere⟩ [.int .nowhere 1, .int .nowhere 2])
          .nowhere []]]⟩]

theorem Parsed.ofTokens_lexemes_sample :
    (Sample.printed.wellFormed = true ∧ Sample.printed.nestsWithin Parser.maxNesting = true) ∧
      ∃ parsed, Parsed.ofTokens (Parser.placeless Sample.printed.lexemes) .nowhere = .ok parsed ∧
        parsed.module.erase = Sample.printed.erase :=
  ⟨⟨rfl, rfl⟩, Parsed.ofTokens_lexemes rfl rfl (Parser.map_lexeme_placeless _) .nowhere⟩

end Teal.Tree
