import Mathlib.Data.List.Forall2
import Teal.Proofs.Tree.Print

/-! How a tree may be spelled. A spelling follows the printer but for some freedoms, and each of these has
a rule of its own that says where it may be taken. Without any freedom a tree has one spelling, and that is
what it is printed as if all names are printed as names. -/

namespace Teal.Tree

open List

/-- What a spelling may do otherwise than the printer. -/
inductive Freedom where
  /-- An import without semicolon. -/
  | bareImport
  /-- A comma behind the last of some arguments or parameters. -/
  | trailingComma
  /-- A conditional statement in place of an `else` block that holds nothing but it. -/
  | elseIf
  /-- A quoted path whose bytes are no text. -/
  | brokenPath
  /-- A keyword as a later part of a dotted name, in place of the name that has its text. -/
  | keywordPart
deriving DecidableEq

def noFreedom (_ : Freedom) : Prop := False

def anyFreedom (_ : Freedom) : Prop := True

section Relation

variable (F : Freedom → Prop)

/-- Parts with commas between them and perhaps one behind the last. -/
inductive ListSpelled (parts : List (List Lexeme)) : List Lexeme → Prop
  | plain : ListSpelled parts (listing parts)
  | trailing (hfree : F .trailingComma) (hparts : parts ≠ []) :
      ListSpelled parts (listing parts ++ [.mark .comma])

mutual

inductive Expr.Spelled : Expr → List Lexeme → Prop
  | int (span : Span) (n : UInt64) : Expr.Spelled (.int span n) [.integer n]
  | bytes (span : Span) (bs : List UInt8) : Expr.Spelled (.bytes span bs) [.bytes bs]
  | var (span : Span) (name : String) : Expr.Spelled (.var span name) [.ident name]
  | unary (span : Span) (op : UnOp) {e : Expr} {ls : List Lexeme} (he : Expr.Spelled e ls) :
      Expr.Spelled (.unary span op e) (.unary op :: ls)
  | binary (span : Span) (op : BinOp) {l r : Expr} {ls rs : List Lexeme} (hl : Expr.Spelled l ls)
      (hr : Expr.Spelled r rs) : Expr.Spelled (.binary span op l r) (ls ++ .binary op :: rs)
  | group (span : Span) {e : Expr} {ls : List Lexeme} (he : Expr.Spelled e ls) :
      Expr.Spelled (.group span e) (.mark .lparen :: (ls ++ [.mark .rparen]))
  | call (span : Span) (name : Ident) {args : List Expr} {parts : List (List Lexeme)}
      {ls : List Lexeme} (hargs : Forall₂ Expr.Spelled args parts) (hls : ListSpelled F parts ls) :
      Expr.Spelled (.call span name args)
        (.ident name.text :: .mark .lparen :: (ls ++ [.mark .rparen]))
  | cond (span : Span) {test yes no : Expr} {ts ys ns : List Lexeme} (htest : Expr.Spelled test ts)
      (hyes : Expr.Spelled yes ys) (hno : Expr.Spelled no ns) :
      Expr.Spelled (.cond span test yes no)
        (.keyword .ifKw :: (ts ++ (braced ys ++ .keyword .elseKw :: braced ns)))
  | element (span : Span) (base : Ident) {i : Expr} {is : List Lexeme} (hi : Expr.Spelled i is) :
      Expr.Spelled (.element span base i)
        (.ident base.text :: .mark .lbracket :: (is ++ [.mark .rbracket]))
  | field (span : Span) (name : Ident) {owner : Owner} {os : List Lexeme}
      (howner : Owner.Spelled owner os) :
      Expr.Spelled (.field span owner name) (os ++ [.mark .dot, .ident name.text])
  | fieldAt (span : Span) (name : Ident) {owner : Owner} {i : Expr} {os is : List Lexeme}
      (howner : Owner.Spelled owner os) (hi : Expr.Spelled i is) :
      Expr.Spelled (.fieldAt span owner name i)
        (os ++ .mark .dot :: .ident name.text :: .mark .lbracket :: (is ++ [.mark .rbracket]))
  | method (span : Span) (base method : Ident) {args : List Expr} {parts : List (List Lexeme)}
      {ls : List Lexeme} (hargs : Forall₂ Expr.Spelled args parts) (hls : ListSpelled F parts ls) :
      Expr.Spelled (.method span base method args)
        (.ident base.text :: .mark .dot :: .ident method.text :: .mark .lparen ::
          (ls ++ [.mark .rparen]))

inductive Owner.Spelled : Owner → List Lexeme → Prop
  | name (name : Ident) : Owner.Spelled (.name name) [.ident name.text]
  | element (span : Span) (base : Ident) {i : Expr} {is : List Lexeme} (hi : Expr.Spelled i is) :
      Owner.Spelled (.element span base i)
        (.ident base.text :: .mark .lbracket :: (is ++ [.mark .rbracket]))

end

inductive Decl.Spelled (d : Decl) : List Lexeme → Prop
  | mk {ls : List Lexeme} (hvalue : d.value.Spelled F ls) :
      Decl.Spelled d (.keyword (if d.isConst then .constKw else .letKw) ::
        (listing (d.names.map identLexemes) ++ .mark .assign :: ls))

def Stmt.isConditional : Stmt → Bool
  | .ifThen _ _ _ _ | .ifElse _ _ _ _ _ _ => true
  | _ => false

inductive Stmt.Spelled : Stmt → List Lexeme → Prop
  | decl (span : Span) {d : Decl} {ls : List Lexeme} (hd : d.Spelled F ls) :
      Stmt.Spelled (.decl span d) (ls ++ [.mark .semicolon])
  | assign (span : Span) (first : Target) (others : List Target) {value : Expr} {ls : List Lexeme}
      (hvalue : value.Spelled F ls) :
      Stmt.Spelled (.assign span first others value)
        (listing ((first :: others).map Target.lexemes) ++ .mark .assign :: (ls ++ [.mark .semicolon]))
  | ret (span : Span) {value : Expr} {ls : List Lexeme} (hvalue : value.Spelled F ls) :
      Stmt.Spelled (.ret span value) (.keyword .returnKw :: (ls ++ [.mark .semicolon]))
  | error (span : Span) : Stmt.Spelled (.error span) [.keyword .errorKw, .mark .semicolon]
  | breakLoop (span : Span) : Stmt.Spelled (.breakLoop span) [.keyword .breakKw, .mark .semicolon]
  | ifThen (span yesSpan : Span) {test : Expr} {yes : List Stmt} {ts : List Lexeme}
      {ys : List (List Lexeme)} (htest : test.Spelled F ts) (hyes : Forall₂ Stmt.Spelled yes ys) :
      Stmt.Spelled (.ifThen span test yesSpan yes) (.keyword .ifKw :: (ts ++ braced ys.flatten))
  | ifElse (span yesSpan noSpan : Span) {test : Expr} {yes no : List Stmt} {ts : List Lexeme}
      {ys ns : List (List Lexeme)} (htest : test.Spelled F ts)
      (hyes : Forall₂ Stmt.Spelled yes ys) (hno : Forall₂ Stmt.Spelled no ns) :
      Stmt.Spelled (.ifElse span test yesSpan yes noSpan no)
        (.keyword .ifKw :: (ts ++ (braced ys.flatten ++ .keyword .elseKw :: braced ns.flatten)))
  | elseIf (span yesSpan noSpan : Span) {test : Expr} {yes : List Stmt} {no : Stmt} {ts ls : List Lexeme}
      {ys : List (List Lexeme)} (hfree : F .elseIf) (hcond : no.isConditional = true)
      (htest : test.Spelled F ts) (hyes : Forall₂ Stmt.Spelled yes ys) (hno : Stmt.Spelled no ls) :
      Stmt.Spelled (.ifElse span test yesSpan yes noSpan [no])
        (.keyword .ifKw :: (ts ++ (braced ys.flatten ++ .keyword .elseKw :: ls)))
  | loop (span bodySpan : Span) {test : Expr} {body : List Stmt} {ts : List Lexeme}
      {bs : List (List Lexeme)} (htest : test.Spelled F ts) (hbody : Forall₂ Stmt.Spelled body bs) :
      Stmt.Spelled (.loop span test bodySpan body) (.keyword .forKw :: (ts ++ braced bs.flatten))
  | expr (span : Span) {value : Expr} {ls : List Lexeme} (hvalue : value.Spelled F ls) :
      Stmt.Spelled (.expr span value) (ls ++ [.mark .semicolon])

inductive Function.Spelled (f : Function) : List Lexeme → Prop
  | mk {ps : List Lexeme} {bs : List (List Lexeme)} (hparams : ListSpelled F (f.params.map Param.lexemes) ps)
      (hbody : Forall₂ (Stmt.Spelled F) f.body.stmts bs) :
      Function.Spelled f ((if f.inline then [.keyword .inlineKw] else []) ++
        .keyword .functionKw :: .ident f.name.text :: .mark .lparen ::
          (ps ++ .mark .rparen :: braced bs.flatten))

inductive Item.Spelled : Item → List Lexeme → Prop
  | decl (span : Span) {d : Decl} {ls : List Lexeme} (hd : d.Spelled F ls) :
      Item.Spelled (.decl span d) (ls ++ [.mark .semicolon])
  | function (span : Span) {f : Function} {ls : List Lexeme} (hf : f.Spelled F ls) :
      Item.Spelled (.function span f) ls

inductive PartSpelled : String → Lexeme → Prop
  | plain (part : String) : PartSpelled part (.ident part)
  | keyword (hfree : F .keywordPart) (k : Keyword) : PartSpelled k.text (.keyword k)

inductive Import.Spelled : Import → List Lexeme → Prop
  | dotted (first : String) {parts : List String} {ls : List Lexeme}
      (hparts : Forall₂ (PartSpelled F) parts ls) :
      Import.Spelled (.dotted (first :: parts)) (.ident first :: ls.flatMap fun l => [.mark .dot, l])
  | path (text : String) : Import.Spelled (.path text) [.bytes (Text.utf8 text.toList)]
  | broken (hfree : F .brokenPath) {bs : List UInt8} (hbroken : Text.ofUtf8? bs = none) :
      Import.Spelled (.path (String.ofList (Text.ofUtf8Lossy bs))) [.bytes bs]

/-- An import up to its end, whatever place it has in the tree. -/
inductive ImportSpelled (i : Import × Span) : List Lexeme → Prop
  | closed {ls : List Lexeme} (hi : i.1.Spelled F ls) :
      ImportSpelled i (.keyword .importKw :: (ls ++ [.mark .semicolon]))
  | bare {ls : List Lexeme} (hfree : F .bareImport) (hi : i.1.Spelled F ls) :
      ImportSpelled i (.keyword .importKw :: ls)

inductive Module.Spelled (m : Module) : List Lexeme → Prop
  | mk {is js : List (List Lexeme)} (himports : Forall₂ (ImportSpelled F) m.imports is)
      (hitems : Forall₂ (Item.Spelled F) m.items js) :
      Module.Spelled m (is.flatten ++ js.flatten)

end Relation

/-! ### Without freedom -/

theorem listSpelled_iff (parts : List (List Lexeme)) (ls : List Lexeme) :
    ListSpelled noFreedom parts ls ↔ ls = listing parts := by
  constructor
  · intro h
    cases h with
    | plain => rfl
    | trailing hfree => cases hfree
  · rintro rfl
    exact .plain

mutual

theorem Expr.spelled_iff (e : Expr) (ls : List Lexeme) : e.Spelled noFreedom ls ↔ ls = e.lexemes := by
  constructor
  · intro h
    cases h with
    | int span n => rfl
    | bytes span bs => rfl
    | var span name => rfl
    | unary span op he => rw [(Expr.spelled_iff _ _).mp he, Expr.lexemes]
    | binary span op hl hr =>
      rw [(Expr.spelled_iff _ _).mp hl, (Expr.spelled_iff _ _).mp hr, Expr.lexemes]
    | group span he => rw [(Expr.spelled_iff _ _).mp he, Expr.lexemes]
    | call span name hargs hls =>
      rw [(listSpelled_iff _ _).mp hls, (exprs_spelled_iff _ _).mp hargs, Expr.lexemes]
    | cond span htest hyes hno =>
      rw [(Expr.spelled_iff _ _).mp htest, (Expr.spelled_iff _ _).mp hyes,
        (Expr.spelled_iff _ _).mp hno, Expr.lexemes]
    | element span base hi => rw [(Expr.spelled_iff _ _).mp hi, Expr.lexemes]
    | field span name howner => rw [(Owner.spelled_iff _ _).mp howner, Expr.lexemes]
    | fieldAt span name howner hi =>
      rw [(Owner.spelled_iff _ _).mp howner, (Expr.spelled_iff _ _).mp hi, Expr.lexemes]
    | method span base method hargs hls =>
      rw [(listSpelled_iff _ _).mp hls, (exprs_spelled_iff _ _).mp hargs, Expr.lexemes]
  · rintro rfl
    cases e with
    | int span n => exact .int span n
    | bytes span bs => exact .bytes span bs
    | var span name => exact .var span name
    | unary span op e => exact .unary span op ((Expr.spelled_iff e _).mpr rfl)
    | binary span op l r =>
      exact .binary span op ((Expr.spelled_iff l _).mpr rfl) ((Expr.spelled_iff r _).mpr rfl)
    | group span e => exact .group span ((Expr.spelled_iff e _).mpr rfl)
    | call span name args => exact .call span name ((exprs_spelled_iff args _).mpr rfl) .plain
    | cond span test yes no =>
      exact .cond span ((Expr.spelled_iff test _).mpr rfl) ((Expr.spelled_iff yes _).mpr rfl)
        ((Expr.spelled_iff no _).mpr rfl)
    | element span base i => exact .element span base ((Expr.spelled_iff i _).mpr rfl)
    | field span owner name => exact .field span name ((Owner.spelled_iff owner _).mpr rfl)
    | fieldAt span owner name i =>
      exact .fieldAt span name ((Owner.spelled_iff owner _).mpr rfl) ((Expr.spelled_iff i _).mpr rfl)
    | method span base method args =>
      exact .method span base method ((exprs_spelled_iff args _).mpr rfl) .plain

theorem Owner.spelled_iff (owner : Owner) (ls : List Lexeme) :
    owner.Spelled noFreedom ls ↔ ls = owner.lexemes := by
  constructor
  · intro h
    cases h with
    | name name => rfl
    | element span base hi => rw [(Expr.spelled_iff _ _).mp hi, Owner.lexemes]
  · rintro rfl
    cases owner with
    | name name => exact .name name
    | element span base i => exact .element span base ((Expr.spelled_iff i _).mpr rfl)

theorem exprs_spelled_iff (es : List Expr) (parts : List (List Lexeme)) :
    Forall₂ (Expr.Spelled noFreedom) es parts ↔ parts = exprsLexemes es := by
  cases es with
  | nil => rw [forall₂_nil_left_iff, exprsLexemes]
  | cons e es =>
    rw [forall₂_cons_left_iff, exprsLexemes]
    constructor
    · rintro ⟨ls, parts, he, hes, rfl⟩
      rw [(Expr.spelled_iff e ls).mp he, (exprs_spelled_iff es parts).mp hes]
    · rintro rfl
      exact ⟨_, _, (Expr.spelled_iff e _).mpr rfl, (exprs_spelled_iff es _).mpr rfl, rfl⟩

end

theorem Decl.spelled_iff (d : Decl) (ls : List Lexeme) : d.Spelled noFreedom ls ↔ ls = d.lexemes := by
  constructor
  · intro h
    cases h with
    | mk hvalue => rw [(Expr.spelled_iff _ _).mp hvalue, Decl.lexemes]
  · rintro rfl
    exact .mk ((Expr.spelled_iff _ _).mpr rfl)

theorem flatten_map_lexemes (stmts : List Stmt) : (stmts.map Stmt.lexemes).flatten = stmtsLexemes stmts := by
  rw [stmtsLexemes_eq_flatMap, flatMap_def]

mutual

theorem Stmt.spelled_iff (s : Stmt) (ls : List Lexeme) : s.Spelled noFreedom ls ↔ ls = s.lexemes := by
  constructor
  · intro h
    cases h with
    | decl span hd => rw [(Decl.spelled_iff _ _).mp hd, Stmt.lexemes]
    | assign span first others hvalue => rw [(Expr.spelled_iff _ _).mp hvalue, Stmt.lexemes]
    | ret span hvalue => rw [(Expr.spelled_iff _ _).mp hvalue, Stmt.lexemes]
    | error span => rfl
    | breakLoop span => rfl
    | ifThen span yesSpan htest hyes =>
      rw [(Expr.spelled_iff _ _).mp htest, (stmts_spelled_iff _ _).mp hyes, flatten_map_lexemes, Stmt.lexemes]
    | ifElse span yesSpan noSpan htest hyes hno =>
      rw [(Expr.spelled_iff _ _).mp htest, (stmts_spelled_iff _ _).mp hyes,
        (stmts_spelled_iff _ _).mp hno, flatten_map_lexemes, flatten_map_lexemes, Stmt.lexemes]
    | elseIf span yesSpan noSpan hfree => cases hfree
    | loop span bodySpan htest hbody =>
      rw [(Expr.spelled_iff _ _).mp htest, (stmts_spelled_iff _ _).mp hbody, flatten_map_lexemes,
        Stmt.lexemes]
    | expr span hvalue => rw [(Expr.spelled_iff _ _).mp hvalue, Stmt.lexemes]
  · rintro rfl
    cases s with
    | decl span d => exact .decl span ((Decl.spelled_iff d _).mpr rfl)
    | assign span first others value =>
      exact .assign span first others ((Expr.spelled_iff value _).mpr rfl)
    | ret span value => exact .ret span ((Expr.spelled_iff value _).mpr rfl)
    | error span => exact .error span
    | breakLoop span => exact .breakLoop span
    | ifThen span test yesSpan yes =>
      rw [Stmt.lexemes, ← flatten_map_lexemes]
      exact .ifThen span yesSpan ((Expr.spelled_iff test _).mpr rfl)
        ((stmts_spelled_iff yes _).mpr rfl)
    | ifElse span test yesSpan yes noSpan no =>
      rw [Stmt.lexemes, ← flatten_map_lexemes, ← flatten_map_lexemes]
      exact .ifElse span yesSpan noSpan ((Expr.spelled_iff test _).mpr rfl)
        ((stmts_spelled_iff yes _).mpr rfl) ((stmts_spelled_iff no _).mpr rfl)
    | loop span test bodySpan body =>
      rw [Stmt.lexemes, ← flatten_map_lexemes]
      exact .loop span bodySpan ((Expr.spelled_iff test _).mpr rfl)
        ((stmts_spelled_iff body _).mpr rfl)
    | expr span value => exact .expr span ((Expr.spelled_iff value _).mpr rfl)

theorem stmts_spelled_iff (stmts : List Stmt) (parts : List (List Lexeme)) :
    Forall₂ (Stmt.Spelled noFreedom) stmts parts ↔ parts = stmts.map Stmt.lexemes := by
  cases stmts with
  | nil => rw [forall₂_nil_left_iff, map_nil]
  | cons s stmts =>
    rw [forall₂_cons_left_iff, map_cons]
    constructor
    · rintro ⟨ls, parts, hs, hstmts, rfl⟩
      rw [(Stmt.spelled_iff s ls).mp hs, (stmts_spelled_iff stmts parts).mp hstmts]
    · rintro rfl
      exact ⟨_, _, (Stmt.spelled_iff s _).mpr rfl, (stmts_spelled_iff stmts _).mpr rfl, rfl⟩

end

theorem forall₂_iff_eq_map {α β : Type} {S : α → β → Prop} {f : α → β} {as : List α}
    (h : ∀ a ∈ as, ∀ b, S a b ↔ b = f a) (bs : List β) : Forall₂ S as bs ↔ bs = as.map f := by
  induction as generalizing bs with
  | nil => rw [forall₂_nil_left_iff, map_nil]
  | cons a as ih =>
    obtain ⟨ha, has⟩ := forall_mem_cons.mp h
    rw [forall₂_cons_left_iff, map_cons]
    constructor
    · rintro ⟨b, bs, hb, hbs, rfl⟩
      rw [(ha b).mp hb, (ih has bs).mp hbs]
    · rintro rfl
      exact ⟨_, _, (ha _).mpr rfl, (ih has _).mpr rfl, rfl⟩

theorem Item.spelled_iff (i : Item) (ls : List Lexeme) : i.Spelled noFreedom ls ↔ ls = i.lexemes := by
  constructor
  · intro h
    cases h with
    | decl span hd => rw [(Decl.spelled_iff _ _).mp hd, Item.lexemes]
    | function span hf =>
      cases hf with
      | mk hparams hbody =>
        rw [(listSpelled_iff _ _).mp hparams, (stmts_spelled_iff _ _).mp hbody,
          flatten_map_lexemes, Item.lexemes, Function.lexemes]
  · rintro rfl
    cases i with
    | decl span d => exact .decl span ((Decl.spelled_iff d _).mpr rfl)
    | function span f =>
      rw [Item.lexemes, Function.lexemes, ← flatten_map_lexemes]
      exact .function span (.mk .plain ((stmts_spelled_iff _ _).mpr rfl))

theorem partSpelled_iff (part : String) (l : Lexeme) :
    PartSpelled noFreedom part l ↔ l = .ident part := by
  constructor
  · intro h
    cases h with
    | plain => rfl
    | keyword hfree => cases hfree
  · rintro rfl
    exact .plain part

/-- An import that names something. -/
theorem importSpelled_iff {i : Import × Span} (hwf : i.1.wellFormed = true) (ls : List Lexeme) :
    ImportSpelled noFreedom i ls ↔ ls = .keyword .importKw :: (i.1.lexemesBy .ident ++ [.mark .semicolon]) := by
  have hparts (parts : List String) := forall₂_iff_eq_map fun part (_ : part ∈ parts) => partSpelled_iff part
  obtain ⟨i, span⟩ := i
  constructor
  · intro h
    cases h with
    | closed hi =>
      cases hi with
      | dotted first hls =>
        rw [(hparts _ _).mp hls, flatMap_map]
        rfl
      | path text => rfl
      | broken hfree => cases hfree
    | bare hfree => cases hfree
  · rintro rfl
    cases i with
    | path text => exact .closed (.path text)
    | dotted parts =>
      cases parts with
      | nil => cases hwf
      | cons first parts =>
        have hspelled := Import.Spelled.dotted first ((hparts parts _).mpr rfl)
        rw [flatMap_map] at hspelled
        exact .closed hspelled

theorem Module.spelled_iff {m : Module} (hwf : m.wellFormed = true) (ls : List Lexeme) :
    m.Spelled noFreedom ls ↔ ls = m.lexemesBy .ident := by
  rw [Module.wellFormed, Bool.and_eq_true, all_eq_true] at hwf
  have himports := forall₂_iff_eq_map fun i hi => importSpelled_iff (hwf.1 i hi)
  have hitems := forall₂_iff_eq_map fun i (_ : i ∈ m.items) => Item.spelled_iff i
  rw [Module.lexemesBy, flatMap_def, flatMap_def]
  constructor
  · intro h
    cases h with
    | mk his hjs => rw [(himports _).mp his, (hitems _).mp hjs]
  · rintro rfl
    exact .mk ((himports _).mpr rfl) ((hitems _).mpr rfl)

end Teal.Tree
