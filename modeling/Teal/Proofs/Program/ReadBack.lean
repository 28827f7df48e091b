import Teal.Proofs.Program.Build.Expr
import Teal.Proofs.Token.Cuts
import Teal.Proofs.Tree.Parser.Accepted

/-! The text of an expression reads back as the expression of the source that it was built from. No
parentheses are added, but those of the source are kept, and the source has them where its operators need
them. The text is followed part by part through the scanner; what the parser makes of the lexemes is known,
since it undoes printing. -/

namespace Teal.Parser

open Teal.Tree

/-! ### What is known of the parts of an expression -/

theorem Known.of_mem_parts {tokens : List Token} {bound : Nat} (e : Expr) (h : Known tokens bound e)
    (d : Expr) (hd : d ∈ e.parts) : Known tokens bound d := by
  -- What stands before a dot is a node of its own, and the index in it is a part of that.
  have howner {owner : Owner} (howner : Known tokens bound owner.toExpr) (hd : d ∈ owner.parts) :
      Known tokens bound d := by
    cases owner with
    | name => cases hd
    | element span base i =>
      exact howner.part (by simpa [Owner.toExpr, Node.parts, Node.front, Node.back, Owner.parts] using hd)
  cases e with
  | int | bytes | var => cases hd
  | field span owner name => exact howner (h.part (by simp [Node.parts, Node.front])) hd
  | fieldAt span owner name i =>
    rcases List.mem_append.mp hd with hd | hd
    · exact howner (h.part (by simp [Node.parts, Node.front])) hd
    · exact h.part (by simp [Node.parts, Node.front, List.mem_singleton.mp hd])
  | _ => exact h.part (by simpa [Node.parts, Node.front, Node.back, nodesIn_joined, Expr.parts] using hd)

end Teal.Parser

namespace Teal.Program

open Scan List

/-! ### What the scanner makes of a text -/

/-- Characters that are cut into lexemes if a blank, a bracket or a comma comes behind them. A sign before
them stays an operator of its own. -/
structure Written (cs : List Char) (ls : List Lexeme) : Prop where
  cut : CutsBefore Stopped cs ls
  head : ∃ c ∈ cs.head?, c ≠ '='

section Written

variable {cs cs' cs'' : List Char} {ls ls' ls'' : List Lexeme} {ok : List Char → Prop} {c : Char}

theorem cuts_blank : CutsBefore ok [' '] [] := cuts_cons 0 none (fun _ _ => rfl) (Nat.zero_le _) cuts_nil

theorem cuts_mark {l : Lexeme} (h : ∀ rest, piece c rest = ⟨0, some l, none⟩) : CutsBefore ok [c] [l] :=
  cuts_piece fun rest _ => h rest

theorem cuts_stop (h : CutsBefore Stopped cs ls) (hc : isStop c = true) (h' : CutsBefore ok (c :: cs') ls') :
    CutsBefore ok (cs ++ c :: cs') (ls ++ ls') :=
  h.append h' fun _ _ _ hd => Option.some.inj hd ▸ hc

/-- Characters between two parts that are cut in any case, the second of which starts with a stop. -/
theorem cuts_between (h : Cuts cs ls) (h' : CutsBefore Stopped cs' ls') (hc : isStop c = true)
    (h'' : CutsBefore ok (c :: cs'') ls'') : CutsBefore ok (cs ++ (cs' ++ c :: cs'')) (ls ++ (ls' ++ ls'')) :=
  cuts_append h (cuts_stop h' hc h'')

theorem parens_cut (h : CutsBefore Stopped cs ls) :
    CutsBefore ok ('(' :: (cs ++ [')'])) (.mark .lparen :: (ls ++ [.mark .rparen])) :=
  cuts_between (cuts_mark fun _ => rfl) h rfl (cuts_mark fun _ => rfl)

theorem Written.append (h : Written cs ls) (hc : isStop c = true) (h' : CutsBefore Stopped (c :: cs') ls') :
    Written (cs ++ c :: cs') (ls ++ ls') := by
  obtain ⟨d, hd, hne⟩ := h.head
  refine ⟨cuts_stop h.cut hc h', d, ?_, hne⟩
  rw [head?_append, Option.mem_def.mp hd]
  rfl

theorem written_integer (n : UInt64) : Written (toString n.toNat).toList [.integer n] := by
  refine ⟨integer_cuts n, ?_⟩
  have hne := Nat.toDigits_ne_nil (n := n.toNat) (b := 10)
  have hdigit : ((Nat.toDigits 10 n.toNat).head hne).isDigit = true :=
    Assembly.isDigit_of_mem_toDigits (head_mem hne)
  rw [Assembly.toList_toString]
  refine ⟨_, head_mem_head? hne, fun heq => ?_⟩
  rw [heq] at hdigit
  cases hdigit

variable {name : String} {texts : List String} {parts : List (List Lexeme)}

theorem written_word (h : IsWord name) : Written name.toList [.ident name] := by
  refine ⟨word_cuts h, ?_⟩
  obtain ⟨c, tail, rfl, hc, -, -⟩ := h
  rw [String.toList_ofList]
  refine ⟨c, rfl, ?_⟩
  rintro rfl
  cases hc

theorem Written.unary (op : UnOp) (h : Written cs ls) : Written (op.text.toList ++ cs) (.unary op :: ls) := by
  cases op with
  | not =>
    obtain ⟨c, hc, hne⟩ := h.head
    have hpiece (rest : List Char) : piece '!' (cs ++ rest) = ⟨0, some (.unary .not), none⟩ := by
      have hhead : (cs ++ rest).head? = some c := by
        rw [head?_append, Option.mem_def.mp hc]
        rfl
      simp [piece, hhead, symbol?, hne, isSpace, isIdentStart]
    exact ⟨cuts_cons 0 (some _) (fun rest _ => hpiece rest) (Nat.zero_le _) h.cut, '!', rfl, by decide⟩
  | bitNot => exact ⟨cuts_cons 0 (some _) (fun _ _ => rfl) (Nat.zero_le _) h.cut, '~', rfl, by decide⟩

theorem Written.binary (op : BinOp) (h : Written cs ls) (h' : Written cs' ls') :
    Written (cs ++ ' ' :: (op.text.toList ++ ' ' :: cs')) (ls ++ .binary op :: ls') := by
  have hop : Cuts (op.text.toList ++ [' ']) [.binary op] := by
    cases op with
    | or | and | eq | ne | le | ge => exact cuts_cons 1 (some _) (fun _ _ => rfl) (by decide) cuts_blank
    | _ => exact cuts_cons 0 (some _) (fun _ _ => rfl) (Nat.zero_le _) cuts_blank
  rw [append_cons op.text.toList]
  exact h.append rfl (cuts_append cuts_blank (cuts_append hop h'.cut))

theorem Written.cond (htest : Written cs ls) (hyes : Written cs' ls') (hno : Written cs'' ls'') :
    Written ("if ".toList ++ (cs ++ (" \x7b".toList ++ (cs' ++ ("\x7d else \x7b".toList ++
      (cs'' ++ "\x7d".toList))))))
      (.keyword .ifKw :: (ls ++ (Tree.braced ls' ++ .keyword .elseKw :: Tree.braced ls''))) := by
  have hif : Cuts "if ".toList [.keyword .ifKw] :=
    cuts_cons 1 (some _) (fun _ _ => rfl) (by decide) cuts_blank
  have helse : Cuts "else ".toList [.keyword .elseKw] :=
    cuts_cons 3 (some _) (fun _ _ => rfl) (by decide) cuts_blank
  have hopen : Cuts ['\x7b'] [.mark .lbrace] := cuts_mark fun _ => rfl
  have hclose (ok : List Char → Prop) : CutsBefore ok ['\x7d'] [.mark .rbrace] := cuts_mark fun _ => rfl
  have hbetween := cuts_append (hclose _) (cuts_append cuts_blank (cuts_append helse hopen))
  have hyes' := cuts_between (cuts_append cuts_blank hopen) hyes.cut rfl
    (cuts_between hbetween hno.cut rfl (hclose Stopped))
  have hall := cuts_between hif htest.cut rfl hyes'
  refine ⟨?_, 'i', rfl, by decide⟩
  simpa [Tree.braced] using hall

theorem written_list (h : List.Forall₂ (fun text ls => Written text.toList ls) texts parts) :
    CutsBefore Stopped (String.intercalate ", " texts).toList (Tree.listing parts) := by
  have hcomma : Cuts ", ".toList [.mark .comma] := cuts_append (cuts_mark fun _ => rfl) cuts_blank
  induction h with
  | nil => exact cuts_nil
  | cons hfirst hmore ih =>
    cases hmore with
    | nil =>
      rw [String.intercalate_singleton, Tree.listing, intercalate_singleton]
      exact hfirst.cut
    | cons hnext hmore =>
      rw [String.intercalate_cons_cons, Parser.listing_cons_cons, append_assoc, String.toList_append,
        String.toList_append, append_assoc]
      exact cuts_stop hfirst.cut rfl (cuts_append hcomma ih)

theorem written_call (hname : IsWord name)
    (h : List.Forall₂ (fun text ls => Written text.toList ls) texts parts) :
    Written (callText name texts).toList
      (.ident name :: .mark .lparen :: (Tree.listing parts ++ [.mark .rparen])) := by
  simp only [callText, String.toList_append, append_assoc]
  exact (written_word hname).append rfl (parens_cut (written_list h))

end Written

/-! ### Expressions that read back -/

mutual

/-- Whether an expression is made of numbers, names, operators, parentheses, conditions, calls of functions and
conversions. -/
def Expr.isPlain : Expr → Bool
  | .literal _ (.int _) _ | .ident _ _ _ => true
  | .unary _ _ e | .group _ e | .cast _ _ e => e.isPlain
  | .binary _ _ l r => l.isPlain && r.isPlain
  | .cond _ _ test yes no => test.isPlain && yes.isPlain && no.isPlain
  | .call _ _ _ _ args => exprsPlain args
  | _ => false

def exprsPlain : List Expr → Bool
  | [] => true
  | e :: rest => e.isPlain && exprsPlain rest

end

end Teal.Program

namespace Teal.Tree

mutual

/-- Whether an expression of the source is made of these forms, and calls no builtin by name. -/
def Expr.isPlain : Expr → Bool
  | .int _ _ | .var _ _ => true
  | .unary _ _ e | .group _ e => e.isPlain
  | .binary _ _ l r => l.isPlain && r.isPlain
  | .cond _ test yes no => test.isPlain && yes.isPlain && no.isPlain
  | .call _ name args => (Builtin.find? name.text).isNone && exprsPlain args
  | _ => false

def exprsPlain : List Expr → Bool
  | [] => true
  | e :: rest => e.isPlain && exprsPlain rest

end

end Teal.Tree

namespace Teal.Program.Build

open Scan List

/-- An expression that is built from one of the source is as plain as it, and if it is plain, its text is cut
into the lexemes of the source. -/
structure Readable (c : Tree.Expr) (e : Expr) : Prop where
  plain : c.isPlain = true → e.isPlain = true
  written : e.isPlain = true → Written e.text.toList c.lexemes

structure AllReadable (cs : List Tree.Expr) (es : List Expr) : Prop where
  plain : Tree.exprsPlain cs = true → exprsPlain es = true
  written : exprsPlain es = true →
    List.Forall₂ (fun text ls => Written text.toList ls) (texts es) (Tree.exprsLexemes cs)

theorem readable_of_not {c : Tree.Expr} {e : Expr} (hc : c.isPlain = false) (he : e.isPlain = false) :
    Readable c e :=
  ⟨fun h => absurd h (hc ▸ Bool.false_ne_true), fun h => absurd h (he ▸ Bool.false_ne_true)⟩

theorem castName_of_castTy? {name : String} {ty : Ty} (h : castTy? name = some ty) : castName ty = name := by
  unfold castTy? at h
  split at h
  · next heq =>
    cases h
    exact (eq_of_beq heq).symm
  split at h
  · next heq =>
    cases h
    exact (eq_of_beq heq).symm
  · cases h

section Readable

variable {c c' c'' : Tree.Expr} {e e' e'' : Expr} {cs : List Tree.Expr} {es : List Expr} {span : Span}

theorem Readable.unary {op : UnOp} (h : Readable c e) : Readable (.unary span op c) (.unary span op e) where
  plain := h.plain
  written he := by
    rw [Expr.text, String.toList_append]
    exact (h.written he).unary op

theorem Readable.binary {op : BinOp} (h : Readable c e) (h' : Readable c' e') :
    Readable (.binary span op c c') (.binary span op e e') where
  plain hc := by
    rw [Tree.Expr.isPlain, Bool.and_eq_true] at hc
    rw [Expr.isPlain, h.plain hc.1, h'.plain hc.2]
    rfl
  written he := by
    rw [Expr.isPlain, Bool.and_eq_true] at he
    simp only [Expr.text, String.toList_append, append_assoc]
    exact (h.written he.1).binary op (h'.written he.2)

theorem Readable.group (h : Readable c e) : Readable (.group span c) (.group span e) where
  plain := h.plain
  written he := by
    simp only [Expr.text, String.toList_append, append_assoc]
    exact ⟨parens_cut (h.written he).cut, '(', rfl, by decide⟩

theorem Readable.cond {label : Nat} (h : Readable c e) (h' : Readable c' e') (h'' : Readable c'' e'') :
    Readable (.cond span c c' c'') (.cond span label e e' e'') where
  plain hc := by
    rw [Tree.Expr.isPlain, Bool.and_eq_true, Bool.and_eq_true] at hc
    rw [Expr.isPlain, h.plain hc.1.1, h'.plain hc.1.2, h''.plain hc.2]
    rfl
  written he := by
    rw [Expr.isPlain, Bool.and_eq_true, Bool.and_eq_true] at he
    simp only [Expr.text, String.toList_append, append_assoc]
    exact (h.written he.1.1).cond (h'.written he.1.2) (h''.written he.2)

theorem Readable.call {name : Ident} {f site : Nat} (hname : IsWord name.text) (h : AllReadable cs es) :
    Readable (.call span name cs) (.call span f name.text site es) where
  plain hc := h.plain (Bool.and_eq_true_iff.mp hc).2
  written he := by
    rw [Expr.text]
    exact written_call hname (h.written he)

theorem Readable.cast {name : Ident} {ty : Ty} (hname : IsWord name.text) (hty : castTy? name.text = some ty)
    (h : Readable c e) : Readable (.call span name [c]) (.cast span ty e) where
  plain hc := by
    rw [Tree.Expr.isPlain, Tree.exprsPlain, Bool.and_eq_true, Bool.and_eq_true] at hc
    exact h.plain hc.2.1
  written he := by
    rw [Expr.text, castName_of_castTy? hty]
    exact written_call hname (.cons (h.written he) .nil)

theorem AllReadable.cons (h : Readable c e) (hrest : AllReadable cs es) : AllReadable (c :: cs) (e :: es) where
  plain hc := by
    rw [Tree.exprsPlain, Bool.and_eq_true] at hc
    rw [exprsPlain, h.plain hc.1, hrest.plain hc.2]
    rfl
  written he := by
    rw [exprsPlain, Bool.and_eq_true] at he
    exact .cons (h.written he.1) (hrest.written he.2)

end Readable

/-! ### What is built -/

section Rules

variable {α β : Type} {b : Builder}

/-- What a step yields, if it yields anything, is as wanted. -/
def Gives (m : Build (Option α)) (b : Builder) (P : α → Prop) : Prop :=
  Ensures m b fun r _ => ∀ a, r = some a → P a

variable {P : α → Prop} {Q : β → Prop}

theorem gives_none : Gives (pure none) b P := by
  intro a ha
  cases ha

theorem gives_some {a : α} (h : P a) : Gives (pure (some a)) b P := by
  intro a' ha
  cases ha
  exact h

theorem gives_fail (span : Span) (f : Fault) : Gives (fail span f) b P := by
  intro a ha
  cases ha

theorem gives_bind {m : Build β} {f : β → Build (Option α)} (h : ∀ a b', Gives (f a) b' P) :
    Gives (m >>= f) b P :=
  h _ _

variable {m : Build (Option α)} {r : Option α}

theorem gives_ite {c : Prop} [Decidable c] {m' : Build (Option α)} (h : Gives m b P)
    (h' : Gives m' b P) : Gives (if c then m else m') b P := by
  split
  · exact h
  · exact h'

theorem gives_bind_some {f : Option α → Build (Option β)} (hm : Gives m b P)
    (hnone : ∀ b', Gives (f none) b' Q) (hsome : ∀ a b', P a → Gives (f (some a)) b' Q) :
    Gives (m >>= f) b Q := by
  refine ensures_bind hm ?_
  intro r b' hr
  cases r with
  | none => exact hnone b'
  | some a => exact hsome a b' (hr a rfl)

/-- Whatever a step yields, if it yields anything. -/
theorem gives_any {m : Build (Option β)} {f : Option β → Build (Option α)}
    (hnone : ∀ b', Gives (f none) b' P) (hsome : ∀ a b', Gives (f (some a)) b' P) : Gives (m >>= f) b P :=
  gives_bind_some (P := fun _ => True) (fun _ _ => trivial) hnone fun a b' _ => hsome a b'

theorem gives_map {f : α → β} (hm : Gives m b P) (h : ∀ a, P a → Q (f a)) :
    Gives (m >>= fun r => pure (r.map f)) b Q :=
  gives_bind_some hm (fun _ => gives_none) fun a _ ha => gives_some (h a ha)

theorem seq_eq_some {f : Option (α → β)} {c : β} (h : f <*> r = some c) :
    ∃ g a, f = some g ∧ r = some a ∧ c = g a := by
  cases f with
  | none => cases h
  | some g =>
    cases r with
    | none => cases h
    | some a =>
      cases h
      exact ⟨g, a, rfl, rfl, rfl⟩

theorem map_seq_eq_some {γ : Type} {f : α → β → γ} {r' : Option β} {c : γ}
    (h : f <$> r <*> r' = some c) : ∃ a a', r = some a ∧ r' = some a' ∧ c = f a a' := by
  obtain ⟨g, a', hg, ha', rfl⟩ := seq_eq_some h
  obtain ⟨a, ha, rfl⟩ := Option.map_eq_some_iff.mp hg
  exact ⟨a, a', ha, ha', rfl⟩

end Rules

variable {b : Builder} {scope : ScopeId}

variable (span : Span)

theorem ident_named (name : String) :
    Gives (ident scope span name) b fun e => e = .ident span name scope := by
  unfold ident
  refine gives_bind fun kind b' => ?_
  split
  · exact gives_fail _ _
  · exact gives_some rfl
  · exact gives_some rfl
  · exact gives_fail _ _
  · exact gives_fail _ _

theorem callableBuiltin_named (name : Ident) (found : Nat) :
    Gives (callableBuiltin span name found) b fun x => Builtin.find? name.text = some x := by
  unfold callableBuiltin
  split
  · exact gives_fail _ _
  · next x hx =>
    refine gives_ite (gives_fail _ _) (gives_bind fun ok b' => gives_ite gives_none ?_)
    exact gives_ite (gives_fail _ _) (gives_some hx)

theorem builtinCall_notPlain (x : Builtin) (build : Build (List Builtin.ConstArg × Option (List Expr))) :
    Gives (builtinCall span x build) b fun e => e.isPlain = false := by
  unfold builtinCall
  refine gives_bind fun r b' => ?_
  obtain ⟨consts, args⟩ := r
  cases args with
  | none => exact gives_none
  | some args =>
    refine gives_bind fun b'' _ => ?_
    split
    · exact gives_some rfl
    · exact gives_fail _ _

theorem element_notPlain (base : Ident) (build : Build (Option Index)) :
    Gives (element scope span base build) b fun e => e.isPlain = false := by
  unfold element
  refine gives_bind fun kind b' => ?_
  split
  · exact gives_map (P := fun _ => True) (fun _ _ => trivial) fun _ _ => rfl
  · exact gives_fail _ _
  · exact gives_fail _ _
  · exact gives_fail _ _

theorem fieldAccess_notPlain (name : Ident) (owner : Build (Option FieldOwner)) :
    Gives (fieldAccess span name owner) b fun e => e.isPlain = false := by
  refine gives_any (fun _ => gives_none) fun owner b₁ => ?_
  refine gives_any (fun _ => gives_none) fun field b₂ => gives_ite (gives_fail _ _) ?_
  exact gives_bind fun ok b₃ => gives_ite (gives_some rfl) gives_none

theorem fieldAtAccess_notPlain (name : Ident) (indexSpan : Span)
    (owner : Build (Option FieldOwner)) (build : Build (Option Index)) :
    Gives (fieldAtAccess span name indexSpan owner build) b fun e => e.isPlain = false := by
  refine gives_any (fun _ => gives_none) fun owner b₁ => ?_
  refine gives_any (fun _ => gives_none) fun field b₂ => gives_ite (gives_fail _ _) ?_
  refine gives_any (fun _ => gives_none) fun i b₃ => gives_bind fun ok b₄ => gives_ite gives_none ?_
  exact gives_ite (gives_fail _ _) (gives_some rfl)

theorem functionCall_gives {P : List Expr → Prop} (f : Nat) (name : Ident) (found : Nat)
    {build : Build (List (Option Expr))}
    (hbuild : Ensures build b fun r _ => ∀ es, r.mapM id = some es → P es) :
    Gives (functionCall span f name found build) b fun e =>
      ∃ site args, P args ∧ e = .call span f name.text site args := by
  unfold functionCall
  apply ensures_get
  split
  · split
    · exact gives_fail _ _
    · refine ensures_bind hbuild ?_
      intro r b₁ hr
      split
      · exact gives_fail _ _
      · split
        · exact gives_none
        · next args hargs => exact gives_bind fun site b₂ => gives_some ⟨site, args, hr args hargs, rfl⟩
  · exact gives_bind fun _ _ => gives_none

section Reading

variable {tokens : List Token} {bound : Nat}

mutual

theorem expr_readable (hwords : ∀ name, .ident name ∈ tokens.map Token.lexeme → IsWord name)
    (scope : ScopeId) (c : Tree.Expr) (hc : Parser.Known tokens bound c) (b : Builder) :
    Gives (expr scope c) b (Readable c) := by
  have hpart := hc.of_mem_parts
  cases c with
  | int span n =>
    rw [expr]
    exact gives_bind fun ref _ => gives_some ⟨fun _ => rfl, fun _ => written_integer n⟩
  | bytes span bs =>
    rw [expr]
    exact gives_bind fun ref _ => gives_some (readable_of_not rfl rfl)
  | var span name =>
    rw [expr]
    refine ensures_imp (ident_named span name) fun r _ hr e he => ?_
    cases hr e he
    obtain ⟨ls, hls, hspelled⟩ := hc.spelled
    cases hspelled
    exact ⟨fun _ => rfl, fun _ => written_word (hwords name (hls mem_cons_self))⟩
  | unary span op c =>
    rw [expr]
    exact gives_map (expr_readable hwords scope c (hpart c mem_cons_self) b) fun e he => he.unary
  | binary span op l r =>
    have hkl := hpart l (by simp [Tree.Expr.parts])
    have hkr := hpart r (by simp [Tree.Expr.parts])
    rw [expr]
    refine ensures_bind (expr_readable hwords scope l hkl b) fun rl b₁ hl => ?_
    refine ensures_bind (expr_readable hwords scope r hkr b₁) fun rr b₂ hr => ?_
    apply ensures_pure
    intro e he
    obtain ⟨l', r', hl', hr', rfl⟩ := map_seq_eq_some he
    exact (hl l' hl').binary (hr r' hr')
  | group span c =>
    rw [expr]
    exact gives_map (expr_readable hwords scope c (hpart c mem_cons_self) b) fun e he => he.group
  | call span name args =>
    have hname : IsWord name.text := by
      obtain ⟨ls, hls, hspelled⟩ := hc.spelled
      cases hspelled
      exact hwords name.text (hls mem_cons_self)
    rw [expr]
    refine gives_bind fun kind b₁ => ?_
    split
    · next f =>
      refine ensures_imp (functionCall_gives span f name args.length
        (exprs_readable hwords scope args hpart b₁)) fun r _ hr e he => ?_
      obtain ⟨site, es, hes, rfl⟩ := hr e he
      exact .call hname hes
    · exact gives_fail _ _
    · split
      · next ty hty =>
        cases args with
        | nil => exact gives_fail _ _
        | cons c rest =>
          cases rest with
          | nil =>
            exact gives_map (expr_readable hwords scope c (hpart c mem_cons_self) b₁) fun e he =>
              he.cast hname hty
          | cons _ _ => exact gives_fail _ _
      · refine gives_bind_some (callableBuiltin_named span name args.length) (fun _ => gives_none) ?_
        intro x b₂ hx
        refine ensures_imp (builtinCall_notPlain span x _) fun r _ hr e he => readable_of_not ?_ (hr e he)
        rw [Tree.Expr.isPlain, hx]
        rfl
  | cond span test yes no =>
    have hkt := hpart test (by simp [Tree.Expr.parts])
    have hky := hpart yes (by simp [Tree.Expr.parts])
    have hkn := hpart no (by simp [Tree.Expr.parts])
    rw [expr]
    refine gives_bind fun label b₀ => ?_
    refine ensures_bind (expr_readable hwords scope test hkt b₀) fun rt b₁ ht => ?_
    refine ensures_bind (expr_readable hwords scope yes hky b₁) fun ry b₂ hy => ?_
    refine ensures_bind (expr_readable hwords scope no hkn b₂) fun rn b₃ hn => ?_
    apply ensures_pure
    intro e he
    obtain ⟨g, no', hg, hno', rfl⟩ := seq_eq_some he
    obtain ⟨test', yes', htest', hyes', rfl⟩ := map_seq_eq_some hg
    exact (ht test' htest').cond (hy yes' hyes') (hn no' hno')
  | element span base i =>
    rw [expr]
    exact ensures_imp (element_notPlain span base _) fun r _ hr e he => readable_of_not rfl (hr e he)
  | field span owner name =>
    rw [expr]
    exact ensures_imp (fieldAccess_notPlain span name _) fun r _ hr e he => readable_of_not rfl (hr e he)
  | fieldAt span owner name i =>
    rw [expr]
    exact ensures_imp (fieldAtAccess_notPlain span name _ _ _) fun r _ hr e he =>
      readable_of_not rfl (hr e he)
  | method span base method args =>
    rw [expr]
    exact gives_any (fun _ => gives_none) fun _ _ => gives_fail _ _
termination_by structural c

theorem exprs_readable (hwords : ∀ name, .ident name ∈ tokens.map Token.lexeme → IsWord name)
    (scope : ScopeId) (cs : List Tree.Expr) (hcs : ∀ c ∈ cs, Parser.Known tokens bound c) (b : Builder) :
    Ensures (exprs scope cs) b fun r _ => ∀ es, r.mapM id = some es → AllReadable cs es := by
  cases cs with
  | nil =>
    rw [exprs]
    apply ensures_pure
    intro es hes
    rw [mapM_nil] at hes
    cases hes
    exact ⟨fun _ => rfl, fun _ => .nil⟩
  | cons c rest =>
    obtain ⟨hc, hrest⟩ := forall_mem_cons.mp hcs
    rw [exprs]
    refine ensures_bind (expr_readable hwords scope c hc b) fun r b₁ he => ?_
    refine ensures_bind (exprs_readable hwords scope rest hrest b₁) fun rs b₂ hes => ?_
    apply ensures_pure
    intro es' hes'
    rw [mapM_id_cons] at hes'
    obtain ⟨e, es, he', hrs, rfl⟩ := map_seq_eq_some hes'
    exact .cons (he e he') (hes es hrs)
termination_by structural cs

end

end Reading

end Teal.Program.Build

namespace Teal.Program

/-- Whatever is built from an expression of an accepted text is plain if the expression is and calls no builtin,
and if it is plain, its text is scanned and parsed without faults and to the end, into that expression. -/
theorem Expr.text_reads_back {file : FileId} {text : String} {parsed : Tree.Parsed}
    (hparsed : Tree.Parsed.ofText file text = .ok parsed) {c : Tree.Expr} (hc : c ∈ parsed.module.nodes)
    {scope : ScopeId} {b : Builder} {e : Expr} (hbuilt : ((Build.expr scope c).run b).1 = some e) :
    (c.isPlain = true → e.isPlain = true) ∧
    (e.isPlain = true → ∀ file' : FileId,
      let scanned := scan file' e.text
      let read := (Parser.expr Parser.maxNesting).run (.start scanned.tokens scanned.finish)
      scanned.diagnostics = [] ∧ read.2.errors = 0 ∧ read.2.rest = [] ∧ read.1.erase = c.erase) := by
  simp only [Tree.Parsed.ofText] at hparsed
  split at hparsed
  · cases hparsed
  obtain ⟨root, hroot, hnode⟩ := List.mem_flatMap.mp hc
  have hknown := Tree.Expr.forall_nodes Parser.Known.of_mem_parts
    ((Tree.Parsed.read_of_ofTokens hparsed).noted.each root hroot) hnode
  have hreadable := Build.expr_readable (fun _ => Scan.isWord_of_mem) scope c hknown b e hbuilt
  refine ⟨hreadable.plain, fun hplain file' => ?_⟩
  have hstopped : Scan.Stopped [] := by
    intro c hc
    cases hc
  have hend : Parser.Stops 0 none := by constructor <;> simp
  obtain ⟨hfaults, htokens⟩ := Scan.scan_of_cuts (hreadable.written hplain).cut hstopped file'
  rw [String.ofList_toList] at hfaults htokens
  have hread := (Parser.expr_reads Parser.maxNesting c hknown.wellFormed hknown.depth).run_start
    hend (Parser.expr_inStep (R := Tree.anywhere) (fun _ _ _ _ _ _ => trivial) (fun _ _ _ => trivial) _)
    htokens (scan file' e.text).finish
  exact ⟨hfaults, hread.2.1, hread.2.2, hread.1.moved.erase_eq.trans c.moved_erase.erase_eq.symm⟩

/-- A function, and a value that has parentheses where they are needed and calls the function. -/
def Sample.bracketed : String :=
  "inline function f(x, y) \x7b return x; \x7d " ++
    "let a = if !f(1 + 2 * 3, ~4) == (5 < 6) \x7b toint(7) \x7d else \x7b 8 \x7d;"

theorem Expr.text_reads_back_bracketed :
    ∃ (parsed : Tree.Parsed) (c : Tree.Expr) (b : Builder) (e : Expr),
      Tree.Parsed.ofText 0 Sample.bracketed = .ok parsed ∧ c ∈ parsed.module.nodes ∧
        ((Build.expr b.tip c).run b).1 = some e ∧ e.isPlain = true ∧
        e.text = "if !f(1 + 2 * 3, ~4) == (5 < 6) \x7btoint(7)\x7d else \x7b8\x7d" ∧
        ∀ file' : FileId,
          let scanned := scan file' e.text
          let read := (Parser.expr Parser.maxNesting).run (.start scanned.tokens scanned.finish)
          scanned.diagnostics = [] ∧ read.2.errors = 0 ∧ read.2.rest = [] ∧ read.1.erase = c.erase := by
  let state (m : Tree.Module) : Builder := ((Build.program [⟨"main", 0, m, true⟩]).run (.initial 5)).2
  have hrun : ((Tree.Parsed.ofText 0 Sample.bracketed).toOption.bind fun parsed =>
      (parsed.module.items.flatMap Tree.Item.exprs).getLast?.bind fun c =>
      ((Build.expr (state parsed.module).tip c).run (state parsed.module)).1.map fun e =>
        (c.isPlain, e.text)) =
      some (true, "if !f(1 + 2 * 3, ~4) == (5 < 6) \x7btoint(7)\x7d else \x7b8\x7d") := by
    decide +kernel
  obtain ⟨parsed, hparsed, hrun⟩ := Option.bind_eq_some_iff.mp hrun
  obtain ⟨c, hc, hrun⟩ := Option.bind_eq_some_iff.mp hrun
  obtain ⟨e, he, hrun⟩ := Option.map_eq_some_iff.mp hrun
  have hparsed : Tree.Parsed.ofText 0 Sample.bracketed = .ok parsed := by
    cases h : Tree.Parsed.ofText 0 Sample.bracketed with
    | error ds =>
      rw [h] at hparsed
      cases hparsed
    | ok parsed' =>
      rw [h] at hparsed
      exact congrArg Except.ok (Option.some.inj hparsed)
  have hnode : c ∈ parsed.module.nodes :=
    List.mem_flatMap.mpr ⟨c, List.mem_of_getLast? hc, by rw [c.nodes_eq]; simp⟩
  obtain ⟨hplain, hread⟩ := Expr.text_reads_back hparsed hnode he
  have hplain := hplain (Prod.ext_iff.mp hrun).1
  exact ⟨parsed, c, _, e, hparsed, hnode, he, hplain, (Prod.ext_iff.mp hrun).2, hread hplain⟩

end Teal.Program
