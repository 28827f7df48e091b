import Teal.Proofs.Assembly.LabelText
import Teal.Proofs.Token.Integer

/-! Characters that are cut into known lexemes. A symbol or a blank is cut off whatever comes behind it, a word
or a number only if what comes behind does not continue it. So parts of a text can be followed one by one. -/

namespace Teal.Scan

open List

/-- Characters are cut into lexemes without a fault, if those behind them are as they should be. -/
def CutsBefore (ok : List Char → Prop) (cs : List Char) (ls : List Lexeme) : Prop :=
  ∀ (file : FileId) (offset : Nat) (rest : List Char), ok rest → ∃ stop,
    (run file offset (cs ++ rest)).tokens.map Token.lexeme =
      ls ++ (run file stop rest).tokens.map Token.lexeme ∧
    (run file offset (cs ++ rest)).diagnostics = (run file stop rest).diagnostics

/-- Characters are cut into lexemes without a fault, whatever comes behind them. -/
abbrev Cuts : List Char → List Lexeme → Prop := CutsBefore fun _ => True

section Cuts

variable {cs cs' : List Char} {ls ls' : List Lexeme} {ok ok' : List Char → Prop}

theorem cuts_nil : CutsBefore ok [] [] := fun _ offset _ _ => ⟨offset, rfl, rfl⟩

theorem CutsBefore.append (h : CutsBefore ok cs ls) (h' : CutsBefore ok' cs' ls')
    (hok : ∀ rest, ok' rest → ok (cs' ++ rest)) : CutsBefore ok' (cs ++ cs') (ls ++ ls') := by
  intro file offset rest hrest
  obtain ⟨middle, htokens, hfaults⟩ := h file offset (cs' ++ rest) (hok rest hrest)
  obtain ⟨stop, htokens', hfaults'⟩ := h' file middle rest hrest
  refine ⟨stop, ?_, ?_⟩
  · rw [append_assoc, htokens, htokens', append_assoc]
  · rw [append_assoc, hfaults, hfaults']

theorem cuts_append (h : Cuts cs ls) (h' : CutsBefore ok cs' ls') : CutsBefore ok (cs ++ cs') (ls ++ ls') :=
  h.append h' fun _ _ => trivial

/-- One piece is cut off, which takes no more than is given. -/
theorem cuts_cons {c : Char} (more : Nat) (l : Option Lexeme)
    (hpiece : ∀ rest, ok rest → piece c (cs ++ rest) = ⟨more, l, none⟩) (hmore : more ≤ cs.length)
    (h : CutsBefore ok (cs.drop more) ls) : CutsBefore ok (c :: cs) (l.toList ++ ls) := by
  intro file offset rest hrest
  have hdrop : (cs ++ rest).drop more = cs.drop more ++ rest := drop_append_of_le_length hmore
  rw [cons_append, run, hpiece rest hrest, hdrop]
  obtain ⟨stop, htokens, hfaults⟩ :=
    h file (offset + Text.byteSize (c :: (cs ++ rest).take more)) rest hrest
  refine ⟨stop, ?_, hfaults⟩
  rw [map_append, htokens, append_assoc]
  cases l <;> rfl

theorem cuts_piece {c : Char} {l : Lexeme}
    (hpiece : ∀ rest, ok rest → piece c (cs ++ rest) = ⟨cs.length, some l, none⟩) :
    CutsBefore ok (c :: cs) [l] := by
  refine cuts_cons cs.length (some l) hpiece .refl ?_
  rw [drop_length]
  exact cuts_nil

theorem scan_of_cuts (h : CutsBefore ok cs ls) (hok : ok []) (file : FileId) :
    (scan file (String.ofList cs)).diagnostics = [] ∧
      (scan file (String.ofList cs)).tokens.map Token.lexeme = ls := by
  obtain ⟨stop, htokens, hfaults⟩ := h file 0 [] hok
  rw [append_nil, run] at htokens hfaults
  rw [map_nil, append_nil] at htokens
  rw [scan, String.toList_ofList]
  exact ⟨hfaults, htokens⟩

end Cuts

/-! ### Words and numbers -/

/-- A character that continues neither a word nor a number, nor makes a word the start of a literal. -/
def isStop (c : Char) : Bool := [' ', '(', ')', ',', '\x7d'].contains c

/-- What comes behind starts with such a character, if there is anything. -/
def Stopped (rest : List Char) : Prop := ∀ c ∈ rest.head?, isStop c = true

variable {c : Char} {name : String} {cs : List Char}

theorem isStop_apart (hc : isStop c = true) : isIdentRest c = false ∧ c ≠ '"' := by
  have htable : [' ', '(', ')', ',', '\x7d'].all fun c => !isIdentRest c && c != '"' := by decide
  have hall := all_eq_true.mp htable c (contains_iff_mem.mp hc)
  simpa using hall

def IsWord (name : String) : Prop :=
  ∃ c tail, name = String.ofList (c :: tail) ∧ isIdentStart c = true ∧
    (∀ d ∈ tail, isIdentRest d = true) ∧ Keyword.ofText? name = none

theorem piece_word (hc : isIdentStart c = true) (cs : List Char) : piece c cs = wordPiece c cs := by
  have hapart (d : Char) (hd : isIdentStart d = false) : c ≠ d := by
    rintro rfl
    rw [hc] at hd
    cases hd
  have hspace : isSpace c = false := by
    simp [isSpace, hapart ' ' rfl, hapart '\t' rfl, hapart '\n' rfl, hapart '\x0c' rfl, hapart '\r' rfl]
  rw [piece_eq_lexemePiece hspace fun hopens => hapart '/' rfl hopens.1, lexemePiece, if_pos hc]

theorem word_cuts (h : IsWord name) : CutsBefore Stopped name.toList [.ident name] := by
  obtain ⟨c, tail, rfl, hc, htail, hkeyword⟩ := h
  rw [String.toList_ofList]
  refine cuts_piece fun rest hrest => ?_
  have hstop : ∀ d ∈ rest.head?, isIdentRest d = false := fun d hd => (isStop_apart (hrest d hd)).1
  rw [piece_word hc, wordPiece_append htail hstop]
  unfold wordOf
  split
  · next body _ => exact absurd rfl (isStop_apart (hrest '"' rfl)).2
  · rw [hkeyword]

theorem lexeme_stringPiece (encoding : Literal.Encoding) (before : Nat) (cs : List Char) (name : String) :
    (stringPiece encoding before cs).lexeme ≠ some (.ident name) := by
  unfold stringPiece
  dsimp only
  repeat' split
  all_goals nofun

theorem isWord_of_piece (h : (piece c cs).lexeme = some (.ident name)) : IsWord name := by
  unfold piece at h
  split at h
  · cases h
  split at h
  · cases h
  split at h
  · split at h <;> cases h
  split at h
  · next hc =>
    obtain ⟨tail, after, rfl, htail, hstop⟩ := exists_takeWhile isIdentRest cs
    rw [wordPiece_append htail hstop] at h
    unfold wordOf at h
    split at h
    · exact absurd h (lexeme_stringPiece _ _ _ _)
    · cases hkeyword : Keyword.ofText? (String.ofList (c :: tail)) with
      | none =>
        rw [hkeyword] at h
        cases h
        exact ⟨c, tail, rfl, hc, htail, hkeyword⟩
      | some k =>
        rw [hkeyword] at h
        cases h
  split at h
  · unfold numberPiece at h
    split at h
    split at h <;> cases h
  split at h
  · exact absurd h (lexeme_stringPiece _ _ _ _)
  split at h
  · next hsymbol =>
    cases h
    unfold symbol? at hsymbol
    repeat' split at hsymbol
    all_goals cases hsymbol
  · cases h

theorem isWord_of_mem {file : FileId} {offset : Nat}
    (h : .ident name ∈ (run file offset cs).tokens.map Token.lexeme) : IsWord name := by
  fun_induction run file offset cs with
  | case1 offset => cases h
  | case2 offset c cs p stop span rest ih =>
    rw [map_append, mem_append] at h
    rcases h with h | h
    · cases hl : p.lexeme with
      | none =>
        rw [hl] at h
        cases h
      | some l =>
        rw [hl] at h
        obtain rfl := mem_singleton.mp h
        exact isWord_of_piece hl
    · exact ih h

theorem continues_ofDigitChars {digits : List Char} (h : ∀ c ∈ digits, c.isDigit = true) (acc : Nat) :
    Integer.Continues 10 acc digits (Nat.ofDigitChars 10 digits acc) := by
  induction digits generalizing acc with
  | nil => exact Integer.continues_nil.mpr Nat.ofDigitChars_nil
  | cons c digits ih =>
    obtain ⟨hc, hdigits⟩ := forall_mem_cons.mp h
    have hhigh : c.toNat ≤ 57 :=
      UInt32.le_iff_toNat_le.mp (of_decide_eq_true (Bool.and_eq_true_iff.mp hc).2)
    have hvalue : Text.digitValue? 10 c = some (c.toNat - '0'.toNat) := by
      rw [Text.digitValue?, if_pos hc]
      exact Option.filter_eq_some_iff.mpr ⟨rfl, decide_eq_true (show c.toNat - 48 < 10 by omega)⟩
    refine Integer.continues_cons.mpr
      ⟨_, (Text.digitValue?_eq_some_iff_digitOf (by decide)).mp hvalue, ?_⟩
    rw [Nat.ofDigitChars_cons, Nat.add_comm]
    exact ih hdigits _

theorem integer_cuts (n : UInt64) : CutsBefore Stopped (toString n.toNat).toList [.integer n] := by
  have hdigits : ∀ c ∈ Nat.toDigits 10 n.toNat, c.isDigit = true := fun _ => Assembly.isDigit_of_mem_toDigits
  have hwrites := continues_ofDigitChars hdigits 0
  rw [Nat.ofDigitChars_ten_toDigits, ← Integer.writes_iff] at hwrites
  have hvalue := (Integer.ofDigits_eq_ok_iff (by decide) (by decide) _ n).mpr ⟨Nat.toDigits_ne_nil, hwrites⟩
  rw [Assembly.toList_toString]
  generalize Nat.toDigits 10 n.toNat = digits at hdigits hvalue
  cases digits with
  | nil => cases hvalue
  | cons c rest =>
    refine cuts_piece fun after hafter => ?_
    have hstop : ∀ d ∈ after.head?, d.isAlphanum = false := fun d hd =>
      (Bool.or_eq_false_iff.mp (isStop_apart (hafter d hd)).1).1
    have hnone (x : Char) (hx : x.isAlphanum = true) (hdigit : x.isDigit = false) :
        ¬['0', x] <+: c :: rest ++ after := by
      rintro ⟨more, hmore⟩
      have htail : x :: more = rest ++ after := (List.cons.inj hmore).2
      cases rest with
      | nil => exact Bool.false_ne_true ((hstop x (congrArg List.head? htail.symm)).symm.trans hx)
      | cons d ds =>
        obtain rfl := (List.cons.inj htail).1
        exact Bool.false_ne_true (hdigit.symm.trans (hdigits _ (by simp)))
    obtain ⟨d, ds, hsplit, hpiece⟩ := piece_literal (.decimal (hnone 'x' rfl rfl) (hnone 'X' rfl rfl))
      (fun d hd => (digit_apart (hdigits d hd)).2.2.2) hstop ⟨c, rfl, hdigits c mem_cons_self⟩
    cases hsplit
    rw [hpiece, numberOf, hvalue]
    rfl

end Teal.Scan
