import Mathlib.Data.List.Forall2
import Mathlib.Data.Nat.Digits.Defs
import Teal.Proofs.Text.Hex
import Teal.Proofs.Token.Tiling

/-! Integer literals are exact. All letters and digits from a digit on are one literal, and it yields the
number that its digits write if they are digits of its base and the number has 64 bits. Any other literal
yields zero and one diagnostic: that it is too large if the limit is passed before a character that is no digit,
and otherwise that it is invalid. -/

namespace Teal

open List Text

namespace Text

/-- A character is the digit of a value in a base up to sixteen. -/
def DigitOf (base : Nat) (c : Char) (n : Nat) : Prop := HexDigit c n ∧ n < base

theorem digitValue?_eq_some_iff_digitOf {base n : Nat} (hbase : base ≤ 16) {c : Char} :
    digitValue? base c = some n ↔ DigitOf base c n := by
  have hhex := digitValue?_eq_some_iff (c := c) (n := n)
  rw [digitValue?, Option.filter_eq_some_iff, decide_eq_true_eq] at hhex ⊢
  constructor
  · rintro ⟨hvalue, hn⟩
    exact ⟨hhex.mp ⟨hvalue, Nat.lt_of_lt_of_le hn hbase⟩, hn⟩
  · rintro ⟨hdigit, hn⟩
    exact ⟨(hhex.mpr hdigit).1, hn⟩

end Text

namespace Integer

open Text (DigitOf)

/-- Digits of a base write a number, the first of them being the most significant one. -/
def Writes (base : Nat) (digits : List Char) (n : Nat) : Prop :=
  ∃ values, List.Forall₂ (DigitOf base) digits values ∧ n = Nat.ofDigits base values.reverse

/-- Digits continue a number to another one. -/
def Continues (base acc : Nat) (digits : List Char) (n : Nat) : Prop :=
  ∃ values, List.Forall₂ (DigitOf base) digits values ∧ n = values.foldl (fun acc d => d + base * acc) acc

/-- Digits continue a number beyond 64 bits before there is a character that is no digit. -/
def Passes (base acc : Nat) (digits : List Char) : Prop :=
  ∃ front rest n, digits = front ++ rest ∧ Continues base acc front n ∧ UInt64.size ≤ n

theorem writes_iff {base n : Nat} {digits : List Char} : Writes base digits n ↔ Continues base 0 digits n := by
  simp only [Writes, Continues, Nat.ofDigits_eq_foldr, foldr_reverse, Nat.cast_id]

section Reading

variable {base acc n : Nat} {c : Char} {digits : List Char}

theorem continues_nil : Continues base acc [] n ↔ n = acc := by
  constructor
  · rintro ⟨values, hvalues, rfl⟩
    cases hvalues
    rfl
  · rintro rfl
    exact ⟨[], .nil, rfl⟩

theorem continues_cons : Continues base acc (c :: digits) n ↔
    ∃ d, DigitOf base c d ∧ Continues base (d + base * acc) digits n := by
  constructor
  · rintro ⟨values, hvalues, rfl⟩
    cases hvalues with
    | cons hd hrest => exact ⟨_, hd, _, hrest, rfl⟩
  · rintro ⟨d, hd, values, hvalues, rfl⟩
    exact ⟨d :: values, .cons hd hvalues, rfl⟩

theorem Continues.le (h : Continues base acc digits n) (hbase : 0 < base) : acc ≤ n := by
  induction digits generalizing acc with
  | nil => exact (continues_nil.mp h).ge
  | cons c digits ih =>
    obtain ⟨d, -, hrest⟩ := continues_cons.mp h
    calc acc ≤ base * acc := Nat.le_mul_of_pos_left acc hbase
      _ ≤ d + base * acc := Nat.le_add_left _ _
      _ ≤ n := ih hrest

theorem not_passes_nil (hacc : acc < UInt64.size) : ¬Passes base acc [] := by
  rintro ⟨front, rest, n, hsplit, hn, hsize⟩
  obtain ⟨rfl, -⟩ := nil_eq_append_iff.mp hsplit
  obtain rfl := continues_nil.mp hn
  omega

theorem passes_of_size_le (hacc : UInt64.size ≤ acc) : Passes base acc digits :=
  ⟨[], digits, acc, rfl, continues_nil.mpr rfl, hacc⟩

theorem passes_cons (hacc : acc < UInt64.size) : Passes base acc (c :: digits) ↔
    ∃ d, DigitOf base c d ∧ Passes base (d + base * acc) digits := by
  constructor
  · rintro ⟨front, rest, n, hsplit, hn, hsize⟩
    rcases cons_eq_append_iff.mp hsplit with ⟨rfl, -⟩ | ⟨front, rfl, rfl⟩
    · obtain rfl := continues_nil.mp hn
      omega
    · obtain ⟨d, hd, hn⟩ := continues_cons.mp hn
      exact ⟨d, hd, front, rest, n, rfl, hn, hsize⟩
  · rintro ⟨d, hd, front, rest, n, rfl, hn, hsize⟩
    exact ⟨c :: front, rest, n, rfl, continues_cons.mpr ⟨d, hd, hn⟩, hsize⟩

end Reading

/-- How a number is continued, from the value of the next character. -/
def extendBy (base acc : Nat) (digits : List Char) : Option Nat → Except Fault Nat
  | none => .error .invalid
  | some d =>
    if base * acc + d < UInt64.size then extend base (base * acc + d) digits else .error .tooLarge

theorem extend_cons (base acc : Nat) (c : Char) (digits : List Char) :
    extend base acc (c :: digits) = extendBy base acc digits (digitValue? base c) := rfl

section Extend

variable {base acc : Nat} (hpos : 0 < base) (hbase : base ≤ 16)

include hpos hbase

theorem extend_spec (hacc : acc < UInt64.size) (digits : List Char) :
    (∀ n, extend base acc digits = .ok n ↔ Continues base acc digits n ∧ n < UInt64.size) ∧
      (extend base acc digits = .error .tooLarge ↔ Passes base acc digits) := by
  -- On the digits. The number so far has 64 bits, as reading ends at the first digit that takes it further.
  induction digits generalizing acc with
  | nil =>
    refine ⟨fun n => ?_, iff_of_false nofun (not_passes_nil hacc)⟩
    rw [continues_nil]
    constructor
    · rintro ⟨⟩
      exact ⟨rfl, hacc⟩
    · rintro ⟨rfl, -⟩
      rfl
  | cons c digits ih =>
    rw [extend_cons, passes_cons hacc]
    simp only [continues_cons, ← digitValue?_eq_some_iff_digitOf hbase]
    cases digitValue? base c with
    | none => simp [extendBy]
    | some d =>
      simp only [extendBy, Option.some.injEq, exists_eq_left', Nat.add_comm (base * acc)]
      by_cases hsize : d + base * acc < UInt64.size
      · rw [if_pos hsize]
        exact ih hsize
      · rw [if_neg hsize]
        have hpass := Nat.le_of_not_lt hsize
        refine ⟨fun n => iff_of_false nofun ?_, iff_of_true rfl (passes_of_size_le hpass)⟩
        rintro ⟨hn, hlt⟩
        exact hsize (Nat.lt_of_le_of_lt (hn.le hpos) hlt)

theorem ofDigits_eq_ok_iff (digits : List Char) (n : UInt64) :
    ofDigits base digits = .ok n ↔ digits ≠ [] ∧ Writes base digits n.toNat := by
  cases digits with
  | nil => exact iff_of_false nofun fun h => h.1 rfl
  | cons c digits =>
    have hspec := (extend_spec hpos hbase (show 0 < UInt64.size by decide) (c :: digits)).1
    have hopen : ofDigits base (c :: digits) = (extend base 0 (c :: digits)).map UInt64.ofNat := rfl
    rw [hopen, writes_iff]
    constructor
    · intro h
      cases hvalue : extend base 0 (c :: digits) with
      | error fault =>
        rw [hvalue] at h
        cases h
      | ok value =>
        rw [hvalue] at h
        cases h
        obtain ⟨hwrites, hlt⟩ := (hspec value).mp hvalue
        rw [UInt64.toNat_ofNat_of_lt' hlt]
        exact ⟨cons_ne_nil _ _, hwrites⟩
    · rintro ⟨-, hwrites⟩
      rw [(hspec n.toNat).mpr ⟨hwrites, n.toNat_lt⟩]
      exact congrArg Except.ok UInt64.ofNat_toNat

end Extend

end Integer

namespace Scan

/-! ### Where a scan comes to -/

/-- A scan of a text comes to a point in it: all that stands before the point has been cut into pieces, and the
next piece starts there. -/
inductive Reaches (text : List Char) : List Char → List Char → Prop
  | start : Reaches text [] text
  | step {before rest : List Char} {c : Char} (h : Reaches text before (c :: rest)) :
      Reaches text (before ++ c :: rest.take (piece c rest).more) (rest.drop (piece c rest).more)

theorem Reaches.eq {text before rest : List Char} (h : Reaches text before rest) : text = before ++ rest := by
  induction h with
  | start => rfl
  | step _ ih => rw [ih, append_assoc, cons_append, take_append_drop]

end Scan

namespace Scan

/-- What stands in front of the digits of a literal selects their base. -/
inductive Lead (rest : List Char) : Nat → List Char → Prop
  | hexadecimal {x : Char} (hx : x = 'x' ∨ x = 'X') : Lead rest 16 ['0', x]
  | decimal (hx : ¬['0', 'x'] <+: rest) (hX : ¬['0', 'X'] <+: rest) : Lead rest 10 []

theorem digit_apart {c : Char} (hc : c.isDigit = true) :
    isSpace c = false ∧ c ≠ '/' ∧ isIdentStart c = false ∧ c.isAlphanum = true := by
  have htable : (List.range 10).all fun k => !isSpace (Char.ofNat (48 + k)) && Char.ofNat (48 + k) != '/' &&
      !isIdentStart (Char.ofNat (48 + k)) && (Char.ofNat (48 + k)).isAlphanum := by decide
  obtain ⟨hlow, hhigh⟩ := Bool.and_eq_true_iff.mp hc
  have hlow : 48 ≤ c.toNat := UInt32.le_iff_toNat_le.mp (of_decide_eq_true hlow)
  have hhigh : c.toNat ≤ 57 := UInt32.le_iff_toNat_le.mp (of_decide_eq_true hhigh)
  have hmem : c.toNat - 48 ∈ List.range 10 := mem_range.mpr (by omega)
  have hall := all_eq_true.mp htable _ hmem
  rw [Nat.add_sub_cancel' hlow, Char.ofNat_toNat] at hall
  simpa [and_assoc] using hall

theorem piece_digit {c : Char} (hc : c.isDigit = true) (cs : List Char) : piece c cs = numberPiece c cs := by
  obtain ⟨hspace, hslash, hident, -⟩ := digit_apart hc
  rw [piece_eq_lexemePiece hspace fun hopens => hslash hopens.1, lexemePiece, hident, hc]
  rfl

/-- The piece of a literal, whose first character is a digit, takes its lead and its digits. -/
theorem piece_literal {base : Nat} {lead digits after : List Char} (hlead : Lead (digits ++ after) base lead)
    (hdigits : ∀ c ∈ digits, c.isAlphanum = true) (hafter : ∀ c ∈ after.head?, c.isAlphanum = false)
    (hfirst : ∃ c ∈ (lead ++ digits ++ after).head?, c.isDigit = true) :
    ∃ c rest, lead ++ digits = c :: rest ∧ piece c (rest ++ after) = numberOf base lead digits := by
  obtain ⟨c, hc, hdigit⟩ := hfirst
  cases hlead with
  | @hexadecimal x hx =>
    have hcs : numberPiece '0' (x :: (digits ++ after)) =
        numberOf 16 ['0', x] ((digits ++ after).takeWhile Char.isAlphanum) := by
      rcases hx with rfl | rfl <;> rfl
    refine ⟨'0', x :: digits, rfl, ?_⟩
    rw [cons_append, piece_digit rfl, hcs, takeWhile_stop hdigits hafter]
  | decimal hx hX =>
    cases digits with
    | nil => exact absurd ((hafter c hc).symm.trans (digit_apart hdigit).2.2.2) Bool.false_ne_true
    | cons d digits =>
      obtain rfl : d = c := Option.some.inj hc
      refine ⟨d, digits, rfl, ?_⟩
      rw [piece_digit hdigit]
      have hrest : ∀ c ∈ digits, c.isAlphanum = true := fun c hc => hdigits c (mem_cons_of_mem d hc)
      rcases numberPiece_cases d (digits ++ after) with ⟨x, rest, rfl, hcs, hx', -⟩ | ⟨-, hpiece⟩
      · rw [cons_append, hcs] at hx hX
        rcases hx' with rfl | rfl
        · exact absurd ⟨rest, rfl⟩ hx
        · exact absurd ⟨rest, rfl⟩ hX
      · rw [hpiece, takeWhile_stop hrest hafter]

end Scan

end Teal
