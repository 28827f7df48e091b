import Mathlib.Tactic.ByContra
import Teal.Text.Hex

/-! Hexadecimal digits. The sixteen values have one digit each in lower and in upper case, and no other
character is read as one. Bytes are read back from the two digits that each of them is written with. -/

namespace Teal.Text

open List

/-- A character is the digit of a value, in lower or in upper case. -/
def HexDigit (c : Char) (n : Nat) : Prop :=
  "0123456789abcdef".toList[n]? = some c ∨ "0123456789ABCDEF".toList[n]? = some c

instance (c : Char) (n : Nat) : Decidable (HexDigit c n) := inferInstanceAs (Decidable (_ ∨ _))

/-- Each ASCII character with a value is a digit of it, and each digit has its value. -/
theorem hexDigits_table : ((List.range 128).all fun k => (digitValue? 16 (Char.ofNat k)).all fun n =>
      HexDigit (Char.ofNat k) n) &&
    (List.range 16).all fun n => ("0123456789abcdef".toList[n]?).all (digitValue? 16 · == some n) &&
      ("0123456789ABCDEF".toList[n]?).all (digitValue? 16 · == some n) &&
      decide (HexDigit (Nat.digitChar n) n) := by
  decide +kernel

theorem toNat_lt_of_digitValue? {base n : Nat} {c : Char} (h : digitValue? base c = some n) :
    c.toNat < 128 := by
  have hle : c.isDigit = true ∨ c.isLower = true ∨ c.isUpper = true := by
    rw [digitValue?, Option.filter_eq_some_iff] at h
    by_contra hnone
    simp only [not_or] at hnone
    rw [if_neg hnone.1, if_neg hnone.2.1, if_neg hnone.2.2] at h
    cases h.1
  have hbound {n : UInt32} (hle : c.val ≤ n) (hn : n.toNat < 128) : c.val.toNat < 128 :=
    Nat.lt_of_le_of_lt (UInt32.le_iff_toNat_le.mp hle) hn
  rcases hle with hdigit | hlower | hupper
  · exact hbound (of_decide_eq_true (Bool.and_eq_true_iff.mp hdigit).2) (by decide)
  · exact hbound (of_decide_eq_true (Bool.and_eq_true_iff.mp hlower).2) (by decide)
  · exact hbound (of_decide_eq_true hupper).2 (by decide)

theorem digitValue?_eq_some_iff {c : Char} {n : Nat} : digitValue? 16 c = some n ↔ HexDigit c n := by
  obtain ⟨hchars, hdigits⟩ := Bool.and_eq_true_iff.mp hexDigits_table
  constructor
  · intro h
    have hall := all_eq_true.mp hchars c.toNat (mem_range.mpr (toNat_lt_of_digitValue? h))
    rw [Char.ofNat_toNat, h] at hall
    exact of_decide_eq_true hall
  · intro h
    have hn : n < 16 := by
      rcases h with h | h
      · exact (List.getElem?_eq_some_iff.mp h).1
      · exact (List.getElem?_eq_some_iff.mp h).1
    have hall := all_eq_true.mp hdigits n (mem_range.mpr hn)
    simp only [Bool.and_eq_true] at hall
    rcases h with h | h
    · have hlower := hall.1.1
      rw [h] at hlower
      exact eq_of_beq hlower
    · have hupper := hall.1.2
      rw [h] at hupper
      exact eq_of_beq hupper

theorem hexDigit_digitChar {n : Nat} (h : n < 16) : HexDigit (Nat.digitChar n) n := by
  have hall := all_eq_true.mp (Bool.and_eq_true_iff.mp hexDigits_table).2 n (mem_range.mpr h)
  exact of_decide_eq_true (Bool.and_eq_true_iff.mp hall).2

/-- Bytes are read back from their digits. -/
theorem bytesOfHex?_flatMap (bytes : List UInt8) : bytesOfHex? (bytes.flatMap hexByte) = some bytes := by
  induction bytes with
  | nil => rfl
  | cons b bytes ih =>
    have hb := b.toNat_lt
    have hhigh := digitValue?_eq_some_iff.mpr (hexDigit_digitChar (show b.toNat / 16 < 16 by omega))
    have hlow := digitValue?_eq_some_iff.mpr (hexDigit_digitChar (show b.toNat % 16 < 16 by omega))
    rw [flatMap_cons, hexByte, cons_append, cons_append, nil_append, bytesOfHex?, hhigh, hlow, ih]
    change some (UInt8.ofNat (16 * (b.toNat / 16) + b.toNat % 16) :: bytes) = _
    rw [Nat.div_add_mod, UInt8.ofNat_toNat]

end Teal.Text
