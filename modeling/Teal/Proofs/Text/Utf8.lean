import Mathlib.Data.List.Forall2
import Teal.Text.Utf8

/-! Text that is written in UTF-8 is read back, and bytes that are read as text are what the text is written
as. What a first byte says about the bytes behind it is what the encoding of a character puts there: no
surrogate and no longer form than is needed. -/

namespace Teal.Text

open List
open String (utf8EncodeChar)

namespace Utf8

/-- A byte lies in a range. -/
def Within (range : UInt8 × UInt8) (b : UInt8) : Prop := range.1 ≤ b ∧ b ≤ range.2

variable {ranges : List (UInt8 × UInt8)} {more bytes : List UInt8}

theorem matching_append (h : Forall₂ Within ranges more) (rest : List UInt8) :
    matching ranges (more ++ rest) = ranges.length := by
  induction h with
  | nil => cases rest <;> rfl
  | cons hb _ ih =>
    rw [cons_append, matching, ih, length_cons]
    exact if_pos hb

theorem characters_cons {first : UInt8} (hfirst : continuation? first = some ranges)
    (hmore : Forall₂ Within ranges more) (rest : List UInt8) :
    characters (first :: (more ++ rest)) = some (Char.ofNat (codePoint first more)) :: characters rest := by
  have hmatching := matching_append hmore rest
  have hlength := hmore.length_eq
  rw [characters, hfirst]
  simp only [hmatching, if_true, hlength, take_left, drop_left]

/-! ### Bytes as numbers -/

section Numbers

variable {n : Nat}

theorem toNat_ofNat_of_lt (h : n < 256) : (UInt8.ofNat n).toNat = n := Nat.mod_eq_of_lt h

theorem ofNat_lt_iff (h : n < 256) (b : UInt8) : UInt8.ofNat n < b ↔ n < b.toNat := by
  rw [UInt8.lt_iff_toNat_lt, toNat_ofNat_of_lt h]

theorem ofNat_eq_iff (h : n < 256) (b : UInt8) : UInt8.ofNat n = b ↔ n = b.toNat := by
  rw [← UInt8.toNat_inj, toNat_ofNat_of_lt h]

theorem within_ofNat (h : n < 256) {lo hi : UInt8} (hlo : lo.toNat ≤ n) (hhi : n ≤ hi.toNat) :
    Within (lo, hi) (UInt8.ofNat n) := by
  rw [Within, UInt8.le_iff_toNat_le, UInt8.le_iff_toNat_le, toNat_ofNat_of_lt h]
  exact ⟨hlo, hhi⟩

theorem continuation?_ofNat (h : n < 256) : continuation? (UInt8.ofNat n) =
    if n < 0x80 then some []
    else if n < 0xC2 then none
    else if n < 0xE0 then some [(0x80, 0xBF)]
    else if n = 0xE0 then some [(0xA0, 0xBF), (0x80, 0xBF)]
    else if n = 0xED then some [(0x80, 0x9F), (0x80, 0xBF)]
    else if n < 0xF0 then some [(0x80, 0xBF), (0x80, 0xBF)]
    else if n = 0xF0 then some [(0x90, 0xBF), (0x80, 0xBF), (0x80, 0xBF)]
    else if n < 0xF4 then some [(0x80, 0xBF), (0x80, 0xBF), (0x80, 0xBF)]
    else if n = 0xF4 then some [(0x80, 0x8F), (0x80, 0xBF), (0x80, 0xBF)] else none := by
  simp only [continuation?, ofNat_lt_iff h, ofNat_eq_iff h]
  rfl

/-- What stands behind a first byte that opens a character of three bytes: no longer form than is needed
and no surrogate. -/
theorem continuation?_three (hlow : 0xE0 ≤ n) (hhigh : n < 0xF0) : ∃ lo hi : UInt8,
    continuation? (UInt8.ofNat n) = some [(lo, hi), (0x80, 0xBF)] ∧
      (n = 0xE0 → lo.toNat = 0xA0) ∧ (n ≠ 0xE0 → lo.toNat = 0x80) ∧
      (n = 0xED → hi.toNat = 0x9F) ∧ (n ≠ 0xED → hi.toNat = 0xBF) := by
  rw [continuation?_ofNat (by omega), if_neg (by omega), if_neg (by omega), if_neg (by omega)]
  by_cases hE0 : n = 0xE0
  · exact ⟨0xA0, 0xBF, if_pos hE0, fun _ => rfl, by omega, by omega, fun _ => rfl⟩
  by_cases hED : n = 0xED
  · exact ⟨0x80, 0x9F, by rw [if_neg hE0, if_pos hED], by omega, fun _ => rfl, fun _ => rfl, by omega⟩
  · exact ⟨0x80, 0xBF, by rw [if_neg hE0, if_neg hED, if_pos hhigh], by omega, fun _ => rfl, by omega,
      fun _ => rfl⟩

/-- What stands behind a first byte that opens a character of four bytes: no longer form than is needed and
nothing above the last character. -/
theorem continuation?_four (hlow : 0xF0 ≤ n) (hhigh : n ≤ 0xF4) : ∃ lo hi : UInt8,
    continuation? (UInt8.ofNat n) = some [(lo, hi), (0x80, 0xBF), (0x80, 0xBF)] ∧
      (n = 0xF0 → lo.toNat = 0x90) ∧ (n ≠ 0xF0 → lo.toNat = 0x80) ∧
      (n = 0xF4 → hi.toNat = 0x8F) ∧ (n ≠ 0xF4 → hi.toNat = 0xBF) := by
  rw [continuation?_ofNat (by omega), if_neg (by omega), if_neg (by omega), if_neg (by omega),
    if_neg (by omega), if_neg (by omega), if_neg (by omega)]
  by_cases hF0 : n = 0xF0
  · exact ⟨0x90, 0xBF, if_pos hF0, fun _ => rfl, by omega, by omega, fun _ => rfl⟩
  by_cases hF4 : n < 0xF4
  · exact ⟨0x80, 0xBF, by rw [if_neg hF0, if_pos hF4], by omega, fun _ => rfl, by omega, fun _ => rfl⟩
  · exact ⟨0x80, 0x8F, by rw [if_neg hF0, if_neg hF4, if_pos (by omega)], by omega, fun _ => rfl,
      fun _ => rfl, by omega⟩

end Numbers

/-! ### Writing what was read -/

theorem utf8EncodeChar_ofNat {v : Nat} (h : v.isValidChar) : utf8EncodeChar (Char.ofNat v) =
    if v ≤ 0x7F then [UInt8.ofNat v]
    else if v ≤ 0x7FF then [UInt8.ofNat (v / 64 % 32 + 0xC0), UInt8.ofNat (v % 64 + 0x80)]
    else if v ≤ 0xFFFF then
      [UInt8.ofNat (v / 4096 % 16 + 0xE0), UInt8.ofNat (v / 64 % 64 + 0x80), UInt8.ofNat (v % 64 + 0x80)]
    else
      [UInt8.ofNat (v / 262144 % 8 + 0xF0), UInt8.ofNat (v / 4096 % 64 + 0x80),
        UInt8.ofNat (v / 64 % 64 + 0x80), UInt8.ofNat (v % 64 + 0x80)] := by
  rw [Char.ofNat, dif_pos h]
  rfl

theorem ofNat_eq {n : Nat} (b : UInt8) (h : n = b.toNat) : UInt8.ofNat n = b := by
  rw [h, UInt8.ofNat_toNat]

section Bytes

variable {first b c d : UInt8}

theorem encode_one (h : first.toNat < 0x80) : utf8EncodeChar (Char.ofNat (codePoint first [])) = [first] := by
  have hcode : codePoint first [] = first.toNat := rfl
  rw [hcode, utf8EncodeChar_ofNat (.inl (by omega)), if_pos (by omega), UInt8.ofNat_toNat]

theorem encode_two (hlow : 0xC2 ≤ first.toNat) (hhigh : first.toNat < 0xE0)
    (hb : 0x80 ≤ b.toNat ∧ b.toNat ≤ 0xBF) :
    utf8EncodeChar (Char.ofNat (codePoint first [b])) = [first, b] := by
  have hcode : codePoint first [b] = 64 * (first.toNat % 32) + b.toNat % 64 := rfl
  generalize codePoint first [b] = v at hcode ⊢
  rw [utf8EncodeChar_ofNat (.inl (by omega)), if_neg (by omega), if_pos (by omega),
    ofNat_eq first (by omega), ofNat_eq b (by omega)]

theorem encode_three (hlow : 0xE0 ≤ first.toNat) (hhigh : first.toNat < 0xF0)
    (hb : 0x80 ≤ b.toNat ∧ b.toNat ≤ 0xBF) (hc : 0x80 ≤ c.toNat ∧ c.toNat ≤ 0xBF)
    (hlong : first.toNat = 0xE0 → 0xA0 ≤ b.toNat) (hsurrogate : first.toNat = 0xED → b.toNat ≤ 0x9F) :
    utf8EncodeChar (Char.ofNat (codePoint first [b, c])) = [first, b, c] := by
  have hcode : codePoint first [b, c] = 64 * (64 * (first.toNat % 16) + b.toNat % 64) + c.toNat % 64 := rfl
  generalize codePoint first [b, c] = v at hcode ⊢
  have hvalid : v.isValidChar := by
    unfold Nat.isValidChar
    omega
  rw [utf8EncodeChar_ofNat hvalid, if_neg (by omega), if_neg (by omega), if_pos (by omega),
    ofNat_eq first (by omega), ofNat_eq b (by omega),
    ofNat_eq c (by omega)]

theorem encode_four (hlow : 0xF0 ≤ first.toNat) (hhigh : first.toNat ≤ 0xF4)
    (hb : 0x80 ≤ b.toNat ∧ b.toNat ≤ 0xBF) (hc : 0x80 ≤ c.toNat ∧ c.toNat ≤ 0xBF)
    (hd : 0x80 ≤ d.toNat ∧ d.toNat ≤ 0xBF)
    (hlong : first.toNat = 0xF0 → 0x90 ≤ b.toNat) (hlast : first.toNat = 0xF4 → b.toNat ≤ 0x8F) :
    utf8EncodeChar (Char.ofNat (codePoint first [b, c, d])) = [first, b, c, d] := by
  have hcode : codePoint first [b, c, d] =
      64 * (64 * (64 * (first.toNat % 8) + b.toNat % 64) + c.toNat % 64) + d.toNat % 64 := rfl
  generalize codePoint first [b, c, d] = v at hcode ⊢
  have hvalid : v.isValidChar := by
    unfold Nat.isValidChar
    omega
  rw [utf8EncodeChar_ofNat hvalid, if_neg (by omega), if_neg (by omega), if_neg (by omega),
    ofNat_eq first (by omega), ofNat_eq b (by omega),
    ofNat_eq c (by omega), ofNat_eq d (by omega)]

end Bytes

theorem within_iff (range : UInt8 × UInt8) (b : UInt8) :
    Within range b ↔ range.1.toNat ≤ b.toNat ∧ b.toNat ≤ range.2.toNat := by
  rw [Within, UInt8.le_iff_toNat_le, UInt8.le_iff_toNat_le]

section Forms

variable {first : UInt8} {ranges : List (UInt8 × UInt8)}

/-- The bytes of one character are the ones that it is written with. -/
theorem utf8EncodeChar_codePoint {more : List UInt8} (hfirst : continuation? first = some ranges)
    (hmore : Forall₂ Within ranges more) :
    utf8EncodeChar (Char.ofNat (codePoint first more)) = first :: more := by
  have hnumber : UInt8.ofNat first.toNat = first := UInt8.ofNat_toNat
  rw [← hnumber] at hfirst
  by_cases hF0 : 0xF0 ≤ first.toNat
  · have hF4 : first.toNat ≤ 0xF4 := by
      by_contra hlarge
      rw [continuation?_ofNat first.toNat_lt] at hfirst
      repeat rw [if_neg (by omega)] at hfirst
      cases hfirst
    obtain ⟨lo, hi, hknown, hlong, hlo, hlast, hhi⟩ := continuation?_four hF0 hF4
    obtain rfl := Option.some.inj (hfirst.symm.trans hknown)
    simp only [forall₂_cons_left_iff, forall₂_nil_left_iff, within_iff] at hmore
    obtain ⟨b, _, hb, ⟨c, _, hc, ⟨d, _, hd, rfl, rfl⟩, rfl⟩, rfl⟩ := hmore
    exact encode_four hF0 hF4 ⟨by omega, by omega⟩ hc hd (by omega) (by omega)
  by_cases hE0 : 0xE0 ≤ first.toNat
  · obtain ⟨lo, hi, hknown, hlong, hlo, hsurrogate, hhi⟩ := continuation?_three hE0 (Nat.not_le.mp hF0)
    obtain rfl := Option.some.inj (hfirst.symm.trans hknown)
    simp only [forall₂_cons_left_iff, forall₂_nil_left_iff, within_iff] at hmore
    obtain ⟨b, _, hb, ⟨c, _, hc, rfl, rfl⟩, rfl⟩ := hmore
    exact encode_three hE0 (Nat.not_le.mp hF0) ⟨by omega, by omega⟩ hc (by omega) (by omega)
  rw [continuation?_ofNat first.toNat_lt] at hfirst
  split at hfirst
  · obtain rfl := Option.some.inj hfirst
    cases hmore
    exact encode_one (by assumption)
  split at hfirst
  · cases hfirst
  rw [if_pos (by omega)] at hfirst
  obtain rfl := Option.some.inj hfirst
  simp only [forall₂_cons_left_iff, forall₂_nil_left_iff, within_iff] at hmore
  obtain ⟨b, _, hb, rfl, rfl⟩ := hmore
  exact encode_two (by omega) (by omega) hb

end Forms

/-! ### Reading what was written -/

/-- Different characters are written with different bytes. -/
theorem utf8EncodeChar_injective {c d : Char} (h : utf8EncodeChar c = utf8EncodeChar d) : c = d := by
  have hread := ByteArray.utf8DecodeChar?_utf8EncodeChar_append (b := .empty) (c := c)
  rw [h, ByteArray.utf8DecodeChar?_utf8EncodeChar_append] at hread
  exact (Option.some.inj hread).symm

/-- The bytes that stand behind the first one of a character. -/
theorem within_tail (v : Nat) : Within (0x80, 0xBF) (UInt8.ofNat (v % 64 + 0x80)) :=
  within_ofNat (by omega) (show 0x80 ≤ _ by omega) (show _ ≤ 0xBF by omega)

/-- The bytes of a character lie in the ranges that the first of them asks for. -/
theorem exists_continuation (c : Char) : ∃ first more ranges, utf8EncodeChar c = first :: more ∧
    continuation? first = some ranges ∧ Forall₂ Within ranges more := by
  have hvalid : c.val.toNat < 0xD800 ∨ 0xDFFF < c.val.toNat ∧ c.val.toNat < 0x110000 := c.valid
  unfold utf8EncodeChar
  generalize c.val.toNat = v at hvalid ⊢
  dsimp only
  split
  · refine ⟨_, _, _, rfl, ?_, .nil⟩
    rw [continuation?_ofNat (by omega), if_pos (by omega)]
  split
  · refine ⟨_, _, _, rfl, ?_, .cons (within_tail v) .nil⟩
    rw [continuation?_ofNat (by omega), if_neg (by omega), if_neg (by omega), if_pos (by omega)]
  split
  · obtain ⟨lo, hi, hfirst, hE0, hlo, hED, hhi⟩ :=
      continuation?_three (n := v / 4096 % 16 + 0xE0) (by omega) (by omega)
    have hsecond := within_ofNat (n := v / 64 % 64 + 0x80) (by omega) (show lo.toNat ≤ _ by omega)
      (show _ ≤ hi.toNat by omega)
    exact ⟨_, _, _, rfl, hfirst, .cons hsecond (.cons (within_tail v) .nil)⟩
  · obtain ⟨lo, hi, hfirst, hF0, hlo, hF4, hhi⟩ :=
      continuation?_four (n := v / 262144 % 8 + 0xF0) (by omega) (by omega)
    have hsecond := within_ofNat (n := v / 4096 % 64 + 0x80) (by omega) (show lo.toNat ≤ _ by omega)
      (show _ ≤ hi.toNat by omega)
    exact ⟨_, _, _, rfl, hfirst, .cons hsecond (.cons (within_tail _) (.cons (within_tail v) .nil))⟩

theorem characters_utf8EncodeChar (c : Char) (rest : List UInt8) :
    characters (utf8EncodeChar c ++ rest) = some c :: characters rest := by
  obtain ⟨first, more, ranges, hencode, hfirst, hmore⟩ := exists_continuation c
  have hsame := utf8EncodeChar_injective ((utf8EncodeChar_codePoint hfirst hmore).trans hencode.symm)
  rw [hencode, cons_append, characters_cons hfirst hmore, hsame]

/-- Bytes that match all ranges lie in them one by one. -/
theorem forall₂_of_matching (h : matching ranges bytes = ranges.length) :
    Forall₂ Within ranges (bytes.take ranges.length) := by
  induction ranges generalizing bytes with
  | nil => exact .nil
  | cons range ranges ih =>
    cases bytes with
    | nil => cases h
    | cons b bytes =>
      rw [matching] at h
      split at h
      · next hb => exact .cons hb (ih (Nat.succ.inj h))
      · cases h

theorem utf8_of_characters {cs : List Char} (h : characters bytes = cs.map some) : utf8 cs = bytes := by
  fun_induction characters bytes generalizing cs with
  | case1 =>
    rw [map_eq_nil_iff.mp h.symm]
    rfl
  | case2 first bytes hnone ih =>
    cases cs with
    | nil => cases h
    | cons c cs => cases h
  | case3 first bytes ranges hsome n c =>
    rename_i ih
    cases cs with
    | nil => cases h
    | cons d cs =>
      obtain ⟨hc, hcs⟩ := List.cons.inj h
      have hn : n = ranges.length := by
        by_contra hne
        cases (if_neg hne).symm.trans hc
      have hchar : Char.ofNat (codePoint first (bytes.take n)) = d :=
        Option.some.inj ((if_pos hn).symm.trans hc)
      have hmore : Forall₂ Within ranges (bytes.take n) := hn ▸ forall₂_of_matching hn
      have hencode := utf8EncodeChar_codePoint hsome hmore
      rw [hchar] at hencode
      have hrest := ih hcs
      unfold utf8 at hrest ⊢
      rw [flatMap_cons, hencode, hrest, cons_append, take_append_drop]

end Utf8

theorem characters_utf8 (cs : List Char) : Utf8.characters (utf8 cs) = cs.map some := by
  induction cs with
  | nil => rw [utf8, flatMap_nil, Utf8.characters, map_nil]
  | cons c cs ih =>
    rw [utf8, flatMap_cons, Utf8.characters_utf8EncodeChar, map_cons, ← ih]
    rfl

/-- Reading undoes writing. -/
theorem ofUtf8Lossy_utf8 (cs : List Char) : ofUtf8Lossy (utf8 cs) = cs := by
  rw [ofUtf8Lossy, characters_utf8, map_map]
  exact map_id cs

variable {cs : List Char} {c : Char}

theorem eq_map_some_of_mapM {l : List (Option Char)} (h : l.mapM id = some cs) : l = cs.map some := by
  induction l generalizing cs with
  | nil =>
    rw [mapM_nil] at h
    rw [← Option.some.inj h]
    rfl
  | cons x l ih =>
    simp only [mapM_cons, id_eq, Option.bind_eq_bind, Option.bind_eq_some_iff] at h
    obtain ⟨c, rfl, cs', hcs', hcons⟩ := h
    rw [ih hcs', ← Option.some.inj hcons]
    rfl

/-- Bytes that write a text are the ones that it is written as. -/
theorem utf8_ofUtf8? {bytes : List UInt8} (h : ofUtf8? bytes = some cs) :
    utf8 cs = bytes ∧ ofUtf8Lossy bytes = cs := by
  have hbytes := Utf8.utf8_of_characters (eq_map_some_of_mapM h)
  exact ⟨hbytes, by rw [← hbytes, ofUtf8Lossy_utf8]⟩

theorem utf8_append (cs ds : List Char) : utf8 (cs ++ ds) = utf8 cs ++ utf8 ds := flatMap_append

theorem utf8_injective {ds : List Char} (h : utf8 cs = utf8 ds) : cs = ds := by
  rw [← ofUtf8Lossy_utf8 cs, h, ofUtf8Lossy_utf8]

/-! ### ASCII -/

theorem utf8EncodeChar_of_lt (h : c.toNat < 128) : utf8EncodeChar c = [UInt8.ofNat c.toNat] := by
  rw [← Char.ofNat_toNat c, Utf8.utf8EncodeChar_ofNat (.inl (by omega)), if_pos (by omega), Char.ofNat_toNat]

/-- A byte that is ASCII writes its own character and is no part of another. -/
theorem toNat_of_mem_utf8EncodeChar {b : UInt8} (h : b ∈ utf8EncodeChar c) (hb : b.toNat < 128) :
    c.toNat = b.toNat := by
  by_cases hc : c.toNat < 128
  · rw [utf8EncodeChar_of_lt hc] at h
    rw [mem_singleton.mp h, Utf8.toNat_ofNat_of_lt (by omega)]
  · have hhigh : ∀ b ∈ utf8EncodeChar c, 128 ≤ b.toNat := by
      rw [← Char.ofNat_toNat c, Utf8.utf8EncodeChar_ofNat (v := c.toNat) c.valid, if_neg (by omega)]
      split_ifs
      all_goals
        simp (disch := omega) only [forall_mem_cons, not_mem_nil, false_implies, implies_true,
          and_true, Utf8.toNat_ofNat_of_lt]
        omega
    have hle := hhigh b h
    omega

theorem utf8_of_ascii (h : ∀ c ∈ cs, c.toNat < 128) : utf8 cs = cs.map fun c => UInt8.ofNat c.toNat := by
  induction cs with
  | nil => rfl
  | cons c cs ih =>
    have hrest := ih fun d hd => h d (mem_cons_of_mem c hd)
    rw [utf8, flatMap_cons, utf8EncodeChar_of_lt (h c mem_cons_self), ← utf8, hrest]
    rfl

end Teal.Text
