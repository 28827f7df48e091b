import Teal.Literal
import Teal.Proofs.Codec.Primitives
import Teal.Proofs.Text.Hex

/-! What string literals denote. The encodings are read back from the texts that they are written as. A
plain body is accepted just if it is a row of pieces, each of them a character or an escape; where an escape
by number may have a sign in place of its first digit, the pieces are more than two digits allow. -/

namespace Teal.Literal

open List
open Text (HexDigit)

/-! ### The grammar of plain bodies -/

/-- The escapes of one letter and their bytes. -/
def escapes : List (Char × UInt8) :=
  [('n', 10), ('t', 9), ('r', 13), ('0', 0), ('\\', 92), ('"', 34)]

/-- A piece of a plain body and the bytes it denotes. With `signs`, a plus sign may stand in place of the
first digit of an escape by number. -/
inductive Piece (signs : Bool) : List Char → List UInt8 → Prop
  | char {c} (hc : c ≠ '\\') : Piece signs [c] (String.utf8EncodeChar c)
  | escape {c b} (hc : (c, b) ∈ escapes) : Piece signs ['\\', c] [b]
  | hex {hi lo h l} (hhi : HexDigit hi h) (hlo : HexDigit lo l) :
      Piece signs ['\\', 'x', hi, lo] [UInt8.ofNat (16 * h + l)]
  | signed {lo l} (hsigns : signs = true) (hlo : HexDigit lo l) :
      Piece signs ['\\', 'x', '+', lo] [UInt8.ofNat l]

/-- A body is a row of pieces and denotes their bytes one after the other. -/
inductive Body (signs : Bool) : List Char → List UInt8 → Prop
  | nil : Body signs [] []
  | cons {text bytes rest more} (hpiece : Piece signs text bytes) (hrest : Body signs rest more) :
      Body signs (text ++ rest) (bytes ++ more)

theorem not_hexDigit_plus (n : Nat) : ¬HexDigit '+' n := by
  have hnone : Text.digitValue? 16 '+' = none := by decide
  rw [← Text.digitValue?_eq_some_iff, hnone]
  exact Option.some_ne_none n ∘ Eq.symm

variable {b : UInt8} {text : List Char} {bytes : List UInt8} {signs : Bool}

/-- An escape by number is two digits, or a plus sign and one digit. -/
theorem hexEscape_eq_ok_iff {hi lo : Char} : hexEscape [hi, lo] = .ok b ↔
    (∃ h l, HexDigit hi h ∧ HexDigit lo l ∧ b = UInt8.ofNat (16 * h + l)) ∨
      ∃ l, hi = '+' ∧ HexDigit lo l ∧ b = UInt8.ofNat l := by
  have hlength (hhi : hi.toNat < 128) (hlo : lo.toNat < 128) : (Text.utf8 [hi, lo]).length = 2 := by
    rw [Text.utf8_of_ascii (by simp [hhi, hlo]), length_map]
    rfl
  simp only [← Text.digitValue?_eq_some_iff]
  unfold hexEscape
  constructor
  · intro h
    split_ifs at h
    by_cases hplus : hi = '+'
    · subst hplus
      cases hlo : Text.digitValue? 16 lo with
      | none => simp [hlo] at h
      | some l => exact .inr ⟨l, rfl, rfl, by simpa [hlo, eq_comm] using h⟩
    · cases hhi : Text.digitValue? 16 hi with
      | none => simp [hhi] at h
      | some x =>
        cases hlo : Text.digitValue? 16 lo with
        | none => simp [hhi, hlo] at h
        | some l => exact .inl ⟨x, l, rfl, rfl, by simpa [hhi, hlo, eq_comm] using h⟩
  · rintro (⟨x, l, hhi, hlo, rfl⟩ | ⟨l, rfl, hlo, rfl⟩)
    · have hplus : hi ≠ '+' := by
        rintro rfl
        exact not_hexDigit_plus x (Text.digitValue?_eq_some_iff.mp hhi)
      rw [if_neg (not_not.mpr (hlength (Text.toNat_lt_of_digitValue? hhi) (Text.toNat_lt_of_digitValue? hlo)))]
      simp [hhi, hlo]
    · rw [if_neg (not_not.mpr (hlength (by decide) (Text.toNat_lt_of_digitValue? hlo)))]
      simp [hlo]

theorem hexEscape_singleton (hi : Char) : ∃ f, hexEscape [hi] = .error f := by
  unfold hexEscape
  split_ifs
  · exact ⟨_, rfl⟩
  · exact ⟨.badHex [hi], by simp⟩

theorem simpleEscape?_eq_some_iff {c : Char} : simpleEscape? c = some b ↔ (c, b) ∈ escapes := by
  unfold simpleEscape?
  split <;> simp_all [escapes, eq_comm]

theorem ne_of_mem_escapes {c : Char} (h : (c, b) ∈ escapes) : c ≠ 'x' := by
  rintro rfl
  simp [escapes] at h

/-- A piece in front of a text adds its bytes. -/
theorem unescape_piece (h : Piece true text bytes) (rest : List Char) :
    unescape (text ++ rest) = (unescape rest).map (bytes ++ ·) := by
  cases h with
  | char hc =>
    rw [singleton_append, unescape]
    all_goals simp [hc]
  | escape hc =>
    rw [cons_append, singleton_append, unescape, simpleEscape?_eq_some_iff.mpr hc]
    · rfl
    all_goals simp [ne_of_mem_escapes hc]
  | hex hhi hlo =>
    have hbyte := hexEscape_eq_ok_iff.mpr (.inl ⟨_, _, hhi, hlo, rfl⟩)
    simp only [cons_append, nil_append, unescape, hbyte]
  | signed _ hlo =>
    have hbyte := hexEscape_eq_ok_iff.mpr (.inr ⟨_, rfl, hlo, rfl⟩)
    simp only [cons_append, nil_append, unescape, hbyte]

theorem unescape_body (h : Body true text bytes) : unescape text = .ok bytes := by
  induction h with
  | nil => rfl
  | cons hpiece _ ih => rw [unescape_piece hpiece, ih]; rfl

theorem body_of_unescape (h : unescape text = .ok bytes) : Body true text bytes := by
  fun_induction unescape text generalizing bytes with
  | case1 =>
    obtain rfl := Except.ok.inj h
    exact .nil
  | case2 => cases h
  | case3 => cases h
  | case4 hi =>
    obtain ⟨f, hf⟩ := hexEscape_singleton hi
    rw [hf] at h
    cases h
  | case5 hi lo rest f hf => cases h
  | case6 hi lo rest b hb ih =>
    obtain ⟨more, hmore, rfl⟩ := Codec.map_eq_ok_iff.mp h
    rcases hexEscape_eq_ok_iff.mp hb with ⟨x, l, hhi, hlo, rfl⟩ | ⟨l, rfl, hlo, rfl⟩
    · exact .cons (.hex hhi hlo) (ih hmore)
    · exact .cons (.signed rfl hlo) (ih hmore)
  | case7 c rest _ _ _ hnone => cases h
  | case8 c rest _ _ _ b hb ih =>
    obtain ⟨more, hmore, rfl⟩ := Codec.map_eq_ok_iff.mp h
    exact .cons (.escape (simpleEscape?_eq_some_iff.mp hb)) (ih hmore)
  | case9 c rest hend _ _ _ hescape ih =>
    obtain ⟨more, hmore, rfl⟩ := Codec.map_eq_ok_iff.mp h
    have hc : c ≠ '\\' := by
      intro heq
      cases rest with
      | nil => exact hend heq rfl
      | cons d rest => exact hescape d rest heq rfl
    exact .cons (.char hc) (ih hmore)

/-! ### Escapes with a sign -/

theorem Piece.weaken (h : Piece false text bytes) : Piece signs text bytes := by
  cases h with
  | char hc => exact .char hc
  | escape hc => exact .escape hc
  | hex hhi hlo => exact .hex hhi hlo
  | signed hsigns => cases hsigns

theorem Body.weaken (h : Body false text bytes) : Body signs text bytes := by
  induction h with
  | nil => exact .nil
  | cons hpiece _ ih => exact .cons hpiece.weaken ih

/-- Behind pieces that have no sign stands an escape that has one. -/
def Signed (text : List Char) : Prop :=
  ∃ front before lo rest, Body false front before ∧ text = front ++ '\\' :: 'x' :: '+' :: lo :: rest

/-- The length of the first piece of a text. -/
def pieceSize : List Char → Nat
  | '\\' :: 'x' :: _ => 4
  | '\\' :: _ => 2
  | _ => 1

theorem Piece.length_eq (h : Piece false text bytes) (rest : List Char)
    : text.length = pieceSize (text ++ rest) := by
  cases h with
  | char hc => simp [pieceSize, hc]
  | escape hc => simp [pieceSize, ne_of_mem_escapes hc]
  | hex => rfl
  | signed => rfl

/-- There is one way only to cut the first piece off. -/
theorem Piece.append_inj {text' rest rest' : List Char} {bytes' : List UInt8} (h : Piece false text bytes)
    (h' : Piece false text' bytes') (heq : text ++ rest = text' ++ rest') : text = text' ∧ rest = rest' :=
  List.append_inj heq (by rw [h.length_eq rest, heq, ← h'.length_eq rest'])

theorem Body.exists_piece (h : Body signs text bytes) (hne : text ≠ [])
    : ∃ first front rest more, text = first ++ rest ∧ Piece signs first front ∧
      Body signs rest more := by
  cases h with
  | nil => exact absurd rfl hne
  | cons hpiece hrest => exact ⟨_, _, _, _, rfl, hpiece, hrest⟩

theorem Piece.ne_nil (h : Piece signs text bytes) : text ≠ [] := by
  cases h <;> simp

theorem Signed.not_body (h : Signed text) : ¬Body false text bytes := by
  obtain ⟨front, before, lo, rest, hfront, rfl⟩ := h
  intro hbody
  -- Both ways to read the text have the same pieces, up to the sign.
  induction hfront generalizing bytes with
  | nil =>
    obtain ⟨first, _, rest', _, htext, hfirst, _⟩ := hbody.exists_piece (by simp)
    cases hfirst with
    | char hc => exact hc (List.cons.inj htext).1.symm
    | escape hc => exact ne_of_mem_escapes hc (List.cons.inj (List.cons.inj htext).2).1.symm
    | @hex hi _ _ _ hhi _ =>
      have hplus : '+' = hi := (List.cons.inj (List.cons.inj (List.cons.inj htext).2).2).1
      exact not_hexDigit_plus _ (hplus ▸ hhi)
    | signed hsigns => cases hsigns
  | cons hpiece _ ih =>
    rw [append_assoc] at hbody
    obtain ⟨first, _, rest', _, htext, hfirst, hrest'⟩ := hbody.exists_piece (by simp [hpiece.ne_nil])
    obtain ⟨-, rfl⟩ := hpiece.append_inj hfirst htext
    exact ih hrest'

/-- A body is free of signs, or its first piece with a sign stands behind pieces without. -/
theorem Body.unsigned_or (h : Body true text bytes) : Body false text bytes ∨ Signed text := by
  induction h with
  | nil => exact .inl .nil
  | @cons text bytes rest more hpiece _ ih =>
    have hunsigned (hfirst : Piece false text bytes) :
        Body false (text ++ rest) (bytes ++ more) ∨ Signed (text ++ rest) := by
      rcases ih with hbody | ⟨front, before, lo, rest', hfront, rfl⟩
      · exact .inl (.cons hfirst hbody)
      · exact .inr ⟨text ++ front, bytes ++ before, lo, rest', .cons hfirst hfront, by simp⟩
    cases hpiece with
    | char hc => exact hunsigned (.char hc)
    | escape hc => exact hunsigned (.escape hc)
    | hex hhi hlo => exact hunsigned (.hex hhi hlo)
    | @signed lo l _ hlo => exact .inr ⟨[], [], lo, rest, .nil, rfl⟩

/-- A plain body is accepted just if it is a row of characters and escapes, of which those by number may
have a sign in place of the first digit, and it denotes the bytes of these one after the other. The bodies
in which all escapes by number have two digits are just those that are accepted and have no sign. -/
theorem plain_decode_iff (text : List Char) (bytes : List UInt8) :
    (Encoding.plain.decode text = .ok bytes ↔ Body true text bytes) ∧
      (Body false text bytes ↔ Encoding.plain.decode text = .ok bytes ∧ ¬Signed text) := by
  have hiff : Encoding.plain.decode text = .ok bytes ↔ Body true text bytes :=
    ⟨body_of_unescape, unescape_body⟩
  refine ⟨hiff, fun h => ⟨hiff.mpr h.weaken, fun hsigned => hsigned.not_body h⟩, ?_⟩
  rintro ⟨hdecode, hunsigned⟩
  exact (hiff.mp hdecode).unsigned_or.resolve_right hunsigned

/-- A plus sign and one digit are accepted, though they are no two digits. -/
theorem plain_decode_plus : Encoding.plain.decode ['\\', 'x', '+', '5'] = .ok [5] ∧
    ∀ bytes, ¬Body false ['\\', 'x', '+', '5'] bytes := by
  have hsigned : Signed ['\\', 'x', '+', '5'] := ⟨[], [], '5', [], .nil, rfl⟩
  exact ⟨by decide, fun bytes => hsigned.not_body⟩

/-! ### Texts of bytes -/

/-- The text writes every byte as an escape by number, in digits of either case. -/
inductive HexWritten : List UInt8 → List Char → Prop
  | nil : HexWritten [] []
  | cons {b bytes hi lo text} (hhi : HexDigit hi (b.toNat / 16)) (hlo : HexDigit lo (b.toNat % 16))
      (hrest : HexWritten bytes text) : HexWritten (b :: bytes) ('\\' :: 'x' :: hi :: lo :: text)

theorem hexWritten_flatMap (bytes : List UInt8) :
    HexWritten bytes (bytes.flatMap fun b => '\\' :: 'x' :: Text.hexByte b) := by
  induction bytes with
  | nil => exact .nil
  | cons b bytes ih =>
    have hb := b.toNat_lt
    exact .cons (Text.hexDigit_digitChar (by omega)) (Text.hexDigit_digitChar (by omega)) ih

theorem HexWritten.body (h : HexWritten bytes text) : Body true text bytes := by
  induction h with
  | nil => exact .nil
  | @cons b bytes hi lo text hhi hlo _ ih =>
    have hpiece : Piece true ['\\', 'x', hi, lo] [b] := by
      have hhex : Piece true _ _ := .hex hhi hlo
      rwa [Nat.div_add_mod, UInt8.ofNat_toNat] at hhex
    exact .cons hpiece ih

theorem mapError_eq_ok_iff {ε α : Type} {x : Except ε α} {f : ε → Fault} {a : α} :
    x.mapError f = .ok a ↔ x = .ok a := by
  cases x <;> simp [Except.mapError]

open Codec.Primitives

theorem base64_decode_eq_ok_iff :
    Encoding.base64.decode text = .ok bytes ↔ text = Codec.Base64.scheme.encode bytes :=
  mapError_eq_ok_iff.trans Lawful.standard.base64

theorem base32_decode_eq_ok_iff (hpad : '=' ∉ text) :
    Encoding.base32.decode text = .ok bytes ↔ text = Codec.Base32.encodeUnpadded bytes :=
  mapError_eq_ok_iff.trans (Lawful.standard.base32_eq_ok_iff hpad)

/-- Bytes are read back from their padded base 64, from their base 32 with padding and without, and from
escapes by number. A text that is accepted as base 64, or as base 32 without padding, is the one that is
written for the bytes it is read as, so no two such texts are read as the same bytes. -/
theorem decode_encoded (bytes : List UInt8) :
    Encoding.base64.decode (Codec.Base64.scheme.encode bytes) = .ok bytes ∧
      Encoding.base32.decode (Codec.Base32.scheme.encode bytes) = .ok bytes ∧
      Encoding.base32.decode ((Codec.Base32.scheme.encode bytes).filter (· ≠ '=')) = .ok bytes ∧
      (∀ text, HexWritten bytes text → Encoding.plain.decode text = .ok bytes) ∧
      (∃ text, HexWritten bytes text) ∧
      (∀ text, Encoding.base64.decode text = .ok bytes → text = Codec.Base64.scheme.encode bytes) ∧
      (∀ text, '=' ∉ text → Encoding.base32.decode text = .ok bytes →
        text = (Codec.Base32.scheme.encode bytes).filter (· ≠ '=')) ∧
      (∀ text other, Encoding.base64.decode text = .ok bytes → Encoding.base64.decode other = .ok bytes →
        text = other) ∧
      ∀ text other, '=' ∉ text → '=' ∉ other → Encoding.base32.decode text = .ok bytes →
        Encoding.base32.decode other = .ok bytes → text = other := by
  rw [Codec.Base32.filter_encode]
  refine ⟨base64_decode_eq_ok_iff.mpr rfl, mapError_eq_ok_iff.mpr (Lawful.standard.base32_encode bytes),
    (base32_decode_eq_ok_iff (Codec.Base32.pad_notMem_encodeUnpadded bytes)).mpr rfl,
    fun text h => unescape_body h.body, ⟨_, hexWritten_flatMap bytes⟩,
    fun text h => base64_decode_eq_ok_iff.mp h, fun text hpad h => (base32_decode_eq_ok_iff hpad).mp h, ?_, ?_⟩
  · intro text other h h'
    rw [base64_decode_eq_ok_iff.mp h, base64_decode_eq_ok_iff.mp h']
  · intro text other hpad hpad' h h'
    rw [(base32_decode_eq_ok_iff hpad).mp h, (base32_decode_eq_ok_iff hpad').mp h']

end Teal.Literal
